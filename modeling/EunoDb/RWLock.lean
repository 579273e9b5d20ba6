import EunoDb.Execution
import Mathlib.Algebra.BigOperators.Fin
import Mathlib.Algebra.Order.BigOperators.Group.Finset
import Mathlib.Data.Nat.Bitwise

/-! `RWLock`: 16 bits with a pending bit, a writer bit and the number of readers. Threads
interleave at single loads and atomic operations. -/

namespace EunoDb.RWLock

open Execution Function

def wpending : BitVec 16 := 0x1

def writer : BitVec 16 := 0x2

def critical : BitVec 16 := ~~~0x1

def rinc : BitVec 16 := 0x4

inductive Pc where
  | idle
  /-- `StartRead`: the test before the addition, the addition, the way back. -/
  | testRead
  | addReader
  | backOut
  | reading
  /-- `StartWrite`: the first test, `atomic_or16`, the spinning, the load into `tmp` and
  the compare-and-swap with it. -/
  | testWrite
  | setPending
  | spin
  | loadPending
  | compareAndSwap (tmp : BitVec 16)
  | writing
  deriving DecidableEq

structure World (n : Nat) where
  counter : BitVec 16 := 0
  pc : Fin n → Pc := fun _ => .idle

variable {n : Nat}

def World.go (w : World n) (t : Fin n) (pc : Pc) : World n :=
  { w with pc := update w.pc t pc }

def World.store (w : World n) (counter : BitVec 16) (t : Fin n) (pc : Pc) : World n :=
  { counter := counter, pc := update w.pc t pc }

inductive Act (n : Nat) where
  | startRead (t : Fin n)
  | endRead (t : Fin n)
  | startWrite (t : Fin n)
  | endWrite (t : Fin n)
  | advance (t : Fin n)

def access (w : World n) (t : Fin n) : Option (World n) :=
  match w.pc t with
  | .testRead =>
    if w.counter &&& (wpending ||| writer) = 0 then some (w.go t .addReader)
    else some (w.go t .testRead)
  | .addReader =>
    -- the value before the addition decides
    if w.counter &&& (wpending ||| writer) = 0 then
      some (w.store (w.counter + rinc) t .reading)
    else some (w.store (w.counter + rinc) t .backOut)
  | .backOut => some (w.store (w.counter + -rinc) t .testRead)
  | .testWrite =>
    if w.counter &&& critical ≠ 0 then some (w.go t .setPending) else some (w.go t .loadPending)
  | .setPending => some (w.store (w.counter ||| wpending) t .spin)
  | .spin =>
    if w.counter &&& critical ≠ 0 then some (w.go t .spin) else some (w.go t .loadPending)
  | .loadPending => some (w.go t (.compareAndSwap (w.counter &&& wpending)))
  | .compareAndSwap tmp =>
    if w.counter = tmp then some (w.store writer t .writing) else some (w.go t .testWrite)
  | .idle => none
  | .reading => none
  | .writing => none

def step (w : World n) : Act n → Option (World n)
  | .startRead t => if w.pc t = .idle then some (w.go t .testRead) else none
  | .endRead t =>
    if w.pc t = .reading then some (w.store (w.counter + -rinc) t .idle) else none
  | .startWrite t => if w.pc t = .idle then some (w.go t .testWrite) else none
  | .endWrite t =>
    if w.pc t = .writing then some (w.store (w.counter &&& ~~~(wpending ||| writer)) t .idle)
    else none
  | .advance t => access w t

def Pc.counted : Pc → Nat
  | .reading => 1
  | .backOut => 1
  | _ => 0

def Pc.inStartWrite : Pc → Bool
  | .testWrite => true
  | .setPending => true
  | .spin => true
  | .loadPending => true
  | .compareAndSwap _ => true
  | _ => false

def readers (pc : Fin n → Pc) : Nat := ∑ t, (pc t).counted

structure Excludes (w : World n) : Prop where
  oneWriter : ∀ t other, w.pc t = .writing → w.pc other = .writing → t = other
  noReader : ∀ t other, w.pc t = .writing → w.pc other ≠ .reading
  exact_ : w.counter.toNat = 4 * readers w.pc + (if ∃ t, w.pc t = .writing then 2 else 0) +
    (w.counter &&& wpending).toNat
  pending : w.counter &&& wpending ≠ 0 → ∃ t, (w.pc t).inStartWrite = true

/-! ### The bits as numbers -/

section

variable (counter : BitVec 16)

include counter

theorem pending_toNat : (counter &&& wpending).toNat = counter.toNat % 2 := by
  rw [BitVec.toNat_and, show wpending.toNat = 2 ^ 1 - 1 from rfl, Nat.and_two_pow_sub_one_eq_mod]

theorem bits_eq_zero : counter &&& (wpending ||| writer) = 0 ↔ counter.toNat % 4 = 0 := by
  rw [← BitVec.toNat_inj, BitVec.toNat_and, show (wpending ||| writer).toNat = 2 ^ 2 - 1 from rfl,
    Nat.and_two_pow_sub_one_eq_mod]
  rfl

theorem setPending_toNat : (counter ||| wpending).toNat = 2 * (counter.toNat / 2) + 1 := by
  rw [BitVec.toNat_or, show wpending.toNat = 1 from rfl]
  have half : (counter.toNat ||| 1) / 2 ^ 1 = counter.toNat / 2 ^ 1 ||| 1 / 2 ^ 1 :=
    Nat.or_div_two_pow
  have low : (counter.toNat ||| 1) % 2 ^ 1 = counter.toNat % 2 ^ 1 ||| 1 % 2 ^ 1 :=
    Nat.or_mod_two_pow
  have bit : counter.toNat % 2 ^ 1 ||| 1 % 2 ^ 1 = 1 := by
    rcases Nat.mod_two_eq_zero_or_one counter.toNat with even | odd
    · rw [pow_one, even]; rfl
    · rw [pow_one, odd]; rfl
  rw [Nat.div_eq_of_lt (by decide : 1 < 2 ^ 1), Nat.or_zero] at half
  omega

theorem clear_toNat : (counter &&& ~~~(wpending ||| writer)).toNat = 4 * (counter.toNat / 4) := by
  rw [BitVec.toNat_and, show (~~~(wpending ||| writer)).toNat = 65532 from rfl]
  have high : (counter.toNat &&& 65532) / 2 ^ 2 = counter.toNat / 2 ^ 2 &&& 65532 / 2 ^ 2 :=
    Nat.and_div_two_pow
  have low : (counter.toNat &&& 65532) % 2 ^ 2 = counter.toNat % 2 ^ 2 &&& 65532 % 2 ^ 2 :=
    Nat.and_mod_two_pow
  rw [show 65532 % 2 ^ 2 = 0 from rfl, Nat.and_zero] at low
  rw [show 65532 / 2 ^ 2 = 2 ^ 14 - 1 from rfl, Nat.and_two_pow_sub_one_eq_mod] at high
  have bound := counter.isLt
  omega

theorem add_toNat (room : counter.toNat + 4 < 65536) :
    (counter + rinc).toNat = counter.toNat + 4 := by
  rw [BitVec.toNat_add, show rinc.toNat = 4 from rfl]
  omega

theorem sub_toNat (some_ : 4 ≤ counter.toNat) : (counter + -rinc).toNat = counter.toNat - 4 := by
  rw [BitVec.toNat_add, show (-rinc).toNat = 65532 from rfl]
  have bound := counter.isLt
  omega

end

/-! ### Threads that change their place -/

theorem readers_update (pc : Fin n → Pc) (t : Fin n) (q : Pc) :
    readers (update pc t q) + (pc t).counted = readers pc + q.counted := by
  have moved : (fun other => (update pc t q other).counted) =
      update (fun other => (pc other).counted) t q.counted := by
    funext other
    by_cases same : other = t
    · subst same; simp
    · simp [same]
  rw [readers, readers, moved, Finset.sum_update_of_mem (Finset.mem_univ t),
    ← Finset.sum_sdiff (Finset.subset_univ {t}), Finset.sum_singleton]
  omega

theorem counted_le_one (pc : Pc) : pc.counted ≤ 1 := by
  cases pc <;> simp [Pc.counted]

theorem readers_le (pc : Fin n → Pc) : readers pc ≤ n := by
  have bound := Finset.sum_le_card_nsmul Finset.univ (fun t => (pc t).counted) 1
    fun t _ => counted_le_one (pc t)
  simpa [readers] using bound

theorem counted_le_readers (pc : Fin n → Pc) (t : Fin n) : (pc t).counted ≤ readers pc :=
  Finset.single_le_sum (f := fun t => (pc t).counted) (fun _ _ => Nat.zero_le _) (Finset.mem_univ t)

def writers (pc : Fin n → Pc) : Nat := if ∃ t, pc t = .writing then 2 else 0

variable {pc : Fin n → Pc} {t : Fin n} {q : Pc} {w : World n}

theorem writers_eq_zero : writers pc = 0 ↔ ∀ t, pc t ≠ .writing := by
  rw [writers]
  split <;> simp_all

theorem writers_le (pc : Fin n → Pc) : writers pc = 0 ∨ writers pc = 2 := by
  rw [writers]
  split <;> simp

theorem writing_update (before : pc t ≠ .writing) (after : q ≠ .writing) (other : Fin n) :
    update pc t q other = .writing ↔ pc other = .writing := by
  by_cases same : other = t
  · subst same; simp [before, after]
  · simp [same]

theorem writers_update (before : pc t ≠ .writing) (after : q ≠ .writing) :
    writers (update pc t q) = writers pc := by
  simp only [writers, writing_update before after]

structure Inv (w : World n) : Prop where
  oneWriter : ∀ t other, w.pc t = .writing → w.pc other = .writing → t = other
  noReader : ∀ t other, w.pc t = .writing → w.pc other ≠ .reading
  exact_ : w.counter.toNat = 4 * readers w.pc + writers w.pc + w.counter.toNat % 2
  pending : w.counter.toNat % 2 = 1 → ∃ t, (w.pc t).inStartWrite = true
  small : ∀ t tmp, w.pc t = .compareAndSwap tmp → tmp.toNat < 2

theorem Inv.initial : Inv ({} : World n) where
  oneWriter := nofun
  noReader := nofun
  exact_ := by simp [readers, writers, Pc.counted]
  pending := nofun
  small := nofun

section

variable (inv : Inv w)

include inv

theorem Inv.excludes : Excludes w where
  oneWriter := inv.oneWriter
  noReader := inv.noReader
  exact_ := by rw [pending_toNat]; exact inv.exact_
  pending set := by
    refine inv.pending ?_
    rw [Ne, ← BitVec.toNat_inj, pending_toNat] at set
    have nonzero : w.counter.toNat % 2 ≠ 0 := set
    omega

theorem Inv.change {counter : BitVec 16} (before : w.pc t ≠ .writing) (after : q ≠ .writing)
    (alone : q = .reading → writers w.pc = 0) (exact_ : counter.toNat + 4 * (w.pc t).counted =
      4 * (readers w.pc + q.counted) + writers w.pc + counter.toNat % 2)
    (pending : counter.toNat % 2 = 1 → q.inStartWrite = true ∨
      w.counter.toNat % 2 = 1 ∧ ((w.pc t).inStartWrite = true → q.inStartWrite = true))
    (small : ∀ tmp, q = .compareAndSwap tmp → tmp.toNat < 2) : Inv (w.store counter t q) where
  oneWriter first second isFirst isSecond :=
    inv.oneWriter first second ((writing_update before after first).mp isFirst)
      ((writing_update before after second).mp isSecond)
  noReader first second isWriter isReader := by
    have wasWriter := (writing_update before after first).mp isWriter
    by_cases same : second = t
    · subst same
      simp only [World.store, update_self] at isReader
      exact writers_eq_zero.mp (alone isReader) first wasWriter
    · simp only [World.store, update_of_ne same] at isReader
      exact inv.noReader first second wasWriter isReader
  exact_ := by
    have count := readers_update w.pc t q
    have same := writers_update before after
    simp only [World.store] at count same ⊢
    omega
  pending set := by
    by_cases inside : q.inStartWrite = true
    · exact ⟨t, by simpa [World.store] using inside⟩
    obtain ⟨wasSet, stays⟩ := (pending set).resolve_left inside
    obtain ⟨other, isInside⟩ := inv.pending wasSet
    have different : other ≠ t := by
      rintro rfl
      exact inside (stays isInside)
    exact ⟨other, by simpa [World.store, different] using isInside⟩
  small other tmp isPc := by
    by_cases same : other = t
    · subst same
      simp only [World.store, update_self] at isPc
      exact small tmp isPc
    · simp only [World.store, update_of_ne same] at isPc
      exact inv.small other tmp isPc

theorem Inv.go {p : Pc} (isPc : w.pc t = p) (before : p ≠ .writing) (after : q ≠ .writing)
    (quiet : p.counted = 0) (stays : q.counted = 0)
    (inside : p.inStartWrite = true → q.inStartWrite = true)
    (small : ∀ tmp, q = .compareAndSwap tmp → tmp.toNat < 2) : Inv (w.go t q) := by
  refine inv.change (isPc ▸ before) after ?_ ?_ ?_ small
  · rintro rfl
    cases stays
  · rw [isPc, quiet, stays]
    exact inv.exact_
  · intro set
    rw [isPc]
    exact .inr ⟨set, inside⟩

theorem Inv.added (few : n < 2 ^ 14) (isPc : w.pc t = .addReader) (counts : q.counted = 1) :
    (w.counter + rinc).toNat = w.counter.toNat + 4 := by
  apply add_toNat
  have count := readers_update w.pc t q
  have bound := readers_le (update w.pc t q)
  rw [isPc, counts] at count
  have none_ : Pc.addReader.counted = 0 := rfl
  have exact_ := inv.exact_
  have two := writers_le w.pc
  omega

theorem Inv.addReader (few : n < 2 ^ 14) (isPc : w.pc t = .addReader) (counts : q.counted = 1)
    (after : q ≠ .writing) (alone : q = .reading → w.counter.toNat % 4 = 0) :
    Inv (w.store (w.counter + rinc) t q) := by
  have sum := inv.added few isPc counts
  have exact_ := inv.exact_
  have two := writers_le w.pc
  refine inv.change (by rw [isPc]; nofun) after ?_ ?_ ?_ ?_
  · intro isReading
    have zero := alone isReading
    omega
  · rw [sum, isPc, counts, show Pc.addReader.counted = 0 from rfl]
    omega
  · intro set
    refine .inr ⟨by omega, ?_⟩
    rw [isPc]
    nofun
  · rintro tmp rfl
    cases counts

theorem Inv.subReader {p : Pc} (isPc : w.pc t = p) (counts : p.counted = 1) (before : p ≠ .writing)
    (outside : p.inStartWrite = false) (after : q ≠ .writing) (leaves : q.counted = 0)
    (small : ∀ tmp, q ≠ .compareAndSwap tmp) : Inv (w.store (w.counter + -rinc) t q) := by
  have exact_ := inv.exact_
  have one := counted_le_readers w.pc t
  rw [isPc, counts] at one
  have difference := sub_toNat w.counter (by omega)
  refine inv.change (isPc ▸ before) after ?_ ?_ ?_ fun tmp isCas => absurd isCas (small tmp)
  · rintro rfl
    cases leaves
  · rw [difference, isPc, counts, leaves]
    omega
  · intro set
    refine .inr ⟨by omega, ?_⟩
    rw [isPc, outside]
    nofun

theorem Inv.setPending (isPc : w.pc t = .setPending) :
    Inv (w.store (w.counter ||| wpending) t .spin) := by
  have exact_ := inv.exact_
  have set := setPending_toNat w.counter
  have two := writers_le w.pc
  refine inv.change (by rw [isPc]; nofun) nofun nofun ?_ (fun _ => .inl rfl) nofun
  rw [set, isPc, show Pc.setPending.counted = 0 from rfl, show Pc.spin.counted = 0 from rfl]
  omega

theorem Inv.acquire {tmp : BitVec 16} (isPc : w.pc t = .compareAndSwap tmp)
    (same : w.counter = tmp) : Inv (w.store writer t .writing) := by
  have small := inv.small t tmp isPc
  have exact_ := inv.exact_
  rw [same] at exact_
  have noReaders : readers w.pc = 0 := by omega
  have noWriters := writers_eq_zero.mp (show writers w.pc = 0 by omega)
  have onlyWriter : ∀ other, update w.pc t .writing other = .writing → other = t := by
    intro other isWriting
    by_contra different
    rw [update_of_ne different] at isWriting
    exact noWriters other isWriting
  refine ⟨?_, ?_, ?_, fun set => absurd set (show ¬ 2 % 2 = 1 by decide), ?_⟩
  · intro first second isFirst isSecond
    rw [onlyWriter first isFirst, onlyWriter second isSecond]
  · intro first second _ isReading
    by_cases here : second = t
    · subst here
      simp [World.store] at isReading
    · simp only [World.store, update_of_ne here] at isReading
      have counted := counted_le_readers w.pc second
      rw [isReading, noReaders] at counted
      cases counted
  · have count := readers_update w.pc t .writing
    have isTwo : writers (update w.pc t .writing) = 2 := if_pos ⟨t, update_self ..⟩
    rw [noReaders, isPc, show (Pc.compareAndSwap tmp).counted = 0 from rfl,
      show Pc.writing.counted = 0 from rfl] at count
    simp only [World.store, isTwo, show writer.toNat = 2 from rfl]
    omega
  · intro other value isCas
    by_cases here : other = t
    · subst here
      simp [World.store] at isCas
    · simp only [World.store, update_of_ne here] at isCas
      exact inv.small other value isCas

theorem Inv.endWrite (isPc : w.pc t = .writing) :
    Inv (w.store (w.counter &&& ~~~(wpending ||| writer)) t .idle) := by
  have cleared := clear_toNat w.counter
  have exact_ := inv.exact_
  have isTwo : writers w.pc = 2 := if_pos ⟨t, isPc⟩
  have noWriter : ∀ other, update w.pc t .idle other ≠ .writing := by
    intro other isWriting
    by_cases here : other = t
    · subst here
      simp at isWriting
    · rw [update_of_ne here] at isWriting
      exact here (inv.oneWriter other t isWriting isPc)
  refine ⟨fun first _ isFirst => absurd isFirst (noWriter first),
    fun first _ isFirst => absurd isFirst (noWriter first), ?_, ?_, ?_⟩
  · have count := readers_update w.pc t .idle
    rw [isPc, show Pc.writing.counted = 0 from rfl, show Pc.idle.counted = 0 from rfl] at count
    simp only [World.store, cleared, writers_eq_zero.mpr noWriter]
    omega
  · intro set
    simp only [World.store, cleared] at set
    omega
  intro other value isCas
  by_cases here : other = t
  · subst here
    simp [World.store] at isCas
  · simp only [World.store, update_of_ne here] at isCas
    exact inv.small other value isCas

end

/-! ### Every interleaving -/

theorem Inv.access {next : World n} (inv : Inv w) (few : n < 2 ^ 14)
    (taken : access w t = some next) : Inv next := by
  cases isPc : w.pc t with
  | idle | reading | writing => simp [RWLock.access, isPc] at taken
  | testRead =>
    simp only [RWLock.access, isPc] at taken
    split at taken <;> cases taken <;> exact inv.go isPc nofun nofun rfl rfl nofun nofun
  | addReader =>
    simp only [RWLock.access, isPc] at taken
    split at taken
    · rename_i free
      cases taken
      exact inv.addReader few isPc rfl nofun fun _ => (bits_eq_zero _).mp free
    · cases taken
      exact inv.addReader few isPc rfl nofun nofun
  | backOut =>
    simp only [RWLock.access, isPc] at taken
    obtain rfl := Option.some.inj taken
    exact inv.subReader isPc rfl nofun rfl nofun rfl nofun
  | testWrite | spin =>
    simp only [RWLock.access, isPc] at taken
    split at taken <;> cases taken <;>
      exact inv.go isPc nofun nofun rfl rfl (fun _ => rfl) nofun
  | setPending =>
    simp only [RWLock.access, isPc] at taken
    obtain rfl := Option.some.inj taken
    exact inv.setPending isPc
  | loadPending =>
    simp only [RWLock.access, isPc] at taken
    cases taken
    refine inv.go isPc nofun nofun rfl rfl (fun _ => rfl) ?_
    rintro tmp isTmp
    cases isTmp
    rw [pending_toNat]
    exact Nat.mod_lt _ (by decide)
  | compareAndSwap tmp =>
    simp only [RWLock.access, isPc] at taken
    split at taken
    · rename_i same
      cases taken
      exact inv.acquire isPc same
    · cases taken
      exact inv.go isPc nofun nofun rfl rfl (fun _ => rfl) nofun

theorem Inv.step {next : World n} (inv : Inv w) (few : n < 2 ^ 14) {act : Act n}
    (taken : step w act = some next) : Inv next := by
  cases act with
  | advance t => exact inv.access few taken
  | startRead t | startWrite t =>
    simp only [RWLock.step, Option.ite_none_right_eq_some] at taken
    obtain ⟨isPc, moved⟩ := taken
    obtain rfl := Option.some.inj moved
    exact inv.go isPc nofun nofun rfl rfl nofun nofun
  | endRead t =>
    simp only [RWLock.step, Option.ite_none_right_eq_some] at taken
    obtain ⟨isPc, moved⟩ := taken
    obtain rfl := Option.some.inj moved
    exact inv.subReader isPc rfl nofun rfl nofun rfl nofun
  | endWrite t =>
    simp only [RWLock.step, Option.ite_none_right_eq_some] at taken
    obtain ⟨isPc, moved⟩ := taken
    obtain rfl := Option.some.inj moved
    exact inv.endWrite isPc

/-- Of fewer than `2 ^ 14` threads a writer is alone, and the counter is exact. -/
theorem lock_excludes (few : n < 2 ^ 14) {acts : List (Act n)} {w : World n}
    (reached : run step {} acts = some w) : Excludes w := by
  have kept : ∀ (w : World n) (act : Act n) (next : World n), Inv w → True →
      step w act = some next → Inv next := fun _ _ _ inv _ taken => inv.step few taken
  exact (run_preserves kept Inv.initial (each_of_forall fun _ _ => trivial) reached).excludes

def contention : List (Act 3) :=
  [.startRead 0, .advance 0, .startWrite 1, .advance 1, .advance 1, .advance 1, .advance 0,
    .startWrite 2, .advance 2, .advance 2]

theorem lock_excludes_contention : ∃ w : World 3, run step {} contention = some w ∧
    w.counter = 7 ∧ w.pc 1 = .writing ∧ Excludes w := by
  obtain ⟨w, ran, counter, isWriting⟩ : ∃ w : World 3, run step {} contention = some w ∧
      w.counter = 7 ∧ w.pc 1 = .writing := ⟨_, rfl, rfl, rfl⟩
  exact ⟨w, ran, counter, isWriting, lock_excludes (by decide) ran⟩

end EunoDb.RWLock
