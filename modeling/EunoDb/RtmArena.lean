import EunoDb.Execution
import Mathlib.Algebra.Group.Nat.Defs

/-! `RTMArena`. `size_t` wraps. `new` gives fresh bytes at a multiple of 16. Of `AllocateAligned`
only what follows outside a transaction is modelled. -/

namespace EunoDb.RtmArena

open Execution

structure Block where
  addr : Nat
  size : Nat
  deriving DecidableEq, Repr

def Block.Apart (a b : Block) : Prop := a.addr + a.size ≤ b.addr ∨ b.addr + b.size ≤ a.addr

instance (a b : Block) : Decidable (a.Apart b) := inferInstanceAs (Decidable (_ ∨ _))

def Block.Within (a b : Block) : Prop := b.addr ≤ a.addr ∧ a.addr + a.size ≤ b.addr + b.size

def kBlockSize : Nat := 16 * 4096

structure Arena where
  allocPtr : Nat := 0
  remaining : Nat := 0
  blocks : List Block := []
  -- history: the block that `allocPtr` is in, and the ranges returned
  current : Option Block := none
  returned : List Block := []
  deriving DecidableEq, Repr

def Fresh (blocks : List Block) (b : Block) : Prop :=
  b.addr % 16 = 0 ∧ b.addr + b.size < 2 ^ 64 ∧ ∀ old ∈ blocks, old.Apart b

instance (blocks : List Block) (b : Block) : Decidable (Fresh blocks b) :=
  inferInstanceAs (Decidable (_ ∧ _ ∧ _))

def allocateNewBlock (arena : Arena) (b : Block) : Option Arena :=
  if Fresh arena.blocks b then some { arena with blocks := b :: arena.blocks } else none

def startBlock (arena : Arena) (new : Nat) : Option Arena :=
  (allocateNewBlock arena ⟨new, kBlockSize⟩).map fun arena =>
    { arena with allocPtr := new, remaining := kBlockSize, current := some ⟨new, kBlockSize⟩ }

def needed (slop bytes : Nat) : Nat := (bytes + slop) % 2 ^ 64

def carve (arena : Arena) (slop bytes : Nat) : Nat × Arena :=
  (arena.allocPtr + slop,
    { arena with
      allocPtr := arena.allocPtr + needed slop bytes
      remaining := arena.remaining - needed slop bytes
      returned := ⟨arena.allocPtr + slop, bytes⟩ :: arena.returned })

def fallback (arena : Arena) (bytes new : Nat) : Option (Nat × Arena) :=
  if kBlockSize / 4 < bytes then
    (allocateNewBlock arena ⟨new, bytes⟩).map fun arena =>
      (new, { arena with returned := ⟨new, bytes⟩ :: arena.returned })
  else (startBlock arena new).map fun arena => carve arena 0 bytes

def allocate (arena : Arena) (bytes new : Nat) : Option (Nat × Arena) :=
  if bytes ≤ arena.remaining then some (carve arena 0 bytes) else fallback arena bytes new

def slop (arena : Arena) : Nat :=
  let currentMod := arena.allocPtr &&& (64 - 1)
  if currentMod = 0 then 0 else 64 - currentMod

def allocateAligned (arena : Arena) (bytes new : Nat) : Option (Nat × Arena) :=
  if needed (slop arena) bytes ≤ arena.remaining then some (carve arena (slop arena) bytes)
  else fallback arena bytes new

inductive Act where
  | allocate (bytes new : Nat)
  | allocateAligned (bytes new : Nat)
  | allocateFallback (new : Nat)
  deriving DecidableEq, Repr

structure World where
  arena : Arena := {}
  aligned : List Nat := []
  deriving DecidableEq, Repr

def step (w : World) : Act → Option World
  | .allocate bytes new =>
    (allocate w.arena bytes new).map fun (_, arena) => { w with arena := arena }
  | .allocateAligned bytes new =>
    (allocateAligned w.arena bytes new).map fun (result, arena) => ⟨arena, result :: w.aligned⟩
  | .allocateFallback new => (startBlock w.arena new).map fun arena => { w with arena := arena }

def sized : Act → Prop
  | .allocate bytes _ | .allocateAligned bytes _ => 0 < bytes ∧ bytes ≤ 2 ^ 63
  | .allocateFallback _ => True

instance : (act : Act) → Decidable (sized act)
  | .allocate _ _ | .allocateAligned _ _ => inferInstanceAs (Decidable (_ ∧ _))
  | .allocateFallback _ => isTrue trivial

def atLine (w : World) : Act → Prop
  | .allocateAligned bytes new =>
    needed (slop w.arena) bytes ≤ w.arena.remaining ∨ new % 64 = 0
  | .allocate _ _ | .allocateFallback _ => True

instance (w : World) : (act : Act) → Decidable (atLine w act)
  | .allocateAligned _ _ => inferInstanceAs (Decidable (_ ∨ _))
  | .allocate _ _ | .allocateFallback _ => isTrue trivial

/-! ### The invariant -/

def Arena.tail (arena : Arena) : Block := ⟨arena.allocPtr, arena.remaining⟩

def Ends (arena : Arena) : Prop :=
  match arena.current with
  | none => arena.tail = ⟨0, 0⟩
  | some b => b ∈ arena.blocks ∧ b.addr ≤ arena.allocPtr ∧
      arena.allocPtr + arena.remaining = b.addr + b.size

structure Inv (arena : Arena) : Prop where
  inside : ∀ r ∈ arena.returned, ∃ b ∈ arena.blocks, r.Within b
  apart : arena.returned.Pairwise Block.Apart
  tail : ∀ r ∈ arena.returned, r.Apart arena.tail
  ends : Ends arena

variable {arena after : Arena} {b r : Block} {bytes new result : Nat}

theorem Block.Apart.symm {a b : Block} (apart : a.Apart b) : b.Apart a := Or.symm apart

theorem Block.Apart.within {a b c : Block} (apart : a.Apart b) (inside : c.Within b) :
    a.Apart c := by
  unfold Block.Apart Block.Within at *
  omega

theorem Inv.fresh (inv : Inv arena) (fresh : Fresh arena.blocks b) :
    (∀ r ∈ arena.returned, r.Apart b) ∧ arena.tail.Apart b := by
  constructor
  · intro r mem
    obtain ⟨old, known, inside⟩ := inv.inside r mem
    exact ((fresh.2.2 old known).symm.within inside).symm
  have ends := inv.ends
  unfold Ends at ends
  split at ends
  · rw [ends]
    exact Or.inl (Nat.zero_le _)
  · rename_i block _
    refine ((fresh.2.2 block ends.1).symm.within ⟨ends.2.1, ?_⟩).symm
    exact Nat.le_of_eq ends.2.2

theorem Inv.carve (inv : Inv arena) {slop : Nat} (some_ : 0 < bytes) (small : bytes + slop < 2 ^ 64)
    (fits : needed slop bytes ≤ arena.remaining) : Inv (carve arena slop bytes).2 := by
  rw [needed, Nat.mod_eq_of_lt small] at fits
  have ends := inv.ends
  unfold Ends at ends
  split at ends
  · have nothing : arena.remaining = 0 := congrArg Block.size ends
    omega
  rename_i block current
  obtain ⟨known, starts, stops⟩ := ends
  have inside : (⟨arena.allocPtr + slop, bytes⟩ : Block).Within arena.tail := by
    constructor <;> simp only [Arena.tail] <;> omega
  have rest : (RtmArena.carve arena slop bytes).2.tail =
      ⟨arena.allocPtr + (bytes + slop), arena.remaining - (bytes + slop)⟩ := by
    rw [RtmArena.carve, Arena.tail, needed, Nat.mod_eq_of_lt small]
  have shrinks : (RtmArena.carve arena slop bytes).2.tail.Within arena.tail := by
    rw [rest]
    constructor <;> simp only [Arena.tail] <;> omega
  constructor
  · intro r mem
    rcases List.mem_cons.mp mem with rfl | old
    · exact ⟨block, known, by constructor <;> simp only <;> omega⟩
    · exact inv.inside r old
  · exact List.pairwise_cons.mpr ⟨fun r old => ((inv.tail r old).within inside).symm, inv.apart⟩
  · intro r mem
    rcases List.mem_cons.mp mem with rfl | old
    · rw [rest]
      left
      simp only
      omega
    · exact (inv.tail r old).within shrinks
  · have shape := Block.mk.inj rest
    unfold Ends
    rw [show (RtmArena.carve arena slop bytes).2.current = some block from current]
    refine ⟨known, ?_, ?_⟩
    · rw [shape.1]
      omega
    · rw [shape.1, shape.2]
      omega

theorem allocateNewBlock_cases (taken : allocateNewBlock arena b = some after) :
    Fresh arena.blocks b ∧ after = { arena with blocks := b :: arena.blocks } := by
  unfold allocateNewBlock at taken
  split at taken
  · rename_i fresh
    exact ⟨fresh, (Option.some.inj taken).symm⟩
  · cases taken

theorem Inv.own (inv : Inv arena) (b : Block) : Inv { arena with blocks := b :: arena.blocks } := by
  refine ⟨?_, inv.apart, inv.tail, ?_⟩
  · intro r mem
    obtain ⟨old, known, inside⟩ := inv.inside r mem
    exact ⟨old, List.mem_cons_of_mem b known, inside⟩
  have ends := inv.ends
  unfold Ends at ends ⊢
  split at ends
  · rename_i none_
    rw [show Arena.current { arena with blocks := _ } = none from none_]
    exact ends
  · rename_i block some_
    rw [show Arena.current { arena with blocks := _ } = some block from some_]
    exact ⟨List.mem_cons_of_mem b ends.1, ends.2⟩

theorem Inv.startBlock (inv : Inv arena) (taken : startBlock arena new = some after) :
    Inv after ∧ after.allocPtr = new ∧ after.remaining = kBlockSize := by
  obtain ⟨middle, owned, rfl⟩ := Option.map_eq_some_iff.mp taken
  obtain ⟨fresh, rfl⟩ := allocateNewBlock_cases owned
  exact ⟨⟨(inv.own _).inside, inv.apart, (inv.fresh fresh).1,
    List.mem_cons_self, Nat.le_refl _, rfl⟩, rfl, rfl⟩

theorem Inv.fallback (inv : Inv arena) (some_ : 0 < bytes)
    (taken : fallback arena bytes new = some (result, after)) : Inv after ∧ result = new := by
  unfold RtmArena.fallback at taken
  split at taken
  · -- the block is the range, and the current block stays
    obtain ⟨middle, owned, same⟩ := Option.map_eq_some_iff.mp taken
    obtain ⟨fresh, rfl⟩ := allocateNewBlock_cases owned
    cases same
    obtain ⟨before, rest⟩ := inv.fresh fresh
    refine ⟨⟨?_, List.pairwise_cons.mpr ⟨fun r old => (before r old).symm, inv.apart⟩, ?_,
      (inv.own _).ends⟩, rfl⟩
    · intro r mem
      rcases List.mem_cons.mp mem with rfl | old
      · exact ⟨_, List.mem_cons_self, Nat.le_refl _, Nat.le_refl _⟩
      · exact (inv.own _).inside r old
    · intro r mem
      rcases List.mem_cons.mp mem with rfl | old
      · exact rest.symm
      · exact inv.tail r old
  · rename_i large
    obtain ⟨middle, started, same⟩ := Option.map_eq_some_iff.mp taken
    cases same
    obtain ⟨fits, starts, whole⟩ := inv.startBlock started
    have bound : bytes ≤ kBlockSize / 4 := Nat.not_lt.mp large
    have size : kBlockSize = 65536 := rfl
    refine ⟨fits.carve some_ (by omega) ?_, starts⟩
    rw [needed, whole, Nat.mod_eq_of_lt (by omega)]
    omega

theorem slop_lt (arena : Arena) : slop arena < 64 := by
  have low : arena.allocPtr &&& (64 - 1) = arena.allocPtr % 64 := Nat.and_two_pow_sub_one_eq_mod _ 6
  unfold slop
  dsimp only
  split <;> omega

theorem slop_aligns (arena : Arena) : (arena.allocPtr + slop arena) % 64 = 0 := by
  have low : arena.allocPtr &&& (64 - 1) = arena.allocPtr % 64 := Nat.and_two_pow_sub_one_eq_mod _ 6
  unfold slop
  dsimp only
  split <;> omega

theorem Inv.allocateAligned (inv : Inv arena) (some_ : 0 < bytes) (small : bytes ≤ 2 ^ 63)
    (taken : allocateAligned arena bytes new = some (result, after)) :
    Inv after ∧ ((needed (slop arena) bytes ≤ arena.remaining ∨ new % 64 = 0) → result % 64 = 0) := by
  unfold RtmArena.allocateAligned at taken
  split at taken
  · rename_i fits
    have bound := slop_lt arena
    cases taken
    exact ⟨inv.carve some_ (by omega) fits, fun _ => slop_aligns arena⟩
  · rename_i past
    obtain ⟨kept, rfl⟩ := inv.fallback some_ taken
    exact ⟨kept, fun line => line.resolve_left past⟩

theorem Inv.allocate (inv : Inv arena) (some_ : 0 < bytes) (small : bytes ≤ 2 ^ 63)
    (taken : allocate arena bytes new = some (result, after)) : Inv after := by
  unfold RtmArena.allocate at taken
  split at taken
  · rename_i fits
    cases taken
    refine inv.carve some_ (by omega) ?_
    rwa [needed, Nat.add_zero, Nat.mod_eq_of_lt (by omega)]
  · exact (inv.fallback some_ taken).1

theorem Inv.step {w next : World} {act : Act} (inv : Inv w.arena) (allowed : sized act)
    (taken : step w act = some next) :
    Inv next.arena ∧ (atLine w act → (∀ addr ∈ w.aligned, addr % 64 = 0) →
      ∀ addr ∈ next.aligned, addr % 64 = 0) := by
  cases act with
  | allocate bytes new =>
    obtain ⟨⟨result, after⟩, allocated, rfl⟩ := Option.map_eq_some_iff.mp taken
    exact ⟨inv.allocate allowed.1 allowed.2 allocated, fun _ => id⟩
  | allocateAligned bytes new =>
    obtain ⟨⟨result, after⟩, allocated, rfl⟩ := Option.map_eq_some_iff.mp taken
    obtain ⟨kept, lines⟩ := inv.allocateAligned allowed.1 allowed.2 allocated
    refine ⟨kept, fun line before addr mem => ?_⟩
    rcases List.mem_cons.mp mem with rfl | old
    · exact lines line
    · exact before addr old
  | allocateFallback new =>
    obtain ⟨after, started, rfl⟩ := Option.map_eq_some_iff.mp taken
    exact ⟨(inv.startBlock started).1, fun _ => id⟩

/-- In every run the ranges returned are pairwise disjoint and inside of the arena's blocks, and
`alloc_bytes_remaining_` is what is left of the current block, of which nothing was
returned. If every block that `AllocateAligned` has returned the start of is at a multiple
of 64, so is every address it has returned. -/
theorem ranges_disjoint (acts : List Act) (w : World) (allowed : ∀ act ∈ acts, sized act)
    (reached : run step {} acts = some w) :
    (w.arena.returned.Pairwise Block.Apart ∧
        ∀ r ∈ w.arena.returned, ∃ b ∈ w.arena.blocks, r.Within b) ∧
      (Ends w.arena ∧ ∀ r ∈ w.arena.returned, r.Apart w.arena.tail) ∧
      (Each step atLine {} acts → ∀ addr ∈ w.aligned, addr % 64 = 0) := by
  have initial : Inv ({} : Arena) :=
    ⟨fun _ member => (List.not_mem_nil member).elim, .nil,
      fun _ member => (List.not_mem_nil member).elim, rfl⟩
  have kept : ∀ w act next, Inv (World.arena w) → sized act → step w act = some next →
      Inv next.arena := fun w act next inv allowed taken => (inv.step allowed taken).1
  have inv := run_preserves kept initial (each_of_forall allowed) reached
  refine ⟨⟨inv.apart, inv.inside⟩, ⟨inv.ends, inv.tail⟩, fun lines => ?_⟩
  have both : ∀ w act next, (Inv (World.arena w) ∧ ∀ addr ∈ w.aligned, addr % 64 = 0) →
      sized act ∧ atLine w act → step w act = some next →
      Inv next.arena ∧ ∀ addr ∈ next.aligned, addr % 64 = 0 := by
    intro w act next holds allowed taken
    obtain ⟨inv, line⟩ := holds.1.step allowed.1 taken
    exact ⟨inv, line allowed.2 holds.2⟩
  exact (run_preserves both ⟨initial, fun _ member => (List.not_mem_nil member).elim⟩
    (each_and (each_of_forall allowed) lines) reached).2

def mixed : List Act :=
  [.allocateAligned 100 4096, .allocate 10 0, .allocateAligned 8 0, .allocateFallback 131072,
    .allocate 20000 262144]

theorem ranges_disjoint_mixed : ∃ w, run step {} mixed = some w ∧ w.aligned = [4224, 4096] ∧
    w.arena.returned.Pairwise Block.Apart ∧ ∀ addr ∈ w.aligned, addr % 64 = 0 := by
  refine ⟨_, rfl, rfl, ?_⟩
  have holds := ranges_disjoint mixed _ (by decide) rfl
  exact ⟨holds.1.1, holds.2.2 (by decide +kernel)⟩

theorem aligned_off_line : ∃ w, run step {} [.allocateAligned 64 4112] = some w ∧
    w.arena.blocks = [⟨4112, 65536⟩] ∧ w.aligned = [4112] ∧ 4112 % 64 = 16 :=
  ⟨_, rfl, rfl, rfl, rfl⟩

end EunoDb.RtmArena
