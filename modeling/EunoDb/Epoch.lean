import EunoDb.Execution
import EunoDb.Ring
import Mathlib.Data.Nat.Bitwise
import Mathlib.Data.List.FinRange

/-! `Epoch` and `GCQueue`, one access to a counter at a time. The highest bit of a counter says that
no transaction runs. `beginTX` is two stores; `getCurrentEpoch` loads every counter once, `Compare`
up to twice. The queue belongs to one thread, the collector. What an element frees is left out. -/

namespace EunoDb.Epoch

open Execution Function

def endMask : BitVec 64 := 1#64 <<< 63

def begMask : BitVec 64 := ~~~(1#64 <<< 63)

def qsize : Nat := 1024

abbrev Counters (n : Nat) := Fin n → BitVec 64

variable {n : Nat}

/-- `Compare` with counters that do not change meanwhile. -/
def compareFrom (stored live : Counters n) : List (Fin n) → Nat → Option Int
  | [], res => if res = n then some (-1) else if res = 0 then some 1 else none
  | t :: rest, res =>
    if stored t = live t then some 0
    else if stored t < live t then compareFrom stored live rest (res + 1)
    else compareFrom stored live rest res

def compare (stored live : Counters n) : Option Int :=
  compareFrom stored live (List.finRange n) 0

/-- Where a thread is: outside of a transaction, between the two stores of `beginTX`, or inside. -/
inductive Phase where
  | outside
  | beginning
  | inside
  deriving DecidableEq

/-- `running` is history: the transactions that were running when the capture began or when the
counter of their thread was loaded. -/
structure GCElement (n : Nat) where
  epoch : Counters n
  running : List (Fin n × Nat)

/-- The next access of the collector. `equal` and `less` are the two loads of `counters[i]` in
`Compare`, for the first element of the queue. -/
inductive Pc (n : Nat) where
  | idle
  | capture (i : Nat) (element : GCElement n)
  | equal (i res : Nat)
  | less (i : Fin n) (res : Nat)

structure World (n : Nat) where
  counters : Counters n := fun _ => endMask ||| 0
  phase : Fin n → Phase := fun _ => .outside
  pc : Pc n := .idle
  queue : Ring (GCElement n) := {}
  elems : Int := 0
  -- history: the number of transactions begun, those ended, the elements added and removed
  begun : Fin n → Nat := fun _ => 0
  ended : List (Fin n × Nat) := []
  added : List (GCElement n) := []
  removed : List (GCElement n) := []

def World.running (w : World n) (t : Fin n) : List (Fin n × Nat) :=
  if w.phase t = .inside then [(t, w.begun t)] else []

/-- The test of the loop of `GC`, before the next `Compare`. -/
def World.examine (w : World n) : World n :=
  { w with pc := if w.queue.head = w.queue.tail then .idle else .equal 0 0 }

def World.remove (w : World n) (element : GCElement n) : World n :=
  { w with
    queue := w.queue.pop qsize
    elems := w.elems - 1
    removed := w.removed ++ [element] }

def addGCElement (w : World n) (element : GCElement n) : Option (World n) :=
  if (w.queue.tail + 1) % qsize = w.queue.head then none
  else some { w with
    queue := w.queue.push qsize element
    elems := w.elems + 1
    added := w.added ++ [element]
    pc := .idle }

/-- The end of `Compare`. Where `assert(0)` stands there is no result. -/
def verdict (w : World n) (element : GCElement n) (res : Nat) : Option (World n) :=
  if res = n then some (w.remove element).examine
  else if res = 0 then some { w with pc := .idle }
  else none

def advance (w : World n) : Option (World n) :=
  match w.pc with
  | .idle => none
  | .capture i element =>
    if inside : i < n then
      let t : Fin n := ⟨i, inside⟩
      let epoch := update element.epoch t (w.counters t &&& begMask)
      some { w with pc := .capture (i + 1) ⟨epoch, element.running ++ w.running t⟩ }
    else addGCElement w element
  | .equal i res => do
    let element ← w.queue.slots w.queue.head
    if inside : i < n then
      let t : Fin n := ⟨i, inside⟩
      if element.epoch t = w.counters t then return { w with pc := .idle }
      else return { w with pc := .less t res }
    else verdict w element res
  | .less t res => do
    let element ← w.queue.slots w.queue.head
    return { w with
      pc := .equal (t + 1) (if element.epoch t < w.counters t then res + 1 else res) }

/-- A store to the counter of a thread, with its phase and the history after it. -/
def World.store (w : World n) (t : Fin n) (counter : BitVec 64) (phase : Phase) (begun : Nat)
    (ended : List (Fin n × Nat)) : World n :=
  { w with
    counters := update w.counters t counter
    phase := update w.phase t phase
    begun := update w.begun t begun
    ended := ended }

inductive Act (n : Nat) where
  | increment (t : Fin n)
  | clear (t : Fin n)
  | endTX (t : Fin n)
  | addGCElement
  | gc
  | advance

def step (w : World n) : Act n → Option (World n)
  | .increment t =>
    if w.phase t = .outside then
      some (w.store t (w.counters t + 1) .beginning (w.begun t + 1) w.ended)
    else none
  | .clear t =>
    if w.phase t = .beginning then
      some (w.store t (w.counters t &&& begMask) .inside (w.begun t) w.ended)
    else none
  | .endTX t =>
    if w.phase t = .inside then
      some (w.store t (w.counters t ||| endMask) .outside (w.begun t)
        (w.ended ++ [(t, w.begun t)]))
    else none
  | .addGCElement =>
    match w.pc with
    | .idle => some { w with pc := .capture 0 ⟨fun _ => 0, (List.finRange n).flatMap w.running⟩ }
    | _ => none
  | .gc =>
    match w.pc with
    | .idle => some w.examine
    | _ => none
  | .advance => advance w

/-- The second store of `beginTX` falls between the two loads of its counter in a `Compare` whose
stored number is that of the transaction. -/
def Crosses (w : World n) (t : Fin n) : Prop :=
  match w.pc, w.queue.slots w.queue.head with
  | .less u _, some element => u = t ∧ element.epoch t = w.counters t &&& begMask
  | _, _ => False

instance (w : World n) (t : Fin n) : Decidable (Crosses w t) := by
  unfold Crosses
  split <;> infer_instance

def Admitted (w : World n) : Act n → Prop
  | .increment t => w.begun t + 1 < 2 ^ 63
  | .clear t => ¬ Crosses w t
  | _ => True

instance (w : World n) : (act : Act n) → Decidable (Admitted w act)
  | .increment _ => inferInstanceAs (Decidable (_ < _))
  | .clear _ => inferInstanceAs (Decidable (¬ _))
  | .endTX _ | .addGCElement | .gc | .advance => isTrue trivial

/-- `GC` removes an element only after the transactions that ran at its capture, elements leave in
the order in which they were added, and every access of the collector returns: `Compare` does not
fall through, and a capture is added while the queue has room. -/
structure Reclaims (w : World n) : Prop where
  safe : ∀ element ∈ w.removed, ∀ entry ∈ element.running, entry ∈ w.ended
  ordered : ∃ queued, w.added = w.removed ++ queued ∧ w.queue.Holds qsize queued ∧
    (queued.length + 1 < qsize → ∀ i element, w.pc = .capture i element →
      ∃ next, step w .advance = some next)
  compares : ∀ i res, w.pc = .equal i res → ∃ next, step w .advance = some next
  loads : ∀ t res, w.pc = .less t res → ∃ next, step w .advance = some next

/-! ### Counters as numbers -/

theorem begin_toNat (counter : BitVec 64) : (counter &&& begMask).toNat = counter.toNat % 2 ^ 63 := by
  rw [BitVec.toNat_and, show begMask.toNat = 2 ^ 63 - 1 from rfl, Nat.and_two_pow_sub_one_eq_mod]

theorem end_toNat (counter : BitVec 64) (small : counter.toNat < 2 ^ 63) :
    (counter ||| endMask).toNat = 2 ^ 63 + counter.toNat := by
  have split := Nat.two_pow_add_eq_or_of_lt small 1
  rw [BitVec.toNat_or, show endMask.toNat = 2 ^ 63 from rfl, Nat.or_comm]
  simpa using split.symm

/-! ### The invariant -/

/-- What is known of an epoch of which the counters below `i` are loaded. -/
structure Capturing (w : World n) (i : Nat) (element : GCElement n) : Prop where
  number : ∀ t, (element.epoch t).toNat ≤ w.begun t
  known : ∀ entry ∈ element.running, 0 < entry.2 ∧ entry.2 ≤ w.begun entry.1 ∧
    (entry.2 = w.begun entry.1 → w.phase entry.1 ≠ .beginning)
  loaded : ∀ entry ∈ element.running, entry.1.val < i → entry.2 ≤ (element.epoch entry.1).toNat

/-- `Compare` has come to counter `i` of the first element, and all before it were less. -/
structure Comparing (w : World n) (i res : Nat) (element : GCElement n) : Prop where
  front : ∃ rest, w.added = w.removed ++ element :: rest ∧ w.queue.Holds qsize (element :: rest)
  counted : i ≤ n ∧ res = i
  ended : ∀ entry ∈ element.running, entry.1.val < i → entry ∈ w.ended

def AtPc (w : World n) : Pc n → Prop
  | .idle => True
  | .capture i element => Capturing w i element
  | .equal i res => ∃ element, Comparing w i res element
  | .less t res => ∃ element, Comparing w t res element ∧ element.epoch t < w.counters t

/-- What the counter of one thread says. Of its transactions all have ended but the last. -/
structure Tells (counter : BitVec 64) (phase : Phase) (begun : Nat) (ended : Nat → Prop) : Prop where
  small : begun < 2 ^ 63
  live : counter.toNat = (if phase = .inside then 0 else 2 ^ 63) + begun
  started : phase ≠ .outside → 0 < begun
  past : ∀ number, 0 < number → number ≤ begun → (number = begun → phase = .outside) → ended number

structure Inv (w : World n) : Prop where
  tells : ∀ t, Tells (w.counters t) (w.phase t) (w.begun t) fun number => (t, number) ∈ w.ended
  captured : ∀ element ∈ w.added, Capturing w n element
  queued : ∃ queued, w.added = w.removed ++ queued ∧ w.queue.Holds qsize queued
  safe : ∀ element ∈ w.removed, ∀ entry ∈ element.running, entry ∈ w.ended
  pc : AtPc w w.pc

theorem Inv.initial : Inv ({} : World n) where
  tells _ := {
    small := Nat.two_pow_pos 63
    live := show (endMask ||| 0#64).toNat = 2 ^ 63 + 0 by decide
    started := fun outside => absurd rfl outside
    past := fun _ positive low => absurd positive (Nat.not_lt.mpr low) }
  captured := nofun
  queued := ⟨[], rfl, Ring.holds_nil (by decide)⟩
  safe := nofun
  pc := trivial

variable {w : World n} {element : GCElement n} {t : Fin n} {i res : Nat}

theorem Comparing.slot (comparing : Comparing w i res element) :
    w.queue.slots w.queue.head = some element := by
  obtain ⟨rest, -, holds⟩ := comparing.front
  exact holds.front

theorem Comparing.mem (comparing : Comparing w i res element) : element ∈ w.added := by
  obtain ⟨rest, shape, -⟩ := comparing.front
  simp [shape]

section

variable (inv : Inv w)

include inv

/-- The stored number of a thread is not above its live counter. -/
theorem Capturing.behind (capturing : Capturing w i element) (t : Fin n) :
    element.epoch t ≤ w.counters t := by
  have number := capturing.number t
  rw [BitVec.le_def, (inv.tells t).live]
  omega

/-- Once the live counter is above the stored number, the transactions seen at the capture are over. -/
theorem Capturing.past (capturing : Capturing w n element)
    (behind : element.epoch t < w.counters t) {entry : Fin n × Nat}
    (running : entry ∈ element.running) (same : entry.1 = t) : entry ∈ w.ended := by
  subst same
  obtain ⟨positive, low, notBeginning⟩ := capturing.known entry running
  refine (inv.tells entry.1).past entry.2 positive low fun last => ?_
  have loaded := capturing.loaded entry running entry.1.isLt
  rw [BitVec.lt_def, (inv.tells entry.1).live] at behind
  cases phase : w.phase entry.1 with
  | outside => rfl
  | beginning => exact absurd phase (notBeginning last)
  | inside =>
    rw [if_pos phase] at behind
    omega

theorem Inv.setPc (pc : Pc n) (known : AtPc w pc) : Inv { w with pc := pc } :=
  ⟨inv.tells, fun element mem => ⟨(inv.captured element mem).number, (inv.captured element mem).known,
      (inv.captured element mem).loaded⟩, inv.queued, inv.safe, by
      cases pc with
      | idle => trivial
      | capture i element => exact ⟨known.number, known.known, known.loaded⟩
      | equal i res =>
        obtain ⟨element, comparing⟩ := known
        exact ⟨element, comparing.front, comparing.counted, comparing.ended⟩
      | less t res =>
        obtain ⟨element, comparing, less⟩ := known
        exact ⟨element, ⟨comparing.front, comparing.counted, comparing.ended⟩, less⟩⟩

theorem Inv.examine : Inv w.examine := by
  refine inv.setPc _ ?_
  split
  · trivial
  · rename_i nonempty
    obtain ⟨queued, shape, holds⟩ := inv.queued
    cases queued with
    | nil => exact absurd (holds.empty_iff.mpr rfl) nonempty
    | cons element rest =>
      exact ⟨element, ⟨rest, shape, holds⟩, ⟨Nat.zero_le n, rfl⟩, fun _ _ low => absurd low (by omega)⟩

/-! ### Steps of the threads -/

/-- What the collector knows stays true if the counter it is about to load again stays above the
stored number. -/
theorem Inv.store {counter : BitVec 64} {phase : Phase} {begun : Nat} {ended : List (Fin n × Nat)}
    (tells : Tells counter phase begun fun number => (t, number) ∈ ended)
    (grows : w.begun t ≤ begun) (more : ∀ entry ∈ w.ended, entry ∈ ended)
    (begins : begun = w.begun t → phase = .beginning → w.phase t = .beginning)
    (less : ∀ element res, w.pc = .less t res → w.queue.slots w.queue.head = some element →
      (element.epoch t).toNat ≤ w.begun t → element.epoch t < counter) :
    Inv (w.store t counter phase begun ended) := by
  have capturing : ∀ {i element}, Capturing w i element →
      Capturing (w.store t counter phase begun ended) i element := by
    intro i element old
    refine ⟨fun u => ?_, fun entry mem => ?_, old.loaded⟩
    · have number := old.number u
      by_cases same : u = t
      · subst same
        simpa [World.store] using Nat.le_trans number grows
      · simpa [World.store, same] using number
    · have known := old.known entry mem
      by_cases same : entry.1 = t
      · simp only [World.store, same, update_self]
        obtain ⟨positive, low, notBeginning⟩ := same ▸ known
        exact ⟨positive, Nat.le_trans low grows, fun last beginning =>
          notBeginning (by omega) (begins (by omega) beginning)⟩
      · simpa [World.store, same] using known
  have comparing : ∀ {i res element}, Comparing w i res element →
      Comparing (w.store t counter phase begun ended) i res element :=
    fun old => ⟨old.front, old.counted, fun entry mem low => more entry (old.ended entry mem low)⟩
  refine ⟨fun u => ?_, fun element mem => capturing (inv.captured element mem), inv.queued,
    fun element mem entry running => more entry (inv.safe element mem entry running), ?_⟩
  · by_cases same : u = t
    · subst same
      simpa [World.store] using tells
    · have other := inv.tells u
      simp only [World.store, update_of_ne same]
      exact ⟨other.small, other.live, other.started, fun number positive low last =>
        more _ (other.past number positive low last)⟩
  have follows : ∀ pc, w.pc = pc → AtPc w pc → AtPc (w.store t counter phase begun ended) pc := by
    intro pc isPc known
    cases pc with
    | idle => trivial
    | capture i element => exact capturing known
    | equal i res =>
      obtain ⟨element, known⟩ := known
      exact ⟨element, comparing known⟩
    | less u res =>
      obtain ⟨element, known, behind⟩ := known
      refine ⟨element, comparing known, ?_⟩
      by_cases same : u = t
      · subst same
        have number := (inv.captured element known.mem).number u
        simpa [World.store] using less element res isPc known.slot number
      · simpa [World.store, same] using behind
  exact follows w.pc rfl inv.pc

theorem Inv.increment (outside : w.phase t = .outside) (bounded : w.begun t + 1 < 2 ^ 63) :
    Inv (w.store t (w.counters t + 1) .beginning (w.begun t + 1) w.ended) := by
  have counter : (w.counters t + 1).toNat = 2 ^ 63 + (w.begun t + 1) := by
    have live := (inv.tells t).live
    rw [outside, if_neg (by decide)] at live
    rw [BitVec.toNat_add, live, show (1 : BitVec 64).toNat = 1 from rfl]
    omega
  refine inv.store ⟨bounded, counter, fun _ => Nat.succ_pos _, fun number positive low notLast => ?_⟩
    (Nat.le_succ _) (fun _ mem => mem) (fun same => absurd same (by omega)) fun element _ _ _ number => ?_
  · refine (inv.tells t).past number positive ?_ fun _ => outside
    have differs : number ≠ w.begun t + 1 := fun last => by cases notLast last
    omega
  · rw [BitVec.lt_def, counter]
    omega

theorem Inv.clear (beginning : w.phase t = .beginning) (apart : ¬ Crosses w t) :
    Inv (w.store t (w.counters t &&& begMask) .inside (w.begun t) w.ended) := by
  have ⟨small, live, started, past⟩ := inv.tells t
  have counter : (w.counters t &&& begMask).toNat = w.begun t := by
    rw [beginning, if_neg (by decide)] at live
    rw [begin_toNat, live]
    omega
  refine inv.store ⟨small, by simpa using counter, fun _ => started (by rw [beginning]; decide),
    fun number positive low notLast => past number positive low fun last => by cases notLast last⟩
    (Nat.le_refl _) (fun _ mem => mem) (fun _ phase => by cases phase) fun element res pc slot number => ?_
  -- the stored number is an earlier one, or the store would cross the two loads
  have differs : element.epoch t ≠ w.counters t &&& begMask := by
    intro equal
    apply apart
    simp [Crosses, pc, slot, equal]
  have unequal : (element.epoch t).toNat ≠ w.begun t := fun equal =>
    differs (BitVec.eq_of_toNat_eq (equal.trans counter.symm))
  rw [BitVec.lt_def, counter]
  omega

theorem Inv.endTX (inside : w.phase t = .inside) : Inv (w.store t (w.counters t ||| endMask) .outside
    (w.begun t) (w.ended ++ [(t, w.begun t)])) := by
  have ⟨small, live, started, past⟩ := inv.tells t
  have counter : (w.counters t ||| endMask).toNat = 2 ^ 63 + w.begun t := by
    rw [if_pos inside, Nat.zero_add] at live
    rw [end_toNat _ (by omega), live]
  refine inv.store ⟨small, counter, fun notOutside => absurd rfl notOutside,
    fun number positive low _ => ?_⟩ (Nat.le_refl _) (fun _ mem => List.mem_append_left _ mem)
    (fun _ phase => by cases phase) fun element _ _ _ number => ?_
  · by_cases last : number = w.begun t
    · exact List.mem_append_right _ (by simp [last])
    · exact List.mem_append_left _ (past number positive low fun isLast => absurd isLast last)
  · rw [BitVec.lt_def, counter]
    omega

/-! ### Steps of the collector -/

omit inv in
theorem mem_running {entry : Fin n × Nat} :
    entry ∈ w.running t ↔ w.phase t = .inside ∧ entry = (t, w.begun t) := by
  unfold World.running
  split <;> simp [*]

theorem Inv.running {entry : Fin n × Nat} (mem : entry ∈ w.running t) : 0 < entry.2 ∧
    entry.2 ≤ w.begun entry.1 ∧ (entry.2 = w.begun entry.1 → w.phase entry.1 ≠ .beginning) := by
  obtain ⟨inside, rfl⟩ := mem_running.mp mem
  exact ⟨(inv.tells t).started (by rw [inside]; decide), Nat.le_refl _, fun _ => by rw [inside]; decide⟩

theorem Inv.begins : Inv { w with
    pc := .capture 0 ⟨fun _ => 0, (List.finRange n).flatMap w.running⟩ } := by
  refine inv.setPc (.capture _ _) ⟨fun _ => Nat.zero_le _, fun entry mem => ?_,
    fun _ _ low => absurd low (Nat.not_lt_zero _)⟩
  obtain ⟨t, -, running⟩ := List.mem_flatMap.mp mem
  exact inv.running running

theorem Capturing.load (capturing : Capturing w t element) : Capturing w (t + 1)
    ⟨update element.epoch t (w.counters t &&& begMask), element.running ++ w.running t⟩ := by
  have masked : (w.counters t &&& begMask).toNat = w.begun t := by
    have small := (inv.tells t).small
    rw [begin_toNat, (inv.tells t).live]
    split <;> omega
  refine ⟨fun u => ?_, fun entry mem => ?_, fun entry mem low => ?_⟩
  · by_cases same : u = t
    · subst same
      simpa using Nat.le_of_eq masked
    · simpa [same] using capturing.number u
  · exact (List.mem_append.mp mem).elim (capturing.known entry) inv.running
  · by_cases same : entry.1 = t
    · have low : entry.2 ≤ w.begun entry.1 :=
        (List.mem_append.mp mem).elim (fun mem => (capturing.known entry mem).2.1)
          fun mem => (inv.running mem).2.1
      simpa [same, masked] using low
    · have earlier : entry ∈ element.running := by
        rcases List.mem_append.mp mem with earlier | new
        · exact earlier
        · obtain ⟨-, rfl⟩ := mem_running.mp new
          exact absurd rfl same
      have before : entry.1.val < t.val := by
        have different : entry.1.val ≠ t.val := fun equal => same (Fin.ext equal)
        omega
      simpa [same] using capturing.loaded entry earlier before

theorem Inv.addGCElement (capturing : Capturing w n element)
    (room : (w.queue.tail + 1) % qsize ≠ w.queue.head) : Inv { w with
      queue := w.queue.push qsize element
      elems := w.elems + 1
      added := w.added ++ [element]
      pc := .idle } := by
  refine ⟨inv.tells, fun other mem => ?_, ?_, inv.safe, trivial⟩
  · have known : Capturing w n other := by
      rcases List.mem_append.mp mem with earlier | last
      · exact inv.captured other earlier
      · exact List.mem_singleton.mp last ▸ capturing
    exact ⟨known.number, known.known, known.loaded⟩
  · obtain ⟨queued, shape, holds⟩ := inv.queued
    refine ⟨queued ++ [element], by simp [shape], holds.push _ ?_⟩
    have notFull := mt holds.full_iff.mpr room
    have less := holds.room
    omega

theorem Inv.remove (comparing : Comparing w n res element) :
    Inv { w.remove element with pc := .idle } := by
  obtain ⟨rest, shape, holds⟩ := comparing.front
  refine ⟨inv.tells, fun other mem => ?_, ⟨rest, ?_, holds.pop⟩,
    fun other mem entry running => ?_, trivial⟩
  · exact ⟨(inv.captured other mem).number, (inv.captured other mem).known,
      (inv.captured other mem).loaded⟩
  · simp [World.remove, shape]
  · rcases List.mem_append.mp mem with earlier | last
    · exact inv.safe other earlier entry running
    · rw [List.mem_singleton.mp last] at running
      exact comparing.ended entry running entry.1.isLt

theorem Inv.capture (pc : w.pc = .capture i element)
    (room : ¬ i < n → (w.queue.tail + 1) % qsize ≠ w.queue.head) :
    ∃ next, step w .advance = some next ∧ Inv next := by
  have capturing : Capturing w i element := by
    have known := inv.pc
    rwa [pc] at known
  by_cases inside : i < n
  · refine ⟨_, by simp only [step, advance, pc, dif_pos inside]; rfl, inv.setPc (.capture _ _) ?_⟩
    exact Capturing.load (t := ⟨i, inside⟩) inv capturing
  · have room := room inside
    refine ⟨_, by simp only [step, advance, pc, dif_neg inside, Epoch.addGCElement, if_neg room]; rfl, ?_⟩
    exact inv.addGCElement ⟨capturing.number, capturing.known, fun entry mem _ =>
      capturing.loaded entry mem (by omega)⟩ room

theorem Inv.equal (pc : w.pc = .equal i res) : ∃ next, step w .advance = some next ∧ Inv next := by
  have known := inv.pc
  rw [pc] at known
  obtain ⟨element, comparing⟩ := known
  have slot := comparing.slot
  obtain ⟨low, rfl⟩ := comparing.counted
  by_cases inside : res < n
  · by_cases same : element.epoch ⟨res, inside⟩ = w.counters ⟨res, inside⟩
    · exact ⟨{ w with pc := .idle }, by simp [step, advance, pc, slot, inside, same], inv.setPc .idle trivial⟩
    · refine ⟨{ w with pc := .less ⟨res, inside⟩ res }, by simp [step, advance, pc, slot, inside, same],
        inv.setPc (.less _ _) ⟨element, comparing, ?_⟩⟩
      have behind := Capturing.behind inv (inv.captured element comparing.mem) ⟨res, inside⟩
      bv_omega
  · -- all counters were less: the element goes
    obtain rfl : res = n := Nat.le_antisymm low (Nat.not_lt.mp inside)
    exact ⟨_, by simp [step, advance, pc, slot, verdict]; rfl, (inv.remove comparing).examine⟩

theorem Inv.less (pc : w.pc = .less t res) : ∃ next, step w .advance = some next ∧ Inv next := by
  have known := inv.pc
  rw [pc] at known
  obtain ⟨element, comparing, behind⟩ := known
  obtain ⟨-, rfl⟩ := comparing.counted
  refine ⟨_, by simp only [step, advance, pc, comparing.slot, Option.bind_eq_bind, Option.bind_some,
    if_pos behind]; rfl, inv.setPc (.equal _ _) ⟨element, comparing.front, ⟨t.isLt, rfl⟩, fun entry mem low => ?_⟩⟩
  by_cases same : entry.1 = t
  · exact Capturing.past inv (inv.captured element comparing.mem) behind mem same
  · have different : entry.1.val ≠ t.val := fun equal => same (Fin.ext equal)
    exact comparing.ended entry mem (by omega)

theorem Inv.reclaims : Reclaims w where
  safe := inv.safe
  ordered := by
    obtain ⟨queued, shape, holds⟩ := inv.queued
    refine ⟨queued, shape, holds, fun room i element pc => ?_⟩
    have notFull : (w.queue.tail + 1) % qsize ≠ w.queue.head :=
      mt holds.full_iff.mp (Nat.ne_of_lt room)
    exact (inv.capture pc fun _ => notFull).imp fun _ => And.left
  compares i res pc := (inv.equal pc).imp fun _ => And.left
  loads t res pc := (inv.less pc).imp fun _ => And.left

theorem Inv.advance {next : World n} (taken : advance w = some next) : Inv next := by
  have same : (∃ other, step w .advance = some other ∧ Inv other) → Inv next := by
    rintro ⟨other, again, after⟩
    exact Option.some.inj (again.symm.trans taken) ▸ after
  cases pc : w.pc with
  | idle => simp [Epoch.advance, pc] at taken
  | capture i element =>
    refine same (inv.capture pc fun outside full => ?_)
    simp [Epoch.advance, pc, outside, Epoch.addGCElement, full] at taken
  | equal i res => exact same (inv.equal pc)
  | less t res => exact same (inv.less pc)

theorem Inv.step {next : World n} {act : Act n} (admitted : Admitted w act)
    (taken : step w act = some next) : Inv next := by
  cases act <;> simp only [Epoch.step] at taken
  case increment t =>
    split at taken <;> cases taken
    rename_i outside
    exact inv.increment outside admitted
  case clear t =>
    split at taken <;> cases taken
    rename_i beginning
    exact inv.clear beginning admitted
  case endTX t =>
    split at taken <;> cases taken
    rename_i inside
    exact inv.endTX inside
  case addGCElement =>
    split at taken <;> cases taken
    exact inv.begins
  case gc =>
    split at taken <;> cases taken
    exact inv.examine
  case advance => exact inv.advance taken

end

/-- Whatever the interleaving, if no second store of `beginTX` falls between the two loads of its
counter in a `Compare` for the same transaction, elements leave in order and only when the
transactions that were running at their capture have ended, and no comparison falls through. -/
theorem queue_reclaims {acts : List (Act n)} {w : World n}
    (admitted : Each step Admitted {} acts) (reached : run step {} acts = some w) : Reclaims w :=
  (run_preserves (fun _ _ _ inv admitted taken => inv.step admitted taken) Inv.initial admitted
    reached).reclaims

/-- Thread 0 is captured inside its transaction, between two elements that thread 1 adds; the first
`GC` stops at it. A capture in the middle of `beginTX` is compared and goes. -/
def collection : List (Act 2) :=
  [.increment 0, .addGCElement, .advance, .clear 0, .advance, .advance, .addGCElement, .advance,
    .advance, .advance, .gc, .advance, .endTX 0, .gc, .advance, .advance, .increment 0, .advance,
    .advance, .clear 0, .advance, .advance, .advance, .advance, .advance, .advance]

theorem queue_reclaims_collection : ∃ w : World 2, run step {} collection = some w ∧
    w.removed.map GCElement.running = [[], [(0, 1), (0, 1)]] ∧ Reclaims w := by
  have admitted : Each step Admitted {} collection := by decide +kernel
  obtain ⟨w, ran, removed⟩ : ∃ w : World 2, run step {} collection = some w ∧
      w.removed.map GCElement.running = [[], [(0, 1), (0, 1)]] :=
    Option.map_eq_some_iff.mp (show (run step {} collection).map
      (fun w => w.removed.map GCElement.running) = some [[], [(0, 1), (0, 1)]] by decide +kernel)
  exact ⟨w, ran, removed, queue_reclaims admitted ran⟩

/-- Thread 0 stores 1 with the end bit, the collector captures `[1, 0]` and loads the counter once,
thread 0 clears the bit, the second load finds 1 < 1 false: one of two counters is less. -/
def crossing : List (Act 2) :=
  [.increment 0, .addGCElement, .advance, .advance, .advance, .gc, .advance, .clear 0, .advance,
    .advance, .advance]

theorem compare_falls_through : ∃ w : World 2, run step {} crossing = some w ∧
    (∀ t, w.begun t < 2 ^ 63) ∧ w.pc = .equal 2 1 ∧ step w .advance = none := by
  refine ⟨_, rfl, by decide +kernel, rfl, by decide +kernel⟩

end EunoDb.Epoch
