import EunoDb.Execution
import EunoDb.SkipInsert
import EunoDb.SkipSearch

/-! `LockfreeSkipList` used by one thread. `NewNode` leaves the links as the memory had them.
Running out of rounds has no result. -/

namespace EunoDb.LockfreeInsert

open Execution LinkedList SkipLevels SkipSearch Function
open SkipInsert (NodeId head)

def kMaxHeight : Nat := 12

structure State (K : Type) where
  memory : Memory NodeId K
  maxHeight : Nat := 1
  allocated : NodeId → Bool := (· == head)

def create {K : Type} (memory : Memory NodeId K) : State K where
  memory := { memory with next := update memory.next head fun _ => none }

structure Input (K : Type) where
  key : K
  height : Nat
  node : NodeId

variable {K : Type} [LinearOrder K]

def insert (fuel : Nat) (s : State K) (input : Input K) : Option (State K × Bool) := do
  let raised := s.maxHeight < input.height
  let preds := if raised then fillHead head (fun _ => none) s.maxHeight input.height else fun _ => none
  let s := { s with maxHeight := if raised then input.height else s.maxHeight }
  let found ← search s.memory input.key fuel (s.maxHeight - 1) head { preds := preds }
  match hit s.memory input.key found.next with
  | some _ => return (s, false)
  | none =>
    let s := { s with
      memory := { s.memory with key := update s.memory.key input.node input.key }
      allocated := update s.allocated input.node true }
    match ← casLoop fuel input.key found.trace.preds input.node input.height 0 s.memory with
    | .all memory => return ({ s with memory := memory }, true)
    | .duplicate memory _ => return ({ s with memory := memory }, false)

def seek (fuel : Nat) (s : State K) (key : K) : Option (Option NodeId) :=
  (search s.memory key fuel (s.maxHeight - 1) head {}).map Found.next

/-! ### One call -/

structure Good (s : State K) (lists : Nat → List NodeId) : Prop where
  levels : Levels s.memory head lists
  headUsed : s.allocated head = true
  known : ∀ node ∈ lists 0, s.allocated node = true
  top : s.maxHeight ≤ kMaxHeight

theorem create_good (memory : Memory NodeId K) :
    Good (create memory) fun _ => [] where
  levels := {
    linked := fun level => by
      have first : (create memory).memory.next head level = none := by simp [create]
      rw [first]
      exact .nil
    head := fun _ => List.not_mem_nil
    ordered := fun _ => .nil
    below := fun _ _ mem => mem }
  headUsed := rfl
  known := nofun
  top := (by decide : (1 : Nat) ≤ kMaxHeight)

section

variable {s : State K} {lists : Nat → List NodeId} {input : Input K} {fuel : Nat}

inductive Inserts (s after : State K) (lists longer : Nat → List NodeId) (input : Input K) :
    Bool → Prop where
  | present {node : NodeId} (member : node ∈ lists 0) (isKey : s.memory.key node = input.key)
      (same : longer = lists) (memory : after.memory = s.memory) :
      Inserts s after lists longer input false
  | added (absent : ∀ node ∈ lists 0, s.memory.key node ≠ input.key) (fresh : input.node ∉ lists 0)
      (members : ∀ node, node ∈ longer 0 ↔ node ∈ lists 0 ∨ node = input.node)
      (isKey : after.memory.key input.node = input.key)
      (keys : ∀ node ∈ lists 0, after.memory.key node = s.memory.key node) :
      Inserts s after lists longer input true

theorem insert_inserts (good : Good s lists) (unused : s.allocated input.node = false)
    (positive : 1 ≤ input.height) (bounded : input.height ≤ kMaxHeight)
    (enough : kMaxHeight + (lists 0).length < fuel) :
    ∃ after linked longer, insert fuel s input = some (after, linked) ∧ Good after longer ∧
      Inserts s after lists longer input linked := by
  have notHead : input.node ≠ head := by
    rintro same
    rw [same, good.headUsed] at unused
    cases unused
  have fresh : input.node ∉ lists 0 := by
    intro mem
    rw [good.known input.node mem] at unused
    cases unused
  let maxHeight := if s.maxHeight < input.height then input.height else s.maxHeight
  let preds := if s.maxHeight < input.height then
    fillHead head (fun _ => none) s.maxHeight input.height else fun _ => none
  have covers : input.height ≤ maxHeight ∧ maxHeight ≤ kMaxHeight := by
    have top := good.top
    simp only [maxHeight]
    split <;> omega
  have steps : maxHeight - 1 + (lists 0).length < fuel := by omega
  -- the search starts on the raised height, so it sets every element of `preds` that is used
  obtain ⟨found, searched, ends⟩ := search_ends good.levels input.key { preds := preds } steps
  obtain ⟨more, rfl⟩ : ∃ more, fuel = more + 1 := ⟨fuel - 1, by omega⟩
  cases tested : hit s.memory input.key found.next with
  | some x =>
    obtain ⟨mem, isKey⟩ := ends.hit good.levels tested
    refine ⟨{ s with maxHeight := maxHeight }, false, lists, ?_,
      ⟨good.levels, good.headUsed, good.known, covers.2⟩, .present mem isKey rfl rfl⟩
    simp only [insert, Option.bind_eq_bind]
    rw [searched]
    simp [tested, maxHeight]
  | none =>
    let memory : Memory NodeId K :=
      { s.memory with key := update s.memory.key input.node input.key }
    have aside : Aside s.memory memory input.node input.key :=
      ⟨update_self .., fun _ different => update_of_ne different .., fun _ _ => rfl⟩
    have absent := ends.absent good.levels tested
    have placed : ∀ level < input.height, ∃ pred, found.trace.preds level = some pred ∧
        Stops s.memory head lists input.key level pred := by
      intro level low
      obtain ⟨pred, isPred, -, stops⟩ := ends.traced level (by omega)
      exact ⟨pred, isPred, stops⟩
    obtain ⟨linked, longer, -, swapped, levels, keys, members⟩ :=
      link_new good.levels aside notHead fresh absent placed
    have exactly : ∀ node, node ∈ longer 0 ↔ node ∈ lists 0 ∨ node = input.node := by
      intro node
      rw [members]
      exact or_congr_right ⟨fun inside => inside.2, fun same => ⟨positive, same⟩⟩
    let allocated := update s.allocated input.node true
    have used : ∀ node, s.allocated node = true → allocated node = true := by
      intro node isUsed
      by_cases same : node = input.node
      · simp [allocated, same]
      · simpa [allocated, same] using isUsed
    refine ⟨⟨linked, maxHeight, allocated⟩, true, longer, ?_, ⟨levels, used head good.headUsed, ?_,
      covers.2⟩, .added absent fresh exactly ?_ ?_⟩
    · simp only [insert, Option.bind_eq_bind]
      rw [searched]
      simp only [Option.bind_some, tested]
      rw [swapped]
      rfl
    · intro node mem
      rcases (exactly node).mp mem with was | rfl
      · exact used node (good.known node was)
      · exact update_self ..
    · rw [keys]
      exact aside.isKey
    · intro node mem
      rw [keys]
      exact aside.key node fun same => fresh (same ▸ mem)

def IsFirst (s : State K) (nodes : List NodeId) (key : K) : Option NodeId → Prop
  | some x => x ∈ nodes ∧ key ≤ s.memory.key x ∧
      ∀ node ∈ nodes, key ≤ s.memory.key node → s.memory.key x ≤ s.memory.key node
  | none => ∀ node ∈ nodes, s.memory.key node < key

theorem seek_answers (good : Good s lists) (enough : kMaxHeight + (lists 0).length < fuel)
    (key : K) : ∃ answer, seek fuel s key = some answer ∧ IsFirst s (lists 0) key answer := by
  have steps : s.maxHeight - 1 + (lists 0).length < fuel := by
    have top := good.top
    omega
  obtain ⟨found, searched, ends⟩ := search_ends good.levels key {} steps
  refine ⟨found.next, by simp [seek, searched], ?_⟩
  cases isNext : found.next with
  | none =>
    intro node mem
    by_contra notLess
    obtain ⟨next, link, -⟩ := ends.stops.least good.levels mem (not_lt.mp notLess)
    rw [ends.next, link] at isNext
    cases isNext
  | some x =>
    rw [ends.next] at isNext
    refine ⟨(good.levels.next_mem ends.stops.on isNext).1, ends.stops.last x isNext, ?_⟩
    intro node mem notLess
    obtain ⟨next, link, -, le⟩ := ends.stops.least good.levels mem notLess
    rw [isNext] at link
    cases link
    exact le

end

end EunoDb.LockfreeInsert
