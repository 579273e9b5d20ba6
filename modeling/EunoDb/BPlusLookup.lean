import EunoDb.BPlusContents

/-! `RoGet`. -/

namespace EunoDb.BPlusTree

open Slots

variable {Val : Type}

structure Memory (Val : Type) where
  key : LeafId → Nat → Key
  value : LeafId → Nat → Option Val

def Memory.keyAt (memory : Memory Val) (heap : Heap Val) (id : LeafId) (k : Nat) : Key :=
  (read (heap.leaf id).keys k).getD (memory.key id k)

def Memory.valueAt (memory : Memory Val) (heap : Heap Val) (id : LeafId) (k : Nat) : Option Val :=
  (read (heap.leaf id).values k).or (memory.value id k)

structure Lookup (Val : Type) where
  result : Option Val
  leaf : LeafId
  slots : List Nat

def roGet (memory : Memory Val) (s : State Val) (key : Key) : Option (Lookup Val) := do
  let id ← findLeaf key s.depth s.root
  let leaf := s.heap.leaf id
  let k ← scan leaf.keys (fun other => other < key) 0 leaf.numKeys
  -- the loop has read the slots before `k`; the test that follows it reads slot `k`
  return {
    result := if memory.keyAt s.heap id k = key then memory.valueAt s.heap id k else none
    leaf := id
    slots := List.range (k + 1) }

def State.Bounded (s : State Val) (key : Key) : Prop :=
  ∃ id, findLeaf key s.depth s.root = some id ∧
    ∃ entry ∈ (s.heap.leaf id).entries, key ≤ entry.1

variable {memory : Memory Val} {key : Key} {id : LeafId} {before after : List (Key × Val)}
  {entry : Key × Val}

theorem roGet_eq {s : State Val} (found : findLeaf key s.depth s.root = some id)
    (holds : Holds (s.heap.leaf id) (before ++ after)) (below : ∀ entry ∈ before, entry.1 < key)
    (above : ∀ entry ∈ after, key ≤ entry.1) :
    roGet memory s key = some {
      result := if memory.keyAt s.heap id before.length = key then
        memory.valueAt s.heap id before.length else none
      leaf := id
      slots := List.range (before.length + 1) } := by
  simp [roGet, found, holds.search_lt below above]

theorem Holds.tested {heap : Heap Val} (holds : Holds (heap.leaf id) (before ++ entry :: after)) :
    memory.keyAt heap id before.length = entry.1 ∧
      memory.valueAt heap id before.length = some entry.2 := by
  obtain ⟨key, value⟩ := holds.at
  simp [Memory.keyAt, Memory.valueAt, key, value]

theorem Row.Ordered.lookup {row : Row Val} (ordered : row.Ordered)
    (shape : row.entries = before ++ entry :: after) (below : ∀ other ∈ before, other.1 < key)
    (above : key ≤ entry.1) (val : Val) : (key, val) ∈ row.entries ↔ entry = (key, val) := by
  constructor
  · intro mem
    have increasing := ordered.increasing
    rw [shape] at increasing mem
    obtain ⟨-, inRest, -⟩ := List.pairwise_append.mp increasing
    rcases List.mem_append.mp mem with inBefore | inRest'
    · exact absurd (below _ inBefore) (Nat.lt_irrefl key)
    rcases List.mem_cons.mp inRest' with same | inAfter
    · exact same.symm
    · have less := (List.pairwise_cons.mp inRest).1 _ inAfter
      exact absurd (Nat.lt_of_le_of_lt above less) (Nat.lt_irrefl key)
  · rintro rfl
    rw [shape]
    simp

theorem Represents.agrees {inserts : List (Key × Val)} {s : State Val} {rows : List (Row Val)}
    (represents : Represents s rows) (values : FirstValues rows inserts)
    (bounded : s.Bounded key) :
    ∃ lookup, roGet memory s key = some lookup ∧ lookup.result = inserts.lookup key ∧
      ∀ slot ∈ lookup.slots, slot < (s.heap.leaf lookup.leaf).numKeys := by
  obtain ⟨id, arrives, bound, inLeaf, notBelow⟩ := bounded
  obtain ⟨front, row, back, rfl, found, inRow⟩ := represents.descend key
  cases found.symm.trans arrives
  have holds := represents.layout.holds row (by simp)
  have ordered := represents.layout.ordered row (by simp)
  rw [holds.entries_eq] at inLeaf
  obtain ⟨before, after, shape, below, above⟩ := ordered.cut_lt key
  rw [shape] at inLeaf holds
  cases after with
  | nil =>
    -- then all keys would be below the searched one
    rw [List.append_nil] at inLeaf
    exact absurd (Nat.lt_of_lt_of_le (below _ inLeaf) notBelow) (Nat.lt_irrefl _)
  | cons entry after =>
    have isKey : memory.keyAt s.heap row.id before.length = entry.1 := holds.tested.1
    have isValue : memory.valueAt s.heap row.id before.length = some entry.2 := holds.tested.2
    have least := above entry List.mem_cons_self
    refine ⟨_, roGet_eq found holds below above, ?_, ?_⟩
    · rw [isKey, isValue]
      have stored := fun val => ((values key val).symm.trans (inRow val)).trans
        (ordered.lookup shape below least val)
      split
      · rename_i same
        exact ((stored entry.2).mpr (by rw [← same])).symm
      · rename_i different
        cases first : inserts.lookup key with
        | none => rfl
        | some val => exact absurd (congrArg Prod.fst ((stored val).mp first)) different
    · intro slot member
      rw [List.mem_range] at member
      rw [holds.num, List.length_append, List.length_cons]
      omega

/-- A leaf whose keys are all smaller sends the scan to its end, and the test reads the slot
there. -/
theorem Represents.bounded {s : State Val} {rows : List (Row Val)} {lookup : Lookup Val}
    (represents : Represents s rows) (returned : roGet memory s key = some lookup)
    (inside : ∀ slot ∈ lookup.slots, slot < (s.heap.leaf lookup.leaf).numKeys) :
    s.Bounded key := by
  obtain ⟨front, row, back, rfl, found, -⟩ := represents.descend key
  have holds := represents.layout.holds row (by simp)
  obtain ⟨before, after, shape, below, above⟩ :=
    (represents.layout.ordered row (by simp)).cut_lt key
  rw [shape] at holds
  cases returned.symm.trans (roGet_eq found holds below above)
  cases after with
  | nil =>
    have last := inside before.length (by simp)
    rw [holds.num, List.append_nil] at last
    exact absurd last (Nat.lt_irrefl _)
  | cons entry after =>
    refine ⟨row.id, found, entry, ?_, above entry List.mem_cons_self⟩
    rw [holds.entries_eq]
    simp

/-- `RoGet` agrees with the insertions, inside its leaf, exactly for the keys that some key of
their leaf bounds. -/
theorem roGet_index {inserts : List (Key × Val)} {s : State Val}
    (reached : getSecs {} inserts = some s) (key : Key) (memory : Memory Val) :
    (∃ lookup, roGet memory s key = some lookup ∧ lookup.result = inserts.lookup key ∧
      ∀ slot ∈ lookup.slots, slot < (s.heap.leaf lookup.leaf).numKeys) ↔ s.Bounded key := by
  obtain ⟨final, rows, finished, represents, values⟩ := getSecs_represents inserts
  cases reached.symm.trans finished
  constructor
  · rintro ⟨lookup, returned, -, inside⟩
    exact represents.bounded returned inside
  · exact represents.agrees values

/-- The keys 0, 2, .., 38: the first leaf is split, and its upper slots are stale. -/
def evens : List (Key × Nat) := (List.range 20).map fun n => (2 * n, n + 100)

/-- The key 12 is found and 5 is not; 15 stops the scan at a slot that the split left behind. -/
theorem roGet_index_split :
    ∃ s, getSecs {} evens = some s ∧ s.depth = 1 ∧
      (∃ lookup, roGet ⟨fun _ _ => 5, fun _ _ => some 9⟩ s 12 = some lookup ∧
        lookup.result = some 106) ∧
      (∃ lookup, roGet ⟨fun _ _ => 5, fun _ _ => some 9⟩ s 5 = some lookup ∧
        lookup.result = none) ∧
      ¬ ∃ lookup, roGet ⟨fun _ _ => 5, fun _ _ => some 9⟩ s 15 = some lookup ∧
        lookup.result = none ∧
        ∀ slot ∈ lookup.slots, slot < (s.heap.leaf lookup.leaf).numKeys := by
  obtain ⟨s, reached, shape⟩ : ∃ s, getSecs {} evens = some s ∧
      (s.depth, [5, 12, 15].map (findLeaf · s.depth s.root), (s.heap.leaf 0).entries) =
        (1, [some 0, some 0, some 0], evens.take 8) :=
    Option.map_eq_some_iff.mp (by decide +kernel)
  simp only [Prod.mk.injEq, List.map_cons, List.map_nil, List.cons.injEq] at shape
  obtain ⟨depth, ⟨five, twelve, fifteen, -⟩, entries⟩ := shape
  have bounds := roGet_index reached
  obtain ⟨present, read, value, -⟩ :=
    (bounds 12 ⟨fun _ _ => 5, fun _ _ => some 9⟩).mpr
      ⟨0, twelve, (12, 106), by rw [entries]; decide, Nat.le_refl 12⟩
  obtain ⟨absent, tried, nothing, -⟩ :=
    (bounds 5 ⟨fun _ _ => 5, fun _ _ => some 9⟩).mpr
      ⟨0, five, (12, 106), by rw [entries]; decide, by decide⟩
  refine ⟨s, reached, depth, ⟨present, read, value⟩, ⟨absent, tried, nothing⟩, fun agrees => ?_⟩
  obtain ⟨id, found, entry, inLeaf, notBelow⟩ :=
    (bounds 15 ⟨fun _ _ => 5, fun _ _ => some 9⟩).mp agrees
  cases found.symm.trans fifteen
  rw [entries] at inLeaf
  have small : ∀ entry ∈ evens.take 8, entry.1 < 15 := by decide
  exact absurd notBelow (Nat.not_le_of_lt (small entry inLeaf))

theorem roGet_unwritten :
    getSecs {} ([] : List (Key × Nat)) = some {} ∧
      ([] : List (Key × Nat)).lookup 5 = none ∧
      (({} : State Nat).heap.leaf 0).numKeys = 0 ∧
      ∃ lookup, roGet ⟨fun _ _ => 5, fun _ _ => some 9⟩ ({} : State Nat) 5 = some lookup ∧
        lookup.leaf = 0 ∧ lookup.slots = [0] ∧ lookup.result = some 9 :=
  ⟨rfl, rfl, rfl, _, rfl, rfl, rfl, rfl⟩

end EunoDb.BPlusTree
