import Mathlib.Data.List.Basic
import Mathlib.Logic.Function.Basic

/-! `HashTable` of `hashtable_template.h`. -/

namespace EunoDb

open Function

abbrev HashTable.NodeId := Nat

structure HashTable.Node (Key : Type) where
  id : HashTable.NodeId
  hash : UInt64
  key : Key
  deriving DecidableEq, Repr

def HashTable.slot (hash : UInt64) : Nat := (hash &&& (16384000 - 1)).toNat

structure HashTable {Key : Type} (hashfunc : Key → UInt64) where
  list : Nat → List (HashTable.Node Key) := fun _ => []
  seq : HashTable.NodeId → Nat := fun _ => 0
  elems : HashTable.NodeId := 0
  placed : ∀ i, ∀ node ∈ list i,
    node.hash = hashfunc node.key ∧ HashTable.slot node.hash = i ∧ node.id < elems := by
      exact fun _ _ member => by cases member
  distinct : ∀ i, ∀ a ∈ list i, ∀ j, ∀ b ∈ list j, a.id = b.id ∨ a.key = b.key → a = b := by
      exact fun _ _ member => by cases member

namespace HashTable

variable {Key : Type} [DecidableEq Key] {hashfunc : Key → UInt64}

def getNode (table : HashTable hashfunc) (k : Key) : Option (Node Key) :=
  (table.list (slot (hashfunc k))).find? fun node => node.hash = hashfunc k ∧ node.key = k

def getMaxWithHash (table : HashTable hashfunc) (hash : UInt64) : Option Nat :=
  let max := (table.list (slot hash)).foldl (fun max node =>
    if node.hash = hash then (if max < table.seq node.id then table.seq node.id else max)
    else max) 0
  if max = 0 then none else some max

variable {table : HashTable hashfunc} {k : Key} {node : Node Key}

theorem getNode_eq_some :
    table.getNode k = some node ↔ node ∈ table.list (slot (hashfunc k)) ∧ node.key = k := by
  unfold getNode
  constructor
  · intro found
    have hit := List.find?_some found
    simp only [decide_eq_true_eq] at hit
    exact ⟨List.mem_of_find?_eq_some found, hit.2⟩
  rintro ⟨mem, rfl⟩
  have hash := (table.placed _ node mem).1
  cases found : (table.list (slot (hashfunc node.key))).find?
      fun other => other.hash = hashfunc node.key ∧ other.key = node.key with
  | none =>
    have miss := List.find?_eq_none.mp found node mem
    simp [hash] at miss
  | some other =>
    have hit := List.find?_some found
    simp only [decide_eq_true_eq] at hit
    rw [table.distinct _ other (List.mem_of_find?_eq_some found) _ node mem (Or.inr hit.2)]

theorem getNode_eq_none : table.getNode k = none ↔ ∀ i, ∀ node ∈ table.list i, node.key ≠ k := by
  constructor
  · rintro missing i node mem rfl
    obtain ⟨hash, slot, _⟩ := table.placed i node mem
    have found : table.getNode node.key = some node := by
      rw [getNode_eq_some, ← hash, slot]
      exact ⟨mem, rfl⟩
    rw [missing] at found
    cases found
  · intro absent
    cases found : table.getNode k with
    | none => rfl
    | some node =>
      obtain ⟨mem, same⟩ := getNode_eq_some.mp found
      exact absurd same (absent _ node mem)

omit [DecidableEq Key] in
theorem mem_front {list : Nat → List (Node Key)} {at_ i : Nat} {new : Node Key} :
    node ∈ update list at_ (new :: list at_) i ↔ i = at_ ∧ node = new ∨ node ∈ list i := by
  by_cases same : i = at_
  · subst same
    simp
  · simp [same]

def insert (table : HashTable hashfunc) (k : Key) (missing : table.getNode k = none) :
    HashTable hashfunc where
  list := update table.list (slot (hashfunc k))
    (⟨table.elems, hashfunc k, k⟩ :: table.list (slot (hashfunc k)))
  seq := update table.seq table.elems 0
  elems := table.elems + 1
  placed := by
    intro i node member
    rcases mem_front.mp member with ⟨rfl, rfl⟩ | old
    · exact ⟨rfl, rfl, Nat.lt_succ_self _⟩
    · obtain ⟨hash, here, bound⟩ := table.placed i node old
      exact ⟨hash, here, Nat.lt_succ_of_lt bound⟩
  distinct := by
    have other : ∀ i, ∀ node ∈ table.list i, ¬ (table.elems = node.id ∨ k = node.key) := by
      rintro i node member (id | key)
      · exact Nat.ne_of_gt (table.placed i node member).2.2 id
      · exact getNode_eq_none.mp missing i node member key.symm
    intro i a first j b second same
    rcases mem_front.mp first with ⟨_, rfl⟩ | first
    · rcases mem_front.mp second with ⟨_, rfl⟩ | second
      · rfl
      · exact absurd same (other j b second)
    · rcases mem_front.mp second with ⟨_, rfl⟩ | second
      · exact absurd (same.imp Eq.symm Eq.symm) (other i a first)
      · exact table.distinct i a first j b second same

def getNodeWithInsert (table : HashTable hashfunc) (k : Key) : HashTable hashfunc × Node Key :=
  match found : table.getNode k with
  | some node => (table, node)
  | none => (table.insert k found, ⟨table.elems, hashfunc k, k⟩)

def seqOf (table : HashTable hashfunc) (k : Key) : Nat :=
  match table.getNode k with
  | some node => table.seq node.id
  | none => 0

theorem seqOf_of_getNode (found : table.getNode k = some node) :
    table.seqOf k = table.seq node.id := by
  unfold seqOf
  rw [found]

theorem key_of_getNode (found : table.getNode k = some node) :
    node.key = k ∧ node.hash = hashfunc k := by
  obtain ⟨mem, rfl⟩ := getNode_eq_some.mp found
  exact ⟨rfl, (table.placed _ node mem).1⟩

theorem getNode_inj {k' : Key} {node' : Node Key} (first : table.getNode k = some node)
    (second : table.getNode k' = some node') (same : node.id = node'.id) : k = k' := by
  obtain ⟨here, rfl⟩ := getNode_eq_some.mp first
  obtain ⟨there, rfl⟩ := getNode_eq_some.mp second
  rw [table.distinct _ node here _ node' there (Or.inl same)]

theorem getNodeWithInsert_getNode (table : HashTable hashfunc) (k : Key) :
    (table.getNodeWithInsert k).1.getNode k = some (table.getNodeWithInsert k).2 := by
  unfold getNodeWithInsert
  split
  · assumption
  · refine getNode_eq_some.mpr ⟨?_, rfl⟩
    exact mem_front.mpr (Or.inl ⟨rfl, rfl⟩)

theorem getNodeWithInsert_old {k' : Key} (found : table.getNode k' = some node) :
    (table.getNodeWithInsert k).1.getNode k' = some node ∧
      (table.getNodeWithInsert k).1.seq node.id = table.seq node.id := by
  unfold getNodeWithInsert
  split
  · exact ⟨found, rfl⟩
  · obtain ⟨mem, same⟩ := getNode_eq_some.mp found
    refine ⟨getNode_eq_some.mpr ⟨mem_front.mpr (Or.inr mem), same⟩, ?_⟩
    exact update_of_ne (Nat.ne_of_lt (table.placed _ node mem).2.2) ..

theorem seqOf_getNodeWithInsert (table : HashTable hashfunc) (k k' : Key) :
    (table.getNodeWithInsert k).1.seqOf k' = table.seqOf k' := by
  cases found : table.getNode k' with
  | some node =>
    obtain ⟨still, seq⟩ := getNodeWithInsert_old (k := k) found
    rw [seqOf_of_getNode still, seqOf_of_getNode found, seq]
  | none =>
    -- a node that was not there is the new one, and empty
    have before : table.seqOf k' = 0 := by
      unfold seqOf
      rw [found]
    rw [before]
    unfold getNodeWithInsert
    split
    · exact before
    rename_i missing
    unfold seqOf
    split
    · rename_i node there
      obtain ⟨mem, same⟩ := getNode_eq_some.mp there
      rcases mem_front.mp mem with ⟨_, rfl⟩ | old
      · exact update_self ..
      · exact absurd same (getNode_eq_none.mp found _ node old)
    · rfl

def setSeq (table : HashTable hashfunc) (seq : NodeId → Nat) : HashTable hashfunc :=
  { table with seq := seq }

@[simp] theorem setSeq_getNode (table : HashTable hashfunc) (seq : NodeId → Nat) (k : Key) :
    (table.setSeq seq).getNode k = table.getNode k := rfl

theorem seqOf_setSeq (found : table.getNode k = some node) (seq : NodeId → Nat) :
    (table.setSeq seq).seqOf k = seq node.id := by
  have still : (table.setSeq seq).getNode k = some node := found
  exact seqOf_of_getNode still

omit [DecidableEq Key] in
theorem le_foldl_max (seq : NodeId → Nat) (hash : UInt64) (nodes : List (Node Key)) (start : Nat) :
    let max := nodes.foldl (fun max node =>
      if node.hash = hash then (if max < seq node.id then seq node.id else max) else max) start
    start ≤ max ∧ ∀ node ∈ nodes, node.hash = hash → seq node.id ≤ max := by
  induction nodes generalizing start with
  | nil => simp
  | cons first rest ih =>
    obtain ⟨grows, above⟩ := ih
      (if first.hash = hash then (if start < seq first.id then seq first.id else start) else start)
    refine ⟨Nat.le_trans ?_ grows, ?_⟩
    · split
      · split <;> omega
      · exact Nat.le_refl _
    intro node mem same
    rcases List.mem_cons.mp mem with rfl | inside
    · refine Nat.le_trans ?_ grows
      rw [if_pos same]
      split <;> omega
    · exact above node inside same

theorem seqOf_of_getMaxWithHash (nothing : (table.getMaxWithHash (hashfunc k)).getD 0 = 0) :
    table.seqOf k = 0 := by
  cases found : table.getNode k with
  | none =>
    unfold seqOf
    rw [found]
  | some node =>
    obtain ⟨mem, _⟩ := getNode_eq_some.mp found
    have above := (le_foldl_max table.seq (hashfunc k) _ 0).2 node mem (key_of_getNode found).2
    rw [seqOf_of_getNode found]
    unfold getMaxWithHash at nothing
    simp only at nothing
    split at nothing
    · omega
    · simp only [Option.getD_some] at nothing
      omega

end HashTable

end EunoDb
