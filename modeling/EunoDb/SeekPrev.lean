import EunoDb.MemStoreCalls
import EunoDb.StringKeys

/-! `SeekPrev` of the three iterators. -/

namespace EunoDb.BPlusTree

open Slots

variable {Val : Type}

def prevPlace (s : State Val) (id : LeafId) (below : Key → Bool) :
    Option (LeafId × Option Nat) := do
  let leaf := s.heap.leaf id
  let k ← scan leaf.keys below 0 leaf.numKeys
  if k = 0 then
    -- `node_->seq` is read, also if there is no leaf
    let left ← leaf.left
    return (left, some ((s.heap.leaf left).numKeys - 1))
  else return (id, none)

def Cursor.goto (cursor : Cursor Val) : LeafId × Option Nat → Cursor Val
  | (id, index) => { cursor with node := some id, leafIndex := index.getD cursor.leafIndex }

def seekPrev (s : State Val) (cursor : Cursor Val) (key : Key) : Option (Cursor Val) := do
  let id ← findLeaf key s.depth s.root
  let place ← prevPlace s id fun other => other < key
  return cursor.goto place

def Cursor.observe (s : State Val) (cursor : Cursor Val) : Option (Key × Option Val) :=
  if cursor.valid s then some (cursor.key, cursor.value) else none

/-- The greatest entry below the key, or none. -/
def Greatest {K V : Type} (less : K → K → Prop) (entries : List (K × V)) (key : K) :
    Option (K × Option V) → Prop
  | none => ∀ entry ∈ entries, ¬ less entry.1 key
  | some (found, val) => ∃ v, val = some v ∧ (found, v) ∈ entries ∧ less found key ∧
      ∀ entry ∈ entries, less entry.1 key → ¬ less found entry.1

/-- `node_` is a leaf with the greatest smaller key: the searched leaf, where `leaf_index` stays
what it was, or the left neighbour, which ends with that key and gets its index. -/
def PrevOf (less : Key → Key → Prop) (s : State Val) (leaf : LeafId) (key : Key) :
    Option (LeafId × Option Nat) → Prop
  | none => ∀ entry ∈ s.contents, ¬ less entry.1 key
  | some (node, index) => node ∈ s.leaves ∧
    ∃ front found back, (s.heap.leaf node).entries = front ++ found :: back ∧
      Greatest less s.contents key (some (found.1, some found.2)) ∧
      (node = leaf ∧ index = none ∨ (s.heap.leaf leaf).left = some node ∧
        index = some front.length ∧ back = [])

theorem greatest_of_cut {entries : List (Key × Val)} {found : Key × Val} {key : Key}
    (increasing : entries.Pairwise fun earlier later => earlier.1 < later.1)
    (front back : List (Key × Val)) (shape : entries = front ++ found :: back) (below : found.1 < key)
    (above : ∀ entry ∈ back, key ≤ entry.1) :
    Greatest (· < ·) entries key (some (found.1, some found.2)) := by
  subst shape
  refine ⟨found.2, rfl, by simp, below, fun entry mem less => ?_⟩
  obtain ⟨-, -, apart⟩ := List.pairwise_append.mp increasing
  rcases List.mem_append.mp mem with inFront | inRest
  · exact Nat.not_lt_of_lt (apart entry inFront found List.mem_cons_self)
  · rcases List.mem_cons.mp inRest with rfl | inBack
    · exact Nat.lt_irrefl _
    · exact absurd less (Nat.not_lt.mpr (above entry inBack))

theorem Represents.prevOf {s : State Val} {rows : List (Row Val)}
    (represents : Represents s rows) (key : Key) :
    ∃ leaf, findLeaf key s.depth s.root = some leaf ∧
      PrevOf (· < ·) s leaf key (prevPlace s leaf fun other => other < key) := by
  obtain ⟨frontRows, ⟨bound, leaf, entries⟩, backRows, rfl, low, high, found⟩ := represents.findRow key
  have layout := represents.layout
  have increasing := layout.contents_increasing
  obtain ⟨before, after, rfl, below, above⟩ :=
    (layout.ordered ⟨bound, leaf, entries⟩ (by simp)).cut_lt key
  have holds := layout.holds ⟨bound, leaf, before ++ after⟩ (by simp)
  have scanned := holds.search_lt below above
  have rest : ∀ entry ∈ after ++ BPlusTree.contents backRows, key ≤ entry.1 := by
    intro entry mem
    exact (List.mem_append.mp mem).elim (above entry) fun later =>
      Nat.le_of_lt (layout.back_gt high entry later)
  refine ⟨leaf, found, ?_⟩
  rcases List.eq_nil_or_concat before with rfl | ⟨before, last, rfl⟩
  · have left := layout.left
    rcases List.eq_nil_or_concat frontRows with rfl | ⟨front, neighbour, rfl⟩
    · -- the searched leaf is the first one, and no key is smaller
      have ends : prevPlace s leaf (fun other => other < key) = none := by
        simp [prevPlace, scanned, left]
      rw [ends]
      intro entry mem
      rw [represents.contents, List.nil_append, contents_cons] at mem
      exact Nat.not_lt.mpr (rest entry mem)
    · have occupied := layout.occupied (by simp; omega) neighbour (by simp)
      have held := layout.holds neighbour (by simp)
      obtain ⟨smaller, last, ends⟩ := (List.eq_nil_or_concat _).resolve_left occupied
      have lastIndex : (s.heap.leaf neighbour.id).numKeys - 1 = smaller.length := by
        rw [held.num, ends, List.length_concat]
        rfl
      have placed : prevPlace s leaf (fun other => other < key) =
          some (neighbour.id, some smaller.length) := by
        simp [prevPlace, scanned, left, lastIndex]
      rw [placed]
      refine ⟨by simp [represents.leaves], smaller, last, [], ?_, ?_, .inr ⟨by simp [left], rfl, rfl⟩⟩
      · rw [held.entries_eq, ends, List.concat_eq_append]
      rw [represents.contents]
      refine greatest_of_cut increasing (BPlusTree.contents front ++ smaller)
        (after ++ BPlusTree.contents backRows) ?_ ?_ rest
      · simp [BPlusTree.contents, ends]
      · exact layout.front_lt low last (by simp [BPlusTree.contents, ends])
  · have placed : prevPlace s leaf (fun other => other < key) = some (leaf, none) := by
      simp [prevPlace, scanned]
    rw [placed]
    refine ⟨by simp [represents.leaves], before, last, after, ?_, ?_, .inl ⟨rfl, rfl⟩⟩
    · rw [holds.entries_eq]
      simp
    rw [represents.contents]
    refine greatest_of_cut increasing (BPlusTree.contents frontRows ++ before)
      (after ++ BPlusTree.contents backRows) ?_ (below last (by simp)) rest
    simp [contents_append, contents_cons]

theorem LeafNode.numKeys_pos {leaf : LeafNode Val} {front back : List (Key × Val)}
    {found : Key × Val} (shape : leaf.entries = front ++ found :: back) : 0 < leaf.numKeys := by
  refine Nat.pos_of_ne_zero fun empty => ?_
  rw [LeafNode.entries, empty] at shape
  simp at shape

end EunoDb.BPlusTree

namespace EunoDb.StringKeys

open Slots BPlusTree

variable {Val : Type} (m : Strings)

def seekPrev (s : State Val) (cursor : Cursor Val) (key : Text) : Option (Cursor Val) := do
  let id ← findLeaf m key s.depth s.root
  let place ← prevPlace s id fun other => 0 < compare m key other
  return cursor.goto place

theorem prevPlace_ranked (s : State Val) (id : LeafId) (key : Text) :
    prevPlace (ranked (rank m) s) id (fun other => other < rank m key) =
      prevPlace s id fun other => 0 < compare m key other := by
  have passes : (fun other => decide (rank m other < rank m key)) =
      fun other => decide (0 < compare m key other) := by
    funext other
    simp [(compare_signs key other).2]
  simp only [prevPlace, ranked, rankedLeaf, scan_map, passes]

theorem prevOf_of_ranked {s : State Val} {leaf : LeafId} {key : Text}
    {place : Option (LeafId × Option Nat)}
    (placed : PrevOf (· < ·) (ranked (rank m) s) leaf (rank m key) place) :
    PrevOf (fun a b => compare m a b < 0) s leaf key place := by
  have less : ∀ a b, compare m a b < 0 ↔ rank m a < rank m b := by
    intro a b
    rw [← Int.not_le, (compare_signs a b).1, Nat.not_le]
  have mapped : ∀ entry ∈ s.contents,
      (rank m entry.1, entry.2) ∈ (ranked (rank m) s).contents := by
    intro entry mem
    rw [ranked_contents]
    exact List.mem_map_of_mem mem
  cases place with
  | none =>
    intro entry mem below
    refine placed _ (mapped entry mem) ((less entry.1 key).mp below)
  | some place =>
    obtain ⟨inside, front, found, back, shape, ⟨_, -, -, below, greatest⟩, index⟩ := placed
    have entries : (s.heap.leaf place.1).entries.map (fun entry => (rank m entry.1, entry.2)) =
        front ++ found :: back := (rankedLeaf_entries ..).symm.trans shape
    obtain ⟨front, rest, shape', rfl, isRest⟩ := List.map_eq_append_iff.mp entries
    obtain ⟨found, back, rfl, rfl, rfl⟩ := List.map_eq_cons_iff.mp isRest
    have isLeaf : place.1 ∈ s.leaves := by
      rw [State.leaves, ← rankedTree_leaves (rank m)]
      exact inside
    refine ⟨isLeaf, front, found, back, shape', ⟨found.2, rfl, ?_, (less ..).mpr below, ?_⟩, ?_⟩
    · exact List.mem_flatMap.mpr ⟨place.1, isLeaf, by simp [shape']⟩
    · intro entry mem smaller between
      exact greatest _ (mapped entry mem) ((less ..).mp smaller) ((less ..).mp between)
    · rw [List.length_map, List.map_eq_nil_iff] at index
      exact index

end EunoDb.StringKeys

namespace EunoDb.SeekPrev

open BPlusTree StringKeys

section Trees

variable {Val : Type} {s : State Val} {cursor : Cursor Val} {key : BPlusTree.Key}

/-- `SeekPrev` changes `node_` and `leaf_index` only, so it ends on the greatest smaller key
exactly if the iterator had that key and its value before. -/
structure Seeks (less : BPlusTree.Key → BPlusTree.Key → Prop) (s : State Val)
    (search : Option LeafId) (key : BPlusTree.Key)
    (seek : BPlusTree.Cursor Val → Option (BPlusTree.Cursor Val)) : Prop where
  moves : ∃ leaf place, search = some leaf ∧ PrevOf less s leaf key place ∧
    ∀ cursor, seek cursor = place.map cursor.goto
  finds : ∀ cursor, (∃ after, seek cursor = some after ∧
    Greatest less s.contents key (after.observe s)) ↔
      Greatest less s.contents key (some (cursor.key, cursor.value))

theorem Seeks.of_moves {less : BPlusTree.Key → BPlusTree.Key → Prop} {search : Option LeafId}
    {leaf : LeafId} {place : Option (LeafId × Option Nat)}
    {seek : BPlusTree.Cursor Val → Option (BPlusTree.Cursor Val)} (found : search = some leaf)
    (placed : PrevOf less s leaf key place)
    (moves : ∀ cursor, seek cursor = place.map cursor.goto) : Seeks less s search key seek := by
  refine ⟨⟨leaf, place, found, placed, moves⟩, fun cursor => ?_⟩
  rw [moves cursor]
  cases place with
  | none =>
    refine ⟨nofun, ?_⟩
    rintro ⟨v, -, mem, below, -⟩
    exact absurd below (placed _ mem)
  | some place =>
    obtain ⟨-, front, entry, back, shape, -⟩ := placed
    have observed : (cursor.goto place).observe s = some (cursor.key, cursor.value) := by
      simp [Cursor.observe, Cursor.valid, Cursor.goto, LeafNode.numKeys_pos shape]
    simp [observed]

theorem uint64_seeks {rows : List (Row Val)} (represents : Represents s rows)
    (key : BPlusTree.Key) : Seeks (· < ·) s (BPlusTree.findLeaf key s.depth s.root) key
      (BPlusTree.seekPrev s · key) := by
  obtain ⟨leaf, found, placed⟩ := represents.prevOf key
  refine .of_moves found placed fun cursor => ?_
  simp [BPlusTree.seekPrev, found, Option.map_eq_bind]

theorem string_seeks {m : Strings} {rows : List (Row Val)}
    (represents : Represents (ranked (rank m) s) rows) (key : Text) :
    Seeks (fun a b => compare m a b < 0) s (StringKeys.findLeaf m key s.depth s.root) key
      (StringKeys.seekPrev m s · key) := by
  obtain ⟨leaf, found, placed⟩ := represents.prevOf (rank m key)
  have found' : StringKeys.findLeaf m key s.depth s.root = some leaf := by
    rw [← findLeaf_ranked]
    exact found
  rw [prevPlace_ranked] at placed
  refine .of_moves found' (prevOf_of_ranked m placed) fun cursor => ?_
  simp [StringKeys.seekPrev, found', Option.map_eq_bind]

end Trees

section SkipList

open MemStoreSkipList MemStoreIterator SkipLevels
open SkipInsert (NodeId head)

variable {Key : Type} [LinearOrder Key]

def nodesOf (s : MemStoreSkipList.State Key) (nodes : List NodeId) : List (Key × NodeId) :=
  nodes.map fun node => (s.memory.key node, node)

def observe (s : MemStoreSkipList.State Key) (c : MemStoreIterator.Cursor) :
    Option (Key × Option NodeId) :=
  c.node.map fun node => (s.memory.key node, some node)

/-- `SeekPrev` always ends on a node, which is the head if no key is smaller. -/
structure Ends (s : MemStoreSkipList.State Key) (nodes : List NodeId) (key : Key)
    (result : Option MemStoreIterator.Cursor) : Prop where
  moves : ∃ node prev, result = some ⟨some node, some prev⟩ ∧ IsLessThan s nodes key node ∧
    IsLessThan s nodes (s.memory.key node) prev
  finds : (∃ after, result = some after ∧ Greatest (· < ·) (nodesOf s nodes) key (observe s after)) ↔
    ∃ node ∈ nodes, s.memory.key node < key

theorem skipList_ends {s : MemStoreSkipList.State Key} {lists : Nat → List NodeId}
    (levels : Levels s.memory head lists) {fuel : Nat}
    (enough : s.maxHeight + (lists 0).length < fuel) (key : Key) :
    Ends s (lists 0) key (Cursor.seekPrev s fuel key) := by
  obtain ⟨x, found, answer⟩ := findLessThan_answers levels enough key
  obtain ⟨before, found', answer'⟩ := findLessThan_answers levels enough (s.memory.key x)
  have moved : Cursor.seekPrev s fuel key = some ⟨some x, some before⟩ := by
    simp [Cursor.seekPrev, found, found']
  rw [moved]
  refine ⟨⟨x, before, rfl, answer, answer'⟩, ?_, fun smaller => ⟨_, rfl, ?_⟩⟩
  · rintro ⟨after, isAfter, greatest⟩
    cases isAfter
    obtain ⟨v, -, mem, less, -⟩ := greatest
    obtain ⟨node, isNode, same⟩ := List.mem_map.mp mem
    have isKey : s.memory.key node = s.memory.key x := congrArg Prod.fst same
    exact ⟨node, isNode, isKey ▸ less⟩
  rcases answer with ⟨-, least⟩ | ⟨mem, less, greatest⟩
  · obtain ⟨node, mem, less⟩ := smaller
    exact absurd less (not_lt.mpr (least node mem))
  · refine ⟨x, rfl, List.mem_map_of_mem mem, less, fun entry inside below => ?_⟩
    obtain ⟨node, isNode, rfl⟩ := List.mem_map.mp inside
    exact not_lt.mpr (greatest node isNode below)

end SkipList

/-- For every well-formed tree and skip list, every earlier position and every key: where
`SeekPrev` goes, and exactly when it ends on the greatest smaller key. -/
theorem seekPrev_finds (Val : Type) (m : Strings) :
    (∀ (s : State Val) (rows : List (Row Val)), Represents s rows → ∀ key : BPlusTree.Key,
      Seeks (· < ·) s (BPlusTree.findLeaf key s.depth s.root) key (BPlusTree.seekPrev s · key)) ∧
    (∀ (s : State Val) (rows : List (Row Val)), Represents (ranked (rank m) s) rows →
      ∀ key : Text, Seeks (fun a b => compare m a b < 0) s
        (StringKeys.findLeaf m key s.depth s.root) key (StringKeys.seekPrev m s · key)) ∧
    ∀ (Key : Type) [LinearOrder Key] (s : MemStoreSkipList.State Key)
      (lists : Nat → List SkipInsert.NodeId), SkipLevels.Levels s.memory SkipInsert.head lists →
      ∀ fuel, s.maxHeight + (lists 0).length < fuel → ∀ key,
        Ends s (lists 0) key (MemStoreIterator.Cursor.seekPrev s fuel key) :=
  ⟨fun _ _ represents key => uint64_seeks represents key,
    fun _ _ represents key => string_seeks represents key,
    fun _ _ _ _ levels _ enough key => skipList_ends levels enough key⟩

def oneByte : Strings := { stringLength := 2, byte := fun text i => if i = 0 then .ofNat text else 0 }

def twoStrings : State Nat where
  heap := { leaf := fun _ => {
    numKeys := 2
    keys := [some 5, some 9] ++ List.replicate 13 none
    values := [some 10, some 30] ++ List.replicate 13 none } }

theorem twoStrings_represents :
    Represents (ranked (rank oneByte) twoStrings) [⟨0, 0, [(1280, 10), (2304, 30)]⟩] where
  reads := rfl
  layout := {
    holds := by
      simp only [List.forall_mem_cons]
      exact ⟨⟨rfl, ⟨List.replicate 13 none, rfl⟩, ⟨List.replicate 13 none, rfl⟩, rfl, rfl⟩, nofun⟩
    ordered := by
      simp only [List.forall_mem_cons]
      exact ⟨⟨by decide, by decide⟩, nofun⟩
    before := List.pairwise_singleton ..
    used := by
      simp only [List.forall_mem_cons]
      exact ⟨by decide, nofun⟩
    linked := ⟨rfl, rfl, trivial⟩
    occupied := fun impossible => absurd impossible (by decide) }

/-- The keys 0, 2, .., 38, in a leaf up to 14 and one from 16. -/
def evenKeys : List (BPlusTree.Key × Nat) := (List.range 20).map fun n => (2 * n, n + 100)

theorem seekPrev_finds_neighbour :
    (∃ s : State Nat, getSecs {} evenKeys = some s ∧
      (∃ after, BPlusTree.seekPrev s ⟨some 1, 0, 1, 14, some 107⟩ 16 = some after ∧
        after.node = some 0 ∧ after.leafIndex = 7 ∧
        Greatest (· < ·) s.contents 16 (after.observe s)) ∧
      ¬ ∃ after, BPlusTree.seekPrev s ⟨some 1, 0, 1, 16, some 108⟩ 16 = some after ∧
        Greatest (· < ·) s.contents 16 (after.observe s)) ∧
    ((∃ after, StringKeys.seekPrev oneByte twoStrings ⟨some 0, 0, 1, 5, some 10⟩ 9 = some after ∧
      Greatest (fun a b => compare oneByte a b < 0) twoStrings.contents 9
        (after.observe twoStrings)) ∧
      ¬ ∃ after, StringKeys.seekPrev oneByte twoStrings ⟨some 0, 0, 1, 5, some 10⟩ 5 = some after ∧
        Greatest (fun a b => compare oneByte a b < 0) twoStrings.contents 5
          (after.observe twoStrings)) ∧
    (∃ after, MemStoreIterator.Cursor.seekPrev MemStoreIterator.three.list 5 25 = some after ∧
      Greatest (· < ·) (nodesOf MemStoreIterator.three.list (MemStoreIterator.three.lists 0)) 25
        (observe MemStoreIterator.three.list after)) ∧
    ¬ ∃ after, MemStoreIterator.Cursor.seekPrev MemStoreIterator.three.list 5 10 = some after ∧
      Greatest (· < ·) (nodesOf MemStoreIterator.three.list (MemStoreIterator.three.lists 0)) 10
        (observe MemStoreIterator.three.list after) := by
  obtain ⟨uint64, string, skipList⟩ := seekPrev_finds Nat oneByte
  refine ⟨?_, ?_, ?_, ?_⟩
  · obtain ⟨s, reached, shape⟩ : ∃ s : State Nat, getSecs {} evenKeys = some s ∧
        (s.contents, (BPlusTree.seekPrev s ⟨some 1, 0, 1, 14, some 107⟩ 16).map fun after =>
          (after.node, after.leafIndex)) = (evenKeys, some (some 0, 7)) :=
      Option.map_eq_some_iff.mp (by decide +kernel)
    have contents : s.contents = evenKeys := congrArg Prod.fst shape
    obtain ⟨final, rows, reached', represents, -⟩ := getSecs_represents evenKeys
    cases reached.symm.trans reached'
    have seeks := uint64 s rows represents 16
    obtain ⟨after, moved, greatest⟩ := (seeks.finds ⟨some 1, 0, 1, 14, some 107⟩).mpr (by
      rw [contents]
      exact ⟨107, rfl, by decide⟩)
    have place := congrArg Prod.snd shape
    simp only [moved, Option.map_some, Option.some.injEq, Prod.mk.injEq] at place
    refine ⟨s, reached, ⟨after, moved, place.1, place.2, greatest⟩, fun other => ?_⟩
    obtain ⟨v, -, -, below, -⟩ := (seeks.finds ⟨some 1, 0, 1, 16, some 108⟩).mp other
    exact Nat.lt_irrefl 16 below
  · refine ⟨((string twoStrings _ twoStrings_represents 9).finds _).mpr
      ⟨10, rfl, by decide +kernel⟩, fun other => ?_⟩
    obtain ⟨v, -, -, below, -⟩ := ((string twoStrings _ twoStrings_represents 5).finds _).mp other
    exact absurd below (by decide +kernel)
  · exact (skipList Nat MemStoreIterator.three.list _ MemStoreIterator.three.levels 5 (by decide)
      25).finds.mpr (by decide)
  · exact fun found => absurd ((skipList Nat MemStoreIterator.three.list _
      MemStoreIterator.three.levels 5 (by decide) 10).finds.mp found) (by decide)

/-- A new iterator over either tree is valid after `SeekPrev`, with a key that is not stored
and without a value; and before the first key `SeekPrev` follows `NULL`. In the skip list it
ends on the head, as if that were a node. -/
theorem seekPrev_misses :
    (∃ s : State Nat, getSecs {} [(1, 10), (3, 30)] = some s ∧ s.contents = [(1, 10), (3, 30)] ∧
      (∃ after, BPlusTree.seekPrev s {} 3 = some after ∧ after.observe s = some (0, none)) ∧
      BPlusTree.seekPrev s {} 1 = none) ∧
    (twoStrings.contents = [(5, 10), (9, 30)] ∧ compare oneByte 5 9 < 0 ∧
      (∃ after, StringKeys.seekPrev oneByte twoStrings {} 9 = some after ∧
        after.observe twoStrings = some (0, none)) ∧
      StringKeys.seekPrev oneByte twoStrings {} 5 = none) ∧
    ∃ after, MemStoreIterator.Cursor.seekPrev MemStoreIterator.three.list 5 10 = some after ∧
      after.valid = true ∧ after.node = some SkipInsert.head ∧
      ∀ node ∈ MemStoreIterator.three.lists 0, ¬ MemStoreIterator.three.list.memory.key node < 10 :=
  ⟨⟨_, rfl, rfl, ⟨_, rfl, rfl⟩, rfl⟩,
    ⟨rfl, by decide +kernel, ⟨_, rfl, rfl⟩, rfl⟩, _, rfl, rfl, rfl, by decide⟩

end EunoDb.SeekPrev
