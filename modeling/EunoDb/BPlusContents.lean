import EunoDb.BPlusIndex
import Mathlib.Data.List.Basic
import Mathlib.Data.List.Nodup

/-! The tree as an ordered map on leaves at one depth. -/

namespace EunoDb.BPlusTree

open Slots

variable {Val : Type}

def leavesOf : Nat → Tree → List LeafId
  | 0, .leaf id => [id]
  | d + 1, .inner numKeys _ children => (children.take (numKeys + 1)).flatMap fun child =>
    match child with
    | some tree => leavesOf d tree
    | none => []
  | _, _ => []

def keysOf (heap : Heap Val) (d : Nat) (tree : Tree) : List Key :=
  (leavesOf d tree).flatMap fun id => (heap.leaf id).entries.map Prod.fst

def Separated (heap : Heap Val) : Nat → Tree → Prop
  | 0, .leaf _ => True
  | d + 1, .inner numKeys keys children => numKeys ≤ order ∧
      (∀ i ≤ numKeys, ∃ child, read children i = some child ∧ Separated heap d child) ∧
      ∀ i < numKeys, ∃ separator left right, read keys i = some separator ∧
        read children i = some left ∧ read children (i + 1) = some right ∧
        (∀ key ∈ keysOf heap d left, key < separator) ∧ ∀ key ∈ keysOf heap d right, separator ≤ key
  | _, _ => False

def Chain (pointer : LeafId → Option LeafId) : List LeafId → Prop
  | [] => True
  | id :: rest => pointer id = rest.head? ∧ Chain pointer rest

def State.leaves (s : State Val) : List LeafId := leavesOf s.depth s.root

def State.contents (s : State Val) : List (Key × Val) :=
  s.leaves.flatMap fun id => (s.heap.leaf id).entries

def getSecs (s : State Val) (inserts : List (Key × Val)) : Option (State Val) :=
  inserts.foldlM (fun s insert => (getSec s insert.1 insert.2).map Prod.fst) s

structure IndexOf (s : State Val) (inserts : List (Key × Val)) : Prop where
  separated : Separated s.heap s.depth s.root
  filled : ∀ id ∈ s.leaves, (s.heap.leaf id).entries.length = (s.heap.leaf id).numKeys ∧
    (s.heap.leaf id).numKeys ≤ order
  first : firstLeaf s.depth s.root = s.leaves.head?
  rightward : Chain (fun id => (s.heap.leaf id).right) s.leaves
  leftward : Chain (fun id => (s.heap.leaf id).left) s.leaves.reverse
  mutual_ : ∀ id ∈ s.leaves, ∀ other, (s.heap.leaf id).right = some other →
    (s.heap.leaf other).left = some id
  increasing : s.contents.Pairwise fun earlier later => earlier.1 < later.1
  exact_ : ∀ key val, (key, val) ∈ s.contents ↔ inserts.lookup key = some val
  found : ∀ key val, inserts.lookup key = some val → ∃ leaf ∈ s.leaves,
    findLeaf key s.depth s.root = some leaf ∧ (key, val) ∈ (s.heap.leaf leaf).entries
  returned : ∀ key val, ∃ next, getSec s key val = some (next, (inserts.lookup key).getD val)

/-! ### The tree is what its list of leaves says -/

variable {d : Nat} {flat : List (Key × LeafId)} {tree : Tree} {low key : Key} {heap : Heap Val}
  {rows : List (Row Val)} {row : Row Val} {ids : List LeafId} {s : State Val} {val : Val}

theorem Spread.leaves {entries : List (Key × Tree)} (spread : Spread (Reads d) entries flat)
    (inside : ∀ {tree low flat}, Reads d tree low flat → leavesOf d tree = flat.map Prod.snd) :
    entries.flatMap (fun entry => leavesOf d entry.2) = flat.map Prod.snd := by
  induction spread with
  | nil => rfl
  | cons head tail ih => rw [List.flatMap_cons, inside head, ih, List.map_append]

theorem Reads.leaves (reads : Reads d tree low flat) : leavesOf d tree = flat.map Prod.snd := by
  induction d generalizing tree low flat with
  | zero =>
    obtain ⟨id, rfl, rfl⟩ := reads.of_zero
    rfl
  | succ d ih =>
    obtain ⟨numKeys, keys, children, first, entries, rfl, node, spread⟩ := reads.of_succ
    obtain ⟨rest, kidsEq⟩ := node.kids
    have taken : children.take (numKeys + 1) = (first :: entries.map Prod.snd).map some := by
      rw [kidsEq, List.take_left' (by simp [node.num])]
    have all := spread.leaves ih
    rw [← all, leavesOf, taken, List.flatMap_map]
    simp [List.flatMap_map]

theorem Reads.firstLeaf (reads : Reads d tree low flat) :
    firstLeaf d tree = (flat.map Prod.snd).head? := by
  induction d generalizing tree flat with
  | zero =>
    obtain ⟨id, rfl, rfl⟩ := reads.of_zero
    rfl
  | succ d ih =>
    obtain ⟨numKeys, keys, children, first, entries, rfl, node, spread⟩ := reads.of_succ
    obtain ⟨inside, rest, rfl, inFirst, -⟩ := spread.of_cons
    obtain ⟨leaf, others, rfl⟩ := inFirst.head
    have shape : (low, first) :: entries = [] ++ (low, first) :: entries := rfl
    have found : read children 0 = some first := node.child shape
    simp only [BPlusTree.firstLeaf, found, Option.bind_eq_bind, Option.bind_some, ih inFirst]
    simp

theorem keysOf_eq (reads : Reads d tree low (rows.map Row.mark))
    (holds : ∀ row ∈ rows, Holds (heap.leaf row.id) row.entries) :
    keysOf heap d tree = (contents rows).map Prod.fst := by
  have leaves : leavesOf d tree = rows.map Row.id := by
    rw [reads.leaves, List.map_map]
    rfl
  rw [keysOf, leaves, List.flatMap_map, contents, List.map_flatMap]
  refine List.flatMap_congr fun row mem => ?_
  rw [(holds row mem).entries_eq]

theorem split_by_bound {left right : List (Row Val)}
    (before : (left ++ row :: right).Pairwise Before)
    (ordered : ∀ other ∈ row :: right, other.Ordered) :
    (∀ entry ∈ contents left, entry.1 < row.bound) ∧
      ∀ entry ∈ contents (row :: right), row.bound ≤ entry.1 := by
  obtain ⟨-, inRight, apart⟩ := List.pairwise_append.mp before
  refine ⟨?_, ?_⟩
  · intro entry mem
    obtain ⟨other, isRow, inside⟩ := List.mem_flatMap.mp mem
    exact (apart other isRow row List.mem_cons_self).2.1 entry inside
  intro entry mem
  obtain ⟨other, isRow, inside⟩ := List.mem_flatMap.mp mem
  have low := (ordered other isRow).low entry inside
  rcases List.mem_cons.mp isRow with rfl | later
  · exact low
  · exact Nat.le_trans (Nat.le_of_lt ((List.pairwise_cons.mp inRight).1 other later).1) low

theorem Reads.separated (reads : Reads d tree low (rows.map Row.mark))
    (holds : ∀ row ∈ rows, Holds (heap.leaf row.id) row.entries)
    (ordered : ∀ row ∈ rows, row.Ordered) (before : rows.Pairwise Before) :
    Separated heap d tree := by
  induction d generalizing tree low rows with
  | zero =>
    obtain ⟨id, rfl, -⟩ := reads.of_zero
    trivial
  | succ d ih =>
    obtain ⟨numKeys, keys, children, first, entries, rfl, node, spread⟩ := reads.of_succ
    have num := node.num
    refine ⟨num ▸ node.length_le, ?_, ?_⟩
    · intro i inRange
      obtain ⟨earlier, ⟨separator, child⟩, later, shape, rfl⟩ :=
        exists_middle ((low, first) :: entries) (k := i) (by simp; omega)
      refine ⟨child, node.child shape, ?_⟩
      rw [shape] at spread
      obtain ⟨front, rest, marks, -, others⟩ := spread.of_append
      obtain ⟨inside, back, rfl, inChild, -⟩ := others.of_cons
      obtain ⟨frontRows, restRows, rfl, -, restMarks⟩ := List.map_eq_append_iff.mp marks
      obtain ⟨rows, backRows, rfl, rfl, -⟩ := List.map_eq_append_iff.mp restMarks
      refine ih inChild ?_ ?_ ?_
      · exact fun row mem => holds row (by simp [mem])
      · exact fun row mem => ordered row (by simp [mem])
      · exact (List.pairwise_append.mp (List.pairwise_append.mp before).2.1).1
    intro i inRange
    obtain ⟨earlier, ⟨below, left⟩, later, shape, rfl⟩ :=
      exists_middle ((low, first) :: entries) (k := i) (by simp; omega)
    cases later with
    | nil =>
      have length := congrArg List.length shape
      simp only [List.length_cons, List.length_append, List.length_nil] at length
      omega
    | cons entry later =>
      obtain ⟨separator, right⟩ := entry
      have next : (low, first) :: entries =
          (earlier ++ [(below, left)]) ++ (separator, right) :: later := by
        rw [shape]
        simp
      refine ⟨separator, left, right, node.separator shape, node.child shape,
        by simpa using node.child next, ?_⟩
      rw [shape] at spread
      obtain ⟨front, rest, marks, -, others⟩ := spread.of_append
      obtain ⟨inLeft, rest, rfl, readsLeft, others⟩ := others.of_cons
      obtain ⟨inRight, back, rfl, readsRight, -⟩ := others.of_cons
      obtain ⟨frontRows, restRows, rfl, -, restMarks⟩ := List.map_eq_append_iff.mp marks
      obtain ⟨leftRows, restRows, rfl, rfl, rightMarks⟩ :=
        List.map_eq_append_iff.mp restMarks
      obtain ⟨rightRows, backRows, rfl, rfl, -⟩ := List.map_eq_append_iff.mp rightMarks
      rw [keysOf_eq readsLeft fun row mem => holds row (by simp [mem]),
        keysOf_eq readsRight fun row mem => holds row (by simp [mem])]
      obtain ⟨leaf, rest, head⟩ := readsRight.head
      obtain ⟨row, rightRows, rfl, isFirst, -⟩ := List.map_eq_cons_iff.mp head
      obtain rfl : row.bound = separator := congrArg Prod.fst isFirst
      have pair : (leftRows ++ row :: rightRows).Pairwise Before := by
        rw [← List.append_assoc leftRows] at before
        exact (List.pairwise_append.mp (List.pairwise_append.mp before).2.1).1
      obtain ⟨below, above⟩ := split_by_bound pair fun other mem => ordered other
        (List.mem_append_right _ (List.mem_append_right _ (List.mem_append_left _ mem)))
      exact ⟨by simpa using below, by simpa using above⟩

theorem Linked.rightward {previous : Option LeafId} (linked : Linked heap previous ids none) :
    Chain (fun id => (heap.leaf id).right) ids := by
  induction ids generalizing previous with
  | nil => trivial
  | cons id ids ih =>
    obtain ⟨-, right, rest⟩ := linked
    rw [Option.or_none] at right
    exact ⟨right, ih rest⟩

theorem Linked.leftward {last : Option LeafId} (linked : Linked heap none ids last) :
    Chain (fun id => (heap.leaf id).left) ids.reverse := by
  induction ids using List.reverseRecOn generalizing last with
  | nil => trivial
  | append_singleton front id ih =>
    obtain ⟨inFront, left, -, -⟩ := Linked.append.mp linked
    rw [List.reverse_append]
    exact ⟨by simpa using left, ih inFront⟩

theorem Linked.back (linked : Linked heap none ids none) {id other : LeafId} (mem : id ∈ ids)
    (right : (heap.leaf id).right = some other) : (heap.leaf other).left = some id := by
  obtain ⟨front, rest, rfl⟩ := List.append_of_mem mem
  obtain ⟨-, -, isRight, inRest⟩ := Linked.append.mp linked
  rw [Option.or_none, right] at isRight
  cases rest with
  | nil => cases isRight
  | cons neighbour rest =>
    cases isRight
    exact inRest.1

/-! ### Runs of insertions -/

theorem Layout.contents_increasing (layout : Layout heap rows) :
    (contents rows).Pairwise fun earlier later => earlier.1 < later.1 := by
  refine List.pairwise_flatMap.mpr ⟨fun row mem => (layout.ordered row mem).increasing, ?_⟩
  refine layout.before.imp_of_mem ?_
  intro row later _ inRows before entry inside other inLater
  exact Nat.lt_of_lt_of_le (before.2.1 entry inside) ((layout.ordered later inRows).low other inLater)

theorem contents_append (front back : List (Row Val)) :
    contents (front ++ back) = contents front ++ contents back :=
  List.flatMap_append

theorem contents_cons (row : Row Val) (rows : List (Row Val)) :
    contents (row :: rows) = row.entries ++ contents rows :=
  List.flatMap_cons

theorem Answers.contents {next : State Val} {found : Val} {front back : List (Row Val)}
    (answers : Answers s key val next found front row back rows)
    (layout : Layout s.heap (front ++ row :: back)) :
    ((key, found) ∈ contents (front ++ row :: back) ∧
        contents (front ++ rows ++ back) = contents (front ++ row :: back)) ∨
      found = val ∧ (∀ other, (key, other) ∉ contents (front ++ row :: back)) ∧
        ∀ entry, entry ∈ contents (front ++ rows ++ back) ↔
          entry = (key, val) ∨ entry ∈ contents (front ++ row :: back) := by
  have absent : ∀ {before after : List (Key × Val)}, row.entries = before ++ after →
      (∀ entry ∈ before, entry.1 < key) → (∀ entry ∈ after, key < entry.1) →
      ∀ other, (key, other) ∉ BPlusTree.contents (front ++ row :: back) := by
    intro before after shape below above other mem
    have low := answers.low
    obtain ⟨earlier, later⟩ := split_by_bound layout.before
      fun other inside => layout.ordered other (List.mem_append_right _ inside)
    rw [contents_append, contents_cons, shape, List.mem_append, List.mem_append, List.mem_append]
      at mem
    rcases mem with inFront | (inBefore | inAfter) | inBack
    · exact Nat.lt_irrefl key (Nat.lt_of_lt_of_le (earlier _ inFront) low)
    · exact Nat.lt_irrefl key (below _ inBefore)
    · exact Nat.lt_irrefl key (above _ inAfter)
    · obtain ⟨outer, isRow, inside⟩ := List.mem_flatMap.mp inBack
      have bound := (layout.ordered outer (by simp [isRow])).low _ inside
      exact Nat.lt_irrefl key (Nat.lt_of_lt_of_le (answers.high outer isRow) bound)
  have added : ∀ {before after : List (Key × Val)}, row.entries = before ++ after →
      BPlusTree.contents rows = before ++ (key, val) :: after →
      ∀ entry, entry ∈ BPlusTree.contents (front ++ rows ++ back) ↔
        entry = (key, val) ∨ entry ∈ BPlusTree.contents (front ++ row :: back) := by
    intro before after shape shape' entry
    rw [List.append_assoc, contents_append, contents_append, contents_append, contents_cons, shape,
      shape']
    simp only [List.mem_append, List.mem_cons]
    tauto
  obtain ⟨sibling, outcome⟩ := answers.outcome
  generalize next.heap = heap' at outcome
  cases outcome with
  | present mem =>
    refine .inl ⟨?_, by rw [List.append_assoc]; rfl⟩
    rw [contents_append, contents_cons]
    exact List.mem_append_right _ (List.mem_append_left _ mem)
  | filled shape below above filled =>
    exact .inr ⟨rfl, absent shape below above, added shape (by simp [BPlusTree.contents])⟩
  | divided shape below above join lowerSome shorter divided seq =>
    exact .inr ⟨rfl, absent shape below above,
      added shape (by simpa [BPlusTree.contents] using join)⟩

section

variable (represents : Represents s rows)

include represents

theorem Represents.insert (key : Key) (val : Val) :
    ∃ next found rows', BPlusTree.getSec s key val = some (next, found) ∧
      Represents next rows' ∧
      (((key, found) ∈ BPlusTree.contents rows ∧
          BPlusTree.contents rows' = BPlusTree.contents rows) ∨
        found = val ∧ (∀ other, (key, other) ∉ BPlusTree.contents rows) ∧
          ∀ entry, entry ∈ BPlusTree.contents rows' ↔
            entry = (key, val) ∨ entry ∈ BPlusTree.contents rows) := by
  obtain ⟨front, row, back, next, found, rows', rfl, answers⟩ := represents.getSec key val
  exact ⟨next, found, _, answers.returned, answers.represents, answers.contents represents.layout⟩

theorem Represents.functional {other : Val} (first : (key, val) ∈ BPlusTree.contents rows)
    (second : (key, other) ∈ BPlusTree.contents rows) : val = other := by
  have distinct : ((BPlusTree.contents rows).map Prod.fst).Nodup :=
    List.pairwise_map.mpr (represents.layout.contents_increasing.imp Nat.ne_of_lt)
  exact congrArg Prod.snd (List.inj_on_of_nodup_map distinct first second rfl)

theorem Represents.leaves : s.leaves = rows.map Row.id := by
  rw [State.leaves, represents.reads.leaves, List.map_map]
  rfl

theorem Represents.contents : s.contents = contents rows := by
  rw [State.contents, represents.leaves, List.flatMap_map, BPlusTree.contents]
  refine List.flatMap_congr fun row mem => ?_
  rw [(represents.layout.holds row mem).entries_eq]

end

def FirstValues (rows : List (Row Val)) (inserts : List (Key × Val)) : Prop :=
  ∀ key val, (key, val) ∈ contents rows ↔ inserts.lookup key = some val

theorem FirstValues.step {next : State Val} {found : Val} {front back : List (Row Val)}
    {inserts : List (Key × Val)} (values : FirstValues (front ++ row :: back) inserts)
    (answers : Answers s key val next found front row back rows)
    (layout : Layout s.heap (front ++ row :: back)) :
    FirstValues (front ++ rows ++ back) (inserts ++ [(key, val)]) ∧
      found = (inserts.lookup key).getD val := by
  have lookup : ∀ other, (inserts ++ [(key, val)]).lookup other =
      (inserts.lookup other).or (if other = key then some val else none) := by
    intro other
    rw [List.lookup_append]
    by_cases same : other = key
    · simp [same]
    · simp [same, List.lookup_cons, beq_false_of_ne same]
  rcases answers.contents layout with ⟨mem, same⟩ | ⟨rfl, absent, added⟩
  · have known := (values key found).mp mem
    refine ⟨fun other value => ?_, by rw [known]; rfl⟩
    rw [same, values other value, lookup other]
    by_cases isKey : other = key
    · simp [isKey, known]
    · simp [isKey]
  have unknown : inserts.lookup key = none := by
    cases first : inserts.lookup key with
    | none => rfl
    | some value => exact absurd ((values key value).mpr first) (absent value)
  refine ⟨fun other value => ?_, by rw [unknown]; rfl⟩
  rw [added, values other value, lookup other, Prod.mk.injEq]
  by_cases isKey : other = key
  · simp [isKey, unknown, eq_comm]
  · simp [isKey]

theorem empty_represents : Represents ({} : State Val) [⟨0, 0, []⟩] := by
  refine ⟨rfl, ?_, ?_, ?_, ?_, ?_, ?_⟩
  · intro row mem
    rw [List.mem_singleton.mp mem]
    exact ⟨rfl, ⟨_, rfl⟩, ⟨_, rfl⟩, rfl, rfl⟩
  · intro row mem
    rw [List.mem_singleton.mp mem]
    exact ⟨.nil, by simp⟩
  · exact List.pairwise_singleton _ _
  · intro row mem
    rw [List.mem_singleton.mp mem]
    exact Nat.zero_lt_one
  · exact ⟨rfl, rfl, trivial⟩
  · intro several
    simp at several

theorem getSecs_represents (inserts : List (Key × Val)) :
    ∃ s rows, getSecs {} inserts = some s ∧ Represents s rows ∧ FirstValues rows inserts := by
  -- on the last insertion; the ones before it give the tree it is made in
  induction inserts using List.reverseRecOn with
  | nil => exact ⟨{}, _, rfl, empty_represents, fun key val => by simp [BPlusTree.contents]⟩
  | append_singleton inserts insert ih =>
    obtain ⟨key, val⟩ := insert
    obtain ⟨s, rows, reached, represents, values⟩ := ih
    obtain ⟨front, row, back, next, found, rows', rfl, answers⟩ := represents.getSec key val
    refine ⟨next, _, ?_, answers.represents, (values.step answers represents.layout).1⟩
    rw [getSecs, List.foldlM_append]
    rw [getSecs] at reached
    rw [reached]
    simp [answers.returned]

variable {front back : List (Row Val)} {row : Row Val}

theorem Layout.front_lt (layout : Layout heap (front ++ row :: back)) (low : row.bound ≤ key) :
    ∀ entry ∈ contents front, entry.1 < key := fun entry mem =>
  Nat.lt_of_lt_of_le ((split_by_bound layout.before
    fun other inside => layout.ordered other (List.mem_append_right _ inside)).1 entry mem) low

theorem Layout.back_gt (layout : Layout heap (front ++ row :: back))
    (high : ∀ other ∈ back, key < other.bound) : ∀ entry ∈ contents back, key < entry.1 := by
  intro entry mem
  obtain ⟨other, isRow, inside⟩ := List.mem_flatMap.mp mem
  have low := (layout.ordered other (by simp [isRow])).low entry inside
  exact Nat.lt_of_lt_of_le (high other isRow) low

theorem Represents.findRow (represents : Represents s rows) (key : Key) :
    ∃ front row back, rows = front ++ row :: back ∧ row.bound ≤ key ∧
      (∀ other ∈ back, key < other.bound) ∧ findLeaf key s.depth s.root = some row.id := by
  obtain ⟨front, bound, leaf, back, shape, low, high, found⟩ :=
    represents.reads.findLeaf represents.layout.increasing (Nat.zero_le key)
  obtain ⟨frontRows, row, backRows, rfl, -, isRow, rfl⟩ := exists_row shape
  cases isRow
  exact ⟨frontRows, row, backRows, rfl, low,
    fun other mem => high other.mark (List.mem_map_of_mem mem), found⟩

theorem Represents.descend (represents : Represents s rows) (key : Key) :
    ∃ front row back, rows = front ++ row :: back ∧ findLeaf key s.depth s.root = some row.id ∧
      ∀ val, (key, val) ∈ BPlusTree.contents rows ↔ (key, val) ∈ row.entries := by
  obtain ⟨front, row, back, rfl, low, high, found⟩ := represents.findRow key
  have layout := represents.layout
  refine ⟨front, row, back, rfl, found, fun val => ⟨fun mem => ?_, fun inside => ?_⟩⟩
  · rw [contents_append, contents_cons, List.mem_append, List.mem_append] at mem
    rcases mem with inFront | inside | inBack
    · exact absurd (layout.front_lt low _ inFront) (Nat.lt_irrefl key)
    · exact inside
    · exact absurd (layout.back_gt high _ inBack) (Nat.lt_irrefl key)
  · rw [contents_append, contents_cons]
    exact List.mem_append_right _ (List.mem_append_left _ inside)

theorem Represents.found (represents : Represents s rows)
    (mem : (key, val) ∈ BPlusTree.contents rows) :
    ∃ leaf ∈ s.leaves, findLeaf key s.depth s.root = some leaf ∧
      (key, val) ∈ (s.heap.leaf leaf).entries := by
  obtain ⟨front, row, back, rfl, found, inLeaf⟩ := represents.descend key
  refine ⟨row.id, by simp [represents.leaves], found, ?_⟩
  rw [(represents.layout.holds row (by simp)).entries_eq]
  exact (inLeaf val).mp mem

/-- After any insertions the tree is an ordered map of them, on leaves that are linked both ways. -/
theorem getSecs_index (inserts : List (Key × Val)) :
    ∃ s, getSecs {} inserts = some s ∧ IndexOf s inserts := by
  obtain ⟨s, rows, reached, represents, values⟩ := getSecs_represents inserts
  have leaves := represents.leaves
  have linked := represents.layout.linked
  rw [← leaves] at linked
  refine ⟨s, reached, ?_⟩
  refine
    { separated := represents.reads.separated represents.layout.holds represents.layout.ordered
        represents.layout.before
      filled := ?_
      first := by rw [represents.reads.firstLeaf, leaves, List.map_map]; rfl
      rightward := linked.rightward
      leftward := linked.leftward
      mutual_ := fun id member other right => linked.back member right
      increasing := by rw [represents.contents]; exact represents.layout.contents_increasing
      exact_ := by rw [represents.contents]; exact values
      found := fun key val first => represents.found ((values key val).mpr first)
      returned := ?_ }
  · intro id member
    rw [leaves] at member
    obtain ⟨row, isRow, rfl⟩ := List.mem_map.mp member
    have holds := represents.layout.holds row isRow
    rw [holds.entries_eq, holds.num]
    exact ⟨rfl, holds.length_le⟩
  · intro key val
    obtain ⟨front, row, back, next, found, rows', rfl, answers⟩ := represents.getSec key val
    refine ⟨next, ?_⟩
    rw [answers.returned, (values.step answers represents.layout).2]

end EunoDb.BPlusTree
