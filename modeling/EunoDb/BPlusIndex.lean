import EunoDb.BPlusRows

/-! The whole index after any insertions. -/

namespace EunoDb.BPlusTree

open Slots

variable {Val : Type}

def Row.mark (row : Row Val) : Key × LeafId := (row.bound, row.id)

structure Represents (s : State Val) (rows : List (Row Val)) : Prop where
  reads : Reads s.depth s.root 0 (rows.map Row.mark)
  layout : Layout s.heap rows

variable {heap : Heap Val} {rows : List (Row Val)} {s : State Val}

theorem Layout.increasing (layout : Layout heap rows) :
    Increasing (rows.map Row.mark) :=
  List.pairwise_map.mpr (layout.before.imp fun before => before.1)

theorem exists_row {front back : List (Key × LeafId)} {bound : Key} {leaf : LeafId}
    (shape : rows.map Row.mark = front ++ (bound, leaf) :: back) :
    ∃ frontRows row backRows, rows = frontRows ++ row :: backRows ∧ frontRows.map Row.mark = front ∧
      row.mark = (bound, leaf) ∧ backRows.map Row.mark = back := by
  obtain ⟨frontRows, rest, rfl, inFront, inRest⟩ := List.map_eq_append_iff.mp shape
  obtain ⟨row, backRows, rfl, isRow, inBack⟩ := List.map_eq_cons_iff.mp inRest
  exact ⟨frontRows, row, backRows, rfl, inFront, isRow, inBack⟩

theorem Outcome.marks {heap' : Heap Val} {row : Row Val} {key : Key} {val found : Val}
    {sibling : Option LeafId} (outcome : Outcome heap row key val heap' sibling found rows) :
    (sibling = none ∧ rows.map Row.mark = [row.mark]) ∨
      ∃ separator, sibling = some heap.next ∧
        rows.map Row.mark = [row.mark, (separator, heap.next)] ∧
        read (heap'.leaf heap.next).keys 0 = some separator := by
  cases outcome with
  | present mem | filled shape below above filled => exact .inl ⟨rfl, rfl⟩
  | @divided _ before after lower upper separator first shape below above join lowerSome shorter divided seq =>
    have newHolds : Holds (heap'.leaf heap.next) ([] ++ (separator, first) :: upper) :=
      divided.newHolds
    exact .inr ⟨separator, rfl, rfl, newHolds.at.1⟩

structure Answers (s : State Val) (key : Key) (val : Val) (next : State Val) (found : Val)
    (front : List (Row Val)) (row : Row Val) (back rows : List (Row Val)) : Prop where
  returned : getSec s key val = some (next, found)
  low : row.bound ≤ key
  high : ∀ other ∈ back, key < other.bound
  outcome : ∃ sibling, Outcome s.heap row key val next.heap sibling found rows
  represents : Represents next (front ++ rows ++ back)

theorem Represents.getSec_leaf (represents : Represents s rows) (flat : s.depth = 0) (key : Key)
    (val : Val) :
    ∃ row next found rows', rows = [row] ∧ Answers s key val next found [] row [] rows' := by
  obtain ⟨heap, root, depth⟩ := s
  obtain ⟨reads, layout⟩ := represents
  dsimp only at flat reads layout
  subst flat
  obtain ⟨id, rfl, marks⟩ := reads.of_zero
  obtain ⟨frontRows, row, backRows, rfl, noFront, isRow, noBack⟩ :=
    exists_row (show rows.map Row.mark = [] ++ (0, id) :: [] from marks)
  obtain rfl := List.map_eq_nil_iff.mp noFront
  obtain rfl := List.map_eq_nil_iff.mp noBack
  obtain ⟨bound, id, entries⟩ := row
  cases isRow
  obtain ⟨heap', sibling, found, rows', inserted, outcome⟩ := layout.leafInsert key val
  have layout' := layout.outcome (Nat.zero_le key) (by simp) outcome
  rcases outcome.marks with ⟨rfl, same⟩ | ⟨separator, rfl, marks', newRead⟩
  · refine ⟨_, ⟨heap', .leaf id, 0⟩, found, rows', rfl, ?_, Nat.zero_le key, by simp,
      ⟨none, outcome⟩, ?_, layout'⟩
    · simp only [getSec, if_true, inserted, Option.bind_eq_bind, Option.bind_some]
      rfl
    · simpa [Reads, Row.mark] using same
  have left : Reads 0 (.leaf id) 0 [(0, id)] := rfl
  have right : Reads 0 (.leaf heap.next) separator [(separator, heap.next)] := rfl
  obtain ⟨root, made, rootReads⟩ := newRoot_reads left right
  refine ⟨_, ⟨heap', root, 1⟩, found, rows', rfl, ?_, Nat.zero_le key, by simp,
    ⟨_, outcome⟩, ?_, layout'⟩
  · simp only [getSec, if_true, inserted, newRead, made, Option.bind_eq_bind, Option.bind_some]
    rfl
  · simpa [marks', Row.mark] using rootReads

theorem Represents.getSec_inner (represents : Represents s rows) (deep : s.depth ≠ 0) (key : Key)
    (val : Val) :
    ∃ front row back next found rows', rows = front ++ row :: back ∧
      Answers s key val next found front row back rows' := by
  obtain ⟨heap, root, depth⟩ := s
  obtain ⟨reads, layout⟩ := represents
  dsimp only at deep reads layout
  obtain ⟨d, rfl⟩ := Nat.exists_eq_succ_of_ne_zero deep
  obtain ⟨front, bound, leaf, back, shape, low, high, unsplit, split⟩ :=
    reads.innerInsert layout.increasing (Nat.zero_le key) val heap
  obtain ⟨frontRows, row, backRows, rfl, rfl, isRow, rfl⟩ := exists_row shape
  obtain ⟨bound, leaf, entries⟩ := row
  cases isRow
  have highRows : ∀ other ∈ backRows, key < other.bound :=
    fun other mem => high other.mark (List.mem_map_of_mem mem)
  obtain ⟨heap', sibling, found, rows', inserted, outcome⟩ := layout.leafInsert key val
  have layout' := layout.outcome low highRows outcome
  have increasing' := layout'.increasing
  rcases outcome.marks with ⟨rfl, same⟩ | ⟨separator, rfl, marks', newRead⟩
  · refine ⟨frontRows, _, backRows, ⟨heap', root, d + 1⟩, found, rows', rfl, ?_, low, highRows,
      ⟨none, outcome⟩, ?_, layout'⟩
    · simp only [getSec, Nat.succ_eq_add_one, Nat.add_one_ne_zero, if_false,
        unsplit heap' found inserted, Option.bind_eq_bind, Option.bind_some]
      rfl
    · simpa [same] using reads
  simp only [List.map_append, marks', List.append_assoc] at increasing'
  obtain ⟨-, later, -⟩ := List.pairwise_append.mp increasing'
  obtain ⟨above, rest⟩ := List.pairwise_cons.mp later
  obtain ⟨tree, grownSibling, innerInserted, grown⟩ :=
    split heap' heap.next found separator inserted newRead
      (above (separator, heap.next) (by simp)) (List.pairwise_cons.mp rest).1
  cases grownSibling with
  | none =>
    refine ⟨frontRows, _, backRows, ⟨heap', tree, d + 1⟩, found, rows', rfl, ?_, low, highRows,
      ⟨_, outcome⟩, ?_, layout'⟩
    · simp only [getSec, Nat.succ_eq_add_one, Nat.add_one_ne_zero, if_false, innerInserted,
        Option.bind_eq_bind, Option.bind_some]
      rfl
    · simpa [marks', Row.mark, Grown] using grown
  | some sent =>
    obtain ⟨newTree, upKey⟩ := sent
    obtain ⟨left, right, join, inLeft, inRight, -⟩ := grown
    obtain ⟨newRoot, made, rootReads⟩ := newRoot_reads inLeft inRight
    refine ⟨frontRows, _, backRows, ⟨heap', newRoot, d + 2⟩, found, rows', rfl, ?_, low, highRows,
      ⟨_, outcome⟩, ?_, layout'⟩
    · simp only [getSec, Nat.succ_eq_add_one, Nat.add_one_ne_zero, if_false, innerInserted, made,
        Option.bind_eq_bind, Option.bind_some]
      rfl
    · rw [← join] at rootReads
      simpa [marks', Row.mark] using rootReads

theorem Represents.getSec (represents : Represents s rows) (key : Key) (val : Val) :
    ∃ front row back next found rows', rows = front ++ row :: back ∧
      Answers s key val next found front row back rows' := by
  by_cases flat : s.depth = 0
  · obtain ⟨row, next, found, rows', shape, answers⟩ := represents.getSec_leaf flat key val
    exact ⟨[], row, [], next, found, rows', shape, answers⟩
  · exact represents.getSec_inner flat key val

end EunoDb.BPlusTree
