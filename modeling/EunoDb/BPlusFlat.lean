import EunoDb.BPlusShape

/-! A tree read from left to right: its leaves, each with the least key that may be in it. -/

namespace EunoDb.BPlusTree

open Slots

inductive Spread (Reads : Tree → Key → List (Key × LeafId) → Prop) :
    List (Key × Tree) → List (Key × LeafId) → Prop
  | nil : Spread Reads [] []
  | cons {separator : Key} {child : Tree} {entries : List (Key × Tree)}
      {inside rest : List (Key × LeafId)} (head : Reads child separator inside)
      (tail : Spread Reads entries rest) :
      Spread Reads ((separator, child) :: entries) (inside ++ rest)

def Reads : Nat → Tree → Key → List (Key × LeafId) → Prop
  | 0, .leaf id, low, flat => flat = [(low, id)]
  | d + 1, .inner numKeys keys children, low, flat =>
    ∃ first entries, Node numKeys keys children first entries ∧
      Spread (Reads d) ((low, first) :: entries) flat
  | _, _, _, _ => False

variable {reads : Tree → Key → List (Key × LeafId) → Prop}
  {before after entries : List (Key × Tree)} {flat : List (Key × LeafId)} {d numKeys : Nat}
  {tree first : Tree} {low key : Key} {keys : List (Option Key)} {children : List (Option Tree)}

theorem Spread.append {flatBefore flatAfter : List (Key × LeafId)}
    (front : Spread reads before flatBefore) (back : Spread reads after flatAfter) :
    Spread reads (before ++ after) (flatBefore ++ flatAfter) := by
  induction front with
  | nil => exact back
  | cons head tail ih =>
    rw [List.append_assoc]
    exact .cons head ih

theorem Spread.of_append (spread : Spread reads (before ++ after) flat) :
    ∃ flatBefore flatAfter, flat = flatBefore ++ flatAfter ∧ Spread reads before flatBefore ∧
      Spread reads after flatAfter := by
  induction before generalizing flat with
  | nil => exact ⟨[], flat, rfl, .nil, spread⟩
  | cons entry before ih =>
    cases spread with
    | @cons _ _ _ inside rest head tail =>
      obtain ⟨flatBefore, flatAfter, rfl, front, back⟩ := ih tail
      exact ⟨inside ++ flatBefore, flatAfter, by simp, .cons head front, back⟩

variable {separator : Key} {child : Tree}

theorem Spread.of_cons (spread : Spread reads ((separator, child) :: entries) flat) :
    ∃ inside rest, flat = inside ++ rest ∧ reads child separator inside ∧
      Spread reads entries rest := by
  cases spread with
  | @cons _ _ _ inside rest head tail => exact ⟨inside, rest, rfl, head, tail⟩

theorem Reads.of_zero (reads : Reads 0 tree low flat) : ∃ id, tree = .leaf id ∧ flat = [(low, id)] := by
  cases tree with
  | leaf id => exact ⟨id, rfl, reads⟩
  | inner numKeys keys children => exact reads.elim

theorem Reads.of_succ (reads : Reads (d + 1) tree low flat) :
    ∃ numKeys keys children first entries, tree = .inner numKeys keys children ∧
      Node numKeys keys children first entries ∧
      Spread (Reads d) ((low, first) :: entries) flat := by
  cases tree with
  | leaf id => exact reads.elim
  | inner numKeys keys children =>
    obtain ⟨first, entries, node, spread⟩ := reads
    exact ⟨numKeys, keys, children, first, entries, rfl, node, spread⟩

theorem Reads.head (reads : Reads d tree low flat) : ∃ leaf rest, flat = (low, leaf) :: rest := by
  induction d generalizing tree flat with
  | zero =>
    obtain ⟨id, -, rfl⟩ := reads.of_zero
    exact ⟨id, [], rfl⟩
  | succ d ih =>
    obtain ⟨numKeys, keys, children, first, entries, rfl, -, spread⟩ := reads.of_succ
    obtain ⟨inside, rest, rfl, inFirst, -⟩ := spread.of_cons
    obtain ⟨leaf, others, rfl⟩ := ih inFirst
    exact ⟨leaf, others ++ rest, rfl⟩

theorem Spread.bound (spread : Spread (Reads d) entries flat) {entry : Key × Tree}
    (mem : entry ∈ entries) : ∃ leaf, (entry.1, leaf) ∈ flat := by
  induction spread with
  | nil => simp at mem
  | cons head tail ih =>
    rcases List.mem_cons.mp mem with rfl | later
    · obtain ⟨leaf, rest, rfl⟩ := head.head
      exact ⟨leaf, by simp⟩
    · obtain ⟨leaf, found⟩ := ih later
      exact ⟨leaf, List.mem_append_right _ found⟩

def Increasing (flat : List (Key × LeafId)) : Prop :=
  flat.Pairwise fun earlier later => earlier.1 < later.1

structure Descent (d : Nat) (key : Key) (numKeys : Nat) (keys : List (Option Key))
    (children : List (Option Tree)) (low : Key) (first : Tree) (entries : List (Key × Tree))
    (flat : List (Key × LeafId)) where
  before : List (Key × Tree)
  after : List (Key × Tree)
  earlier : List (Key × Tree)
  separator : Key
  child : Tree
  front : List (Key × LeafId)
  inside : List (Key × LeafId)
  back : List (Key × LeafId)
  entriesEq : entries = before ++ after
  lastEq : (low, first) :: before = earlier ++ [(separator, child)]
  flatEq : flat = front ++ (inside ++ back)
  scanned : scan keys (fun other => other ≤ key) 0 numKeys = some before.length
  found : read children before.length = some child
  below : ∀ entry ∈ before, entry.1 ≤ key
  separator_le : separator ≤ key
  above : ∀ entry ∈ after, key < entry.1
  inFront : Spread (Reads d) earlier front
  inChild : Reads d child separator inside
  inBack : Spread (Reads d) after back
  backAbove : ∀ leaf ∈ back, key < leaf.1

theorem Spread.above (spread : Spread (Reads d) entries flat) (increasing : Increasing flat)
    (above : ∀ entry ∈ entries, key < entry.1) : ∀ leaf ∈ flat, key < leaf.1 := by
  cases spread with
  | nil => simp
  | cons head tail =>
    obtain ⟨leaf, rest, rfl⟩ := head.head
    have low := above _ List.mem_cons_self
    intro other mem
    rcases List.mem_cons.mp mem with rfl | later
    · exact low
    · exact Nat.lt_trans low ((List.pairwise_cons.mp increasing).1 other later)

theorem exists_last {α : Type} (x : α) (list : List α) : ∃ front last, x :: list = front ++ [last] := by
  rcases List.eq_nil_or_concat (x :: list) with none | ⟨front, last, shape⟩
  · simp at none
  · exact ⟨front, last, by rw [shape, List.concat_eq_append]⟩

theorem Spread.increasing (spread : Spread (Reads d) entries flat) (increasing : Increasing flat) :
    entries.Pairwise fun earlier later => earlier.1 < later.1 := by
  induction spread with
  | nil => exact .nil
  | cons head tail ih =>
    obtain ⟨-, later, apart⟩ := List.pairwise_append.mp increasing
    refine .cons ?_ (ih later)
    intro entry mem
    obtain ⟨leaf, rest, rfl⟩ := head.head
    obtain ⟨other, inRest⟩ := tail.bound mem
    exact apart _ List.mem_cons_self _ inRest

theorem Node.descend (node : Node numKeys keys children first entries)
    (spread : Spread (Reads d) ((low, first) :: entries) flat) (increasing : Increasing flat)
    (reached : low ≤ key) :
    Nonempty (Descent d key numKeys keys children low first entries flat) := by
  have ordered : entries.Pairwise fun earlier later =>
      decide (later.1 ≤ key) = true → decide (earlier.1 ≤ key) = true := by
    refine (List.pairwise_cons.mp (spread.increasing increasing)).2.imp ?_
    intro earlier later less
    simp only [decide_eq_true_eq]
    exact fun reached => Nat.le_trans (Nat.le_of_lt less) reached
  obtain ⟨before, after, rfl, below, above⟩ := exists_position _ entries ordered
  simp only [decide_eq_true_eq, decide_eq_false_iff_not, Nat.not_le] at below above
  obtain ⟨earlier, ⟨separator, child⟩, lastEq⟩ := exists_last (low, first) before
  have separator_le : separator ≤ key := by
    have mem : (separator, child) ∈ (low, first) :: before := by simp [lastEq]
    rcases List.mem_cons.mp mem with isFirst | inside
    · cases isFirst
      exact reached
    · exact below _ inside
  rw [← List.cons_append, lastEq, List.append_assoc] at spread
  obtain ⟨front, rest, rfl, inFront, others⟩ := spread.of_append
  obtain ⟨inside, back, rfl, inChild, inBack⟩ := others.of_cons
  have backIncreasing : Increasing back :=
    (List.pairwise_append.mp (List.pairwise_append.mp increasing).2.1).2.1
  obtain ⟨restKeys, keysEq⟩ := node.separators
  refine ⟨before, after, earlier, separator, child, front, inside, back, rfl, lastEq, rfl, ?scanned,
    ?found, below, separator_le, above, inFront, inChild, inBack,
    inBack.above backIncreasing above⟩
  case scanned =>
    have scanned := scan_eq (fun other => decide (other ≤ key)) [] (before.map Prod.fst)
      (after.map Prod.fst) restKeys (by simpa using below) (by
        intro other head
        obtain ⟨entry, mem, rfl⟩ := List.mem_map.mp (List.mem_of_mem_head? head)
        simpa using above entry mem)
    rw [keysEq, node.num]
    simpa using scanned
  case found =>
    have length : before.length = earlier.length := by
      have := congrArg List.length lastEq
      simp only [List.length_cons, List.length_append, List.length_nil] at this
      omega
    have all : (low, first) :: (before ++ after) = earlier ++ (separator, child) :: after := by
      rw [← List.cons_append, lastEq, List.append_assoc]
      rfl
    rw [length]
    exact node.child all

theorem Reads.findLeaf (reads : Reads d tree low flat) (increasing : Increasing flat)
    (reached : low ≤ key) :
    ∃ front bound leaf back, flat = front ++ (bound, leaf) :: back ∧ bound ≤ key ∧
      (∀ other ∈ back, key < other.1) ∧ findLeaf key d tree = some leaf := by
  induction d generalizing tree low flat with
  | zero =>
    obtain ⟨id, rfl, rfl⟩ := reads.of_zero
    exact ⟨[], low, id, [], rfl, reached, by simp, rfl⟩
  | succ d ih =>
    obtain ⟨numKeys, keys, children, first, entries, rfl, node, spread⟩ := reads.of_succ
    obtain ⟨descent⟩ := node.descend spread increasing reached
    rw [descent.flatEq] at increasing
    have inner := (List.pairwise_append.mp (List.pairwise_append.mp increasing).2.1).1
    obtain ⟨front, bound, leaf, back, shape, bound_le, above, found⟩ :=
      ih descent.inChild inner descent.separator_le
    refine ⟨descent.front ++ front, bound, leaf, back ++ descent.back, ?_, bound_le, ?_, ?_⟩
    · refine descent.flatEq.trans ?_
      rw [shape]
      simp
    · intro other mem
      rcases List.mem_append.mp mem with inside | later
      · exact above other inside
      · exact descent.backAbove other later
    · simp only [BPlusTree.findLeaf, descent.scanned, descent.found, Option.bind_eq_bind,
        Option.bind_some, found]

/-! ### Insertion -/

def Spare (upKey : Key) : Tree → Prop
  | .inner _ keys _ => read keys (order - 1) = some upKey
  | .leaf _ => False

def Grown (d : Nat) (low : Key) (flat : List (Key × LeafId)) (tree : Tree) :
    Option (Tree × Key) → Prop
  | none => Reads d tree low flat
  | some (sibling, upKey) => ∃ left right, flat = left ++ right ∧ Reads d tree low left ∧
      Reads d sibling upKey right ∧ Spare upKey tree

theorem Parts.grown {result : Tree × Option (Tree × Key)} (parts : Parts first entries result)
    (spread : Spread (Reads d) ((low, first) :: entries) flat) :
    Grown (d + 1) low flat result.1 result.2 := by
  cases parts with
  | whole node => exact ⟨first, entries, node, spread⟩
  | halves node spare sibling join =>
    rw [join, ← List.cons_append] at spread
    obtain ⟨left, right, rfl, inLeft, inRight⟩ := spread.of_append
    exact ⟨left, right, rfl, ⟨_, _, node, inLeft⟩, ⟨_, _, sibling, inRight⟩, spare⟩

theorem Node.replace {earlier : List (Key × Tree)}
    (node : Node numKeys keys children first (before ++ after))
    (lastEq : (low, first) :: before = earlier ++ [(separator, child)]) (changed : Tree) :
    ∃ children' first' before', write children before.length changed = some children' ∧
      Node numKeys keys children' first' (before' ++ after) ∧
      (low, first') :: before' = earlier ++ [(separator, changed)] ∧
      before'.map Prod.fst = before.map Prod.fst := by
  obtain ⟨restKids, kidsEq⟩ := node.kids
  have childrenLength := node.childrenLength
  cases earlier with
  | nil =>
    simp only [List.nil_append, List.cons.injEq] at lastEq
    obtain ⟨isFirst, rfl⟩ := lastEq
    cases isFirst
    have put := write_append [] (some first) changed ((after.map Prod.snd).map some ++ restKids)
    have shape : children = ([] : List Tree).map some ++ some first ::
        ((after.map Prod.snd).map some ++ restKids) := by
      rw [kidsEq]
      simp
    refine ⟨_, changed, [], by rw [shape]; exact put,
      ⟨node.num, node.separators, ⟨restKids, by simp⟩, node.keysLength, ?_⟩, rfl, rfl⟩
    rw [shape] at childrenLength
    simpa using childrenLength
  | cons entry earlier =>
    simp only [List.cons_append, List.cons.injEq] at lastEq
    obtain ⟨rfl, rfl⟩ := lastEq
    have put := write_append (first :: earlier.map Prod.snd) (some child) changed
      ((after.map Prod.snd).map some ++ restKids)
    have shape : children = (first :: earlier.map Prod.snd).map some ++ some child ::
        ((after.map Prod.snd).map some ++ restKids) := by
      rw [kidsEq]
      simp
    simp only [List.length_cons, List.length_map] at put
    refine ⟨_, first, earlier ++ [(separator, changed)], by
        rw [shape, List.length_append]
        exact put, ⟨?_, ?_, ⟨restKids, by simp⟩, node.keysLength, ?_⟩, rfl, by simp⟩
    · simpa using node.num
    · simpa using node.separators
    · rw [shape] at childrenLength
      simpa using childrenLength

theorem newRoot_reads {left right : Tree} {upKey : Key} {flatLeft flatRight : List (Key × LeafId)}
    (inLeft : Reads d left low flatLeft) (inRight : Reads d right upKey flatRight) :
    ∃ root, newRoot left upKey right = some root ∧ Reads (d + 1) root low (flatLeft ++ flatRight) := by
  refine ⟨_, rfl, left, [(upKey, right)], ⟨rfl, ⟨List.replicate 14 none, rfl⟩,
    ⟨List.replicate 14 none, rfl⟩, rfl, rfl⟩, .cons inLeft ?_⟩
  have alone := Spread.cons inRight .nil
  rwa [List.append_nil] at alone

variable {Val : Type}

def Inserts (key : Key) (val : Val) (heap : Heap Val) (d : Nat) (tree : Tree) (low : Key)
    (front : List (Key × LeafId)) (bound : Key) (leaf : LeafId) (back : List (Key × LeafId)) :
    Prop :=
  (∀ heap' found, leafInsert heap leaf key val = some (heap', none, found) →
    innerInsert key val d heap tree = some ⟨tree, heap', none, found⟩) ∧
  ∀ heap' new found separator, leafInsert heap leaf key val = some (heap', some new, found) →
    read (heap'.leaf new).keys 0 = some separator → bound < separator →
    (∀ other ∈ back, separator < other.1) →
    ∃ tree' sibling, innerInsert key val d heap tree = some ⟨tree', heap', sibling, found⟩ ∧
      Grown d low (front ++ (bound, leaf) :: (separator, new) :: back) tree' sibling

theorem Descent.inserts_leaf (descent : Descent 0 key numKeys keys children low first entries flat)
    (node : Node numKeys keys children first entries) (increasing : Increasing flat) {id : LeafId}
    (isLeaf : descent.child = .leaf id) (val : Val) (heap : Heap Val) :
    Inserts key val heap 1 (.inner numKeys keys children) low descent.front descent.separator id
      descent.back := by
  obtain ⟨before, after, earlier, separator, child, front, inside, back, rfl, lastEq, rfl, scanned,
    found, below, separator_le, above, inFront, inChild, inBack, backAbove⟩ := descent
  dsimp only at isLeaf ⊢
  subst isLeaf
  cases inChild
  refine ⟨?_, ?_⟩
  · intro heap' value inserted
    simp only [innerInsert, scanned, found, Option.bind_eq_bind, Option.bind_some, inserted]
    rfl
  intro heap' new value newKey inserted newRead after_bound before_back
  have toRight : ∀ entry ∈ before, decide (entry.1 ≤ newKey) = true := by
    intro entry mem
    have inAll : entry ∈ earlier ++ [(separator, Tree.leaf id)] := by
      rw [← lastEq]
      exact List.mem_cons_of_mem _ mem
    rw [decide_eq_true_eq]
    rcases List.mem_append.mp inAll with isEarlier | isLast
    · obtain ⟨leaf, inFlat⟩ := inFront.bound isEarlier
      have less := (List.pairwise_append.mp increasing).2.2 _ inFlat (separator, id) (by simp)
      exact Nat.le_of_lt (Nat.lt_trans less after_bound)
    · rw [List.mem_singleton.mp isLast]
      exact Nat.le_of_lt after_bound
  have toLeft : ∀ entry ∈ after, decide (entry.1 ≤ newKey) = false := by
    intro entry mem
    obtain ⟨leaf, inFlat⟩ := inBack.bound mem
    rw [decide_eq_false_iff_not, Nat.not_le]
    exact before_back _ inFlat
  obtain ⟨⟨tree', sibling⟩, added, parts⟩ :=
    node.addChild newKey (.leaf new) (fun upKey => upKey ≤ newKey) toRight toLeft
  refine ⟨tree', sibling, ?_, ?_⟩
  · simp only [innerInsert, scanned, found, Option.bind_eq_bind, Option.bind_some, inserted,
      newRead, added]
    rfl
  refine parts.grown ?_
  rw [← List.cons_append, lastEq, List.append_assoc]
  have old : Reads 0 (.leaf id) separator [(separator, id)] := rfl
  have fresh : Reads 0 (.leaf new) newKey [(newKey, new)] := rfl
  exact inFront.append (Spread.cons old (Spread.cons fresh inBack))

theorem Descent.inserts_inner
    (descent : Descent (d + 1) key numKeys keys children low first entries flat)
    (node : Node numKeys keys children first entries) {val : Val} {heap : Heap Val}
    {front back : List (Key × LeafId)} {bound : Key} {leaf : LeafId}
    (inserts : Inserts key val heap (d + 1) descent.child descent.separator front bound leaf back) :
    Inserts key val heap (d + 2) (.inner numKeys keys children) low (descent.front ++ front) bound
      leaf (back ++ descent.back) := by
  obtain ⟨before, after, earlier, separator, child, outerFront, inside, outerBack, rfl, lastEq, rfl,
    scanned, found, below, separator_le, above, inFront, inChild, inBack, backAbove⟩ := descent
  dsimp only at inserts ⊢
  refine ⟨?_, ?_⟩
  · intro heap' value inserted
    simp only [innerInsert, scanned, found, Option.bind_eq_bind, Option.bind_some,
      inserts.1 heap' value inserted, write_read found]
    cases child <;> rfl
  intro heap' new value newKey inserted newRead after_bound before_back
  obtain ⟨child', sibling, childInserted, grown⟩ :=
    inserts.2 heap' new value newKey inserted newRead after_bound
      fun other mem => before_back other (List.mem_append_left _ mem)
  obtain ⟨children', first', before', written, changed, lastEq', separators⟩ :=
    node.replace lastEq child'
  have position : before'.length = before.length := by
    simpa using congrArg List.length separators
  cases sibling with
  | none =>
    refine ⟨.inner numKeys keys children', none, ?_, first', _, changed, ?_⟩
    · simp only [innerInsert, scanned, found, Option.bind_eq_bind, Option.bind_some,
        childInserted, written]
      cases child' <;> rfl
    · rw [← List.cons_append, lastEq', List.append_assoc]
      have spread := inFront.append (.cons grown inBack)
      simpa using spread
  | some sent =>
    obtain ⟨newChild, upKey⟩ := sent
    obtain ⟨left, right, shape, inLeft, inRight, spare⟩ := grown
    have toRight : ∀ entry ∈ before', decide (entry.1 ≤ key) = true := by
      intro entry mem
      have inBefore : entry.1 ∈ before.map Prod.fst := by
        rw [← separators]
        exact List.mem_map_of_mem mem
      obtain ⟨same, isBefore, equal⟩ := List.mem_map.mp inBefore
      rw [decide_eq_true_eq, ← equal]
      exact below same isBefore
    have toLeft : ∀ entry ∈ after, decide (entry.1 ≤ key) = false := by
      intro entry mem
      rw [decide_eq_false_iff_not, Nat.not_le]
      exact above entry mem
    obtain ⟨⟨tree', sibling⟩, added, parts⟩ :=
      changed.addChild upKey newChild (fun upKey => upKey ≤ key) toRight toLeft
    rw [position] at added
    refine ⟨tree', sibling, ?_, ?_⟩
    · cases child' with
      | leaf id => exact spare.elim
      | inner childNum childKeys childChildren =>
        have upRead : read childKeys (order - 1) = some upKey := spare
        simp only [innerInsert, scanned, found, Option.bind_eq_bind, Option.bind_some,
          childInserted, written, upRead, added]
        rfl
    · refine parts.grown ?_
      rw [← List.cons_append, lastEq', List.append_assoc]
      have spread := inFront.append (.cons inLeft (.cons inRight inBack))
      rw [← List.append_assoc left, ← shape] at spread
      simpa using spread

theorem Reads.innerInsert (reads : Reads (d + 1) tree low flat) (increasing : Increasing flat)
    (reached : low ≤ key) (val : Val) (heap : Heap Val) :
    ∃ front bound leaf back, flat = front ++ (bound, leaf) :: back ∧ bound ≤ key ∧
      (∀ other ∈ back, key < other.1) ∧
      Inserts key val heap (d + 1) tree low front bound leaf back := by
  induction d generalizing tree low flat with
  | zero =>
    obtain ⟨numKeys, keys, children, first, entries, rfl, node, spread⟩ := reads.of_succ
    obtain ⟨descent⟩ := node.descend spread increasing reached
    obtain ⟨id, isLeaf, inside⟩ := descent.inChild.of_zero
    refine ⟨descent.front, descent.separator, id, descent.back, ?_, descent.separator_le,
      descent.backAbove, descent.inserts_leaf node increasing isLeaf val heap⟩
    refine descent.flatEq.trans ?_
    rw [inside]
    rfl
  | succ d ih =>
    obtain ⟨numKeys, keys, children, first, entries, rfl, node, spread⟩ := reads.of_succ
    obtain ⟨descent⟩ := node.descend spread increasing reached
    rw [descent.flatEq] at increasing
    have inner := (List.pairwise_append.mp (List.pairwise_append.mp increasing).2.1).1
    obtain ⟨front, bound, leaf, back, shape, bound_le, above, inserts⟩ :=
      ih descent.inChild inner descent.separator_le
    refine ⟨descent.front ++ front, bound, leaf, back ++ descent.back, ?_, bound_le, ?_,
      descent.inserts_inner node inserts⟩
    · refine descent.flatEq.trans ?_
      rw [shape]
      simp
    · intro other mem
      rcases List.mem_append.mp mem with inside | later
      · exact above other inside
      · exact descent.backAbove other later

end EunoDb.BPlusTree
