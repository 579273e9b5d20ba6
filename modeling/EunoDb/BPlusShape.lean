import EunoDb.BPlusTree

/-! Inner nodes as lists: a first child and the child of each separator. -/

namespace EunoDb.BPlusTree

open Slots

structure Node (numKeys : Nat) (keys : List (Option Key)) (children : List (Option Tree))
    (first : Tree) (entries : List (Key × Tree)) : Prop where
  num : numKeys = entries.length
  separators : ∃ rest, keys = (entries.map Prod.fst).map some ++ rest
  kids : ∃ rest, children = (first :: entries.map Prod.snd).map some ++ rest
  keysLength : keys.length = order
  childrenLength : children.length = order + 1

variable {numKeys : Nat} {keys : List (Option Key)} {children : List (Option Tree)} {first : Tree}
  {entries before after : List (Key × Tree)} {α : Type}

theorem Node.length_le (node : Node numKeys keys children first entries) :
    entries.length ≤ order := by
  obtain ⟨rest, shape⟩ := node.separators
  have length := node.keysLength
  rw [shape] at length
  simp only [List.length_append, List.length_map] at length
  omega

theorem read_beyond {before after : List α} {slot : Option α} {rest : List (Option α)}
    (length : after.length = before.length + 1) {j : Nat} (beyond : before.length < j) :
    read (after.map some ++ rest) j = read (before.map some ++ slot :: rest) j := by
  unfold Slots.read
  rw [List.getElem?_append_right (by simp; omega), List.getElem?_append_right (by simp; omega)]
  obtain ⟨m, rfl⟩ : ∃ m, j = before.length + 1 + m := ⟨j - (before.length + 1), by omega⟩
  simp only [List.length_map, length]
  rw [show before.length + 1 + m - (before.length + 1) = m by omega,
    show before.length + 1 + m - before.length = m + 1 by omega, List.getElem?_cons_succ]

theorem exists_cons (list : List α) (nonempty : 0 < list.length) : ∃ x rest, list = x :: rest := by
  cases list with
  | nil => simp at nonempty
  | cons x rest => exact ⟨x, rest, rfl⟩

theorem Node.child {child : Tree} {low separator : Key}
    (node : Node numKeys keys children first entries)
    (shape : (low, first) :: entries = before ++ (separator, child) :: after) :
    read children before.length = some child := by
  obtain ⟨rest, kidsEq⟩ := node.kids
  have kids := congrArg (List.map Prod.snd) shape
  simp only [List.map_cons, List.map_append] at kids
  have found := read_append (before.map Prod.snd) child ((after.map Prod.snd).map some ++ rest)
  rw [kidsEq, kids]
  simpa using found

theorem Node.separator {left right : Tree} {low below above : Key}
    (node : Node numKeys keys children first entries)
    (shape : (low, first) :: entries = before ++ (below, left) :: (above, right) :: after) :
    read keys before.length = some above := by
  obtain ⟨rest, keysEq⟩ := node.separators
  rw [keysEq]
  cases before with
  | nil =>
    simp only [List.nil_append, List.cons.injEq] at shape
    rw [shape.2]
    rfl
  | cons entry before =>
    simp only [List.cons_append, List.cons.injEq] at shape
    have found := read_append (before.map Prod.fst ++ [below]) above
      ((after.map Prod.fst).map some ++ rest)
    rw [shape.2]
    simpa using found

theorem Node.putChild (node : Node numKeys keys children first (before ++ after))
    (room : numKeys < order) (separator : Key) (new : Tree) :
    ∃ keys' children', putChild numKeys keys children before.length separator new =
        some (.inner (numKeys + 1) keys' children') ∧
      Node (numKeys + 1) keys' children' first (before ++ (separator, new) :: after) ∧
      ∀ j, numKeys < j → read keys' j = read keys j := by
  obtain ⟨restKeys, keysEq⟩ := node.separators
  obtain ⟨restKids, kidsEq⟩ := node.kids
  have num := node.num
  have keysLength := node.keysLength
  have childrenLength := node.childrenLength
  rw [keysEq] at keysLength
  rw [kidsEq] at childrenLength
  simp only [List.length_append, List.length_map, List.length_cons] at keysLength childrenLength num
  obtain ⟨slot, restKeys, rfl⟩ := exists_cons restKeys (by omega)
  obtain ⟨hole, restKids, rfl⟩ := exists_cons restKids (by omega)
  have keysPut := insertAt_eq (before.map Prod.fst) (after.map Prod.fst) slot separator restKeys
  have kidsPut := insertAt_eq (first :: before.map Prod.snd) (after.map Prod.snd) hole new restKids
  simp only [← List.map_append, List.length_map, List.length_append] at keysPut
  simp only [List.cons_append, ← List.map_append, List.length_cons, List.length_map,
    List.length_append] at kidsPut
  rw [← keysEq, ← num] at keysPut
  rw [← kidsEq, ← num] at kidsPut
  have keysNew : ((before ++ (separator, new) :: after).map Prod.fst).map some ++ restKeys =
      (before.map Prod.fst ++ separator :: after.map Prod.fst).map some ++ restKeys := by simp
  have kidsNew : (first :: (before ++ (separator, new) :: after).map Prod.snd).map some ++ restKids =
      (first :: (before.map Prod.snd ++ new :: after.map Prod.snd)).map some ++ restKids := by simp
  rw [← keysNew] at keysPut
  rw [← kidsNew] at kidsPut
  simp only [List.length_cons] at keysLength childrenLength
  refine ⟨_, _, by simp only [BPlusTree.putChild, keysPut, kidsPut, Option.bind_eq_bind,
    Option.bind_some]; rfl, ⟨?_, ⟨restKeys, rfl⟩, ⟨restKids, rfl⟩, ?_, ?_⟩, ?_⟩
  · simp only [List.length_append, List.length_cons]
    omega
  · simp only [List.length_append, List.length_map, List.length_cons]
    omega
  · simp only [List.length_append, List.length_map, List.length_cons]
    omega
  intro j beyond
  rw [keysEq]
  refine read_beyond ?_ ?_
  · simp only [List.length_append, List.length_map, List.length_cons]
    omega
  · simpa only [List.length_append, List.length_map, ← num] using beyond

theorem Node.split {middle : Tree} {left right : List (Key × Tree)} {upKey : Key}
    (node : Node order keys children first (left ++ (upKey, middle) :: right))
    (half : left.length = threshold - 1) :
    ∃ siblingKeys copied last siblingChildren keys',
      copy keys threshold 0 (order - threshold) (List.replicate order none) = some siblingKeys ∧
      copy children threshold 0 (order - threshold) (List.replicate (order + 1) none) =
        some copied ∧
      read children order = some last ∧
      write copied (order - threshold) last = some siblingChildren ∧
      read keys (threshold - 1) = some upKey ∧ write keys (order - 1) upKey = some keys' ∧
      Node (threshold - 1) keys' children first left ∧ read keys' (order - 1) = some upKey ∧
      Node (order - threshold) siblingKeys siblingChildren middle right := by
  have num := node.num
  obtain ⟨restKeys, keysEq⟩ := node.separators
  obtain ⟨restKids, kidsEq⟩ := node.kids
  have keysLength := node.keysLength
  have childrenLength := node.childrenLength
  rw [keysEq] at keysLength
  rw [kidsEq] at childrenLength
  simp only [List.length_append, List.length_map, List.length_cons] at keysLength childrenLength num
  simp only [order, threshold] at *
  obtain rfl : restKeys = [] := List.eq_nil_of_length_eq_zero (by omega)
  obtain rfl : restKids = [] := List.eq_nil_of_length_eq_zero (by omega)
  have rest : right.length = 7 := by omega
  -- the last entry is copied by itself
  obtain ⟨right, ⟨lastKey, lastChild⟩, rfl⟩ : ∃ front last, right = front ++ [last] := by
    rcases List.eq_nil_or_concat right with rfl | ⟨front, last, shape⟩
    · simp at rest
    · exact ⟨front, last, by rw [shape, List.concat_eq_append]⟩
  simp only [List.length_append, List.length_cons, List.length_nil] at rest
  have keysCopied := copy_eq 8 (left.map Prod.fst ++ [upKey]) (right.map Prod.fst ++ [lastKey]) [] []
    (List.replicate 15 none) (by simp; omega) (by simp; omega)
  have kidsCopied := copy_eq 8 (first :: left.map Prod.snd) (middle :: right.map Prod.snd) []
    [some lastChild] (List.replicate 16 none) (by simp; omega) (by simp; omega)
  have lastRead := read_append (first :: left.map Prod.snd ++ middle :: right.map Prod.snd)
    lastChild []
  have lastWritten := write_append (middle :: right.map Prod.snd) none lastChild
    (List.replicate 8 none)
  have upRead := read_append (left.map Prod.fst) upKey ((right.map Prod.fst ++ [lastKey]).map some)
  have upWritten := write_append (left.map Prod.fst ++ upKey :: right.map Prod.fst)
    (some lastKey) upKey []
  have upKept := read_append (left.map Prod.fst ++ upKey :: right.map Prod.fst) upKey []
  simp only [List.length_append, List.length_map, List.length_cons, List.length_nil, half]
    at keysCopied kidsCopied lastRead lastWritten upRead upWritten upKept
  rw [show right.length = 6 by omega] at keysCopied kidsCopied lastRead lastWritten upWritten upKept
  have inKeys : keys = (left.map Prod.fst ++ upKey :: right.map Prod.fst).map some ++
      [some lastKey] := by
    rw [keysEq]
    simp
  have inKids : children = (first :: left.map Prod.snd ++ middle :: right.map Prod.snd).map some ++
      [some lastChild] := by
    rw [kidsEq]
    simp
  have siblingKeys : (right.map Prod.fst ++ [lastKey]).map some =
      ((right ++ [(lastKey, lastChild)]).map Prod.fst).map some := by simp
  have siblingKids : (middle :: right.map Prod.snd).map some ++ some lastChild ::
      List.replicate 8 none =
      (middle :: (right ++ [(lastKey, lastChild)]).map Prod.snd).map some ++
        List.replicate 8 none := by simp
  refine ⟨(right.map Prod.fst ++ [lastKey]).map some ++ List.replicate 8 none,
    (middle :: right.map Prod.snd).map some ++ none :: List.replicate 8 none, lastChild,
    (middle :: right.map Prod.snd).map some ++ some lastChild :: List.replicate 8 none,
    (left.map Prod.fst ++ upKey :: right.map Prod.fst).map some ++ [some upKey],
    ?keysCopied, ?kidsCopied, ?lastRead, lastWritten, ?upRead, ?upWritten, ?left, upKept, ?right⟩
  case keysCopied =>
    rw [keysEq]
    simpa using keysCopied
  case kidsCopied =>
    rw [inKids]
    exact kidsCopied
  case lastRead =>
    rw [inKids]
    exact lastRead
  case upRead =>
    rw [keysEq]
    simpa using upRead
  case upWritten =>
    rw [inKeys]
    exact upWritten
  case left =>
    refine ⟨half.symm, ⟨some upKey :: (right.map Prod.fst).map some ++ [some upKey], by simp⟩,
      ⟨some middle :: (right.map Prod.snd).map some ++ [some lastChild], by rw [inKids]; simp⟩, ?_,
      node.childrenLength⟩
    simp only [order, List.length_append, List.length_map, List.length_cons, List.length_nil]
    omega
  case right =>
    refine ⟨by simp; omega, ⟨_, by rw [siblingKeys]⟩, ⟨_, siblingKids⟩, ?_, ?_⟩
    · simp only [order, List.length_append, List.length_map, List.length_cons, List.length_nil,
        List.length_replicate]
      omega
    · simp only [order, List.length_append, List.length_map, List.length_cons,
        List.length_replicate]
      omega

inductive Parts (first : Tree) (entries : List (Key × Tree)) : Tree × Option (Tree × Key) → Prop
  | whole {numKeys : Nat} {keys : List (Option Key)} {children : List (Option Tree)}
      (node : Node numKeys keys children first entries) :
      Parts first entries (.inner numKeys keys children, none)
  | halves {numKeys siblingNum : Nat} {keys siblingKeys : List (Option Key)}
      {children siblingChildren : List (Option Tree)} {left right : List (Key × Tree)}
      {upKey : Key} {middle : Tree} (node : Node numKeys keys children first left)
      (spare : read keys (order - 1) = some upKey)
      (sibling : Node siblingNum siblingKeys siblingChildren middle right)
      (join : entries = left ++ (upKey, middle) :: right) :
      Parts first entries (.inner numKeys keys children,
        some (.inner siblingNum siblingKeys siblingChildren, upKey))

theorem exists_middle (list : List α) {k : Nat} (inside : k < list.length) :
    ∃ left x right, list = left ++ x :: right ∧ left.length = k := by
  refine ⟨list.take k, list[k], list.drop (k + 1), ?_, by simp; omega⟩
  rw [List.getElem_cons_drop, List.take_append_drop]

theorem Node.addChild (node : Node numKeys keys children first (before ++ after)) (separator : Key)
    (new : Tree) (toRight : Key → Bool) (below : ∀ entry ∈ before, toRight entry.1 = true)
    (above : ∀ entry ∈ after, toRight entry.1 = false) :
    ∃ result, addChild numKeys keys children before.length separator new toRight = some result ∧
      Parts first (before ++ (separator, new) :: after) result := by
  by_cases full : numKeys = order
  · have num := node.num
    obtain ⟨left, ⟨upKey, middle⟩, right, shape, half⟩ :=
      exists_middle (before ++ after) (k := threshold - 1) (by
        rw [← num, full]
        decide)
    subst full
    rw [shape] at node
    obtain ⟨siblingKeys, copied, last, siblingChildren, keys', keysCopied, kidsCopied, lastRead,
      lastWritten, upRead, upWritten, leftNode, spare, rightNode⟩ := node.split half
    have unfolded : ∀ k, BPlusTree.addChild order keys children k separator new toRight =
        if toRight upKey then do
          let sibling ← BPlusTree.putChild (order - threshold) siblingKeys siblingChildren
            (if threshold ≤ k then k - threshold else 0) separator new
          return (.inner (threshold - 1) keys' children, some (sibling, upKey))
        else do
          let inner ← BPlusTree.putChild (threshold - 1) keys' children k separator new
          return (inner, some (.inner (order - threshold) siblingKeys siblingChildren, upKey)) := by
      intro k
      simp only [BPlusTree.addChild, if_true, keysCopied, kidsCopied, lastRead, lastWritten, upRead,
        upWritten, Option.bind_eq_bind, Option.bind_some]
    rcases List.append_eq_append_iff.mp shape with ⟨tail, rfl, rfl⟩ | ⟨tail, rfl, cut⟩
    · -- the position is in the left half
      have toLeft : toRight upKey = false := above (upKey, middle) (by simp)
      obtain ⟨keysPut, kidsPut, put, putNode, others⟩ :=
        leftNode.putChild (by decide) separator new
      refine ⟨_, by
        rw [unfolded, toLeft, if_neg Bool.false_ne_true, put]
        rfl, ?_⟩
      refine .halves putNode ?_ rightNode (by simp)
      rw [others _ (by decide), spare]
    cases tail with
    | nil =>
      -- right before the key that goes up
      rw [List.nil_append] at cut
      subst cut
      have toLeft : toRight upKey = false := above (upKey, middle) (by simp)
      have atEnd : Node (threshold - 1) keys' children first (left ++ []) := by
        simpa using leftNode
      obtain ⟨keysPut, kidsPut, put, putNode, others⟩ :=
        atEnd.putChild (by decide) separator new
      refine ⟨_, by
        rw [List.append_nil, unfolded, toLeft, if_neg Bool.false_ne_true, put]
        rfl, ?_⟩
      refine .halves putNode ?_ rightNode (by simp)
      rw [others _ (by decide), spare]
    | cons entry tail =>
      rw [List.cons_append, List.cons.injEq] at cut
      obtain ⟨rfl, rfl⟩ := cut
      have right : toRight upKey = true := below (upKey, middle) (by simp)
      obtain ⟨keysPut, kidsPut, put, putNode, -⟩ :=
        rightNode.putChild (by decide) separator new
      have position : (if threshold ≤ (left ++ (upKey, middle) :: tail).length then
          (left ++ (upKey, middle) :: tail).length - threshold else 0) = tail.length := by
        simp only [List.length_append, List.length_cons, half, threshold, order]
        split <;> omega
      refine ⟨_, by
        rw [unfolded, right, if_pos rfl, position, put]
        rfl, ?_⟩
      exact .halves leftNode spare putNode (by simp)
  · have room : numKeys < order := by
      have := node.length_le
      have := node.num
      omega
    obtain ⟨keysPut, kidsPut, put, putNode, -⟩ := node.putChild room separator new
    refine ⟨_, by
      rw [BPlusTree.addChild, if_neg full, put]
      rfl, ?_⟩
    exact .whole putNode

end EunoDb.BPlusTree
