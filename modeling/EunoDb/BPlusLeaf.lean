import EunoDb.BPlusTree

/-! What `LeafInsert` does with a leaf, its new sibling and its neighbour. -/

namespace EunoDb.BPlusTree

open Slots

variable {Val : Type}

def LeafNode.entries (leaf : LeafNode Val) : List (Key × Val) :=
  ((leaf.keys.take leaf.numKeys).filterMap id).zip ((leaf.values.take leaf.numKeys).filterMap id)

structure Holds (leaf : LeafNode Val) (entries : List (Key × Val)) : Prop where
  num : leaf.numKeys = entries.length
  inKeys : ∃ rest, leaf.keys = (entries.map Prod.fst).map some ++ rest
  inValues : ∃ rest, leaf.values = (entries.map Prod.snd).map some ++ rest
  keysLength : leaf.keys.length = order
  valuesLength : leaf.values.length = order

variable {leaf : LeafNode Val} {before after : List (Key × Val)} {id : LeafId} {heap : Heap Val}
  {key : Key}

theorem Holds.length_le {entries : List (Key × Val)} (holds : Holds leaf entries) :
    entries.length ≤ order := by
  obtain ⟨rest, shape⟩ := holds.inKeys
  have length := holds.keysLength
  rw [shape] at length
  simp only [List.length_append, List.length_map] at length
  omega

theorem Holds.entries_eq {entries : List (Key × Val)} (holds : Holds leaf entries) :
    leaf.entries = entries := by
  obtain ⟨restKeys, keysEq⟩ := holds.inKeys
  obtain ⟨restValues, valuesEq⟩ := holds.inValues
  have filled : ∀ {α : Type} (xs : List α) (rest : List (Option α)),
      ((xs.map some ++ rest).take xs.length).filterMap id = xs := by
    intro α xs rest
    rw [List.take_left' (by simp), List.filterMap_map]
    simp
  have keys := filled (entries.map Prod.fst) restKeys
  have values := filled (entries.map Prod.snd) restValues
  rw [List.length_map, ← holds.num] at keys values
  rw [LeafNode.entries, keysEq, valuesEq, keys, values, List.zip_map']
  simp

theorem Holds.congr {other : LeafNode Val} {entries : List (Key × Val)} (holds : Holds leaf entries)
    (num : other.numKeys = leaf.numKeys) (keys : other.keys = leaf.keys)
    (values : other.values = leaf.values) : Holds other entries := by
  refine ⟨num.trans holds.num, ?_, ?_, ?_, ?_⟩
  · rw [keys]
    exact holds.inKeys
  · rw [values]
    exact holds.inValues
  · rw [keys]
    exact holds.keysLength
  · rw [values]
    exact holds.valuesLength

theorem insertAt_front {α : Type} {slots : List (Option α)} (before after : List α) (x : α)
    {rest : List (Option α)} (shape : slots = (before ++ after).map some ++ rest)
    (length : slots.length = order) (room : (before ++ after).length < order) :
    ∃ slots' rest', insertAt slots (before ++ after).length before.length x = some slots' ∧
      slots' = (before ++ x :: after).map some ++ rest' ∧ slots'.length = order := by
  rw [shape, List.length_append, List.length_map] at length
  cases rest with
  | nil => simp only [List.length_nil] at length; omega
  | cons slot rest =>
    refine ⟨_, rest, by rw [shape]; exact insertAt_eq before after slot x rest, rfl, ?_⟩
    simp only [List.length_append, List.length_map, List.length_cons] at length ⊢
    omega

theorem Holds.put (holds : Holds leaf (before ++ after)) (room : leaf.numKeys < order) (key : Key)
    (val : Val) :
    ∃ leaf', leaf.put before.length key val = some leaf' ∧
      Holds leaf' (before ++ (key, val) :: after) ∧ leaf'.left = leaf.left ∧
      leaf'.right = leaf.right ∧ leaf'.seq = leaf.seq := by
  obtain ⟨restKeys, keysEq⟩ := holds.inKeys
  obtain ⟨restValues, valuesEq⟩ := holds.inValues
  have num := holds.num
  rw [num] at room
  obtain ⟨keys', restKeys', keysPut, keysNew, keysLength⟩ :=
    insertAt_front (before.map Prod.fst) (after.map Prod.fst) key (by simpa using keysEq)
      holds.keysLength (by simpa using room)
  obtain ⟨values', restValues', valuesPut, valuesNew, valuesLength⟩ :=
    insertAt_front (before.map Prod.snd) (after.map Prod.snd) val (by simpa using valuesEq)
      holds.valuesLength (by simpa using room)
  rw [← List.map_append, List.length_map, List.length_map, ← num] at keysPut valuesPut
  refine ⟨{ leaf with numKeys := leaf.numKeys + 1, keys := keys', values := values' }, ?_,
    ⟨?_, ⟨restKeys', ?_⟩, ⟨restValues', ?_⟩, keysLength, valuesLength⟩, rfl, rfl, rfl⟩
  · simp only [LeafNode.put, keysPut, valuesPut, Option.bind_eq_bind, Option.bind_some]
    rfl
  · simp only [num, List.length_append, List.length_cons]
    omega
  · simpa using keysNew
  · simpa using valuesNew

theorem Holds.upper {lower upper : List (Key × Val)} (holds : Holds leaf (lower ++ upper))
    (full : leaf.numKeys = order) (half : lower.length = threshold) (left right : Option LeafId) :
    ∃ keys values,
      copy leaf.keys threshold 0 (leaf.numKeys - threshold) (List.replicate order none) = some keys ∧
      copy leaf.values threshold 0 (leaf.numKeys - threshold) (List.replicate order none) =
        some values ∧
      Holds ⟨leaf.numKeys - threshold, keys, values, left, right, 0⟩ upper := by
  obtain ⟨restKeys, keysEq⟩ := holds.inKeys
  obtain ⟨restValues, valuesEq⟩ := holds.inValues
  have num := holds.num
  rw [full, List.length_append, half] at num
  have amount : leaf.numKeys - threshold = upper.length := by omega
  have copied : ∀ {α : Type} (f : Key × Val → α) (rest : List (Option α)),
      copy (((lower ++ upper).map f).map some ++ rest) threshold 0 upper.length
        (List.replicate order none) =
      some ((upper.map f).map some ++ List.replicate (order - upper.length) none) := by
    intro α f rest
    have moved := copy_eq threshold (lower.map f) (upper.map f) [] rest (List.replicate order none)
      (by simpa using half.symm) (by simp; omega)
    simpa using moved
  refine ⟨_, _, by rw [amount, keysEq]; exact copied Prod.fst restKeys,
    by rw [amount, valuesEq]; exact copied Prod.snd restValues, amount, ⟨_, rfl⟩, ⟨_, rfl⟩, ?_, ?_⟩
  · simp only [List.length_append, List.length_map, List.length_replicate]
    omega
  · simp only [List.length_append, List.length_map, List.length_replicate]
    omega

theorem Holds.lower {lower upper : List (Key × Val)} (holds : Holds leaf (lower ++ upper))
    (half : lower.length = threshold) (right : Option LeafId) :
    Holds { leaf with numKeys := threshold, right := right } lower := by
  obtain ⟨restKeys, keysEq⟩ := holds.inKeys
  obtain ⟨restValues, valuesEq⟩ := holds.inValues
  refine ⟨half.symm, ⟨(upper.map Prod.fst).map some ++ restKeys, ?_⟩,
    ⟨(upper.map Prod.snd).map some ++ restValues, ?_⟩, holds.keysLength, holds.valuesLength⟩
  · rw [keysEq]
    simp
  · rw [valuesEq]
    simp

structure Filled (heap heap' : Heap Val) (id : LeafId) (entries : List (Key × Val)) : Prop where
  next : heap'.next = heap.next
  holds : Holds (heap'.leaf id) entries
  left : (heap'.leaf id).left = (heap.leaf id).left
  right : (heap'.leaf id).right = (heap.leaf id).right
  seq : (heap'.leaf id).seq = (heap.leaf id).seq + 1
  others : ∀ other, other ≠ id → heap'.leaf other = heap.leaf other

structure Divided (heap heap' : Heap Val) (id : LeafId) (lower upper : List (Key × Val)) :
    Prop where
  next : heap'.next = heap.next + 1
  holds : Holds (heap'.leaf id) lower
  newHolds : Holds (heap'.leaf heap.next) upper
  left : (heap'.leaf id).left = (heap.leaf id).left
  right : (heap'.leaf id).right = some heap.next
  newLeft : (heap'.leaf heap.next).left = some id
  newRight : (heap'.leaf heap.next).right = (heap.leaf id).right
  neighbour : ∀ other, (heap.leaf id).right = some other →
    heap'.leaf other = { heap.leaf other with left := some heap.next }
  others : ∀ other, other ≠ id → other ≠ heap.next → (heap.leaf id).right ≠ some other →
    heap'.leaf other = heap.leaf other

@[simp]
theorem Heap.set_same (heap : Heap Val) (id : LeafId) (leaf : LeafNode Val) :
    (heap.set id leaf).leaf id = leaf := Function.update_self ..

@[simp]
theorem Heap.set_other (heap : Heap Val) {other : LeafId} (leaf : LeafNode Val)
    (different : other ≠ id) : (heap.set id leaf).leaf other = heap.leaf other :=
  Function.update_of_ne different ..

structure Placed (heap : Heap Val) (id : LeafId) : Prop where
  used : id ≠ heap.next
  notItself : (heap.leaf id).right ≠ some id
  neighbourUsed : (heap.leaf id).right ≠ some heap.next

theorem Divided.change {split heap' : Heap Val} {lower upper lower' upper' : List (Key × Val)}
    (divided : Divided heap split id lower upper) (next : heap'.next = split.next)
    (holds : Holds (heap'.leaf id) lower') (newHolds : Holds (heap'.leaf heap.next) upper')
    (left : (heap'.leaf id).left = (split.leaf id).left)
    (right : (heap'.leaf id).right = (split.leaf id).right)
    (newLeft : (heap'.leaf heap.next).left = (split.leaf heap.next).left)
    (newRight : (heap'.leaf heap.next).right = (split.leaf heap.next).right)
    (others : ∀ other, other ≠ id → other ≠ heap.next → heap'.leaf other = split.leaf other)
    (placed : Placed heap id) : Divided heap heap' id lower' upper' := by
  refine ⟨next.trans divided.next, holds, newHolds, left.trans divided.left,
    right.trans divided.right, newLeft.trans divided.newLeft, newRight.trans divided.newRight, ?_, ?_⟩
  · intro other isRight
    rw [others other (fun same => placed.notItself (same ▸ isRight))
      (fun same => placed.neighbourUsed (same ▸ isRight)), divided.neighbour other isRight]
  · intro other notId notNew notRight
    rw [others other notId notNew, divided.others other notId notNew notRight]

theorem splitLeaf_divides {lower upper : List (Key × Val)}
    (holds : Holds (heap.leaf id) (lower ++ upper)) (full : (heap.leaf id).numKeys = order)
    (half : lower.length = threshold) (placed : Placed heap id) :
    ∃ split, splitLeaf heap id = some split ∧ Divided heap split id lower upper ∧
      (split.leaf id).numKeys = threshold ∧ (split.leaf id).seq = (heap.leaf id).seq ∧
      (split.leaf heap.next).numKeys = order - threshold := by
  obtain ⟨keys, values, keysCopied, valuesCopied, newHolds⟩ :=
    holds.upper full half (some id) (heap.leaf id).right
  have lowerHolds := holds.lower half (some heap.next)
  have used := placed.used
  refine ⟨_, by
    simp only [splitLeaf, keysCopied, valuesCopied, Option.bind_eq_bind, Option.bind_some]
    rfl, ?_, ?_, ?_, ?_⟩
  case refine_2 => simp [Heap.set, used]
  case refine_3 => simp [Heap.set, used]
  case refine_4 => simp [Heap.set, full]
  cases neighbour : (heap.leaf id).right with
  | none =>
    rw [neighbour] at newHolds
    refine ⟨rfl, ?_, ?_, ?_, ?_, ?_, ?_, ?_, ?_⟩
    · simpa [Heap.set, used] using lowerHolds
    · simpa [Heap.set] using newHolds
    · simp [Heap.set, used]
    · simp [Heap.set, used]
    · simp [Heap.set]
    · simp [Heap.set, neighbour]
    · simp [neighbour]
    · intro other notId notNew _
      simp [Heap.set, notId, notNew]
  | some right =>
    rw [neighbour] at newHolds
    have notId : right ≠ id := fun same => placed.notItself (same ▸ neighbour)
    have notNew : right ≠ heap.next := fun same => placed.neighbourUsed (same ▸ neighbour)
    refine ⟨rfl, ?_, ?_, ?_, ?_, ?_, ?_, ?_, ?_⟩
    · simpa [Heap.set, used] using lowerHolds
    · simpa [Heap.set] using newHolds
    · simp [Heap.set, used]
    · simp [Heap.set, used]
    · simp [Heap.set]
    · simp [Heap.set, neighbour]
    · intro other isRight
      cases neighbour.symm.trans isRight
      simp [Heap.set, notId, notNew]
    · intro other isOther fresh notRight
      have different : other ≠ right := fun same => notRight (by rw [neighbour, same])
      simp [Heap.set, isOther, fresh, different]

inductive Added (heap heap' : Heap Val) (id : LeafId) (entries : List (Key × Val)) :
    Option LeafId → Prop
  | filled (filled : Filled heap heap' id entries) : Added heap heap' id entries none
  | divided {lower upper : List (Key × Val)} (join : lower ++ upper = entries)
      (lowerSome : lower ≠ []) (upperSeveral : 2 ≤ upper.length)
      (divided : Divided heap heap' id lower upper)
      (seq : (heap'.leaf id).seq = (heap.leaf id).seq + 1) :
      Added heap heap' id entries (some heap.next)

theorem Holds.seq {entries : List (Key × Val)} (holds : Holds leaf entries) (seq : Nat) :
    Holds { leaf with seq := seq } entries :=
  holds.congr rfl rfl rfl

theorem addKey_filled (holds : Holds (heap.leaf id) (before ++ after))
    (room : (heap.leaf id).numKeys ≠ order) (key : Key) (val : Val) :
    ∃ heap', addKey heap id before.length key val = some (heap', none) ∧
      Filled heap heap' id (before ++ (key, val) :: after) := by
  have limit := holds.length_le
  have num := holds.num
  obtain ⟨leaf, put, newHolds, left, right, seq⟩ := holds.put (by omega) key val
  refine ⟨heap.set id { leaf with seq := leaf.seq + 1 }, ?_, rfl, ?_, ?_, ?_, ?_, ?_⟩
  · simp only [addKey, if_neg room, put, Option.bind_eq_bind, Option.bind_some]
    rfl
  · rw [Heap.set_same]
    exact newHolds.seq _
  · rw [Heap.set_same]
    exact left
  · rw [Heap.set_same]
    exact right
  · rw [Heap.set_same]
    exact congrArg (· + 1) seq
  · intro other different
    exact Heap.set_other heap _ different

theorem addKey_divided (holds : Holds (heap.leaf id) (before ++ after))
    (full : (heap.leaf id).numKeys = order) (placed : Placed heap id) (key : Key) (val : Val) :
    ∃ heap', addKey heap id before.length key val = some (heap', some heap.next) ∧
      Added heap heap' id (before ++ (key, val) :: after) (some heap.next) := by
  have num := holds.num
  have used := placed.used
  rw [full] at num
  by_cases toRight : threshold ≤ before.length
  · -- the key goes to the sibling
    obtain ⟨lower, rest, rfl, half⟩ : ∃ lower rest, before = lower ++ rest ∧ lower.length = threshold :=
      ⟨before.take threshold, before.drop threshold, by simp, by simp [toRight]⟩
    rw [List.append_assoc] at holds
    obtain ⟨split, splits, divided, -, seq, siblingNum⟩ := splitLeaf_divides holds full half placed
    obtain ⟨sibling, put, siblingHolds, left, right, -⟩ :=
      divided.newHolds.put (by rw [siblingNum]; decide) key val
    have position : (lower ++ rest).length - threshold = rest.length := by
      rw [List.length_append, half]
      omega
    let raised : LeafNode Val := { split.leaf id with seq := (split.leaf id).seq + 1 }
    refine ⟨(split.set heap.next sibling).set id raised, ?_, .divided
      (List.append_assoc lower rest _).symm ?_ ?_
      (divided.change rfl ?_ ?_ ?_ ?_ ?_ ?_ ?_ placed) ?_⟩
    · simp only [addKey, if_pos full, splits, if_pos toRight, position, put, Option.bind_eq_bind,
        Option.bind_some]
      rfl
    · intro empty
      simp [empty, threshold, order] at half
    · simp only [List.length_append, List.length_cons, threshold, order] at num half ⊢
      omega
    · rw [Heap.set_same]
      exact divided.holds.seq _
    · rw [Heap.set_other _ _ used.symm, Heap.set_same]
      exact siblingHolds
    · rw [Heap.set_same]
    · rw [Heap.set_same]
    · rw [Heap.set_other _ _ used.symm, Heap.set_same]
      exact left
    · rw [Heap.set_other _ _ used.symm, Heap.set_same]
      exact right
    · intro other notId notNew
      rw [Heap.set_other _ _ notId, Heap.set_other _ _ notNew]
    · rw [Heap.set_same]
      exact congrArg (· + 1) seq
  · obtain ⟨rest, upper, rfl, half⟩ : ∃ rest upper, after = rest ++ upper ∧
        (before ++ rest).length = threshold := by
      refine ⟨after.take (threshold - before.length), after.drop (threshold - before.length),
        by simp, ?_⟩
      simp only [List.length_append, List.length_take, threshold, order] at num toRight ⊢
      omega
    rw [← List.append_assoc] at holds
    obtain ⟨split, splits, divided, lowerNum, seq, -⟩ := splitLeaf_divides holds full half placed
    obtain ⟨leaf, put, leafHolds, left, right, leafSeq⟩ :=
      divided.holds.put (by rw [lowerNum]; decide) key val
    have join : (before ++ (key, val) :: rest) ++ upper = before ++ (key, val) :: (rest ++ upper) := by
      simp
    refine ⟨split.set id { leaf with seq := leaf.seq + 1 }, ?_, .divided
      join (by simp) ?_ (divided.change rfl ?_ ?_ ?_ ?_ ?_ ?_ ?_ placed) ?_⟩
    · simp only [addKey, if_pos full, splits, if_neg toRight, put, Option.bind_eq_bind,
        Option.bind_some]
      rfl
    · simp only [List.length_append, threshold, order] at num half
      omega
    · rw [Heap.set_same]
      exact leafHolds.seq _
    · rw [Heap.set_other _ _ used.symm]
      exact divided.newHolds
    · rw [Heap.set_same]
      exact left
    · rw [Heap.set_same]
      exact right
    · rw [Heap.set_other _ _ used.symm]
    · rw [Heap.set_other _ _ used.symm]
    · intro other notId _
      rw [Heap.set_other _ _ notId]
    · rw [Heap.set_same]
      exact congrArg (· + 1) (leafSeq.trans seq)

theorem Holds.search (holds : Holds leaf (before ++ after)) {pass : Key → Bool}
    (below : ∀ entry ∈ before, pass entry.1 = true) (above : ∀ entry ∈ after, pass entry.1 = false) :
    scan leaf.keys pass 0 leaf.numKeys = some before.length := by
  obtain ⟨restKeys, keysEq⟩ := holds.inKeys
  have scanned := scan_eq pass [] (before.map Prod.fst) (after.map Prod.fst) restKeys
    (by simpa using below) (by
      intro other head
      obtain ⟨entry, mem, rfl⟩ := List.mem_map.mp (List.mem_of_mem_head? head)
      exact above entry mem)
  rw [keysEq, holds.num]
  simpa using scanned

theorem Holds.search_lt (holds : Holds leaf (before ++ after))
    (below : ∀ entry ∈ before, entry.1 < key) (above : ∀ entry ∈ after, key ≤ entry.1) :
    scan leaf.keys (fun other => other < key) 0 leaf.numKeys = some before.length :=
  holds.search (fun entry mem => by simpa using below entry mem)
    fun entry mem => by simpa using above entry mem

theorem Holds.at {val : Val} (holds : Holds leaf (before ++ (key, val) :: after)) :
    read leaf.keys before.length = some key ∧ read leaf.values before.length = some val := by
  obtain ⟨restKeys, keysEq⟩ := holds.inKeys
  obtain ⟨restValues, valuesEq⟩ := holds.inValues
  have keyRead := read_append (before.map Prod.fst) key ((after.map Prod.fst).map some ++ restKeys)
  have valueRead :=
    read_append (before.map Prod.snd) val ((after.map Prod.snd).map some ++ restValues)
  rw [keysEq, valuesEq]
  rw [List.length_map] at keyRead valueRead
  exact ⟨by simpa using keyRead, by simpa using valueRead⟩

theorem leafInsert_present {found : Val}
    (holds : Holds (heap.leaf id) (before ++ (key, found) :: after))
    (below : ∀ entry ∈ before, entry.1 < key) (above : ∀ entry ∈ after, key < entry.1) (val : Val) :
    leafInsert heap id key val = some (heap, none, found) := by
  have scanned := holds.search_lt below (by
    intro entry mem
    rcases List.mem_cons.mp mem with rfl | later
    · exact Nat.le_refl key
    · exact Nat.le_of_lt (above entry later))
  have inside : before.length < (heap.leaf id).numKeys := by
    rw [holds.num]
    simp
  obtain ⟨keyRead, valueRead⟩ := holds.at
  simp only [leafInsert, scanned, if_pos inside, keyRead, valueRead, Option.bind_eq_bind,
    Option.bind_some, Option.map_some, beq_self_eq_true, if_true]
  rfl

theorem leafInsert_absent (holds : Holds (heap.leaf id) (before ++ after))
    (below : ∀ entry ∈ before, entry.1 < key) (above : ∀ entry ∈ after, key < entry.1)
    (placed : Placed heap id) (val : Val) :
    ∃ heap' sibling, leafInsert heap id key val = some (heap', sibling, val) ∧
      Added heap heap' id (before ++ (key, val) :: after) sibling := by
  have scanned := holds.search_lt below fun entry mem => Nat.le_of_lt (above entry mem)
  have reduced : leafInsert heap id key val = (addKey heap id before.length key val).map
      fun result => (result.1, result.2, val) := by
    have rest : ∀ result : Option (Heap Val × Option LeafId),
        (result.bind fun added => pure (added.1, added.2, val)) =
          result.map fun added => (added.1, added.2, val) := fun result => by cases result <;> rfl
    cases after with
    | nil =>
      have atEnd : ¬ before.length < (heap.leaf id).numKeys := by rw [holds.num]; simp
      simp only [leafInsert, scanned, if_neg atEnd, Option.bind_eq_bind, Option.bind_some,
        Bool.false_eq_true, if_false, rest]
    | cons entry after =>
      have inside : before.length < (heap.leaf id).numKeys := by rw [holds.num]; simp
      have different : (entry.1 == key) = false :=
        beq_false_of_ne (Nat.ne_of_lt (above entry List.mem_cons_self)).symm
      simp only [leafInsert, scanned, if_pos inside, holds.at.1, different, Option.map_some,
        Option.bind_eq_bind, Option.bind_some, Bool.false_eq_true, if_false, rest]
  by_cases full : (heap.leaf id).numKeys = order
  · obtain ⟨heap', added, result⟩ := addKey_divided holds full placed key val
    exact ⟨heap', some heap.next, by rw [reduced, added]; rfl, result⟩
  · obtain ⟨heap', added, filled⟩ := addKey_filled holds full key val
    exact ⟨heap', none, by rw [reduced, added]; rfl, .filled filled⟩

end EunoDb.BPlusTree
