import EunoDb.MemStorePositions

/-! Every sequence of calls of `DBTX::Iterator` and `DBROTX::Iterator` over a skip list. -/

namespace EunoDb.MemStoreIterator

open MemStoreSkipList LinkedList SkipLevels SkipSearch Visibility ScanLoop Execution
open SkipInsert (NodeId head)
open Memstore (Ptr Value)

variable {Key V : Type} [LinearOrder Key] {t : Table Key} {fuel : Nat}

variable {node : NodeId}

theorem next_eq {c : Cursor} (here : c.node = some node) :
    c.next t.list = some ⟨t.list.memory.next node 0, some node⟩ := by
  simp [Cursor.next, here]

theorem seek_linked (enough : t.list.maxHeight + (t.lists 0).length < fuel) (key : Key) :
    ∃ c, Cursor.seek t.list fuel key = some c ∧
      Linked (t.list.memory.next · 0) c.node
        ((t.lists 0).filter fun other => key ≤ t.list.memory.key other) := by
  obtain ⟨found, searched, ends⟩ := find_ends t.levels enough key
  refine ⟨⟨found.next, some found.last⟩, ?_, ?_⟩
  · simp [Cursor.seek, findLessThan, findGreaterOrEqual, searched]
  · rw [ends.next]
    exact linked_from ends.stops

theorem seekToFirst_linked :
    Linked (t.list.memory.next · 0) (Cursor.seekToFirst t.list).node (t.lists 0) :=
  t.levels.linked 0

theorem front_eq {front rest : List NodeId} (shape : t.lists 0 = front ++ node :: rest) :
    (t.lists 0).filter (fun other => t.list.memory.key other < t.list.memory.key node) = front := by
  have ordered := t.levels.ordered 0
  rw [shape] at ordered
  obtain ⟨-, behind, across⟩ := List.pairwise_append.mp ordered
  rw [shape, List.filter_append, List.filter_eq_self.mpr, List.filter_eq_nil_iff.mpr,
    List.append_nil]
  · intro other mem
    rcases List.mem_cons.mp mem with rfl | later
    · simp
    · simpa using le_of_lt ((List.pairwise_cons.mp behind).1 other later)
  · intro other mem
    simpa using across other mem node List.mem_cons_self

def three : Table Nat where
  list := {
    memory := ⟨(10 * ·), fun node level => if level = 0 ∧ node < 3 then some (node + 1) else none⟩
    height := fun _ => 1, lock := fun _ => 0, dummy := none, allocated := fun _ => true }
  lists level := if level = 0 then [1, 2, 3] else []
  levels := {
    linked := fun level => by
      cases level with
      | zero => exact .cons (.cons (.cons .nil))
      | succ level => exact .nil
    head := fun level => by
      cases level with
      | zero => decide
      | succ level => exact List.not_mem_nil
    ordered := fun level => by
      cases level with
      | zero => decide
      | succ level => exact .nil
    below := fun level node member => by cases member }
  record node := ⟨if node = 3 then 5 else 0, if node = 2 then .logicalDelete else .pointer node, []⟩

/-! ### `DBTX::Iterator` -/

namespace DBTX

def Admitted (t : Table Key) (it : Iter Value) : Call Key → Prop
  | .seekToFirst => t.lists 0 ≠ []
  | .seek key => ∃ node ∈ t.lists 0, key ≤ t.list.memory.key node
  | .next => it.valid = true
  | .prev => it.valid = true

instance (t : Table Key) (it : Iter Value) : (call : Call Key) → Decidable (Admitted t it call)
  | .seekToFirst => inferInstanceAs (Decidable (_ ≠ _))
  | .seek _ => inferInstanceAs (Decidable (∃ node ∈ _, _))
  | .next => inferInstanceAs (Decidable (_ = _))
  | .prev => inferInstanceAs (Decidable (_ = _))

theorem examine_live (t : Table Key) (e : NodeId) : examine t e = some (liveValue t e) := rfl

theorem moveOn_moves (t : Table Key) (e : NodeId) (it : Iter Value) (here : it.iter.node = some e)
    (_ : True) : ∃ after, moveOn t (Cursor.next t.list) e it = some after ∧
      after.iter.node = t.list.memory.next e 0 ∧ True :=
  ⟨_, by rw [moveOn, next_eq here, Option.map_some], rfl, trivial⟩

theorem moveCur_moves (t : Table Key) (e : NodeId) (it : Iter Value) (here : it.iter.node = some e)
    (_ : True) : ∃ after, moveCur t e it = some after ∧
      after.iter.node = t.list.memory.next e 0 ∧ True :=
  ⟨_, by rw [moveCur, next_eq here, Option.map_some], rfl, trivial⟩

section

variable {it : Iter Value}

section

variable (enough : t.list.maxHeight + (t.lists 0).length < fuel)

include enough

theorem next_lands (settled : Settled t it) (valid : it.valid = true) :
    ∃ after, next t fuel it = some after ∧ Settled t after ∧
      LandsAt t (liveValue t) it .next after := by
  obtain ⟨node, mem, here⟩ := settled valid
  have moved : it.iter.next t.list = some ⟨t.list.memory.next node 0, some node⟩ := next_eq here
  have covers := covers_up (t := t) fun key => t.list.memory.key node < key
  obtain ⟨last, found, looped, -, -, settled', seen⟩ := forward_lands (examine_live t)
    (fun _ => True) (moveOn_moves t) { it with iter := ⟨_, some node⟩ } (linked_after mem) trivial
    covers (Nat.lt_of_add_left_lt enough)
  refine ⟨_, by simp [next, moved, looped], settled', _, seen, ?_⟩
  exact ⟨t.list.memory.key node, by simp [Cursor.key, here], covers.lands⟩

theorem prev_lands (settled : Settled t it) (valid : it.valid = true) :
    ∃ after, prev t fuel it = some after ∧ Settled t after ∧
      LandsAt t (liveValue t) it .prev after := by
  obtain ⟨node, mem, here⟩ := settled valid
  obtain ⟨front, rest, shape⟩ := List.append_of_mem mem
  obtain ⟨iter, moved, target⟩ := back_node enough shape here
  have covers := covers_down (t := t) fun key => key < t.list.memory.key node
  rw [front_eq shape] at covers
  have yields : Yields Iter.entry (moveOn t (Cursor.back t.list fuel)) (fun _ => True)
      { it with iter := iter } front.reverse :=
    yields_back enough (fun e it iter moved _ => ⟨_, by rw [moveOn, moved]; rfl, rfl, trivial⟩)
      shape target trivial
  obtain ⟨last, found, looped, -, -, settled', seen⟩ :=
    loop_lands (examine_live t) yields covers (Nat.lt_of_add_left_lt enough)
  refine ⟨_, by simp [prev, moved, looped], settled', _, seen, ?_⟩
  exact ⟨t.list.memory.key node, by simp [Cursor.key, here], covers.lands⟩

theorem afterSeek_lands {wanted : Key → Prop} {es : List NodeId} {iter : Cursor}
    (linked : Linked (t.list.memory.next · 0) iter.node es) (some_ : es ≠ [])
    (covers : Covers t wanted (· ≤ ·) es) (it : Iter Value) :
    ∃ after seen, afterSeek t fuel it iter = some after ∧ Settled t after ∧
      after.observe t = some seen ∧ Lands (offers t (liveValue t)) wanted (· ≤ ·) seen := by
  obtain ⟨first, rest, rfl⟩ := List.exists_cons_of_ne_nil some_
  have valid : iter.valid = true := by simp [Cursor.valid, linked.head_eq]
  obtain ⟨last, found, looped, -, -, settled, seen⟩ := forward_lands (examine_live t)
    (fun _ => True) (moveCur_moves t) { it with iter := iter, cur := iter.curNode } linked trivial
    covers (Nat.lt_of_add_left_lt enough)
  exact ⟨_, _, by simp [afterSeek, valid, looped], settled, seen, covers.lands⟩

theorem step_lands {call : Call Key} (settled : Settled t it) (admitted : Admitted t it call) :
    ∃ after, step t fuel it call = some after ∧ Settled t after ∧
      LandsAt t (liveValue t) it call after := by
  cases call with
  | seekToFirst =>
    have covers := covers_up (t := t) fun _ => True
    simp only [decide_true, List.filter_true] at covers
    obtain ⟨after, seen, returned, settled', observed, lands⟩ :=
      afterSeek_lands enough seekToFirst_linked admitted covers it
    exact ⟨after, returned, settled', seen, observed, lands⟩
  | seek key =>
    obtain ⟨node, mem, above⟩ := admitted
    obtain ⟨iter, found, linked⟩ := seek_linked enough key
    have inside : node ∈ (t.lists 0).filter fun other => key ≤ t.list.memory.key other :=
      List.mem_filter.mpr ⟨mem, by simpa using above⟩
    obtain ⟨after, seen, returned, settled', observed, lands⟩ :=
      afterSeek_lands enough linked (List.ne_nil_of_mem inside) (covers_up (key ≤ ·)) it
    exact ⟨after, by simp [step, seek, found, returned], settled', seen, observed, lands⟩
  | next =>
    have valid : it.valid = true := admitted
    simp only [step, valid, if_true]
    exact next_lands enough settled valid
  | prev =>
    have valid : it.valid = true := admitted
    simp only [step, valid, if_true]
    exact prev_lands enough settled valid

end

end

/-- Along every sequence of admitted calls each one returns and leaves the iterator on the
closest wanted key with a live record, with its value, or invalid if there is none. -/
theorem positions_live (t : Table Key) {fuel : Nat}
    (enough : t.list.maxHeight + (t.lists 0).length < fuel) {calls : List (Call Key)}
    (admitted : Each (step t fuel) (Admitted t) {} calls) :
    ∃ it, run (step t fuel) {} calls = some it ∧
      ∀ call, Admitted t it call → ∃ after, step t fuel it call = some after ∧
        LandsAt t (liveValue t) it call after := by
  have initial : Settled t ({} : Iter Value) := nofun
  exact run_then (fun _ _ settled allowed => step_lands enough settled allowed) initial admitted

theorem positions_live_three :
    (∃ it, run (step three 5) {} [.seekToFirst, .next] = some it ∧
      it.observe three = some (some (30, .pointer 3))) ∧
    ∃ it, run (step three 5) {} [.seekToFirst, .next, .prev, .prev, .seek 15] = some it ∧
      ∀ call, Admitted three it call → ∃ after, step three 5 it call = some after ∧
        LandsAt three (liveValue three) it call after :=
  ⟨⟨_, rfl, rfl⟩, positions_live three (by decide) (by decide +kernel)⟩

theorem seek_behind_valid :
    (∃ it, step three 5 {} (.seek 40) = some it ∧ it.valid = true ∧ it.observe three = none) ∧
      ∀ node ∈ three.lists 0, ¬ 40 ≤ three.list.memory.key node :=
  ⟨⟨_, rfl, rfl, rfl⟩, by decide⟩

end DBTX

/-! ### `DBROTX::Iterator` -/

namespace DBROTX

def Admitted (t : Table Key) (oldsnapshot : Nat) (it : Iter Ptr) : Call Key → Prop
  | .seekToFirst => it.valid = false ∨ ∃ node ∈ t.lists 0, visible t oldsnapshot node ≠ none
  | .seek key => it.valid = false ∨
      ∃ node ∈ t.lists 0, key ≤ t.list.memory.key node ∧ visible t oldsnapshot node ≠ none
  | .next => it.valid = true
  | .prev => it.valid = true ∧ ∃ node ∈ t.lists 0, ∃ previous ∈ it.iter.key t.list,
      t.list.memory.key node < previous ∧ visible t oldsnapshot node ≠ none

instance (t : Table Key) (oldsnapshot : Nat) (it : Iter Ptr) :
    (call : Call Key) → Decidable (Admitted t oldsnapshot it call)
  | .seekToFirst => inferInstanceAs (Decidable (_ ∨ _))
  | .seek _ => inferInstanceAs (Decidable (_ ∨ _))
  | .next => inferInstanceAs (Decidable (_ = _))
  | .prev => inferInstanceAs (Decidable (_ ∧ _))

theorem examine_visible (t : Table Key) (oldsnapshot : Nat) (e : NodeId) :
    examine t oldsnapshot e = some (visible t oldsnapshot e) := by
  simp [examine, getValueOnSnapshot, visible]

theorem moveNext_moves (t : Table Key) (cur : MemNodePtr) (e : NodeId) (it : Iter Ptr)
    (here : it.iter.node = some e) (isCur : it.cur = cur) :
    ∃ after, moveNext t e it = some after ∧ after.iter.node = t.list.memory.next e 0 ∧
      after.cur = cur :=
  ⟨{ it with iter := ⟨t.list.memory.next e 0, some e⟩ },
    by rw [moveNext, next_eq here, Option.map_some], rfl, isCur⟩

section

variable {oldsnapshot : Nat} {it : Iter Ptr}

theorem next_lands (enough : t.list.maxHeight + (t.lists 0).length < fuel)
    (settled : Settled t it) (valid : it.valid = true) :
    ∃ after, next t fuel oldsnapshot it = some after ∧ Settled t after ∧
      LandsAt t (visible t oldsnapshot) it .next after := by
  obtain ⟨node, mem, here⟩ := settled valid
  have moved : it.iter.next t.list = some ⟨t.list.memory.next node 0, some node⟩ := next_eq here
  have covers := covers_up (t := t) fun key => t.list.memory.key node < key
  obtain ⟨last, found, looped, -, -, settled', seen⟩ :=
    forward_lands (examine_visible t oldsnapshot) (fun other => other.cur = it.cur)
      (moveNext_moves t it.cur) { it with iter := ⟨_, some node⟩ } (linked_after mem) rfl covers
      (Nat.lt_of_add_left_lt enough)
  refine ⟨_, by simp [next, moved, looped], settled', _, seen, ?_⟩
  exact ⟨t.list.memory.key node, by simp [Cursor.key, here], covers.lands⟩

variable {last : Iter Ptr} {wanted : Key → Prop} {es : List NodeId} {node : NodeId}

theorem finishKept_eq {found : Option Ptr} (kept : found = none → last.cur = .null) :
    Iter.finishKept (last, found) = Iter.finish (last, found) := by
  obtain ⟨iter, cur, val⟩ := last
  cases found with
  | some found => rfl
  | none =>
    obtain rfl : cur = .null := kept rfl
    rfl

theorem Covers.found {closer : Key → Key → Prop} (covers : Covers t wanted closer es)
    (mem : node ∈ t.lists 0) (isWanted : wanted (t.list.memory.key node))
    (seen : visible t oldsnapshot node ≠ none) :
    firstOffer t (visible t oldsnapshot) es ≠ none := by
  intro nothing
  have lands : Lands (offers t (visible t oldsnapshot)) wanted closer none := nothing ▸ covers.lands
  exact seen ((offers_of_mem mem).symm.trans (lands _ isWanted))

theorem afterSeek_lands (enough : t.list.maxHeight + (t.lists 0).length < fuel) {iter : Cursor}
    (linked : Linked (t.list.memory.next · 0) iter.node es) (covers : Covers t wanted (· ≤ ·) es)
    (admitted : it.valid = false ∨ ∃ node ∈ t.lists 0, wanted (t.list.memory.key node) ∧
      visible t oldsnapshot node ≠ none) :
    ∃ after seen, afterSeek t fuel oldsnapshot it iter = some after ∧ Settled t after ∧
      after.observe t = some seen ∧
      Lands (offers t (visible t oldsnapshot)) wanted (· ≤ ·) seen := by
  obtain ⟨last, found, looped, isCur, nothing, settled, seen⟩ :=
    forward_lands (examine_visible t oldsnapshot) (fun other => other.cur = it.cur)
      (moveNext_moves t it.cur) { it with iter := iter } linked rfl covers
      (Nat.lt_of_add_left_lt enough)
  have same : Iter.finishKept (last, found) = Iter.finish (last, found) := by
    apply finishKept_eq
    intro none_
    rcases admitted with invalid | ⟨node, mem, isWanted, isSeen⟩
    · rw [isCur]
      simpa [Iter.valid] using invalid
    · exact absurd (nothing none_) (Covers.found covers mem isWanted isSeen)
  exact ⟨_, _, by simp [afterSeek, looped, same], settled, seen, covers.lands⟩

def moveBack (t : Table Key) (fuel : Nat) (_ : NodeId) (it : Iter Ptr) : Option (Iter Ptr) :=
  (it.iter.back t.list fuel).map fun iter => { it with iter := iter }

theorem prevLoop_path {start : Iter Ptr} {skipped : List NodeId}
    (path : Path Iter.entry (moveBack t fuel) start skipped last)
    (refused : ∀ e ∈ skipped, visible t oldsnapshot e = none) {e : NodeId} {v : Ptr}
    (here : last.entry = some e) (accepted : visible t oldsnapshot e = some v) {it : Iter Ptr}
    (on : it.iter.node = some node) (moved : moveBack t fuel node it = some start) {rounds : Nat}
    (enough : skipped.length < rounds) :
    prevLoop t fuel oldsnapshot rounds it = some ⟨last.iter, .of e, some v⟩ := by
  -- on the records passed; before every move the iterator is on a node
  induction path generalizing it node rounds with
  | @stay start =>
    obtain ⟨rounds, rfl⟩ := Nat.exists_eq_add_one_of_ne_zero (Nat.ne_zero_of_lt enough)
    obtain ⟨iter, back, rfl⟩ := Option.map_eq_some_iff.mp moved
    have isNode : iter.node = some e := here
    simp [visible] at accepted
    simp [prevLoop, Cursor.valid, on, back, Cursor.curNode, isNode, getValueOnSnapshot, accepted]
  | @move start next last passed skipped entry advanced later ih =>
    obtain ⟨rounds, rfl⟩ := Nat.exists_eq_add_one_of_ne_zero (Nat.ne_zero_of_lt enough)
    obtain ⟨iter, back, rfl⟩ := Option.map_eq_some_iff.mp moved
    have isNode : iter.node = some passed := entry
    have now : visible t oldsnapshot passed = none := refused _ List.mem_cons_self
    simp [visible] at now
    have rest := ih (fun e mem => refused e (List.mem_cons_of_mem _ mem)) here entry advanced
      (Nat.lt_of_succ_lt_succ enough)
    simp [prevLoop, Cursor.valid, on, back, Cursor.curNode, isNode, getValueOnSnapshot, now, rest]

theorem prev_lands (enough : t.list.maxHeight + (t.lists 0).length < fuel)
    (settled : Settled t it) (admitted : Admitted t oldsnapshot it .prev) :
    ∃ after, prev t fuel oldsnapshot it = some after ∧ Settled t after ∧
      LandsAt t (visible t oldsnapshot) it .prev after := by
  obtain ⟨valid, smaller, member', previous, isPrevious, less, isSeen⟩ := admitted
  obtain ⟨node, mem, here⟩ := settled valid
  obtain rfl : t.list.memory.key node = previous := by simpa [Cursor.key, here] using isPrevious
  obtain ⟨front, rest, shape⟩ := List.append_of_mem mem
  obtain ⟨iter, moved, target⟩ := back_node enough shape here
  have covers := covers_down (t := t) fun key => key < t.list.memory.key node
  rw [front_eq shape] at covers
  have yields : Yields Iter.entry (moveBack t fuel) (fun _ => True) { it with iter := iter }
      front.reverse :=
    yields_back enough
      (fun _ it iter moved _ => ⟨{ it with iter := iter }, by simp [moveBack, moved], rfl, trivial⟩)
      shape target trivial
  have some_ := Covers.found covers member' less isSeen
  have lands : Lands (offers t (visible t oldsnapshot)) _ _ _ := covers.lands
  rcases first_accepted (visible t oldsnapshot) front.reverse with
    refused | ⟨skipped, e, v, rest', split, refused, accepted⟩
  · refine absurd ?_ some_
    rw [firstOffer, List.find?_eq_none.mpr fun e mem => by simp [refused e mem]]
    rfl
  have first : firstOffer t (visible t oldsnapshot) front.reverse =
      some (t.list.memory.key e, v) := by
    rw [firstOffer, split, List.find?_append,
      List.find?_eq_none.mpr fun e mem => by simp [refused e mem]]
    simp [accepted]
  have inside : e ∈ t.lists 0 := ((covers.exactly e).mp (by simp [split])).1
  have short : skipped.length < fuel := by
    have length := covers.short
    rw [split, List.length_append, List.length_cons] at length
    omega
  rw [split] at yields
  obtain ⟨last, path, after⟩ := yields.path
  have isNode : last.iter.node = some e := after.entry_eq
  refine ⟨⟨last.iter, .of e, some v⟩, ?_, fun _ => ⟨e, inside, isNode⟩, some (t.list.memory.key e, v),
    ?_, t.list.memory.key node, by simp [Cursor.key, here], first ▸ lands⟩
  · exact prevLoop_path path refused isNode accepted here (by simp [moveBack, moved]) short
  · simp [Iter.observe, Iter.valid, Cursor.key, isNode]

theorem step_lands (enough : t.list.maxHeight + (t.lists 0).length < fuel) {call : Call Key}
    (settled : Settled t it) (admitted : Admitted t oldsnapshot it call) :
    ∃ after, step t fuel oldsnapshot it call = some after ∧ Settled t after ∧
      LandsAt t (visible t oldsnapshot) it call after := by
  cases call with
  | seekToFirst =>
    have covers := covers_up (t := t) fun _ => True
    simp only [decide_true, List.filter_true] at covers
    obtain ⟨after, seen, returned, settled', observed, lands⟩ :=
      afterSeek_lands enough seekToFirst_linked covers
        (admitted.imp_right fun ⟨node, mem, isSeen⟩ => ⟨node, mem, trivial, isSeen⟩)
    exact ⟨after, returned, settled', seen, observed, lands⟩
  | seek key =>
    obtain ⟨iter, found, linked⟩ := seek_linked enough key
    obtain ⟨after, seen, returned, settled', observed, lands⟩ :=
      afterSeek_lands enough linked (covers_up (key ≤ ·)) admitted
    exact ⟨after, by simp [step, seek, found, returned], settled', seen, observed, lands⟩
  | next =>
    have valid : it.valid = true := admitted
    simp only [step, valid, if_true]
    exact next_lands enough settled valid
  | prev =>
    simp only [step, admitted.1, if_true]
    exact prev_lands enough settled admitted

end

/-- Along every sequence of admitted calls each one returns and leaves the iterator on the
closest wanted key with a version that the snapshot sees, with its value, or invalid if
there is none. -/
theorem positions_visible (t : Table Key) (oldsnapshot : Nat) {fuel : Nat}
    (enough : t.list.maxHeight + (t.lists 0).length < fuel) {calls : List (Call Key)}
    (admitted : Each (step t fuel oldsnapshot) (Admitted t oldsnapshot) {} calls) :
    ∃ it, run (step t fuel oldsnapshot) {} calls = some it ∧
      ∀ call, Admitted t oldsnapshot it call →
        ∃ after, step t fuel oldsnapshot it call = some after ∧
          LandsAt t (visible t oldsnapshot) it call after := by
  have initial : Settled t ({} : Iter Ptr) := nofun
  exact run_then (fun _ _ settled allowed => step_lands enough settled allowed) initial admitted

theorem positions_visible_three :
    (∃ it, run (step three 5 7) {} [.seek 30, .prev] = some it ∧
      it.observe three = some (some (10, 1))) ∧
    ∃ it, run (step three 5 7) {} [.seek 30, .prev, .next, .next, .seek 40] = some it ∧
      ∀ call, Admitted three 7 it call → ∃ after, step three 5 7 it call = some after ∧
        LandsAt three (visible three 7) it call after :=
  ⟨⟨_, rfl, rfl⟩, positions_visible three 7 (by decide) (by decide +kernel)⟩

theorem prev_follows_null :
    (∃ it, step three 5 0 {} (.seek 10) = some it ∧ it.valid = true ∧
      ∀ fuel, step three fuel 0 it .prev = none) ∧
    (∃ it, run (step three 5 0) {} [.seek 10, .seek 20] = some it ∧ it.valid = true ∧
      it.observe three = none) ∧
    ∀ node ∈ three.lists 0, 20 ≤ three.list.memory.key node → visible three 0 node = none := by
  refine ⟨⟨_, rfl, rfl, fun fuel => ?_⟩, ⟨_, rfl, rfl, rfl⟩, by decide +kernel⟩
  cases fuel with
  | zero | succ fuel => rfl

end DBROTX

end EunoDb.MemStoreIterator
