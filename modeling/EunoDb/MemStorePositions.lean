import EunoDb.MemStoreIterator

/-! Where the calls of the two iterators end. -/

namespace EunoDb.MemStoreIterator

open MemStoreSkipList LinkedList SkipLevels SkipSearch Visibility ScanLoop Execution
open SkipInsert (NodeId head)
open Memstore (Ptr Value)

/-! ### The underlying iterator enumerates -/

theorem yields_linked {I N : Type} {next : N → Option N} {entry : I → Option N}
    {advance : N → I → Option I} {stands : I → Prop}
    (moves : ∀ e it, entry it = some e → stands it →
      ∃ after, advance e it = some after ∧ entry after = next e ∧ stands after)
    {first : Option N} {es : List N} (linked : Linked next first es) {it : I}
    (start : entry it = first) (stood : stands it) : Yields entry advance stands it es := by
  induction linked generalizing it with
  | nil => exact .ended stood start
  | cons tail ih =>
    obtain ⟨after, moved, target, stood'⟩ := moves _ it start stood
    exact .more stood start moved (ih target stood')

section

variable {Key V : Type} [LinearOrder Key] {t : Table Key} {fuel : Nat}

variable {node : NodeId} {front rest : List NodeId} {advance : NodeId → Iter V → Option (Iter V)}

theorem linked_cut (on : On head t.lists 0 node) {p : NodeId → Bool}
    (low : node ∈ t.lists 0 → ∀ other ∈ t.lists 0,
      other = node ∨ t.list.memory.key other < t.list.memory.key node → ¬ p other)
    (high : ∀ other ∈ t.lists 0, Before t.list.memory head node (t.list.memory.key other) →
      p other) :
    Linked (t.list.memory.next · 0) (t.list.memory.next node 0) ((t.lists 0).filter p) := by
  obtain ⟨passed, rest, shape, linked, before, after, ends⟩ := t.levels.split on
  have cut : (t.lists 0).filter p = rest := by
    rw [shape]
    refine filter_cut (fun other mem => ?_) fun other mem => ?_
    · have inside : node ∈ t.lists 0 := by
        rcases ends with ⟨-, rfl⟩ | ⟨front, rfl⟩
        · cases mem
        · simp [shape]
      exact low inside other (shape ▸ List.mem_append_left _ mem) (before other mem)
    · exact high other (shape ▸ List.mem_append_right _ mem) (after other mem)
  rw [cut]
  exact linked

theorem linked_after (mem : node ∈ t.lists 0) :
    Linked (t.list.memory.next · 0) (t.list.memory.next node 0)
      ((t.lists 0).filter fun other => t.list.memory.key node < t.list.memory.key other) := by
  refine linked_cut (.inr mem) ?_ ?_
  · rintro - other - (rfl | less)
    · simp
    · simpa using le_of_lt less
  · rintro other - (rfl | less)
    · exact absurd mem (t.levels.head 0)
    · simpa using less

variable {key : Key} {stands : Iter V → Prop} {shows : NodeId → Option V}
  {examine : NodeId → Option (Option V)}

theorem linked_from (stops : Stops t.list.memory head t.lists key 0 node) :
    Linked (t.list.memory.next · 0) (t.list.memory.next node 0)
      ((t.lists 0).filter fun other => key ≤ t.list.memory.key other) := by
  refine linked_cut stops.on ?_ ?_
  · intro inside other mem before
    have less : t.list.memory.key node < key :=
      stops.before.resolve_left fun same => t.levels.head 0 (same ▸ inside)
    rcases before with rfl | smaller
    · simpa using less
    · simpa using smaller.trans less
  · intro other mem before
    by_contra smaller
    obtain ⟨inside, le⟩ := stops.passed t.levels mem (by simpa using smaller)
    rcases before with rfl | less
    · exact t.levels.head 0 inside
    · exact absurd le (not_le.mpr less)

theorem isLessThan_last {x : NodeId} (shape : t.lists 0 = front ++ node :: rest)
    (answer : IsLessThan t.list (t.lists 0) (t.list.memory.key node) x) :
    (if x = head then none else some x) = front.getLast? := by
  have ordered := t.levels.ordered 0
  rw [shape] at ordered
  obtain ⟨inFront, behind, across⟩ := List.pairwise_append.mp ordered
  have smaller : ∀ other ∈ front, t.list.memory.key other < t.list.memory.key node :=
    fun other mem => across other mem node List.mem_cons_self
  rcases answer with ⟨rfl, least⟩ | ⟨mem, less, greatest⟩
  · have empty : front = [] := by
      refine List.eq_nil_iff_forall_not_mem.mpr fun other mem => ?_
      exact absurd (smaller other mem)
        (not_lt.mpr (least other (shape ▸ List.mem_append_left _ mem)))
    simp [empty]
  have notHead : x ≠ head := fun same => t.levels.head 0 (same ▸ mem)
  have inside : x ∈ front := by
    rcases List.mem_append.mp (shape ▸ mem) with earlier | later
    · exact earlier
    · rcases List.mem_cons.mp later with rfl | later
      · exact absurd less (lt_irrefl _)
      · exact absurd less (lt_asymm ((List.pairwise_cons.mp behind).1 x later))
  -- the last node in front is not smaller than the answer, so it is the answer
  rcases List.eq_nil_or_concat front with rfl | ⟨init, last, rfl⟩
  · cases inside
  rw [List.concat_eq_append] at *
  have le := greatest last (by simp [shape]) (smaller last (by simp))
  have same : x = last := by
    rcases List.mem_append.mp inside with earlier | here
    · have less' := (List.pairwise_append.mp inFront).2.2 x earlier last (by simp)
      exact absurd le (not_le.mpr less')
    · exact List.mem_singleton.mp here
  rw [if_neg notHead, same]
  simp

theorem back_node (enough : t.list.maxHeight + (t.lists 0).length < fuel)
    (shape : t.lists 0 = front ++ node :: rest) {c : Cursor} (here : c.node = some node) :
    ∃ after, c.back t.list fuel = some after ∧ after.node = front.getLast? := by
  obtain ⟨x, found, answer⟩ :=
    findLessThan_answers t.levels enough (t.list.memory.key node)
  exact ⟨{ c with node := if x = head then none else some x },
    by simp [Cursor.back, Cursor.key, here, found], isLessThan_last shape answer⟩

theorem yields_back (enough : t.list.maxHeight + (t.lists 0).length < fuel)
    (moves : ∀ e it iter, it.iter.back t.list fuel = some iter → stands it →
      ∃ after, advance e it = some after ∧ after.iter = iter ∧ stands after)
    (shape : t.lists 0 = front ++ rest) {it : Iter V} (start : it.entry = front.getLast?)
    (stood : stands it) : Yields Iter.entry advance stands it front.reverse := by
  induction front using List.reverseRecOn generalizing rest it with
  | nil => exact .ended stood start
  | append_singleton init node ih =>
    have here : it.iter.node = some node := by simpa [Iter.entry] using start
    rw [List.append_assoc] at shape
    obtain ⟨iter, moved, target⟩ := back_node enough shape here
    obtain ⟨after, advanced, isIter, stood'⟩ := moves node it iter moved stood
    rw [List.reverse_append, List.reverse_singleton, List.singleton_append]
    refine .more stood here advanced (ih shape ?_ stood')
    rw [Iter.entry, isIter, target]

/-! ### A loop over an enumeration -/

theorem offers_of_mem (mem : node ∈ t.lists 0) :
    offers t shows (t.list.memory.key node) = shows node := by
  rw [offers]
  cases found : (t.lists 0).find? fun other => t.list.memory.key other = t.list.memory.key node with
  | none => simpa using List.find?_eq_none.mp found node mem
  | some other =>
    have isKey : t.list.memory.key other = t.list.memory.key node := by
      simpa using List.find?_some found
    rw [t.levels.unique_key (List.mem_of_find?_eq_some found) mem isKey]
    rfl

theorem mem_of_offers (offered : offers t shows key ≠ none) :
    ∃ node ∈ t.lists 0, t.list.memory.key node = key := by
  rw [offers] at offered
  cases found : (t.lists 0).find? fun other => t.list.memory.key other = key with
  | none =>
    rw [found] at offered
    exact absurd rfl offered
  | some node =>
    exact ⟨node, List.mem_of_find?_eq_some found, by simpa using List.find?_some found⟩

structure Covers (t : Table Key) (wanted : Key → Prop) (closer : Key → Key → Prop)
    (es : List NodeId) : Prop where
  refl : ∀ key, closer key key
  ordered : es.Pairwise fun first second =>
    closer (t.list.memory.key first) (t.list.memory.key second)
  exactly : ∀ e, e ∈ es ↔ e ∈ t.lists 0 ∧ wanted (t.list.memory.key e)
  short : es.length ≤ (t.lists 0).length

theorem covers_up (wanted : Key → Prop) [DecidablePred wanted] :
    Covers t wanted (· ≤ ·)
      ((t.lists 0).filter fun e => wanted (t.list.memory.key e)) where
  refl := le_refl
  ordered := ((t.levels.ordered 0).filter _).imp le_of_lt
  exactly e := by simp [List.mem_filter]
  short := List.length_filter_le ..

theorem covers_down (wanted : Key → Prop) [DecidablePred wanted] :
    Covers t wanted (· ≥ ·)
      ((t.lists 0).filter fun e => wanted (t.list.memory.key e)).reverse where
  refl := le_refl
  ordered := List.pairwise_reverse.mpr (((t.levels.ordered 0).filter _).imp le_of_lt)
  exactly e := by simp [List.mem_filter]
  short := by
    rw [List.length_reverse]
    exact List.length_filter_le ..

def firstOffer (t : Table Key) (shows : NodeId → Option V) (es : List NodeId) : Option (Key × V) :=
  (es.find? fun e => (shows e).isSome).bind fun e =>
    (shows e).map fun v => (t.list.memory.key e, v)

variable {wanted : Key → Prop} {closer : Key → Key → Prop} {es : List NodeId}
  {shows : NodeId → Option V}

theorem Covers.lands (covers : Covers t wanted closer es) :
    Lands (offers t shows) wanted closer (firstOffer t shows es) := by
  apply lands_first covers.refl covers.ordered
  · intro e mem
    obtain ⟨inside, isWanted⟩ := (covers.exactly e).mp mem
    exact ⟨isWanted, offers_of_mem inside⟩
  · intro other isWanted offered
    obtain ⟨node, inside, rfl⟩ := mem_of_offers offered
    exact ⟨node, (covers.exactly node).mpr ⟨inside, isWanted⟩, rfl⟩

def Settled (t : Table Key) (it : Iter V) : Prop :=
  it.valid = true → ∃ node ∈ t.lists 0, it.iter.node = some node

theorem loop_lands (examines : ∀ e, examine e = some (shows e)) {start : Iter V}
    (yields : Yields Iter.entry advance stands start es) (covers : Covers t wanted closer es)
    (enough : (t.lists 0).length < fuel) :
    ∃ last found, loop Iter.entry advance examine fuel start = some (last, found) ∧ stands last ∧
      (found = none → firstOffer t shows es = none) ∧
      Settled t (Iter.finish (last, found)) ∧
      (Iter.finish (last, found)).observe t = some (firstOffer t shows es) := by
  obtain ⟨last, looped, stood, here⟩ :=
    loop_finds yields (fun e _ => examines e) (Nat.lt_of_le_of_lt covers.short enough)
  refine ⟨last, es.findSome? shows, looped, stood, ?_⟩
  rcases first_accepted shows es with refused | ⟨skipped, e, v, rest, rfl, refused, accepted⟩
  · have nothing : firstOffer t shows es = none := by
      rw [firstOffer, List.find?_eq_none.mpr fun e mem => by simp [refused e mem]]
      rfl
    rw [List.findSome?_eq_none_iff.mpr refused, nothing]
    exact ⟨fun _ => rfl, nofun, rfl⟩
  have found : (skipped ++ e :: rest).findSome? shows = some v := by
    rw [List.findSome?_append, List.findSome?_eq_none_iff.mpr refused]
    simp [accepted]
  have first : (skipped ++ e :: rest).find? (fun e => (shows e).isSome) = some e := by
    rw [List.find?_append, List.find?_eq_none.mpr fun e mem => by simp [refused e mem]]
    simp [accepted]
  have isNode : last.iter.node = some e := here.trans first
  have inside : e ∈ t.lists 0 :=
    ((covers.exactly e).mp (List.mem_append_right _ List.mem_cons_self)).1
  rw [found, firstOffer, first]
  refine ⟨nofun, fun _ => ⟨e, inside, isNode⟩, ?_⟩
  simp [Iter.observe, Iter.finish, Iter.valid, Cursor.curNode, Cursor.key, isNode, accepted]

theorem forward_lands (examines : ∀ e, examine e = some (shows e)) (stands : Iter V → Prop)
    (moves : ∀ e it, it.iter.node = some e → stands it → ∃ after, advance e it = some after ∧
      after.iter.node = t.list.memory.next e 0 ∧ stands after) (start : Iter V)
    (linked : Linked (t.list.memory.next · 0) start.iter.node es) (stood : stands start)
    (covers : Covers t wanted closer es) (enough : (t.lists 0).length < fuel) :
    ∃ last found, loop Iter.entry advance examine fuel start = some (last, found) ∧ stands last ∧
      (found = none → firstOffer t shows es = none) ∧
      Settled t (Iter.finish (last, found)) ∧
      (Iter.finish (last, found)).observe t = some (firstOffer t shows es) :=
  loop_lands examines (yields_linked moves linked rfl stood) covers enough

end

end EunoDb.MemStoreIterator
