import EunoDb.LogPlaces

/-! The steps of `Writer` and the places of the log buffers. -/

namespace EunoDb.LogBuffer

open LinkedList

structure Within (s next : State) (place after : Places) (b : TBufId) : Prop where
  workers : next.workers = s.workers
  nextBuf : next.nextBuf = s.nextBuf
  tbufs : ∀ other, other ≠ b → next.tbufs other = s.tbufs other
  stays : ∀ id, (place id).tbuf ≠ some b → after id = place id
  inside : ∀ id, (place id).tbuf = some b → (after id).tbuf = some b
  heap : ∀ id, (place id).tbuf ≠ some b → next.heap id = s.heap id

variable {s next : State} {place after : Places} {b : TBufId} {here : Place} {thrs i : Nat}
  {id cur : BufId} {tbuf : TBuf}

theorem Within.place_iff (within : Within s next place after b) (other : here.tbuf ≠ some b)
    (id : BufId) : after id = here ↔ place id = here := by
  by_cases inside : (place id).tbuf = some b
  · constructor
    · rintro rfl
      exact absurd (within.inside id inside) other
    · rintro rfl
      exact absurd inside other
  · rw [within.stays id inside]

theorem Owned.writer (owned : Owned thrs s place) (within : Within s next place after b)
    (serves : Serves thrs next after b) : Owned thrs next after := by
  constructor
  · intro t id
    rw [within.workers, within.nextBuf, within.place_iff (by simp [Place.tbuf])]
    exact owned.held t id
  intro c
  by_cases same : c = b
  · subst same
    exact serves
  refine (owned.serves c).keep (within.tbufs c same) ?_
  intro here atTBuf
  have other : here.tbuf ≠ some b := by
    rw [atTBuf]
    simpa using same
  refine ⟨fun id => by rw [within.nextBuf, within.place_iff other], ?_⟩
  rintro id _ rfl
  exact within.heap id other

structure Inside (b : TBufId) (place after : Places) : Prop where
  stays : ∀ id, (place id).tbuf ≠ some b → after id = place id
  inside : ∀ id, (place id).tbuf = some b → (after id).tbuf = some b

theorem Inside.refl : Inside b place place := ⟨fun _ _ => rfl, fun _ same => same⟩

theorem Inside.trans {middle : Places} (first : Inside b place middle)
    (second : Inside b middle after) : Inside b place after where
  stays id outside := by
    have same := first.stays id outside
    rw [second.stays id (same ▸ outside), same]
  inside id inside := second.inside id (first.inside id inside)

theorem inside_update {there : Place} (old : (place id).tbuf = some b) (new : there.tbuf = some b) :
    Inside b place (Function.update place id there) where
  stays other outside := by
    refine Function.update_of_ne ?_ ..
    rintro rfl
    exact outside old
  inside other before := by
    by_cases same : other = id
    · simp [same, new]
    · simp [same, before]

theorem within_setTBuf (moves : Inside b place after) :
    Within s (s.setTBuf b tbuf) place after b where
  workers := rfl
  nextBuf := rfl
  tbufs := fun other different => by simp [State.setTBuf, different]
  stays := moves.stays
  inside := moves.inside
  heap := fun _ _ => rfl

theorem within_setBuf {lbuf : LocalPBuf} (own : (place id).tbuf = some b)
    (moves : Inside b place after) :
    Within s ((s.setBuf id lbuf).setTBuf b tbuf) place after b where
  workers := rfl
  nextBuf := rfl
  tbufs := fun other different => by simp [State.setTBuf, State.setBuf, different]
  stays := moves.stays
  inside := moves.inside
  heap := by
    intro other outside
    have different : other ≠ id := by
      rintro rfl
      exact outside own
    simp [State.setTBuf, State.setBuf, different]

def transfer (old new : Place) (place : Places) : Places := fun id =>
  if place id = old then new else place id

section Transfer

variable {old new : Place}

theorem transfer_eq (notOld : here ≠ old) (notNew : here ≠ new) :
    transfer old new place id = here ↔ place id = here := by
  unfold transfer
  split
  · rename_i same
    rw [same]
    exact ⟨fun is => absurd is.symm notNew, fun is => absurd is.symm notOld⟩
  · exact Iff.rfl

theorem transfer_old (different : new ≠ old) : transfer old new place id ≠ old := by
  unfold transfer
  split
  · exact different
  · assumption

theorem transfer_new : transfer old new place id = new ↔ place id = old ∨ place id = new := by
  unfold transfer
  split
  · rename_i same
    simp [same]
  · rename_i other
    simp [other]

theorem transfer_inside (isOld : old.tbuf = some b) (isNew : new.tbuf = some b) :
    Inside b place (transfer old new place) where
  stays id outside := if_neg fun (here : place id = old) => outside (here ▸ isOld)
  inside id inside := by
    unfold transfer
    split
    · exact isNew
    · exact inside

end Transfer

theorem detached_eq (thrs b : Nat) (place : Places) (id : BufId) :
    detached thrs b place id = place id ∨
      ∃ t, t < thrs ∧ place id = .frozen b t ∧ detached thrs b place id = .flush b t := by
  unfold detached
  cases here : place id with
  | frozen c t =>
    by_cases moved : c = b ∧ t < thrs
    · obtain ⟨rfl, bound⟩ := moved
      exact Or.inr ⟨t, bound, rfl, by simp [bound]⟩
    · exact Or.inl (by simp [moved])
  | _ => exact Or.inl rfl

variable {b t cur : Nat} {last : BufId}

theorem detached_other (notFlush : ∀ t, here ≠ .flush b t) (notFrozen : ∀ t, here ≠ .frozen b t) :
    detached thrs b place id = here ↔ place id = here := by
  rcases detached_eq thrs b place id with same | ⟨t, _, old, new⟩
  · rw [same]
  · rw [new, old]
    exact ⟨fun is => absurd is.symm (notFlush t), fun is => absurd is.symm (notFrozen t)⟩

theorem detached_frozen :
    detached thrs b place id = .frozen b t ↔ place id = .frozen b t ∧ ¬ t < thrs := by
  unfold detached
  cases here : place id with
  | frozen c u =>
    by_cases moved : c = b ∧ u < thrs
    · obtain ⟨rfl, bound⟩ := moved
      simp only [bound, and_self, if_true, reduceCtorEq, Place.frozen.injEq, true_and, false_iff]
      rintro ⟨rfl, late⟩
      exact late bound
    · simp only [moved, if_false, Place.frozen.injEq]
      constructor
      · rintro ⟨rfl, rfl⟩
        exact ⟨⟨rfl, rfl⟩, fun bound => moved ⟨rfl, bound⟩⟩
      · exact fun both => both.1
  | _ => simp

theorem detached_flush :
    detached thrs b place id = .flush b t ↔
      place id = .flush b t ∨ place id = .frozen b t ∧ t < thrs := by
  unfold detached
  cases here : place id with
  | frozen c u =>
    by_cases moved : c = b ∧ u < thrs
    · obtain ⟨rfl, bound⟩ := moved
      simp only [bound, and_self, if_true, Place.flush.injEq, true_and, reduceCtorEq, false_or,
        Place.frozen.injEq]
      exact ⟨fun same => ⟨same, same ▸ bound⟩, fun both => both.1⟩
    · simp only [moved, if_false, reduceCtorEq, Place.frozen.injEq, false_or, false_iff]
      rintro ⟨⟨rfl, rfl⟩, bound⟩
      exact moved ⟨rfl, bound⟩
  | _ => simp

theorem Batch.done (batch : Batch s place b tbuf) (none_ : tbuf.ahead = none) :
    ∃ done, Linked s.next tbuf.batch done ∧
      (∀ id, id ∈ done ↔ id < s.nextBuf ∧ (place id = .ready b ∨ place id = .written b)) ∧
      (∀ id, id < s.nextBuf → place id ≠ .ahead b) ∧
      ∀ i, tbuf.pc = .chain i ∨ tbuf.pc = .giveBack → tbuf.tail = done.getLast? := by
  obtain ⟨done, rest, linked, front, walked, coming, tail⟩ := batch.chain
  rw [none_] at front
  obtain rfl := front.eq_nil
  refine ⟨done, List.append_nil done ▸ linked, walked, fun id bound here => ?_, tail⟩
  exact List.not_mem_nil ((coming id).mpr ⟨bound, here⟩)

def Unused (s : State) (place : Places) (b : TBufId) : Prop :=
  ∀ id, id < s.nextBuf → place id ≠ .ready b ∧ place id ≠ .written b ∧ place id ≠ .ahead b

theorem unused_of_nil
    (walked : ∀ id, id ∈ [] ↔ id < s.nextBuf ∧ (place id = .ready b ∨ place id = .written b))
    (notAhead : ∀ id, id < s.nextBuf → place id ≠ .ahead b) : Unused s place b := by
  intro id bound
  refine ⟨?_, ?_, notAhead id bound⟩
  · exact fun here => List.not_mem_nil ((walked id).mpr ⟨bound, Or.inl here⟩)
  · exact fun here => List.not_mem_nil ((walked id).mpr ⟨bound, Or.inr here⟩)

theorem Batch.unused (batch : Batch s place b tbuf) (none_ : tbuf.batch = none) :
    Unused s place b := by
  obtain ⟨done, rest, linked, _, walked, coming, _⟩ := batch.chain
  rw [none_] at linked
  obtain ⟨rfl, rfl⟩ := List.append_eq_nil_iff.mp linked.eq_nil
  exact unused_of_nil walked fun id bound here =>
    List.not_mem_nil ((coming id).mpr ⟨bound, here⟩)

theorem Batch.iovs_nil (batch : Batch s place b tbuf) (unused : Unused s place b) :
    tbuf.iovs = [] := by
  cases shape : tbuf.iovs with
  | nil => rfl
  | cons iov rest =>
    obtain ⟨bound, here, _⟩ := batch.ready iov (shape ▸ List.mem_cons_self)
    exact absurd here (unused iov.base bound).1

theorem batch_of_unused (unused : Unused s place b) (batch : tbuf.batch = none)
    (ahead : tbuf.ahead = none)
    (tail : ∀ i, tbuf.pc = .chain i ∨ tbuf.pc = .giveBack → tbuf.tail = none)
    (iovs : tbuf.iovs = []) : Batch s place b tbuf where
  chain := by
    refine ⟨[], [], ?_, ?_, ?_, ?_, fun i at_ => tail i at_⟩
    · rw [batch]
      exact .nil
    · rw [ahead]
      exact .nil
    · intro id
      simp only [List.not_mem_nil, false_iff]
      rintro ⟨bound, here | here⟩
      · exact (unused id bound).1 here
      · exact (unused id bound).2.1 here
    · intro id
      simp only [List.not_mem_nil, false_iff]
      exact fun both => (unused id both.1).2.2 both.2
  ready := by simp [iovs]
  collected := fun id bound here => absurd here (unused id bound).1
  distinct := by simp [iovs]
  settled := fun _ => iovs

theorem Owned.detach (owned : Owned thrs s place) (pc : (s.tbufs b).pc = .idle) :
    Owned thrs (s.setTBuf b (detach thrs s.heap (s.tbufs b))) (detached thrs b place) := by
  have serves := owned.serves b
  have kept : ∀ here, (∀ t, here ≠ .flush b t) → (∀ t, here ≠ .frozen b t) →
      Untouched s (s.setTBuf b (LogBuffer.detach thrs s.heap (s.tbufs b))) place
        (detached thrs b place) here := by
    intro here notFlush notFrozen
    exact ⟨fun id => by rw [detached_other notFlush notFrozen]; rfl, fun _ _ _ => rfl⟩
  refine owned.writer (within_setTBuf ⟨?_, ?_⟩) ?_
  · intro id outside
    rcases detached_eq thrs b place id with same | ⟨t, _, old, _⟩
    · exact same
    · rw [old] at outside
      exact absurd rfl outside
  · intro id inside
    rcases detached_eq thrs b place id with same | ⟨t, _, _, new⟩
    · rw [same]
      exact inside
    · rw [new]
      rfl
  have tbuf : (s.setTBuf b (LogBuffer.detach thrs s.heap (s.tbufs b))).tbufs b =
      LogBuffer.detach thrs s.heap (s.tbufs b) := by simp [State.setTBuf]
  constructor <;> rw [tbuf]
  · intro t
    by_cases bound : t < thrs
    · -- detached: nothing is left
      refine ⟨[], by simpa [LogBuffer.detach, bound] using .nil, ?_⟩
      intro id
      simp [detached_frozen, bound]
    obtain ⟨nodes, linked, members⟩ := serves.frozen t
    refine ⟨nodes, ?_, ?_⟩
    · simp only [LogBuffer.detach, bound, if_false]
      exact linked.congr fun _ _ => rfl
    intro id
    rw [members id, detached_frozen]
    simp [bound, State.setTBuf]
  · intro t
    by_cases bound : t < thrs
    · -- the list of the last round is empty, so the frozen list takes its place
      have empty := serves.begun t bound (by rw [pc]; exact bound)
      obtain ⟨old, none_, oldMembers⟩ := serves.flush t
      rw [empty] at none_
      obtain rfl := none_.eq_nil
      obtain ⟨nodes, linked, members⟩ := serves.frozen t
      refine ⟨nodes, ?_, ?_⟩
      · simp only [LogBuffer.detach, bound, if_true, empty, Option.or_none]
        exact linked.congr fun _ _ => rfl
      intro id
      have notFlush := (oldMembers id).not.mp List.not_mem_nil
      rw [members id, detached_flush]
      constructor
      · exact fun both => ⟨both.1, Or.inr ⟨both.2, bound⟩⟩
      · rintro ⟨allocated, here | here⟩
        · exact absurd ⟨allocated, here⟩ notFlush
        · exact ⟨allocated, here.1⟩
    · obtain ⟨nodes, linked, members⟩ := serves.flush t
      refine ⟨nodes, ?_, ?_⟩
      · simp only [LogBuffer.detach, bound, if_false]
        exact linked.congr fun _ _ => rfl
      intro id
      rw [members id, detached_flush]
      simp [bound, State.setTBuf]
  · exact serves.free.keep (kept _ (by simp) (by simp))
  · have unused := serves.batch.unused (by simp [TBuf.batch, pc])
    refine batch_of_unused ?_ (by rfl) (by rfl) (fun _ _ => rfl) (by rfl)
    intro id bound
    have before := unused id bound
    refine ⟨?_, ?_, ?_⟩
    · exact (detached_other (by simp) (by simp)).not.mpr before.1
    · exact (detached_other (by simp) (by simp)).not.mpr before.2.1
    · exact (detached_other (by simp) (by simp)).not.mpr before.2.2
  · intro i _ below
    simp [LogBuffer.detach, WriterPc.reached] at below

theorem Serves.chain {done : List BufId} (serves : Serves thrs s place b)
    (pc : (s.tbufs b).pc = .chain i) (found : (s.tbufs b).flushbufs i = some cur)
    (nextBuf : next.nextBuf = s.nextBuf)
    (heap : ∀ id, place id ≠ .ready b → place id ≠ .written b → next.heap id = s.heap id)
    (bufs : ∀ id, (next.heap id).buf = (s.heap id).buf)
    (walked : ∀ id, id ∈ done ↔ id < s.nextBuf ∧ (place id = .ready b ∨ place id = .written b))
    (tbuf : next.tbufs b =
      { s.tbufs b with
        flushbufs := Function.update (s.tbufs b).flushbufs i none
        lsbufs := (s.tbufs b).lsbufs.or (some cur)
        tail := some cur
        pc := .walk i cur }) (linked : ∀ nodes, Linked next.next (some cur) nodes →
      Linked next.next ((s.tbufs b).lsbufs.or (some cur)) (done ++ nodes)) :
    Serves thrs next (chained b i place) b := by
  change Serves thrs next (transfer (.flush b i) (.ahead b) place) b
  have kept : ∀ here, here ≠ .flush b i → here ≠ .ahead b → here ≠ .ready b → here ≠ .written b →
      Untouched s next place (transfer (.flush b i) (.ahead b) place) here := by
    intro here notFlush notAhead notReady notWritten
    refine ⟨fun id => by rw [transfer_eq notFlush notAhead, nextBuf], ?_⟩
    rintro id _ rfl
    exact heap id notReady notWritten
  obtain ⟨nodes, links, members⟩ := serves.flush i
  rw [found] at links
  have front : Linked next.next (some cur) nodes := by
    refine links.congr fun id mem => congrArg LocalPBuf.next (heap id ?_ ?_)
    · rw [((members id).mp mem).2]
      simp
    · rw [((members id).mp mem).2]
      simp
  obtain ⟨_, _, _, notAhead, _⟩ := serves.batch.done (by simp [TBuf.ahead, pc])
  constructor <;> rw [tbuf]
  · exact fun t => (serves.frozen t).keep (kept _ (by simp) (by simp) (by simp) (by simp))
  · intro t
    by_cases same : t = i
    · subst t
      refine ⟨[], by simpa using .nil, ?_⟩
      intro id
      simp [transfer_old]
    · simp only [Function.update_of_ne same]
      exact (serves.flush t).keep (kept _ (by simp [same]) (by simp) (by simp) (by simp))
  · exact serves.free.keep (kept _ (by simp) (by simp) (by simp) (by simp))
  · have ready : ∀ id, transfer (.flush b i) (.ahead b) place id = .ready b ↔
        place id = .ready b := fun id => transfer_eq (by simp) (by simp)
    constructor
    · refine ⟨done, nodes, linked nodes front, front, ?_, ?_, ?_⟩
      · intro id
        rw [walked id, ready id, transfer_eq (by simp) (by simp), nextBuf]
      · intro id
        rw [members id, transfer_new, nextBuf]
        constructor
        · exact fun both => ⟨both.1, Or.inl both.2⟩
        · rintro ⟨bound, here | here⟩
          · exact ⟨bound, here⟩
          · exact absurd here (notAhead id bound)
      · intro j at_
        simp at at_
    · intro iov mem
      obtain ⟨bound, here, len⟩ := serves.batch.ready iov mem
      exact ⟨nextBuf ▸ bound, (ready _).mpr here, by rw [bufs]; exact len⟩
    · intro id bound here
      exact serves.batch.collected id (nextBuf ▸ bound) ((ready id).mp here)
    · exact serves.batch.distinct
    · intro at_
      simp at at_
  · intro j bound below
    by_cases same : j = i
    · simp [same]
    simp only [Function.update_of_ne same]
    apply serves.begun j bound
    rw [pc]
    simp only [WriterPc.reached] at below ⊢
    omega

theorem Owned.chainFirst (owned : Owned thrs s place) (pc : (s.tbufs b).pc = .chain i)
    (found : (s.tbufs b).flushbufs i = some cur) (first : (s.tbufs b).tail = none) :
    Owned thrs
      (s.setTBuf b
        { s.tbufs b with
          flushbufs := Function.update (s.tbufs b).flushbufs i none
          lsbufs := (s.tbufs b).lsbufs.or (some cur)
          tail := some cur
          pc := .walk i cur })
      (chained b i place) := by
  have serves := owned.serves b
  obtain ⟨done, linked, walked, _, tail⟩ := serves.batch.done (by simp [TBuf.ahead, pc])
  -- without a tail nothing has been chained
  obtain rfl : done = [] := List.getLast?_eq_none_iff.mp ((tail i (Or.inl pc)).symm.trans first)
  have empty : (s.tbufs b).lsbufs = none := by
    simp only [TBuf.batch, pc] at linked
    cases here : (s.tbufs b).lsbufs with
    | none => rfl
    | some id =>
      rw [here] at linked
      cases linked
  refine owned.writer (within_setTBuf (transfer_inside rfl rfl)) ?_
  refine serves.chain pc found rfl (fun _ _ _ => rfl) (fun _ => rfl) walked
    (by simp [State.setTBuf]) ?_
  intro nodes links
  simpa [empty] using links

theorem Owned.chainNext (owned : Owned thrs s place) (pc : (s.tbufs b).pc = .chain i)
    (found : (s.tbufs b).flushbufs i = some cur) (tail : (s.tbufs b).tail = some last) :
    Owned thrs
      ((s.setBuf last ((s.heap last).setNext (some cur))).setTBuf b
        { s.tbufs b with
          flushbufs := Function.update (s.tbufs b).flushbufs i none
          lsbufs := (s.tbufs b).lsbufs.or (some cur)
          tail := some cur
          pc := .walk i cur })
      (chained b i place) := by
  have serves := owned.serves b
  obtain ⟨done, linked, walked, _, ends⟩ := serves.batch.done (by simp [TBuf.ahead, pc])
  have atEnd : done.getLast? = some last := (ends i (Or.inl pc)).symm.trans tail
  have lastPlace := ((walked last).mp (List.mem_of_getLast? atEnd)).2
  have own : (place last).tbuf = some b := by
    rcases lastPlace with here | here <;> rw [here] <;> rfl
  refine owned.writer (within_setBuf own (transfer_inside rfl rfl)) ?_
  refine serves.chain pc found rfl ?_ ?_ walked (by simp [State.setTBuf]) ?_
  · intro id notReady notWritten
    have different : id ≠ last := by
      rintro rfl
      exact lastPlace.elim notReady notWritten
    simp [State.setTBuf, State.setBuf, different]
  · intro id
    by_cases same : id = last
    · subst same
      simp [State.setTBuf, State.setBuf, LocalPBuf.setNext]
    · simp [State.setTBuf, State.setBuf, same]
  intro nodes links
  have started : (s.tbufs b).lsbufs.or (some cur) = (s.tbufs b).batch := by
    simp only [TBuf.batch, pc]
    cases here : (s.tbufs b).lsbufs with
    | some id => rfl
    | none =>
      simp only [TBuf.batch, pc, here] at linked
      rw [linked.eq_nil] at atEnd
      cases atEnd
  rw [started]
  refine linked.splice atEnd ?_ ?_ links
  · simp [State.next, State.setTBuf, State.setBuf, LocalPBuf.setNext]
  · intro id _ different
    simp [State.next, State.setTBuf, State.setBuf, different]

theorem Batch.writev (batch : Batch s place b tbuf) :
    Batch s (flushed b place) b (LogBuffer.writev s.heap tbuf) := by
  change Batch s (transfer (.ready b) (.written b) place) b _
  obtain ⟨done, rest, linked, front, walked, coming, tail⟩ := batch.chain
  constructor
  · refine ⟨done, rest, linked, front, ?_, ?_, tail⟩
    · intro id
      rw [walked id, transfer_new]
      simp [transfer_old]
    · intro id
      rw [coming id, transfer_eq (by simp) (by simp)]
  · simp [LogBuffer.writev]
  · exact fun id _ here => absurd here (transfer_old (by simp))
  · simp [LogBuffer.writev]
  · exact fun _ => rfl

theorem Owned.flush (owned : Owned thrs s place) (pc : (s.tbufs b).pc = .chain i)
    (done : ¬ i < thrs) :
    Owned thrs (s.setTBuf b { writev s.heap (s.tbufs b) with pc := .giveBack })
      (flushed b place) := by
  have serves := owned.serves b
  have kept : ∀ here, here ≠ .ready b → here ≠ .written b → ∀ tbuf,
      Untouched s (s.setTBuf b tbuf) place (flushed b place) here := by
    intro here notReady notWritten tbuf
    exact ⟨fun id => and_congr Iff.rfl (transfer_eq notReady notWritten), fun _ _ _ => rfl⟩
  refine owned.writer (within_setTBuf (transfer_inside rfl rfl)) ?_
  have tbuf : (s.setTBuf b { writev s.heap (s.tbufs b) with pc := .giveBack }).tbufs b =
      { writev s.heap (s.tbufs b) with pc := .giveBack } := by simp [State.setTBuf]
  constructor <;> rw [tbuf]
  · exact fun t => (serves.frozen t).keep (kept _ (by simp) (by simp) _)
  · exact fun t => (serves.flush t).keep (kept _ (by simp) (by simp) _)
  · exact serves.free.keep (kept _ (by simp) (by simp) _)
  · have settled := serves.batch.writev
    obtain ⟨walked, rest, linked, front, members, coming, tail⟩ := settled.chain
    refine ⟨⟨walked, rest, ?_, ?_, members, coming, ?_⟩, settled.ready, settled.collected,
      settled.distinct, fun _ => rfl⟩
    · simpa [TBuf.batch, LogBuffer.writev, pc] using linked
    · simpa [TBuf.ahead, LogBuffer.writev, pc] using front
    · exact fun _ _ => tail i (Or.inl pc)
  · intro j bound _
    apply serves.begun j bound
    rw [pc]
    simp only [WriterPc.reached]
    omega

theorem Owned.chainSkip (owned : Owned thrs s place) (pc : (s.tbufs b).pc = .chain i)
    (empty : (s.tbufs b).flushbufs i = none) :
    Owned thrs (s.setTBuf b { s.tbufs b with pc := .chain (i + 1) }) place := by
  have serves := owned.serves b
  have kept : ∀ here tbuf, Untouched s (s.setTBuf b tbuf) place place here :=
    fun _ _ => ⟨fun _ => Iff.rfl, fun _ _ _ => rfl⟩
  refine owned.writer (within_setTBuf .refl) ?_
  have tbuf : (s.setTBuf b { s.tbufs b with pc := .chain (i + 1) }).tbufs b =
      { s.tbufs b with pc := .chain (i + 1) } := by simp [State.setTBuf]
  constructor <;> rw [tbuf]
  · exact fun t => (serves.frozen t).keep (kept _ _)
  · exact fun t => (serves.flush t).keep (kept _ _)
  · exact serves.free.keep (kept _ _)
  · have same := serves.batch.keep (kept (.ready b) { s.tbufs b with pc := .chain (i + 1) })
      (kept _ _) (kept _ _)
    obtain ⟨done, rest, linked, front, walked, coming, tail⟩ := same.chain
    refine ⟨⟨done, rest, ?_, ?_, walked, coming, ?_⟩, same.ready, same.collected, same.distinct,
      by simp⟩
    · simpa [TBuf.batch, pc] using linked
    · simpa [TBuf.ahead, pc] using front
    · exact fun _ _ => tail i (Or.inl pc)
  · intro j bound below
    by_cases same : j = i
    · subst same
      exact empty
    · apply serves.begun j bound
      rw [pc]
      simp only [WriterPc.reached] at below ⊢
      omega

theorem Owned.rest (owned : Owned thrs s place) (unused : Unused s place b) (tbuf : TBuf)
    (frozen : tbuf.frozenbufs = (s.tbufs b).frozenbufs)
    (flush : tbuf.flushbufs = (s.tbufs b).flushbufs) (free : tbuf.freebufs = (s.tbufs b).freebufs)
    (iovs : tbuf.iovs = (s.tbufs b).iovs) (before : thrs ≤ (s.tbufs b).pc.reached thrs)
    (pc : tbuf.pc = .publishSN ∨ tbuf.pc = .idle) : Owned thrs (s.setTBuf b tbuf) place := by
  have serves := owned.serves b
  have kept : ∀ here, Untouched s (s.setTBuf b tbuf) place place here :=
    fun _ => ⟨fun _ => Iff.rfl, fun _ _ _ => rfl⟩
  refine owned.writer (within_setTBuf .refl) ?_
  have same : (s.setTBuf b tbuf).tbufs b = tbuf := by simp [State.setTBuf]
  constructor <;> rw [same]
  · rw [frozen]
    exact fun t => (serves.frozen t).keep (kept _)
  · rw [flush]
    exact fun t => (serves.flush t).keep (kept _)
  · rw [free]
    exact serves.free.keep (kept _)
  · refine batch_of_unused unused ?_ ?_ ?_ (by rw [iovs]; exact serves.batch.iovs_nil unused)
    · rcases pc with at_ | at_ <;> simp [TBuf.batch, at_]
    · rcases pc with at_ | at_ <;> simp [TBuf.ahead, at_]
    · intro i other
      rcases pc with at_ | at_ <;> simp [at_] at other
  · intro j bound _
    rw [flush]
    exact serves.begun j bound (Nat.lt_of_lt_of_le bound before)

/-! The buffer that `Writer` stands on joins the walked part. -/

theorem walked_inside (s : State) (here : place cur = .ahead b) :
    Inside b place (walked s b cur place) := by
  have old : (place cur).tbuf = some b := by
    rw [here]
    rfl
  unfold walked
  split
  · split
    · exact (inside_update old rfl).trans (transfer_inside rfl rfl)
    · exact inside_update old rfl
  · exact inside_update old rfl

theorem walked_other (s : State) {there : Place} (here : place cur = .ahead b)
    (notAhead : there ≠ .ahead b) (notReady : there ≠ .ready b) (notWritten : there ≠ .written b) :
    walked s b cur place id = there ↔ place id = there := by
  have update : ∀ new : Place, new ≠ there →
      (Function.update place cur new id = there ↔ place id = there) := by
    intro new different
    by_cases same : id = cur
    · simp [same, here, different, notAhead.symm]
    · simp [same]
  unfold walked
  split
  · split
    · exact (transfer_eq notReady notWritten).trans (update _ notReady.symm)
    · exact update _ notReady.symm
  · exact update _ notWritten.symm

def onward (s : State) (i : Nat) (cur : BufId) : WriterPc :=
  match (s.heap cur).next with
  | some next => .walk i next
  | none => .chain (i + 1)

theorem onward_ahead {nodes : List BufId} (pc : tbuf.pc = onward s i cur)
    (linked : Linked s.next (s.next cur) nodes) : Linked s.next tbuf.ahead nodes := by
  unfold State.next at linked
  simp only [TBuf.ahead, pc, onward]
  cases next : (s.heap cur).next with
  | some id | none =>
    rw [next] at linked
    exact linked

theorem onward_batch (pc : tbuf.pc = onward s i cur) : tbuf.batch = tbuf.lsbufs := by
  simp only [TBuf.batch, pc, onward]
  cases (s.heap cur).next <;> rfl

theorem Batch.push (batch : Batch s place b tbuf) (pc : tbuf.pc = .walk i cur)
    (bound : cur < s.nextBuf) (here : place cur = .ahead b) (there : Place) (iovs : List Iovec)
    (kind : there = .ready b ∧ iovs = tbuf.iovs ++ [⟨cur, (s.heap cur).buf.length⟩] ∨
      there = .written b ∧ iovs = tbuf.iovs) :
    Batch s (Function.update place cur there) b
      { tbuf with pc := onward s i cur, tail := some cur, iovs := iovs } := by
  obtain ⟨done, rest, linked, links, walked, coming, _⟩ := batch.chain
  simp only [TBuf.ahead, pc] at links
  simp only [TBuf.batch, pc] at linked
  cases links with
  | @cons _ rest behind =>
    have whole : Linked s.next (some cur) (cur :: rest) := .cons behind
    have notRest : cur ∉ rest := (List.nodup_cons.mp whole.nodup).1
    have fresh : ∀ iov ∈ tbuf.iovs, iov.base ≠ cur := by
      intro iov mem same
      have ready := (batch.ready iov mem).2.1
      rw [same, here] at ready
      cases ready
    have kept : ∀ id, id ≠ cur → Function.update place cur there id = place id :=
      fun id different => Function.update_of_ne different ..
    constructor
    · refine ⟨done ++ [cur], rest, ?_, onward_ahead rfl behind, ?_, ?_, ?_⟩
      · rw [onward_batch rfl]
        simpa using linked
      · intro id
        by_cases same : id = cur
        · subst same
          rcases kind with ⟨rfl, _⟩ | ⟨rfl, _⟩ <;> simp [bound]
        · simp [same, walked id]
      · intro id
        by_cases same : id = cur
        · subst same
          rcases kind with ⟨rfl, _⟩ | ⟨rfl, _⟩ <;> simp [notRest]
        · have mem := coming id
          simp only [List.mem_cons, same, false_or] at mem
          rw [mem, kept id same]
      · intro i _
        simp
    · intro iov mem
      rcases kind with ⟨rfl, rfl⟩ | ⟨rfl, rfl⟩
      · rcases List.mem_append.mp mem with old | new
        · rw [kept _ (fresh iov old)]
          exact batch.ready iov old
        · rw [List.mem_singleton.mp new]
          exact ⟨bound, Function.update_self .., rfl⟩
      · rw [kept _ (fresh iov mem)]
        exact batch.ready iov mem
    · intro id inRange ready
      by_cases same : id = cur
      · subst same
        rcases kind with ⟨rfl, rfl⟩ | ⟨rfl, rfl⟩
        · exact ⟨_, List.mem_append_right _ List.mem_cons_self, rfl⟩
        · simp at ready
      · rw [kept id same] at ready
        obtain ⟨iov, mem, base⟩ := batch.collected id inRange ready
        rcases kind with ⟨rfl, rfl⟩ | ⟨rfl, rfl⟩
        · exact ⟨iov, List.mem_append_left _ mem, base⟩
        · exact ⟨iov, mem, base⟩
    · rcases kind with ⟨rfl, rfl⟩ | ⟨rfl, rfl⟩
      · simp only [List.map_append, List.map_cons, List.map_nil]
        refine List.nodup_append.mpr ⟨batch.distinct, List.nodup_singleton _, ?_⟩
        intro base mem other single same
        obtain ⟨iov, inside, rfl⟩ := List.mem_map.mp mem
        rw [List.mem_singleton.mp single] at same
        exact fresh iov inside same
      · exact batch.distinct
    · intro at_
      simp only [onward] at at_
      split at at_ <;> cases at_

theorem Batch.walk (batch : Batch s place b tbuf) (same : s.tbufs b = tbuf)
    (pc : tbuf.pc = .walk i cur) (bound : cur < s.nextBuf) (here : place cur = .ahead b) :
    Batch s (walked s b cur place) b
      { collect s.heap tbuf cur with tail := some cur, pc := onward s i cur } := by
  unfold walked collect
  rw [same]
  split
  · have pushed := batch.push pc bound here (.ready b)
      (tbuf.iovs ++ [⟨cur, (s.heap cur).buf.length⟩]) (Or.inl ⟨rfl, rfl⟩)
    by_cases full : tbuf.iovs.length + 1 = iovMax
    · simp only [List.length_append, List.length_cons, List.length_nil, Nat.zero_add, full, if_true]
      exact pushed.writev
    · simp only [List.length_append, List.length_cons, List.length_nil, Nat.zero_add, full, if_false]
      exact pushed
  · exact batch.push pc bound here (.written b) tbuf.iovs (Or.inr ⟨rfl, rfl⟩)

theorem collect_lists (heap : BufId → LocalPBuf) (tbuf : TBuf) (cur : BufId) :
    (collect heap tbuf cur).frozenbufs = tbuf.frozenbufs ∧
      (collect heap tbuf cur).flushbufs = tbuf.flushbufs ∧
      (collect heap tbuf cur).freebufs = tbuf.freebufs := by
  unfold collect writev
  split
  · simp only
    split <;> exact ⟨rfl, rfl, rfl⟩
  · exact ⟨rfl, rfl, rfl⟩

theorem Serves.ahead (serves : Serves thrs s place b) (pc : (s.tbufs b).pc = .walk i cur) :
    cur < s.nextBuf ∧ place cur = .ahead b := by
  obtain ⟨_, rest, _, front, _, coming, _⟩ := serves.batch.chain
  simp only [TBuf.ahead, pc] at front
  cases front with
  | cons behind => exact (coming cur).mp List.mem_cons_self

section

variable (owned : Owned thrs s place)

include owned

theorem Owned.walk (pc : (s.tbufs b).pc = .walk i cur) :
    Owned thrs
      (s.setTBuf b { collect s.heap (s.tbufs b) cur with tail := some cur, pc := onward s i cur })
      (walked s b cur place) := by
  have serves := owned.serves b
  obtain ⟨bound, here⟩ := serves.ahead pc
  obtain ⟨frozen, flush, free⟩ := collect_lists s.heap (s.tbufs b) cur
  have kept : ∀ there, there ≠ .ahead b → there ≠ .ready b → there ≠ .written b → ∀ tbuf,
      Untouched s (s.setTBuf b tbuf) place (walked s b cur place) there := by
    intro there notAhead notReady notWritten tbuf
    exact ⟨fun id => by rw [walked_other s here notAhead notReady notWritten]; rfl,
      fun _ _ _ => rfl⟩
  refine owned.writer (within_setTBuf (walked_inside s here)) ?_
  have tbuf : (s.setTBuf b
      { collect s.heap (s.tbufs b) cur with tail := some cur, pc := onward s i cur }).tbufs b =
      { collect s.heap (s.tbufs b) cur with tail := some cur, pc := onward s i cur } := by
    simp [State.setTBuf]
  constructor <;> rw [tbuf]
  · simp only [frozen]
    exact fun t => (serves.frozen t).keep (kept _ (by simp) (by simp) (by simp) _)
  · simp only [flush]
    exact fun t => (serves.flush t).keep (kept _ (by simp) (by simp) (by simp) _)
  · simp only [free]
    exact serves.free.keep (kept _ (by simp) (by simp) (by simp) _)
  · have moved := serves.batch.walk rfl pc bound here
    exact ⟨moved.chain, moved.ready, moved.collected, moved.distinct, moved.settled⟩
  intro j inRange below
  simp only [flush]
  apply serves.begun j inRange
  rw [pc]
  simp only [WriterPc.reached, onward] at below ⊢
  cases next : (s.heap cur).next <;> simpa [next] using below

theorem Owned.giveBack (pc : (s.tbufs b).pc = .giveBack) (tail : (s.tbufs b).tail = some last) :
    Owned thrs
      ((s.setBuf last ((s.heap last).setNext (s.tbufs b).freebufs)).setTBuf b
        { s.tbufs b with freebufs := (s.tbufs b).lsbufs, pc := .publishSN })
      (givenBack b place) := by
  have serves := owned.serves b
  obtain ⟨done, linked, walked, notAhead, ends⟩ := serves.batch.done (by simp [TBuf.ahead, pc])
  simp only [TBuf.batch, pc] at linked
  have atEnd : done.getLast? = some last := (ends 0 (Or.inr pc)).symm.trans tail
  -- `iovs` was written, so everything walked is
  have noReady : ∀ id, id < s.nextBuf → place id ≠ .ready b := by
    intro id bound ready
    obtain ⟨iov, mem, _⟩ := serves.batch.collected id bound ready
    rw [serves.batch.settled pc] at mem
    cases mem
  have members : ∀ id, id ∈ done ↔ id < s.nextBuf ∧ place id = .written b := by
    intro id
    rw [walked id]
    constructor
    · rintro ⟨bound, ready | written⟩
      · exact absurd ready (noReady id bound)
      · exact ⟨bound, written⟩
    · exact fun both => ⟨both.1, Or.inr both.2⟩
  have lastPlace := ((members last).mp (List.mem_of_getLast? atEnd)).2
  have own : (place last).tbuf = some b := by
    rw [lastPlace]
    rfl
  have kept : ∀ here, here ≠ .written b → here ≠ .free b → ∀ tbuf,
      Untouched s ((s.setBuf last ((s.heap last).setNext (s.tbufs b).freebufs)).setTBuf b tbuf)
        place (givenBack b place) here := by
    intro here notWritten notFree tbuf
    refine ⟨fun id => and_congr Iff.rfl (transfer_eq notWritten notFree), ?_⟩
    rintro id _ rfl
    have different : id ≠ last := by
      rintro rfl
      exact notWritten lastPlace
    simp [State.setTBuf, State.setBuf, different]
  refine owned.writer (within_setBuf own (transfer_inside rfl rfl)) ?_
  · have tbuf : (((s.setBuf last ((s.heap last).setNext (s.tbufs b).freebufs)).setTBuf b
        { s.tbufs b with freebufs := (s.tbufs b).lsbufs, pc := .publishSN }).tbufs b) =
        { s.tbufs b with freebufs := (s.tbufs b).lsbufs, pc := .publishSN } := by
      simp [State.setTBuf]
    constructor <;> rw [tbuf]
    · exact fun t => (serves.frozen t).keep (kept _ (by simp) (by simp) _)
    · exact fun t => (serves.flush t).keep (kept _ (by simp) (by simp) _)
    · -- the batch goes in front of the free list
      obtain ⟨nodes, links, free⟩ := serves.free
      have apart : last ∉ nodes := by
        intro mem
        rw [((free last).mp mem).2] at lastPlace
        cases lastPlace
      refine ⟨done ++ nodes, linked.splice atEnd ?_ ?_ (links.congr ?_), ?_⟩
      · simp [State.next, State.setTBuf, State.setBuf, LocalPBuf.setNext]
      · intro id _ different
        simp [State.next, State.setTBuf, State.setBuf, different]
      · intro id mem
        have different : id ≠ last := by
          rintro rfl
          exact apart mem
        simp [State.next, State.setTBuf, State.setBuf, different]
      · intro id
        rw [List.mem_append, members id, free id]
        unfold givenBack
        by_cases written : place id = .written b
        · simp [written, State.setTBuf, State.setBuf]
        · simp [written, State.setTBuf, State.setBuf]
    · refine batch_of_unused ?_ (by rfl) (by rfl) (by simp) (serves.batch.settled pc)
      intro id bound
      exact ⟨(transfer_eq (by simp) (by simp)).not.mpr (noReady id bound),
        transfer_old (by simp), (transfer_eq (by simp) (by simp)).not.mpr (notAhead id bound)⟩
    · intro j inRange _
      exact serves.begun j inRange (by rw [pc]; exact inRange)

theorem Owned.giveNothing (pc : (s.tbufs b).pc = .giveBack) (tail : (s.tbufs b).tail = none) :
    Owned thrs (s.setTBuf b { s.tbufs b with pc := .publishSN }) place := by
  have serves := owned.serves b
  obtain ⟨done, _, walked, notAhead, ends⟩ := serves.batch.done (by simp [TBuf.ahead, pc])
  obtain rfl : done = [] := List.getLast?_eq_none_iff.mp ((ends 0 (Or.inr pc)).symm.trans tail)
  exact owned.rest (unused_of_nil walked notAhead) _ rfl rfl rfl rfl
    (by rw [pc]; exact Nat.le_refl _) (Or.inl rfl)

theorem Owned.step {act : Act} (taken : Step thrs s place act next after) :
    Owned thrs next after := by
  cases taken with
  | nothing inRange => exact owned
  | fits inRange pc some_ same | change inRange pc some_ | freeze inRange pc =>
    exact owned.own (by rfl) (by rfl) (fun _ _ => rfl)
      (held_setWorker (by simp [Worker.held, pc]))
  | put inRange pc fits | setSN inRange pc =>
    exact owned.put inRange (by simp [Worker.held, pc]) (by simp [Worker.held, pc])
  | publish inRange pc => exact owned.publish inRange pc
  | pop inRange pc found => exact owned.pop inRange pc found
  | @popNone t b rest inRange pc empty =>
    refine owned.own (by rfl) (by rfl) (fun _ _ => rfl) (held_setWorker ?_)
    by_cases first : b = 0 <;> simp [Worker.held, pc, first]
  | @reset t id rest inRange pc =>
    refine owned.put inRange (by simp [Worker.held, pc]) ?_
    simp only [Worker.held, pc]
    cases rest <;> rfl
  | alloc inRange pc => exact owned.alloc inRange pc
  | detach inRange pc => exact owned.detach pc
  | chainSkip inRange pc more empty => exact owned.chainSkip pc empty
  | chainFirst inRange pc more found first => exact owned.chainFirst pc found first
  | chainNext inRange pc more found tail => exact owned.chainNext pc found tail
  | flush inRange pc done => exact owned.flush pc done
  | walk inRange pc => exact owned.walk pc
  | giveBack inRange pc tail => exact owned.giveBack pc tail
  | giveNothing inRange pc tail => exact owned.giveNothing pc tail
  | @publishSN b inRange pc =>
    have unused := (owned.serves b).batch.unused (by simp [TBuf.batch, pc])
    exact owned.rest unused _ rfl rfl rfl rfl (by rw [pc]; exact Nat.le_refl _) (Or.inr rfl)
  | getSafeSN =>
    refine owned.own ?_ ?_ (fun id _ => ?_) (fun t => ?_) <;>
      · unfold getSafeSN
        split
        · split <;> rfl
        · rfl

end

theorem created_owned (thrs : Nat) : Owned thrs (created thrs) .current := by
  have nowhere : ∀ here, here.tbuf ≠ none → Holds (created thrs) .current none here := by
    intro here isList
    refine ⟨[], .nil, ?_⟩
    intro id
    simp only [List.not_mem_nil, false_iff]
    rintro ⟨_, rfl⟩
    exact isList rfl
  constructor
  · intro t id
    simp only [created, Worker.held, Option.some.injEq, Place.current.injEq]
    constructor
    · rintro ⟨bound, rfl⟩
      exact ⟨bound, rfl⟩
    · rintro ⟨bound, rfl⟩
      exact ⟨bound, rfl⟩
  · intro b
    constructor
    · exact fun t => nowhere _ (by simp [Place.tbuf])
    · exact fun t => nowhere _ (by simp [Place.tbuf])
    · exact nowhere _ (by simp [Place.tbuf])
    · refine batch_of_unused ?_ rfl rfl (fun _ _ => rfl) rfl
      intro id _
      simp
    · exact fun _ _ _ => rfl

end EunoDb.LogBuffer
