import EunoDb.LinkedList
import EunoDb.LogBuffer

/-! Every log buffer is at one place. The steps of the workers. -/

namespace EunoDb.LogBuffer

open LinkedList

inductive Place where
  | current (t : ThreadId)
  | frozen (b : TBufId) (t : ThreadId)
  | flush (b : TBufId) (t : ThreadId)
  | ahead (b : TBufId)
  | ready (b : TBufId)
  | written (b : TBufId)
  | free (b : TBufId)
  deriving DecidableEq, Repr

def Place.tbuf : Place → Option TBufId
  | .current _ => none
  | .frozen b _ | .flush b _ | .ahead b | .ready b | .written b | .free b => some b

def Place.pending : Place → Option TBufId
  | .frozen b _ | .flush b _ | .ahead b | .ready b => some b
  | .current _ | .written _ | .free _ => none

def Place.thread : Place → Option ThreadId
  | .current t | .frozen _ t | .flush _ t => some t
  | .ahead _ | .ready _ | .written _ | .free _ => none

def Worker.held (worker : Worker) : Option BufId :=
  match worker.pc with
  | .running _ | .publish _ | .setSN _ _ => some worker.lbuf
  | .getFree _ _ | .alloc _ => none
  | .reset id _ => some id

def TBuf.batch (tbuf : TBuf) : Option BufId :=
  match tbuf.pc with
  | .chain _ | .walk _ _ | .giveBack => tbuf.lsbufs
  | .idle | .publishSN => none

def TBuf.ahead (tbuf : TBuf) : Option BufId :=
  match tbuf.pc with
  | .walk _ cur => some cur
  | .idle | .chain _ | .giveBack | .publishSN => none

def WriterPc.reached (thrs : Nat) : WriterPc → Nat
  | .chain i => i
  | .walk i _ => i + 1
  | .idle | .giveBack | .publishSN => thrs

abbrev Places := BufId → Place

def detached (thrs b : Nat) (place : Places) : Places := fun id =>
  match place id with
  | .frozen b' t => if b' = b ∧ t < thrs then .flush b t else .frozen b' t
  | other => other

def chained (b i : Nat) (place : Places) : Places := fun id =>
  if place id = .flush b i then .ahead b else place id

def flushed (b : Nat) (place : Places) : Places := fun id =>
  if place id = .ready b then .written b else place id

def walked (s : State) (b cur : Nat) (place : Places) : Places :=
  if 0 < (s.heap cur).cur then
    if (s.tbufs b).iovs.length + 1 = iovMax then
      flushed b (Function.update place cur (.ready b))
    else Function.update place cur (.ready b)
  else Function.update place cur (.written b)

def givenBack (b : Nat) (place : Places) : Places := fun id =>
  if place id = .written b then .free b else place id

def State.entries (s : State) (records : List Record) : List Entry :=
  records.map fun record => ⟨s.transactions.length, record⟩

inductive Step (thrs : Nat) (s : State) (place : Places) : Act → State → Places → Prop where
  | fits {t : ThreadId} {sn : Nat} {records : List Record} (inRange : t < thrs)
      (pc : (s.workers t).pc = .running []) (some_ : records ≠ [])
      (same : (s.heap (s.workers t).lbuf).sn = sn) :
      Step thrs s place (.update t sn records)
        { s.setWorker t { s.workers t with pc := .running (s.entries records) } with
          transactions := s.transactions ++ [⟨t, sn, s.entries records⟩] }
        place
  | change {t : ThreadId} {sn : Nat} {records : List Record} (inRange : t < thrs)
      (pc : (s.workers t).pc = .running []) (some_ : records ≠ []) :
      Step thrs s place (.update t sn records)
        { s.setWorker t { s.workers t with pc := .publish (some (sn, s.entries records)) } with
          transactions := s.transactions ++ [⟨t, sn, s.entries records⟩] }
        place
  | nothing {t : ThreadId} {sn : Nat} (inRange : t < thrs) :
      Step thrs s place (.update t sn []) s place
  | freeze {t : ThreadId} (inRange : t < thrs) (pc : (s.workers t).pc = .running []) :
      Step thrs s place (.freeze t) (s.setWorker t { s.workers t with pc := .publish none }) place
  | put {t : ThreadId} {entry : Entry} {rest : List Entry} {lbuf : LocalPBuf} (inRange : t < thrs)
      (pc : (s.workers t).pc = .running (entry :: rest))
      (fits : (s.heap (s.workers t).lbuf).putRecord entry = some lbuf) :
      Step thrs s place (.worker t)
        ((s.setBuf (s.workers t).lbuf lbuf).setWorker t { s.workers t with pc := .running rest })
        place
  | publish {t : ThreadId} {after : Pending} (inRange : t < thrs)
      (pc : (s.workers t).pc = .publish after) :
      Step thrs s place (.worker t) (publishLocalBuffer s t after)
        (Function.update place (s.workers t).lbuf (.frozen (t % 2) t))
  | pop {t : ThreadId} {b : TBufId} {after : Pending} {id : BufId} (inRange : t < thrs)
      (pc : (s.workers t).pc = .getFree b after) (found : (s.tbufs b).freebufs = some id) :
      Step thrs s place (.worker t)
        ((s.setTBuf b { s.tbufs b with freebufs := (s.heap id).next }).setWorker t
          { s.workers t with pc := .reset id after })
        (Function.update place id (.current t))
  | popNone {t : ThreadId} {b : TBufId} {after : Pending} (inRange : t < thrs)
      (pc : (s.workers t).pc = .getFree b after) (empty : (s.tbufs b).freebufs = none) :
      Step thrs s place (.worker t)
        (s.setWorker t
          { s.workers t with pc := if b = 0 then .getFree 1 after else .alloc after })
        place
  | reset {t : ThreadId} {id : BufId} {after : Pending} (inRange : t < thrs)
      (pc : (s.workers t).pc = .reset id after) :
      Step thrs s place (.worker t) ((s.setBuf id {}).setWorker t { pc := resume after, lbuf := id }) place
  | alloc {t : ThreadId} {after : Pending} (inRange : t < thrs)
      (pc : (s.workers t).pc = .alloc after) :
      Step thrs s place (.worker t)
        { (s.setBuf s.nextBuf {}).setWorker t { pc := resume after, lbuf := s.nextBuf } with
          nextBuf := s.nextBuf + 1 }
        (Function.update place s.nextBuf (.current t))
  | setSN {t : ThreadId} {sn : Nat} {entries : List Entry} (inRange : t < thrs)
      (pc : (s.workers t).pc = .setSN sn entries) :
      Step thrs s place (.worker t)
        ((s.setBuf (s.workers t).lbuf ((s.heap (s.workers t).lbuf).setSN sn)).setWorker t
          { s.workers t with pc := .running entries })
        place
  | detach {b : TBufId} (inRange : b < 2) (pc : (s.tbufs b).pc = .idle) :
      Step thrs s place (.writer b) (s.setTBuf b (detach thrs s.heap (s.tbufs b))) (detached thrs b place)
  | chainSkip {b : TBufId} {i : Nat} (inRange : b < 2) (pc : (s.tbufs b).pc = .chain i)
      (more : i < thrs) (empty : (s.tbufs b).flushbufs i = none) :
      Step thrs s place (.writer b) (s.setTBuf b { s.tbufs b with pc := .chain (i + 1) }) place
  | chainFirst {b : TBufId} {i : Nat} {cur : BufId} (inRange : b < 2)
      (pc : (s.tbufs b).pc = .chain i) (more : i < thrs)
      (found : (s.tbufs b).flushbufs i = some cur) (first : (s.tbufs b).tail = none) :
      Step thrs s place (.writer b)
        (s.setTBuf b
          { s.tbufs b with
            flushbufs := Function.update (s.tbufs b).flushbufs i none
            lsbufs := (s.tbufs b).lsbufs.or (some cur)
            tail := some cur
            pc := .walk i cur })
        (chained b i place)
  | chainNext {b : TBufId} {i : Nat} {cur last : BufId} (inRange : b < 2)
      (pc : (s.tbufs b).pc = .chain i) (more : i < thrs)
      (found : (s.tbufs b).flushbufs i = some cur) (tail : (s.tbufs b).tail = some last) :
      Step thrs s place (.writer b)
        ((s.setBuf last ((s.heap last).setNext (some cur))).setTBuf b
          { s.tbufs b with
            flushbufs := Function.update (s.tbufs b).flushbufs i none
            lsbufs := (s.tbufs b).lsbufs.or (some cur)
            tail := some cur
            pc := .walk i cur })
        (chained b i place)
  | flush {b : TBufId} {i : Nat} (inRange : b < 2) (pc : (s.tbufs b).pc = .chain i)
      (done : ¬ i < thrs) :
      Step thrs s place (.writer b) (s.setTBuf b { writev s.heap (s.tbufs b) with pc := .giveBack })
        (flushed b place)
  | walk {b : TBufId} {i : Nat} {cur : BufId} (inRange : b < 2)
      (pc : (s.tbufs b).pc = .walk i cur) :
      Step thrs s place (.writer b)
        (s.setTBuf b
          { collect s.heap (s.tbufs b) cur with
            tail := some cur
            pc := match (s.heap cur).next with
              | some next => .walk i next
              | none => .chain (i + 1) })
        (walked s b cur place)
  | giveBack {b : TBufId} {last : BufId} (inRange : b < 2) (pc : (s.tbufs b).pc = .giveBack)
      (tail : (s.tbufs b).tail = some last) :
      Step thrs s place (.writer b)
        ((s.setBuf last ((s.heap last).setNext (s.tbufs b).freebufs)).setTBuf b
          { s.tbufs b with freebufs := (s.tbufs b).lsbufs, pc := .publishSN })
        (givenBack b place)
  | giveNothing {b : TBufId} (inRange : b < 2) (pc : (s.tbufs b).pc = .giveBack)
      (tail : (s.tbufs b).tail = none) :
      Step thrs s place (.writer b) (s.setTBuf b { s.tbufs b with pc := .publishSN }) place
  | publishSN {b : TBufId} (inRange : b < 2) (pc : (s.tbufs b).pc = .publishSN) :
      Step thrs s place (.writer b)
        (s.setTBuf b
          { s.tbufs b with
            safeSN := if 0 < minSN thrs (s.tbufs b).localsn then
              minSN thrs (s.tbufs b).localsn - 1 else 0
            pc := .idle })
        place
  | getSafeSN : Step thrs s place .getSafeSN (getSafeSN thrs s) place

section

variable {thrs : Nat} {s next : State} {t : ThreadId} {b : TBufId}

theorem worker_cases (inRange : t < thrs) (taken : workerStep s t = some next) (place : Places) :
    ∃ after, Step thrs s place (.worker t) next after := by
  unfold workerStep at taken
  cases pc : (s.workers t).pc with
  | running rest =>
    cases rest with
    | nil => simp [pc] at taken
    | cons entry rest =>
      simp only [pc] at taken
      obtain ⟨lbuf, fits, rfl⟩ := Option.map_eq_some_iff.mp taken
      exact ⟨_, .put inRange pc fits⟩
  | publish after =>
    simp only [pc] at taken
    cases taken
    exact ⟨_, .publish inRange pc⟩
  | getFree b after =>
    simp only [pc] at taken
    cases taken
    unfold getFreeBuf
    cases found : (s.tbufs b).freebufs with
    | some id => exact ⟨_, .pop inRange pc found⟩
    | none => exact ⟨_, .popNone inRange pc found⟩
  | reset id after =>
    simp only [pc] at taken
    cases taken
    exact ⟨_, .reset inRange pc⟩
  | alloc after =>
    simp only [pc] at taken
    cases taken
    exact ⟨_, .alloc inRange pc⟩
  | setSN sn entries =>
    simp only [pc] at taken
    cases taken
    exact ⟨_, .setSN inRange pc⟩

theorem writer_cases (inRange : b < 2) (taken : writerStep thrs s b = some next) (place : Places) :
    ∃ after, Step thrs s place (.writer b) next after := by
  unfold writerStep at taken
  cases pc : (s.tbufs b).pc with
  | idle =>
    simp only [pc] at taken
    cases taken
    exact ⟨_, .detach inRange pc⟩
  | chain i =>
    simp only [pc] at taken
    split at taken
    · rename_i more
      cases found : (s.tbufs b).flushbufs i with
      | none =>
        simp only [found] at taken
        cases taken
        exact ⟨_, .chainSkip inRange pc more found⟩
      | some cur =>
        simp only [found] at taken
        cases taken
        cases tail : (s.tbufs b).tail with
        | none => exact ⟨_, .chainFirst inRange pc more found tail⟩
        | some last => exact ⟨_, .chainNext inRange pc more found tail⟩
    · cases taken
      exact ⟨_, .flush inRange pc ‹_›⟩
  | walk i cur =>
    simp only [pc] at taken
    cases taken
    exact ⟨_, .walk inRange pc⟩
  | giveBack =>
    simp only [pc] at taken
    split at taken
    · cases taken
      exact ⟨_, .giveBack inRange pc ‹_›⟩
    · cases taken
      exact ⟨_, .giveNothing inRange pc ‹_›⟩
  | publishSN =>
    simp only [pc] at taken
    cases taken
    exact ⟨_, .publishSN inRange pc⟩

theorem step_cases {act : Act} (taken : step thrs s act = some next) (place : Places) :
    ∃ after, Step thrs s place act next after := by
  cases act with
  | update t sn records =>
    simp only [step] at taken
    split at taken
    · rename_i ready
      cases taken
      unfold writeUpdateRecords
      split
      · rename_i none_
        subst none_
        exact ⟨place, .nothing ready.1⟩
      rename_i some_
      by_cases full : (s.heap (s.workers t).lbuf).emptySlotNum <
          (records.map Record.estimate).sum ∨ (s.heap (s.workers t).lbuf).sn ≠ sn
      · simp only [full, if_true]
        exact ⟨place, .change ready.1 ready.2 some_⟩
      · simp only [full, if_false]
        refine ⟨place, .fits ready.1 ready.2 some_ ?_⟩
        simpa using fun differs => full (Or.inr differs)
    · cases taken
  | freeze t =>
    simp only [step] at taken
    split at taken
    · rename_i ready
      cases taken
      exact ⟨place, .freeze ready.1 ready.2⟩
    · cases taken
  | worker t =>
    simp only [step] at taken
    split at taken
    · exact worker_cases ‹_› taken place
    · cases taken
  | writer b =>
    simp only [step] at taken
    split at taken
    · exact writer_cases ‹_› taken place
    · cases taken
  | getSafeSN =>
    cases taken
    exact ⟨place, .getSafeSN⟩

end

/-! ### Lists and places -/

def State.next (s : State) (id : BufId) : Option BufId := (s.heap id).next

@[simp] theorem next_setTBuf (s : State) (b : TBufId) (tbuf : TBuf) :
    (s.setTBuf b tbuf).next = s.next := rfl

def Holds (s : State) (place : Places) (head : Option BufId) (here : Place) : Prop :=
  ∃ nodes, Linked s.next head nodes ∧ ∀ id, id ∈ nodes ↔ id < s.nextBuf ∧ place id = here

structure Batch (s : State) (place : Places) (b : TBufId) (tbuf : TBuf) : Prop where
  chain : ∃ done rest, Linked s.next tbuf.batch (done ++ rest) ∧ Linked s.next tbuf.ahead rest ∧
    (∀ id, id ∈ done ↔ id < s.nextBuf ∧ (place id = .ready b ∨ place id = .written b)) ∧
    (∀ id, id ∈ rest ↔ id < s.nextBuf ∧ place id = .ahead b) ∧
    (∀ i, tbuf.pc = .chain i ∨ tbuf.pc = .giveBack → tbuf.tail = done.getLast?)
  ready : ∀ iov ∈ tbuf.iovs, iov.base < s.nextBuf ∧ place iov.base = .ready b ∧
    iov.len = (s.heap iov.base).buf.length
  collected : ∀ id, id < s.nextBuf → place id = .ready b → ∃ iov ∈ tbuf.iovs, iov.base = id
  distinct : (tbuf.iovs.map Iovec.base).Nodup
  settled : tbuf.pc = .giveBack → tbuf.iovs = []

structure Serves (thrs : Nat) (s : State) (place : Places) (b : TBufId) : Prop where
  frozen : ∀ t, Holds s place ((s.tbufs b).frozenbufs t) (.frozen b t)
  flush : ∀ t, Holds s place ((s.tbufs b).flushbufs t) (.flush b t)
  free : Holds s place (s.tbufs b).freebufs (.free b)
  batch : Batch s place b (s.tbufs b)
  begun : ∀ i, i < thrs → i < (s.tbufs b).pc.reached thrs → (s.tbufs b).flushbufs i = none

structure Owned (thrs : Nat) (s : State) (place : Places) : Prop where
  held : ∀ t id, t < thrs ∧ (s.workers t).held = some id ↔ id < s.nextBuf ∧ place id = .current t
  serves : ∀ b, Serves thrs s place b

def Untouched (s next : State) (place after : Places) (here : Place) : Prop :=
  (∀ id, id < next.nextBuf ∧ after id = here ↔ id < s.nextBuf ∧ place id = here) ∧
    ∀ id, id < s.nextBuf → place id = here → next.heap id = s.heap id

variable {thrs : Nat} {s next : State} {t : ThreadId} {b : TBufId} {place after : Places}
  {id : BufId}

theorem Holds.keep {head : Option BufId} {here : Place} (holds : Holds s place head here)
    (same : Untouched s next place after here) : Holds next after head here := by
  obtain ⟨nodes, linked, members⟩ := holds
  refine ⟨nodes, linked.congr ?_, fun id => (members id).trans (same.1 id).symm⟩
  intro id mem
  obtain ⟨inRange, there⟩ := (members id).mp mem
  exact congrArg LocalPBuf.next (same.2 id inRange there)

theorem Batch.keep {tbuf : TBuf} (batch : Batch s place b tbuf)
    (ready : Untouched s next place after (.ready b))
    (written : Untouched s next place after (.written b))
    (ahead : Untouched s next place after (.ahead b)) : Batch next after b tbuf := by
  obtain ⟨done, rest, linked, front, walked, coming, tail⟩ := batch.chain
  have keptDone : ∀ id, id ∈ done → next.next id = s.next id := by
    intro id mem
    obtain ⟨inRange, here | here⟩ := (walked id).mp mem
    · exact congrArg LocalPBuf.next (ready.2 id inRange here)
    · exact congrArg LocalPBuf.next (written.2 id inRange here)
  have keptRest : ∀ id, id ∈ rest → next.next id = s.next id := by
    intro id mem
    obtain ⟨inRange, here⟩ := (coming id).mp mem
    exact congrArg LocalPBuf.next (ahead.2 id inRange here)
  constructor
  · refine ⟨done, rest, linked.congr ?_, front.congr keptRest, ?_, ?_, tail⟩
    · intro id mem
      exact (List.mem_append.mp mem).elim (keptDone id) (keptRest id)
    · intro id
      rw [walked id, and_or_left, and_or_left, ready.1 id, written.1 id]
    · exact fun id => (coming id).trans (ahead.1 id).symm
  · intro iov mem
    obtain ⟨inRange, here, len⟩ := batch.ready iov mem
    have still := (ready.1 iov.base).mpr ⟨inRange, here⟩
    exact ⟨still.1, still.2, by rw [ready.2 iov.base inRange here]; exact len⟩
  · intro id inRange here
    obtain ⟨before, there⟩ := (ready.1 id).mp ⟨inRange, here⟩
    exact batch.collected id before there
  · exact batch.distinct
  · exact batch.settled

theorem Serves.keep (serves : Serves thrs s place b) (tbuf : next.tbufs b = s.tbufs b)
    (same : ∀ here, here.tbuf = some b → Untouched s next place after here) :
    Serves thrs next after b := by
  constructor
  · intro t
    rw [tbuf]
    exact (serves.frozen t).keep (same _ rfl)
  · intro t
    rw [tbuf]
    exact (serves.flush t).keep (same _ rfl)
  · rw [tbuf]
    exact serves.free.keep (same _ rfl)
  · rw [tbuf]
    exact serves.batch.keep (same _ rfl) (same _ rfl) (same _ rfl)
  · rw [tbuf]
    exact serves.begun

/-! ### Steps of the workers -/

theorem Owned.place_held (owned : Owned thrs s place) (inRange : t < thrs)
    (held : (s.workers t).held = some id) :
    id < s.nextBuf ∧ place id = .current t :=
  (owned.held t id).mp ⟨inRange, held⟩

theorem Owned.own (owned : Owned thrs s place) (tbufs : next.tbufs = s.tbufs)
    (nextBuf : next.nextBuf = s.nextBuf)
    (heap : ∀ id, (∀ t, place id ≠ .current t) → next.heap id = s.heap id)
    (held : ∀ t, (next.workers t).held = (s.workers t).held) : Owned thrs next place := by
  constructor
  · intro t id
    rw [held t, nextBuf]
    exact owned.held t id
  intro b
  refine (owned.serves b).keep (by rw [tbufs]) ?_
  intro here atTBuf
  refine ⟨fun id => by rw [nextBuf], ?_⟩
  intro id _ there
  apply heap id
  intro t current
  rw [← there, current] at atTBuf
  cases atTBuf

theorem held_setWorker {worker : Worker} (same : worker.held = (s.workers t).held)
    (other : ThreadId) : ((s.setWorker t worker).workers other).held = (s.workers other).held := by
  by_cases this : other = t
  · subst other
    simpa [State.setWorker] using same
  · simp [State.setWorker, this]

theorem untouched_move {here there : Place} (nextBuf : next.nextBuf = s.nextBuf)
    (heap : ∀ other, other ≠ id → next.heap other = s.heap other) (old : place id ≠ here)
    (new : there ≠ here) : Untouched s next place (Function.update place id there) here := by
  constructor
  · intro other
    rw [nextBuf]
    by_cases same : other = id
    · subst other
      simp [old, new]
    · simp [same]
  · intro other _ at_
    apply heap other
    rintro rfl
    exact old at_

section

variable (owned : Owned thrs s place) (inRange : t < thrs)

include owned inRange

theorem Owned.put {worker : Worker} {lbuf : LocalPBuf} (held : (s.workers t).held = some id)
    (same : worker.held = (s.workers t).held) :
    Owned thrs ((s.setBuf id lbuf).setWorker t worker) place := by
  refine owned.own (by rfl) (by rfl) ?_ ?_
  · intro other elsewhere
    have different : other ≠ id := by
      rintro rfl
      exact elsewhere t (owned.place_held inRange held).2
    simp [State.setBuf, State.setWorker, different]
  · intro other
    exact held_setWorker (s := s.setBuf id lbuf) same other

theorem Owned.publish {after : Pending} (pc : (s.workers t).pc = .publish after) :
    Owned thrs (publishLocalBuffer s t after)
      (Function.update place (s.workers t).lbuf (.frozen (t % 2) t)) := by
  have held : (s.workers t).held = some (s.workers t).lbuf := by simp [Worker.held, pc]
  obtain ⟨allocated, mine⟩ := owned.place_held inRange held
  have heap : ∀ other, other ≠ (s.workers t).lbuf →
      (publishLocalBuffer s t after).heap other = s.heap other := by
    intro other different
    simp [publishLocalBuffer, State.setBuf, State.setTBuf, State.setWorker, different]
  have elsewhere : ∀ here, here.tbuf ≠ none → here ≠ .frozen (t % 2) t →
      Untouched s (publishLocalBuffer s t after) place
        (Function.update place (s.workers t).lbuf (.frozen (t % 2) t)) here := by
    intro here isList different
    refine untouched_move rfl heap ?_ different.symm
    rintro rfl
    simp [mine, Place.tbuf] at isList
  constructor
  · intro other id
    by_cases same : other = t
    · -- this worker has no buffer now
      subst other
      constructor
      · rintro ⟨_, none_⟩
        simp [publishLocalBuffer, State.setWorker, Worker.held] at none_
      rintro ⟨bound, here⟩
      by_cases it : id = (s.workers t).lbuf
      · simp [it] at here
      · rw [Function.update_of_ne it] at here
        have again := ((owned.held t id).mpr ⟨bound, here⟩).2
        rw [held, Option.some.injEq] at again
        exact absurd again.symm it
    · have kept : ((publishLocalBuffer s t after).workers other).held = (s.workers other).held := by
        simp [publishLocalBuffer, State.setWorker, State.setTBuf, State.setBuf, same]
      rw [kept, owned.held other id]
      by_cases it : id = (s.workers t).lbuf
      · subst it
        simp [mine, Ne.symm same]
      · simp [it, publishLocalBuffer, State.setWorker, State.setTBuf, State.setBuf]
  intro b
  have serves := owned.serves b
  by_cases same : b = t % 2
  · subst same
    have tbuf : (publishLocalBuffer s t after).tbufs (t % 2) =
        { s.tbufs (t % 2) with
          frozenbufs := Function.update (s.tbufs (t % 2)).frozenbufs t (some (s.workers t).lbuf)
          frozennum := (s.tbufs (t % 2)).frozennum + 1 } := by
      simp [publishLocalBuffer, State.setTBuf, State.setWorker, State.setBuf]
    constructor
    · intro other
      by_cases own : other = t
      · -- the buffer is pushed on the worker's own list
        subst other
        obtain ⟨nodes, linked, members⟩ := serves.frozen t
        have fresh : (s.workers t).lbuf ∉ nodes := by
          intro mem
          rw [((members _).mp mem).2] at mine
          cases mine
        refine ⟨(s.workers t).lbuf :: nodes, ?_, ?_⟩
        · rw [tbuf]
          simp only [Function.update_self]
          apply linked.push
          · simp [State.next, publishLocalBuffer, State.setBuf, State.setTBuf, State.setWorker,
              LocalPBuf.setNext]
          · intro id mem
            exact congrArg LocalPBuf.next (heap id (fun same => fresh (same ▸ mem)))
        · intro id
          by_cases it : id = (s.workers t).lbuf
          · subst it
            exact ⟨fun _ => ⟨allocated, Function.update_self ..⟩, fun _ => List.mem_cons_self⟩
          · simp only [List.mem_cons, it, false_or, members id, ne_eq, not_false_eq_true,
              Function.update_of_ne]
            rfl
      · rw [tbuf]
        simp only [Function.update_of_ne own]
        exact (serves.frozen other).keep (elsewhere _ (by simp [Place.tbuf]) (by simp [own]))
    · intro other
      rw [tbuf]
      exact (serves.flush other).keep (elsewhere _ (by simp [Place.tbuf]) (by simp))
    · rw [tbuf]
      exact serves.free.keep (elsewhere _ (by simp [Place.tbuf]) (by simp))
    · rw [tbuf]
      have kept := serves.batch.keep (elsewhere (.ready (t % 2)) (by simp [Place.tbuf]) (by simp))
        (elsewhere (.written (t % 2)) (by simp [Place.tbuf]) (by simp))
        (elsewhere (.ahead (t % 2)) (by simp [Place.tbuf]) (by simp))
      exact ⟨kept.chain, kept.ready, kept.collected, kept.distinct, kept.settled⟩
    · rw [tbuf]
      exact serves.begun
  · refine serves.keep ?_ ?_
    · simp [publishLocalBuffer, State.setTBuf, State.setWorker, State.setBuf, same]
    intro here atTBuf
    refine elsewhere here (by simp [atTBuf]) ?_
    rintro rfl
    simp only [Place.tbuf, Option.some.injEq] at atTBuf
    exact same atTBuf.symm

theorem Owned.receive (none_ : (s.workers t).held = none) (held : (next.workers t).held = some id)
    (allocated : id < next.nextBuf)
    (bounds : ∀ other, other ≠ id → (other < next.nextBuf ↔ other < s.nextBuf))
    (others : ∀ other, other ≠ t → (next.workers other).held = (s.workers other).held)
    (loose : ∀ other, ¬ (id < s.nextBuf ∧ place id = .current other)) (other : ThreadId)
    (query : BufId) :
    other < thrs ∧ (next.workers other).held = some query ↔
      query < next.nextBuf ∧ Function.update place id (.current t) query = .current other := by
  by_cases it : query = id
  · subst query
    rw [Function.update_self]
    by_cases same : other = t
    · subst other
      simp [inRange, held, allocated]
    rw [others other same, owned.held other id]
    constructor
    · intro before
      exact absurd before (loose other)
    · rintro ⟨_, here⟩
      cases here
      exact absurd rfl same
  · rw [Function.update_of_ne it, bounds query it, ← owned.held other query]
    by_cases same : other = t
    · subst other
      rw [held, none_]
      simp [Ne.symm it]
    · rw [others other same]

theorem Owned.pop {after : Pending} (pc : (s.workers t).pc = .getFree b after)
    (found : (s.tbufs b).freebufs = some id) :
    Owned thrs
      ((s.setTBuf b { s.tbufs b with freebufs := (s.heap id).next }).setWorker t
        { s.workers t with pc := .reset id after })
      (Function.update place id (.current t)) := by
  obtain ⟨nodes, linked, members⟩ := (owned.serves b).free
  rw [found] at linked
  cases linked with
  | @cons _ rest behind =>
    have fresh := (List.nodup_cons.mp (Linked.cons behind).nodup).1
    obtain ⟨allocated, free⟩ := (members id).mp List.mem_cons_self
    have elsewhere : ∀ here, here.tbuf ≠ none → here ≠ .free b →
        Untouched s
          ((s.setTBuf b { s.tbufs b with freebufs := (s.heap id).next }).setWorker t
            { s.workers t with pc := .reset id after })
          place (Function.update place id (.current t)) here := by
      intro here isList different
      refine untouched_move rfl (fun _ _ => rfl) (by rw [free]; exact different.symm) ?_
      rintro rfl
      exact isList rfl
    constructor
    · refine owned.receive inRange (by simp [Worker.held, pc])
        (by simp [State.setWorker, Worker.held]) allocated (fun _ _ => Iff.rfl) ?_ ?_
      · intro other different
        simp [State.setWorker, State.setTBuf, different]
      · rintro other ⟨_, current⟩
        rw [free] at current
        cases current
    intro c
    have serves := owned.serves c
    by_cases same : c = b
    · subst same
      have kept := serves.batch.keep (elsewhere (.ready c) (by simp [Place.tbuf]) (by simp))
        (elsewhere (.written c) (by simp [Place.tbuf]) (by simp))
        (elsewhere (.ahead c) (by simp [Place.tbuf]) (by simp))
      have tbuf : ((s.setTBuf c { s.tbufs c with freebufs := (s.heap id).next }).setWorker t
          { s.workers t with pc := .reset id after }).tbufs c =
            { s.tbufs c with freebufs := (s.heap id).next } := by
        simp [State.setWorker, State.setTBuf]
      constructor <;> rw [tbuf]
      · exact fun other =>
          (serves.frozen other).keep (elsewhere _ (by simp [Place.tbuf]) (by simp))
      · exact fun other =>
          (serves.flush other).keep (elsewhere _ (by simp [Place.tbuf]) (by simp))
      · -- the rest of the list stays
        refine ⟨rest, behind.congr fun _ _ => rfl, ?_⟩
        intro other
        by_cases it : other = id
        · subst other
          simp [fresh]
        · have mem := members other
          simp only [List.mem_cons, it, false_or] at mem
          rw [mem, Function.update_of_ne it]
          rfl
      · exact ⟨kept.chain, kept.ready, kept.collected, kept.distinct, kept.settled⟩
      · exact serves.begun
    · refine serves.keep (by simp [State.setWorker, State.setTBuf, same]) ?_
      intro here atTBuf
      refine elsewhere here (by simp [atTBuf]) ?_
      rintro rfl
      simp only [Place.tbuf, Option.some.injEq] at atTBuf
      exact same atTBuf.symm

theorem Owned.alloc {after : Pending} (pc : (s.workers t).pc = .alloc after) :
    Owned thrs
      { (s.setBuf s.nextBuf {}).setWorker t { pc := resume after, lbuf := s.nextBuf } with
        nextBuf := s.nextBuf + 1 }
      (Function.update place s.nextBuf (.current t)) := by
  constructor
  · apply owned.receive inRange
    · simp [Worker.held, pc]
    · cases after <;> simp [State.setWorker, Worker.held, resume]
    · exact Nat.lt_succ_self _
    · intro other different
      exact ⟨fun below => Nat.lt_of_le_of_ne (Nat.le_of_lt_succ below) different, Nat.lt_succ_of_lt⟩
    · intro other different
      simp [State.setWorker, State.setBuf, different]
    · exact fun _ before => absurd before.1 (Nat.lt_irrefl _)
  intro b
  refine (owned.serves b).keep (by rfl) ?_
  intro here atTBuf
  have notCurrent : Place.current t ≠ here := by
    rintro rfl
    cases atTBuf
  constructor
  · intro id
    by_cases it : id = s.nextBuf
    · subst it
      simp [notCurrent]
    · simp only [ne_eq, it, not_false_eq_true, Function.update_of_ne]
      rw [show id < s.nextBuf + 1 ↔ id < s.nextBuf from
        ⟨fun below => Nat.lt_of_le_of_ne (Nat.le_of_lt_succ below) it, Nat.lt_succ_of_lt⟩]
  · intro id bound _
    have different : id ≠ s.nextBuf := Nat.ne_of_lt bound
    simp [State.setBuf, State.setWorker, different]

end

end EunoDb.LogBuffer
