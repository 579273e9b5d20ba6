import EunoDb.LogWriter

/-! Ownership of the log buffers and delivery of their contents, by numbered publications. -/

namespace EunoDb.LogBuffer

open LinkedList Function Execution

def Chunk.isFor (number : Nat) (piece : Chunk) : Bool := decide (piece.number = some number)

def chunksOf (s : State) (b : TBufId) (number : Nat) : List Chunk :=
  (s.tbufs b).log.filter (Chunk.isFor number)

def Written (s : State) (number : Nat) (publication : Publication) : Prop :=
  chunksOf s (publication.thread % 2) number =
      (if publication.entries = [] then [] else [⟨some number, publication.entries⟩]) ∧
    ∀ b, b ≠ publication.thread % 2 → chunksOf s b number = []

structure Published (s : State) (place : Places) : Prop where
  waiting : ∀ id b, id < s.nextBuf → (place id).pending = some b →
    ∃ number t, (s.heap id).number = some number ∧
      s.publications[number]? = some ⟨id, t, (s.heap id).buf⟩ ∧
      (t % 2 = b ∧ ∀ u, (place id).thread = some u → u = t) ∧ ∀ c, chunksOf s c number = []
  delivered : ∀ number publication, s.publications[number]? = some publication →
    (publication.lbuf < s.nextBuf ∧
      (place publication.lbuf).pending = some (publication.thread % 2) ∧
      (s.heap publication.lbuf).number = some number) ∨ Written s number publication
  filled : ∀ id b, id < s.nextBuf → place id = .ready b → (s.heap id).buf ≠ []
  genuine : ∀ b, ∀ chunk ∈ (s.tbufs b).log,
    ∃ number, number < s.publications.length ∧ chunk.number = some number

def Waits (s : State) (place : Places) (id : BufId) (b : TBufId) : Prop :=
  id < s.nextBuf ∧ (place id).pending = some b

variable {s next : State} {place : Places} {thrs i : Nat} {t : ThreadId} {iovs : List Iovec}
  {b : TBufId} {id : BufId} {lbuf : LocalPBuf}

theorem chunksOf_congr (logs : ∀ b, (next.tbufs b).log = (s.tbufs b).log) (b : TBufId)
    (number : Nat) : chunksOf next b number = chunksOf s b number := by
  unfold chunksOf
  rw [logs b]

variable {number b : Nat} {publication : Publication} {after : Places} {heap : BufId → LocalPBuf}
  {tbuf : TBuf} {old new : Place}

theorem Written.congr (written : Written s number publication)
    (chunks : ∀ b, chunksOf next b number = chunksOf s b number) :
    Written next number publication :=
  ⟨(chunks _).trans written.1, fun b other => (chunks b).trans (written.2 b other)⟩

theorem Published.carried (published : Published s place) (waits : Waits s place id b)
    (carries : (s.heap id).number = some number)
    (found : s.publications[number]? = some publication) :
    publication.lbuf = id ∧ publication.thread % 2 = b ∧ publication.entries = (s.heap id).buf ∧
      ∀ c, chunksOf s c number = [] := by
  obtain ⟨own, t, has, at_, serves, unwritten⟩ := published.waiting id b waits.1 waits.2
  rw [carries] at has
  cases has
  rw [found] at at_
  cases at_
  exact ⟨rfl, serves.1, rfl, unwritten⟩

theorem Published.keep (published : Published s place)
    (publications : next.publications = s.publications)
    (logs : ∀ b, (next.tbufs b).log = (s.tbufs b).log)
    (waits : ∀ id b, Waits next after id b ↔ Waits s place id b)
    (threads : ∀ id u, (after id).pending ≠ none → (after id).thread = some u →
      (place id).thread = some u) (ready : ∀ id b, id < next.nextBuf → after id = .ready b →
      id < s.nextBuf ∧ place id = .ready b ∨ (next.heap id).buf ≠ [])
    (heap : ∀ id b, Waits s place id b →
      (next.heap id).number = (s.heap id).number ∧ (next.heap id).buf = (s.heap id).buf) :
    Published next after := by
  have chunks := chunksOf_congr logs
  constructor
  · intro id b bound pending
    have before := (waits id b).mp ⟨bound, pending⟩
    obtain ⟨number, t, carries, mem, serves, unwritten⟩ :=
      published.waiting id b before.1 before.2
    have same := heap id b before
    refine ⟨number, t, same.1.trans carries, ?_, ⟨serves.1, ?_⟩, ?_⟩
    · rw [publications, same.2]
      exact mem
    · exact fun u there => serves.2 u (threads id u (by simp [pending]) there)
    · exact fun c => (chunks c number).trans (unwritten c)
  · intro number publication mem
    rw [publications] at mem
    rcases published.delivered number publication mem with ⟨bound, pending, carries⟩ | written
    · have now := (waits _ _).mpr ⟨bound, pending⟩
      exact Or.inl ⟨now.1, now.2, (heap _ _ ⟨bound, pending⟩).1.trans carries⟩
    · exact Or.inr (written.congr fun b => chunks b number)
  · intro id b bound here
    rcases ready id b bound here with ⟨before, there⟩ | filled
    · rw [(heap id b ⟨before, by rw [there]; rfl⟩).2]
      exact published.filled id b before there
    · exact filled
  · intro b chunk mem
    rw [logs b] at mem
    rw [publications]
    exact published.genuine b chunk mem

theorem Published.stay (published : Published s place) (heap : next.heap = s.heap)
    (nextBuf : next.nextBuf = s.nextBuf) (publications : next.publications = s.publications)
    (logs : ∀ b, (next.tbufs b).log = (s.tbufs b).log) : Published next place := by
  refine published.keep publications logs ?_ (fun _ _ _ there => there) ?_ ?_
  · exact fun id b => by rw [Waits, Waits, nextBuf]
  · exact fun id b bound here => Or.inl ⟨nextBuf ▸ bound, here⟩
  · exact fun id _ _ => by simp [heap]

theorem Published.publish (owned : Owned thrs s place) (published : Published s place)
    {after : Pending} (inRange : t < thrs) (pc : (s.workers t).pc = .publish after) :
    Published (publishLocalBuffer s t after)
      (update place (s.workers t).lbuf (.frozen (t % 2) t)) := by
  have held : (s.workers t).held = some (s.workers t).lbuf := by simp [Worker.held, pc]
  obtain ⟨allocated, mine⟩ := owned.place_held inRange held
  have log : ∀ b, ((publishLocalBuffer s t after).tbufs b).log = (s.tbufs b).log := by
    intro b
    by_cases same : b = t % 2
    · subst same
      simp [publishLocalBuffer, State.setTBuf, State.setWorker, State.setBuf]
    · simp [publishLocalBuffer, State.setTBuf, State.setWorker, State.setBuf, same]
  have chunks := chunksOf_congr log
  have others : ∀ id, id ≠ (s.workers t).lbuf →
      (publishLocalBuffer s t after).heap id = s.heap id := by
    intro id different
    simp [publishLocalBuffer, State.setBuf, State.setTBuf, State.setWorker, different]
  have publications : (publishLocalBuffer s t after).publications =
      s.publications ++ [⟨(s.workers t).lbuf, t, (s.heap (s.workers t).lbuf).buf⟩] := rfl
  -- no chunk carries the new number
  have unseen : ∀ b, chunksOf s b s.publications.length = [] := by
    intro b
    apply List.filter_eq_nil_iff.mpr
    intro chunk mem
    obtain ⟨number, bound, carries⟩ := published.genuine b chunk mem
    simp only [Chunk.isFor, carries, Option.some.injEq, decide_eq_true_eq]
    omega
  constructor
  · intro id b bound pending
    by_cases same : id = (s.workers t).lbuf
    · subst same
      rw [update_self] at pending
      refine ⟨s.publications.length, t, ?_, ?_, ⟨Option.some.inj pending, ?_⟩, ?_⟩
      · simp [publishLocalBuffer, State.setBuf, State.setTBuf, State.setWorker]
      · rw [publications]
        simp [publishLocalBuffer, State.setBuf, State.setTBuf, State.setWorker, LocalPBuf.setNext]
      · intro u there
        rw [update_self] at there
        exact (Option.some.inj there).symm
      · exact fun c => (chunks c _).trans (unseen c)
    · rw [update_of_ne same] at pending
      obtain ⟨number, u, carries, mem, serves, unwritten⟩ :=
        published.waiting id b bound pending
      rw [update_of_ne same]
      refine ⟨number, u, by rw [others id same]; exact carries, ?_, serves, ?_⟩
      · rw [publications, others id same]
        exact List.getElem?_append_left (List.getElem?_eq_some_iff.mp mem).1 ▸ mem
      · exact fun c => (chunks c number).trans (unwritten c)
  · intro number publication mem
    rw [publications] at mem
    by_cases last : number < s.publications.length
    · rw [List.getElem?_append_left last] at mem
      rcases published.delivered number publication mem with ⟨bound, pending, carries⟩ | written
      · have different : publication.lbuf ≠ (s.workers t).lbuf := by
          intro same
          rw [same, mine] at pending
          cases pending
        refine Or.inl ⟨bound, ?_, ?_⟩
        · rw [update_of_ne different]
          exact pending
        · rw [others _ different]
          exact carries
      · exact Or.inr (written.congr fun b => chunks b number)
    · rw [List.getElem?_append_right (Nat.le_of_not_lt last), List.getElem?_singleton] at mem
      split at mem
      · rename_i first
        obtain rfl : number = s.publications.length := by omega
        cases mem
        refine Or.inl ⟨allocated, ?_, ?_⟩
        · rw [update_self]
          rfl
        · simp [publishLocalBuffer, State.setBuf, State.setTBuf, State.setWorker]
      · cases mem
  · intro id b bound here
    by_cases same : id = (s.workers t).lbuf
    · simp [same] at here
    · rw [update_of_ne same] at here
      rw [others id same]
      exact published.filled id b bound here
  · intro b chunk mem
    rw [log b] at mem
    obtain ⟨number, bound, carries⟩ := published.genuine b chunk mem
    refine ⟨number, ?_, carries⟩
    rw [publications, List.length_append]
    exact Nat.lt_succ_of_lt bound

/-! ### Writing -/

theorem filter_chunk {iov : Iovec} (distinct : (iovs.map Iovec.base).Nodup) (mem : iov ∈ iovs)
    (carries : (heap iov.base).number = some number)
    (only : ∀ other ∈ iovs, (heap other.base).number = some number → other.base = iov.base) :
    (iovs.map (chunk heap)).filter (Chunk.isFor number) = [chunk heap iov] := by
  induction iovs with
  | nil => cases mem
  | cons first rest ih =>
    simp only [List.map_cons, List.nodup_cons] at distinct
    have tailOnly : ∀ other ∈ rest, (heap other.base).number = some number →
        other.base = iov.base :=
      fun other inside => only other (List.mem_cons_of_mem first inside)
    rcases List.mem_cons.mp mem with rfl | later
    · -- the rest has no second buffer with this number
      have nobody : (rest.map (chunk heap)).filter (Chunk.isFor number) = [] := by
        apply List.filter_eq_nil_iff.mpr
        intro piece inside
        obtain ⟨other, there, rfl⟩ := List.mem_map.mp inside
        intro same
        have again := tailOnly other there (of_decide_eq_true same)
        exact distinct.1 (List.mem_map.mpr ⟨other, there, again⟩)
      have first : (chunk heap iov).isFor number = true := decide_eq_true carries
      rw [List.map_cons, List.filter_cons_of_pos first, nobody]
    · have differs : ¬ (chunk heap first).isFor number = true := by
        intro same
        have base := only first List.mem_cons_self (of_decide_eq_true same)
        exact distinct.1 (List.mem_map.mpr ⟨iov, later, base.symm⟩)
      rw [List.map_cons, List.filter_cons_of_neg differs]
      exact ih distinct.2 later tailOnly

theorem filter_chunk_none (nobody : ∀ iov ∈ iovs, (heap iov.base).number ≠ some number) :
    (iovs.map (chunk heap)).filter (Chunk.isFor number) = [] := by
  apply List.filter_eq_nil_iff.mpr
  intro piece inside
  obtain ⟨iov, mem, rfl⟩ := List.mem_map.mp inside
  exact fun same => nobody iov mem (of_decide_eq_true same)

structure Flushes (s next : State) (b : TBufId) (iovs : List Iovec) : Prop where
  heap : next.heap = s.heap
  nextBuf : next.nextBuf = s.nextBuf
  publications : next.publications = s.publications
  log : (next.tbufs b).log = (s.tbufs b).log ++ iovs.map (chunk s.heap)
  others : ∀ c, c ≠ b → (next.tbufs c).log = (s.tbufs c).log

theorem Published.deliver (published : Published s place) (gone : BufId → Prop)
    (heap : next.heap = s.heap) (nextBuf : next.nextBuf = s.nextBuf)
    (publications : next.publications = s.publications)
    (stays : ∀ id, ¬ gone id → after id = place id)
    (leaves : ∀ id, gone id → (after id).pending = none)
    (others : ∀ number, (∀ id b, Waits s place id b → gone id → (s.heap id).number ≠ some number) →
      ∀ c, chunksOf next c number = chunksOf s c number)
    (written : ∀ id b number publication, Waits s place id b → gone id →
      (s.heap id).number = some number → s.publications[number]? = some publication →
      Written next number publication) (genuine : ∀ b, ∀ chunk ∈ (next.tbufs b).log,
      ∃ number, number < s.publications.length ∧ chunk.number = some number) :
    Published next after := by
  classical
  have kept : ∀ id b, (after id).pending = some b → ¬ gone id ∧ after id = place id := by
    intro id b pending
    have here : ¬ gone id := by
      intro left
      rw [leaves id left] at pending
      cases pending
    exact ⟨here, stays id here⟩
  constructor
  · intro id b bound pending
    obtain ⟨here, same⟩ := kept id b pending
    rw [same] at pending ⊢
    rw [nextBuf] at bound
    obtain ⟨number, t, carries, found, serves, unwritten⟩ := published.waiting id b bound pending
    rw [heap, publications]
    refine ⟨number, t, carries, found, serves, fun c => ?_⟩
    rw [others number ?_ c, unwritten c]
    rintro other d waits left again
    obtain rfl := (published.carried waits again found).1
    exact here left
  · intro number publication found
    rw [publications] at found
    by_cases now : ∃ id b, Waits s place id b ∧ gone id ∧ (s.heap id).number = some number
    · obtain ⟨id, b, waits, left, carries⟩ := now
      exact Or.inr (written id b number publication waits left carries found)
    rcases published.delivered number publication found with ⟨bound, pending, carries⟩ | before
    · refine Or.inl ⟨nextBuf ▸ bound, ?_, heap ▸ carries⟩
      rw [stays _ fun left => now ⟨_, _, ⟨bound, pending⟩, left, carries⟩]
      exact pending
    · exact Or.inr (before.congr (others number fun id b waits left carries =>
        now ⟨id, b, waits, left, carries⟩))
  · intro id b bound here
    obtain ⟨-, same⟩ := kept id b (by rw [here]; rfl)
    rw [heap]
    exact published.filled id b (nextBuf ▸ bound) (same ▸ here)
  · rw [publications]
    exact genuine

theorem Published.writev (published : Published s place) (flushes : Flushes s next b iovs)
    (ready : ∀ iov ∈ iovs, iov.base < s.nextBuf ∧ place iov.base = .ready b ∧
      iov.len = (s.heap iov.base).buf.length)
    (collected : ∀ id, id < s.nextBuf → place id = .ready b → ∃ iov ∈ iovs, iov.base = id)
    (distinct : (iovs.map Iovec.base).Nodup) : Published next (flushed b place) := by
  have waits : ∀ iov ∈ iovs, Waits s place iov.base b := by
    intro iov mem
    obtain ⟨bound, here, _⟩ := ready iov mem
    exact ⟨bound, by rw [here]; rfl⟩
  refine published.deliver (fun id => place id = .ready b) flushes.heap flushes.nextBuf
    flushes.publications (fun _ other => if_neg other) ?_ ?_ ?_ ?_
  · intro id here
    rw [flushed, if_pos here]
    rfl
  · intro number nobody c
    unfold chunksOf
    by_cases same : c = b
    · subst same
      rw [flushes.log, List.filter_append, filter_chunk_none, List.append_nil]
      exact fun iov mem => nobody _ _ (waits iov mem) (ready iov mem).2.1
    · rw [flushes.others c same]
  · intro id _ number publication waiting here carries found
    obtain ⟨iov, mem, rfl⟩ := collected id waiting.1 here
    obtain ⟨lbuf, serves, entries, unwritten⟩ :=
      published.carried (waits iov mem) carries found
    have only : ∀ other ∈ iovs, (s.heap other.base).number = some number →
        other.base = iov.base :=
      fun other inside same => (published.carried (waits other inside) same found).1.symm.trans lbuf
    constructor
    · have filled := published.filled _ b waiting.1 here
      have old := unwritten b
      unfold chunksOf at old ⊢
      rw [serves, flushes.log, List.filter_append, old, entries, if_neg filled, List.nil_append,
        filter_chunk distinct mem carries only]
      simp [chunk, carries, (ready iov mem).2.2]
    · intro c other
      rw [serves] at other
      have old := unwritten c
      unfold chunksOf at old ⊢
      rw [flushes.others c other]
      exact old
  · intro c piece mem
    by_cases same : c = b
    · subst same
      rw [flushes.log] at mem
      rcases List.mem_append.mp mem with old | new
      · exact published.genuine c piece old
      · obtain ⟨iov, inside, rfl⟩ := List.mem_map.mp new
        obtain ⟨bound, pending⟩ := waits iov inside
        obtain ⟨number, _, carries, found, _⟩ := published.waiting iov.base c bound pending
        exact ⟨number, (List.getElem?_eq_some_iff.mp found).1, carries⟩
    · rw [flushes.others c same] at mem
      exact published.genuine c piece mem

theorem LocalPBuf.buf_ne_nil (nonempty : 0 < lbuf.cur) : lbuf.buf ≠ [] := by
  intro empty
  have counted := lbuf.counted
  rw [empty] at counted
  simp only [List.map_nil, List.sum_nil] at counted
  omega

theorem LocalPBuf.buf_eq_nil (empty : ¬ 0 < lbuf.cur) : lbuf.buf = [] := by
  cases shape : lbuf.buf with
  | nil => rfl
  | cons entry rest =>
    have counted := lbuf.counted
    rw [shape] at counted
    simp only [List.map_cons, List.sum_cons, Record.size] at counted
    omega

theorem logs_setTBuf (same : tbuf.log = (s.tbufs b).log) (c : TBufId) :
    ((s.setTBuf b tbuf).tbufs c).log = (s.tbufs c).log := by
  by_cases it : c = b
  · subst it
    simpa [State.setTBuf] using same
  · simp [State.setTBuf, it]

theorem Published.walk (owned : Owned thrs s place) (published : Published s place) {cur : BufId}
    (pc : (s.tbufs b).pc = .walk i cur) :
    Published
      (s.setTBuf b { collect s.heap (s.tbufs b) cur with tail := some cur, pc := onward s i cur })
      (walked s b cur place) := by
  obtain ⟨bound, here⟩ := (owned.serves b).ahead pc
  by_cases nonempty : 0 < (s.heap cur).cur
  · -- it waits in `iovs` first, whether or not that flushes them
    have ready : Published s (update place cur (.ready b)) := by
      refine published.keep rfl (fun _ => rfl) ?_ ?_ ?_ (fun _ _ _ => ⟨rfl, rfl⟩)
      · intro id c
        by_cases same : id = cur
        · subst same
          simp [Waits, here, Place.pending]
        · simp [Waits, same]
      · intro id u _ there
        by_cases same : id = cur
        · simp [same, Place.thread] at there
        · rwa [update_of_ne same] at there
      · intro id c inRange there
        by_cases same : id = cur
        · exact Or.inr (same ▸ LocalPBuf.buf_ne_nil nonempty)
        · rw [update_of_ne same] at there
          exact Or.inl ⟨inRange, there⟩
    unfold walked
    rw [if_pos nonempty]
    by_cases full : (s.tbufs b).iovs.length + 1 = iovMax
    · have pushed := (owned.serves b).batch.push pc bound here (.ready b)
        ((s.tbufs b).iovs ++ [⟨cur, (s.heap cur).buf.length⟩]) (Or.inl ⟨rfl, rfl⟩)
      rw [if_pos full]
      refine ready.writev ⟨rfl, rfl, rfl, ?_, ?_⟩ pushed.ready pushed.collected pushed.distinct
      · simp [State.setTBuf, collect, nonempty, full, LogBuffer.writev]
      · intro c other
        simp [State.setTBuf, other]
    · rw [if_neg full]
      refine ready.stay rfl rfl rfl (logs_setTBuf ?_)
      simp [collect, nonempty, full]
  · -- an empty buffer is done
    have log : ∀ c, ((s.setTBuf b
        { collect s.heap (s.tbufs b) cur with tail := some cur, pc := onward s i cur }).tbufs c).log =
          (s.tbufs c).log :=
      logs_setTBuf (by simp [collect, nonempty])
    unfold walked
    rw [if_neg nonempty]
    refine published.deliver (fun id => id = cur) rfl rfl rfl ?_ ?_
      (fun number _ c => chunksOf_congr log c number) ?_ ?_
    · exact fun id different => update_of_ne different ..
    · rintro _ rfl
      rw [update_self]
      rfl
    · rintro _ c number publication waits rfl carries found
      obtain ⟨-, -, entries, unwritten⟩ := published.carried waits carries found
      rw [LocalPBuf.buf_eq_nil nonempty] at entries
      have none_ := fun d => (chunksOf_congr log d number).trans (unwritten d)
      exact ⟨by rw [none_, if_pos entries], fun d _ => none_ d⟩
    · intro c piece mem
      rw [log c] at mem
      exact published.genuine c piece mem

/-! ### All steps -/

theorem detached_pending : (detached thrs b place id).pending = (place id).pending := by
  rcases detached_eq thrs b place id with same | ⟨t, _, old, new⟩
  · rw [same]
  · rw [old, new]
    rfl

theorem transfer_pending (same : new.pending = old.pending) :
    (transfer old new place id).pending = some b ↔ (place id).pending = some b := by
  unfold transfer
  split
  · rename_i here
    rw [here, same]
  · exact Iff.rfl

theorem detached_thread (id : BufId) (u : ThreadId) (_ : (detached thrs b place id).pending ≠ none)
    (there : (detached thrs b place id).thread = some u) : (place id).thread = some u := by
  rcases detached_eq thrs b place id with same | ⟨t, _, old, new⟩
  · rwa [same] at there
  · rw [new] at there
    rw [old]
    exact there

theorem transfer_thread (gone : new.thread = none) (id : BufId) (u : ThreadId)
    (_ : (transfer old new place id).pending ≠ none)
    (there : (transfer old new place id).thread = some u) : (place id).thread = some u := by
  unfold transfer at there
  split at there
  · rw [gone] at there
    cases there
  · exact there

theorem Owned.idle_held (owned : Owned thrs s place) {other : BufId} (inRange : t < thrs)
    (held : (s.workers t).held = some id) (waits : Waits s place other b) : other ≠ id := by
  rintro rfl
  have pending := waits.2
  rw [(owned.place_held inRange held).2] at pending
  cases pending

theorem Published.put (owned : Owned thrs s place) (published : Published s place) {worker : Worker}
    (inRange : t < thrs) (held : (s.workers t).held = some id) :
    Published ((s.setBuf id lbuf).setWorker t worker) place := by
  refine published.keep rfl (fun _ => rfl) (fun _ _ => Iff.rfl) (fun _ _ _ there => there)
    (fun _ _ bound here => Or.inl ⟨bound, here⟩) ?_
  intro other b waits
  have different := owned.idle_held inRange held waits
  simp [State.setBuf, State.setWorker, different]

theorem Published.step {act : Act} (owned : Owned thrs s place) (published : Published s place)
    (taken : Step thrs s place act next after) : Published next after := by
  cases taken with
  | nothing inRange => exact published
  | fits inRange pc some_ same | change inRange pc some_ | freeze inRange pc
  | popNone inRange pc empty => exact published.stay rfl rfl rfl fun _ => rfl
  | put inRange pc fits | reset inRange pc | setSN inRange pc =>
    exact published.put owned inRange (by simp [Worker.held, pc])
  | publish inRange pc => exact published.publish owned inRange pc
  | @pop t b rest id inRange pc found =>
    -- a free buffer is taken: it did not wait before and does not now
    obtain ⟨nodes, linked, members⟩ := (owned.serves b).free
    rw [found] at linked
    have free : place id = .free b := by
      cases linked with
      | cons behind => exact ((members id).mp List.mem_cons_self).2
    have logs : ∀ c, ((s.setTBuf b { s.tbufs b with freebufs := (s.heap id).next }).tbufs c).log =
        (s.tbufs c).log := logs_setTBuf rfl
    refine published.keep rfl logs ?_ ?_ ?_ (fun _ _ _ => ⟨rfl, rfl⟩)
    · intro other c
      by_cases it : other = id
      · subst it
        simp [Waits, free, Place.pending]
      · simp [Waits, it, State.setTBuf, State.setWorker]
    · intro other u pending there
      by_cases it : other = id
      · simp [it, Place.pending] at pending
      · rwa [update_of_ne it] at there
    · intro other c bound here
      by_cases it : other = id
      · simp [it] at here
      · rw [update_of_ne it] at here
        exact Or.inl ⟨bound, here⟩
  | @alloc t rest inRange pc =>
    have below : ∀ other, other ≠ s.nextBuf → (other < s.nextBuf + 1 ↔ other < s.nextBuf) :=
      fun other different =>
        ⟨fun before => Nat.lt_of_le_of_ne (Nat.le_of_lt_succ before) different, Nat.lt_succ_of_lt⟩
    refine published.keep rfl (fun _ => rfl) ?_ ?_ ?_ ?_
    · intro other c
      by_cases it : other = s.nextBuf
      · subst it
        simp [Waits, Place.pending]
      · simp [Waits, it, below other it]
    · intro other u pending there
      by_cases it : other = s.nextBuf
      · simp [it, Place.pending] at pending
      · rwa [update_of_ne it] at there
    · intro other c bound here
      by_cases it : other = s.nextBuf
      · simp [it] at here
      · rw [update_of_ne it] at here
        exact Or.inl ⟨(below other it).mp bound, here⟩
    · intro other c waits
      have different : other ≠ s.nextBuf := Nat.ne_of_lt waits.1
      simp [State.setBuf, State.setWorker, different]
  | detach inRange pc =>
    refine published.keep rfl (logs_setTBuf rfl) ?_ detached_thread ?_ (fun _ _ _ => ⟨rfl, rfl⟩)
    · intro id c
      simp [Waits, detached_pending, State.setTBuf]
    · exact fun id c bound here => Or.inl ⟨bound, (detached_other (by simp) (by simp)).mp here⟩
  | chainSkip inRange pc more empty | giveNothing inRange pc tail | publishSN inRange pc =>
    exact published.stay rfl rfl rfl (logs_setTBuf rfl)
  | chainFirst inRange pc more found first =>
    refine published.keep rfl (logs_setTBuf rfl) ?_ (transfer_thread rfl) ?_ (fun _ _ _ => ⟨rfl, rfl⟩)
    · exact fun id c => and_congr Iff.rfl (transfer_pending rfl)
    · exact fun id c bound here => Or.inl ⟨bound, (transfer_eq (by simp) (by simp)).mp here⟩
  | @chainNext b i cur last inRange pc more found tail =>
    refine published.keep rfl ?_ ?_ (transfer_thread rfl) ?_ ?_
    · exact logs_setTBuf (s := s.setBuf last ((s.heap last).setNext (some cur))) rfl
    · exact fun id c => and_congr Iff.rfl (transfer_pending rfl)
    · exact fun id c bound here => Or.inl ⟨bound, (transfer_eq (by simp) (by simp)).mp here⟩
    · intro id c _
      by_cases it : id = last <;>
        simp [State.setTBuf, State.setBuf, LocalPBuf.setNext, it]
  | @flush b i inRange pc done =>
    have batch := (owned.serves b).batch
    refine published.writev ⟨rfl, rfl, rfl, ?_, ?_⟩ batch.ready batch.collected batch.distinct
    · simp [State.setTBuf, LogBuffer.writev]
    · intro c other
      simp [State.setTBuf, other]
  | walk inRange pc => exact published.walk owned pc
  | @giveBack b last inRange pc tail =>
    refine published.keep rfl ?_ ?_ (transfer_thread rfl) ?_ ?_
    · exact logs_setTBuf (s := s.setBuf last ((s.heap last).setNext (s.tbufs b).freebufs)) rfl
    · exact fun id c => and_congr Iff.rfl (transfer_pending rfl)
    · exact fun id c bound here => Or.inl ⟨bound, (transfer_eq (by simp) (by simp)).mp here⟩
    · intro id c _
      by_cases it : id = last <;>
        simp [State.setTBuf, State.setBuf, LocalPBuf.setNext, it]
  | getSafeSN =>
    unfold getSafeSN
    split
    · split <;> exact published.stay rfl rfl rfl fun _ => rfl
    · exact published.stay rfl rfl rfl fun _ => rfl

def Sound (thrs : Nat) (s : State) : Prop :=
  ∃ place, Owned thrs s place ∧ Published s place

theorem created_published (thrs : Nat) : Published (created thrs) .current where
  waiting := fun _ _ _ pending => by cases pending
  delivered := fun _ _ found => by cases found
  filled := fun _ _ _ here => by cases here
  genuine := fun _ _ mem => by cases mem

theorem run_sound {acts : List Act} {final : State}
    (reached : run (step thrs) (created thrs) acts = some final) : Sound thrs final := by
  have kept : ∀ s act next, Sound thrs s → True → step thrs s act = some next → Sound thrs next := by
    rintro s act next ⟨place, owned, published⟩ _ taken
    obtain ⟨after, outcome⟩ := step_cases taken place
    exact ⟨after, owned.step outcome, published.step owned outcome⟩
  exact run_preserves kept ⟨.current, created_owned thrs, created_published thrs⟩
    (each_of_forall fun _ _ => trivial) reached

/-! ### The four owners -/

inductive Home where
  | current (t : ThreadId)
  | frozen (b : TBufId) (t : ThreadId)
  | batch (b : TBufId)
  | free (b : TBufId)
  deriving DecidableEq, Repr

def InList (s : State) (head : Option BufId) (id : BufId) : Prop :=
  ∃ nodes, Linked s.next head nodes ∧ id ∈ nodes

def At (thrs : Nat) (s : State) (id : BufId) : Home → Prop
  | .current t => t < thrs ∧ (s.workers t).held = some id
  | .frozen b t => InList s ((s.tbufs b).frozenbufs t) id
  | .batch b => InList s (s.tbufs b).batch id ∨ ∃ t, InList s ((s.tbufs b).flushbufs t) id
  | .free b => InList s (s.tbufs b).freebufs id

def Place.home : Place → Home
  | .current t => .current t
  | .frozen b t => .frozen b t
  | .flush b _ | .ahead b | .ready b | .written b => .batch b
  | .free b => .free b

theorem Holds.inList_iff {head : Option BufId} {here : Place} (holds : Holds s place head here)
    (bound : id < s.nextBuf) : InList s head id ↔ place id = here := by
  obtain ⟨nodes, linked, members⟩ := holds
  constructor
  · rintro ⟨others, again, mem⟩
    rw [← linked.unique again] at mem
    exact ((members id).mp mem).2
  · exact fun there => ⟨nodes, linked, (members id).mpr ⟨bound, there⟩⟩

theorem Batch.inList_iff (batch : Batch s place b tbuf) (bound : id < s.nextBuf) :
    InList s tbuf.batch id ↔
      place id = .ready b ∨ place id = .written b ∨ place id = .ahead b := by
  obtain ⟨done, rest, linked, _, walked, coming, _⟩ := batch.chain
  have members : id ∈ done ++ rest ↔
      place id = .ready b ∨ place id = .written b ∨ place id = .ahead b := by
    rw [List.mem_append, walked id, coming id]
    simp [bound, or_assoc]
  constructor
  · rintro ⟨others, again, mem⟩
    rw [← linked.unique again] at mem
    exact members.mp mem
  · exact fun there => ⟨done ++ rest, linked, members.mpr there⟩

theorem Owned.at_iff (owned : Owned thrs s place) (bound : id < s.nextBuf) (home : Home) :
    At thrs s id home ↔ (place id).home = home := by
  cases home with
  | current t =>
    simp only [At, owned.held t id]
    cases here : place id <;> simp [Place.home, bound]
  | frozen b t =>
    simp only [At, ((owned.serves b).frozen t).inList_iff bound]
    cases here : place id <;> simp [Place.home]
  | batch b =>
    simp only [At, (owned.serves b).batch.inList_iff bound,
      ((owned.serves b).flush _).inList_iff bound]
    cases here : place id <;> simp [Place.home]
  | free b =>
    simp only [At, (owned.serves b).free.inList_iff bound]
    cases here : place id <;> simp [Place.home]

/-- In every reachable state each buffer has exactly one owner, and a published
buffer's contents are in the log exactly once or still wait, untouched, in its
frozen list or in the batch: they are written before the buffer is free. -/
theorem buffers_owned (thrs : Nat) (acts : List Act) (final : State)
    (reached : Execution.run (step thrs) (created thrs) acts = some final) :
    (∀ id, id < final.nextBuf → ∃! home, At thrs final id home) ∧
      ∀ number publication, final.publications[number]? = some publication →
        Written final number publication ∨
          (∀ b, chunksOf final b number = []) ∧
            (final.heap publication.lbuf).buf = publication.entries ∧
            (At thrs final publication.lbuf
                (.frozen (publication.thread % 2) publication.thread) ∨
              At thrs final publication.lbuf (.batch (publication.thread % 2))) := by
  obtain ⟨place, owned, published⟩ := run_sound reached
  constructor
  · intro id bound
    refine ⟨(place id).home, (owned.at_iff bound _).mpr rfl, ?_⟩
    exact fun home there => ((owned.at_iff bound home).mp there).symm
  · intro number publication found
    rcases published.delivered number publication found with ⟨bound, pending, carries⟩ | written
    · obtain ⟨own, t, has, at_, serves, unwritten⟩ := published.waiting _ _ bound pending
      cases carries.symm.trans has
      have thread : publication.thread = t :=
        congrArg Publication.thread (Option.some.inj (found.symm.trans at_))
      have entries := congrArg Publication.entries (Option.some.inj (found.symm.trans at_))
      refine Or.inr ⟨unwritten, entries.symm, ?_⟩
      rw [owned.at_iff bound, owned.at_iff bound]
      cases here : place publication.lbuf with
      | frozen b u =>
        rw [here] at pending
        have same := serves.2 u (by rw [here]; rfl)
        rw [same, ← thread, Option.some.inj pending]
        exact Or.inl rfl
      | flush b u | ahead b | ready b =>
        rw [here] at pending
        rw [Option.some.inj pending]
        exact Or.inr rfl
      | current u | written b | free b =>
        rw [here] at pending
        cases pending
    · exact Or.inl written

def roundTrip : List Act :=
  [.update 0 5 [⟨0, 7, 1, some 3, 8⟩], .worker 0, .worker 0, .worker 0, .worker 0, .worker 0,
    .worker 0, .update 0 6 [⟨0, 8, 1, none, 8⟩], .worker 0, .writer 0, .writer 0, .writer 0,
    .writer 0, .writer 0, .writer 0, .writer 0, .writer 0]

theorem buffers_owned_roundTrip : ∃ final,
    Execution.run (step 2) (created 2) roundTrip = some final ∧
      final.publications.length = 2 ∧ (final.tbufs 0).freebufs = some 2 ∧
      (final.tbufs 0).log = [⟨some 1, [⟨0, ⟨0, 7, 1, some 3, 8⟩⟩]⟩] ∧
      ∃! home, At 2 final 2 home :=
  ⟨_, rfl, rfl, rfl, rfl, (buffers_owned 2 roundTrip _ rfl).1 2 (by decide)⟩

end EunoDb.LogBuffer
