import EunoDb.LogOwnership

/-! The safe number. `Durable` says where the records of every transaction are. -/

namespace EunoDb.LogBuffer

open LinkedList Function

def Logged (s : State) (tx : Transaction) : Prop :=
  ∃ piece ∈ (s.tbufs (tx.thread % 2)).log, tx.entries <:+: piece.entries

/-! ### Where a transaction's records are -/

def Worker.working (worker : Worker) : Bool :=
  match worker.pc with
  | .running _ | .publish _ => true
  | .getFree _ _ | .reset _ _ | .alloc _ | .setSN _ _ => false

def Keeps (s : State) (place : Places) (t : ThreadId) (id : BufId) : Prop :=
  place id = .current t ∧ (s.workers t).working = true ∨
    (place id).pending = some (t % 2) ∧ ∀ u, (place id).thread = some u → u = t

def Stored (s : State) (place : Places) (tx : Transaction) : Prop :=
  ∃ id, id < s.nextBuf ∧ Keeps s place tx.thread id ∧ tx.entries <:+: (s.heap id).buf ∧
    (s.heap id).sn = tx.sn

def Coming (s : State) (tx : Transaction) : Prop :=
  match (s.workers tx.thread).pc with
  | .publish after | .getFree _ after | .reset _ after | .alloc after =>
    after = some (tx.sn, tx.entries)
  | .setSN sn entries => sn = tx.sn ∧ entries = tx.entries
  | .running rest =>
    rest ≠ [] ∧ (s.heap (s.workers tx.thread).lbuf).sn = tx.sn ∧
      ∃ old done, (s.heap (s.workers tx.thread).lbuf).buf = old ++ done ∧
        tx.entries = done ++ rest

/-! ### Numbers of a worker -/

def number (s : State) (t : ThreadId) : Nat :=
  match (s.workers t).pc with
  | .running _ | .publish _ => (s.heap (s.workers t).lbuf).sn
  | .getFree _ after | .reset _ after | .alloc after => (after.map Prod.fst).getD 0
  | .setSN sn _ => sn

def Recorded (s : State) (t : ThreadId) (sn : Nat) : Prop :=
  sn = 0 ∨ ∃ tx ∈ s.transactions, tx.thread = t ∧ tx.sn = sn

structure Numbered (s : State) (place : Places) (t : ThreadId) : Prop where
  seen : (s.tbufs (t % 2)).localsn t ≤ number s t
  frozen : ∀ id, id < s.nextBuf → place id = .frozen (t % 2) t →
    (s.tbufs (t % 2)).localsn t ≤ (s.heap id).sn ∧ (s.heap id).sn ≤ number s t ∧
      Recorded s t (s.heap id).sn
  recorded : Recorded s t (number s t)
  publish : ∀ after, (s.workers t).pc = .publish after →
    ∃ sn entries, after = some (sn, entries) ∧ number s t ≤ sn ∧ Recorded s t sn
  pending : ∀ b id, (s.workers t).pc ≠ .getFree b none ∧ (s.workers t).pc ≠ .reset id none ∧
    (s.workers t).pc ≠ .alloc none

/-! ### The safe number of one `Writer` -/

structure Guarded (thrs : Nat) (s : State) (b : TBufId) : Prop where
  unwritten : ∀ tx ∈ s.transactions, tx.thread % 2 = b →
    Logged s tx ∨ (s.tbufs b).safeSN < tx.sn
  unseen : ∀ tx ∈ s.transactions, tx.thread % 2 = b → (s.tbufs b).localsn tx.thread = 0 →
    (s.tbufs b).safeSN < tx.sn
  seen : ∀ t, t < thrs → t % 2 = b → 0 < (s.tbufs b).localsn t →
    (s.tbufs b).safeSN < (s.tbufs b).localsn t
  other : ∀ t, t % 2 ≠ b → (s.tbufs b).localsn t = 0
  start : (∀ t, t < thrs → (s.tbufs b).localsn t = 0) → (s.tbufs b).safeSN = 0

def Below (thrs : Nat) (s : State) (result : Nat) : Prop :=
  result ≤ (s.tbufs 0).safeSN ∧ (1 < thrs → result ≤ (s.tbufs 1).safeSN)

structure Returned (thrs : Nat) (s : State) : Prop where
  results : ∀ result ∈ s.results, Below thrs s result
  reading : ∀ first, s.reading = some first → 1 < thrs ∧ first ≤ (s.tbufs 0).safeSN ∧
    ∀ result ∈ s.results, result ≤ first
  sorted : s.results.Pairwise (· ≤ ·)

structure Durable (thrs : Nat) (s : State) (place : Places) : Prop where
  proper : ∀ tx ∈ s.transactions, 0 < tx.sn ∧ tx.entries ≠ [] ∧ tx.thread < thrs
  located : ∀ tx ∈ s.transactions, Logged s tx ∨ Stored s place tx ∨ Coming s tx
  numbered : ∀ t, t < thrs → Numbered s place t
  guarded : ∀ b, Guarded thrs s b
  returned : Returned thrs s

/-! ### Steps that change no number -/

variable {s next : State} {tx : Transaction} {thrs : Nat} {b : TBufId} {t : ThreadId}
  {place after : Places} {id : BufId}

theorem Logged.mono (logged : Logged s tx)
    (grows : ∀ b piece, piece ∈ (s.tbufs b).log → piece ∈ (next.tbufs b).log) : Logged next tx := by
  obtain ⟨piece, mem, inside⟩ := logged
  exact ⟨piece, grows _ piece mem, inside⟩

structure Steady (s next : State) : Prop where
  transactions : next.transactions = s.transactions
  localsn : ∀ b, (next.tbufs b).localsn = (s.tbufs b).localsn
  safeSN : ∀ b, (next.tbufs b).safeSN = (s.tbufs b).safeSN
  grows : ∀ b piece, piece ∈ (s.tbufs b).log → piece ∈ (next.tbufs b).log
  reading : next.reading = s.reading
  results : next.results = s.results

theorem Guarded.keep (guarded : Guarded thrs s b)
    (transactions : next.transactions = s.transactions)
    (localsn : (next.tbufs b).localsn = (s.tbufs b).localsn)
    (safeSN : (next.tbufs b).safeSN = (s.tbufs b).safeSN)
    (grows : ∀ b piece, piece ∈ (s.tbufs b).log → piece ∈ (next.tbufs b).log) :
    Guarded thrs next b := by
  constructor
  · intro tx mem own
    rw [transactions] at mem
    rw [safeSN]
    exact (guarded.unwritten tx mem own).imp_left fun logged => logged.mono grows
  · rw [transactions, localsn, safeSN]
    exact guarded.unseen
  · rw [localsn, safeSN]
    exact guarded.seen
  · rw [localsn]
    exact guarded.other
  · rw [localsn, safeSN]
    exact guarded.start

theorem Guarded.steady (guarded : Guarded thrs s b) (steady : Steady s next) :
    Guarded thrs next b :=
  guarded.keep steady.transactions (steady.localsn b) (steady.safeSN b) steady.grows

theorem Returned.keep (returned : Returned thrs s) (results : next.results = s.results)
    (reading : next.reading = s.reading) (safeSN : ∀ b, (s.tbufs b).safeSN ≤ (next.tbufs b).safeSN) :
    Returned thrs next := by
  constructor
  · intro result mem
    rw [results] at mem
    obtain ⟨first, second⟩ := returned.results result mem
    exact ⟨Nat.le_trans first (safeSN 0), fun two => Nat.le_trans (second two) (safeSN 1)⟩
  · intro first read
    rw [reading] at read
    obtain ⟨two, below, above⟩ := returned.reading first read
    exact ⟨two, Nat.le_trans below (safeSN 0), by rw [results]; exact above⟩
  · rw [results]
    exact returned.sorted

theorem Recorded.steady {sn : Nat} (recorded : Recorded s t sn)
    (same : ∀ tx ∈ s.transactions, tx ∈ next.transactions) : Recorded next t sn :=
  recorded.imp_right fun ⟨tx, mem, own⟩ => ⟨tx, same tx mem, own⟩

theorem number_congr (worker : next.workers t = s.workers t) (same : (s.workers t).working = true →
      (next.heap (s.workers t).lbuf).sn = (s.heap (s.workers t).lbuf).sn) :
    number next t = number s t := by
  unfold number Worker.working at *
  rw [worker]
  cases pc : (s.workers t).pc with
  | running _ | publish _ => simpa [pc] using same
  | getFree _ _ | reset _ _ | alloc _ | setSN _ _ => rfl

theorem Numbered.own (numbered : Numbered s place t) (same : number next t = number s t)
    (localsn : (next.tbufs (t % 2)).localsn t = (s.tbufs (t % 2)).localsn t)
    (transactions : ∀ tx ∈ s.transactions, tx ∈ next.transactions)
    (frozen : ∀ id, id < next.nextBuf → after id = .frozen (t % 2) t →
      id < s.nextBuf ∧ place id = .frozen (t % 2) t ∧ (next.heap id).sn = (s.heap id).sn)
    (publish : ∀ after, (next.workers t).pc = .publish after → (s.workers t).pc = .publish after)
    (pending : ∀ b id, (next.workers t).pc ≠ .getFree b none ∧
      (next.workers t).pc ≠ .reset id none ∧ (next.workers t).pc ≠ .alloc none) :
    Numbered next after t := by
  constructor
  · rw [localsn, same]
    exact numbered.seen
  · intro id bound here
    obtain ⟨before, there, sn⟩ := frozen id bound here
    rw [localsn, same, sn]
    obtain ⟨above, below, recorded⟩ := numbered.frozen id before there
    exact ⟨above, below, recorded.steady transactions⟩
  · rw [same]
    exact numbered.recorded.steady transactions
  · intro after pc
    obtain ⟨sn, entries, shape, bound, recorded⟩ := numbered.publish after (publish after pc)
    exact ⟨sn, entries, shape, same ▸ bound, recorded.steady transactions⟩
  · exact pending

theorem Numbered.keep (numbered : Numbered s place t) (worker : next.workers t = s.workers t)
    (localsn : (next.tbufs (t % 2)).localsn t = (s.tbufs (t % 2)).localsn t)
    (transactions : ∀ tx ∈ s.transactions, tx ∈ next.transactions)
    (own : (s.workers t).working = true →
      (next.heap (s.workers t).lbuf).sn = (s.heap (s.workers t).lbuf).sn)
    (frozen : ∀ id, id < next.nextBuf → after id = .frozen (t % 2) t →
      id < s.nextBuf ∧ place id = .frozen (t % 2) t ∧ (next.heap id).sn = (s.heap id).sn) :
    Numbered next after t := by
  refine numbered.own (number_congr worker own) localsn transactions frozen ?_ ?_
  · rw [worker]
    exact fun _ => id
  · rw [worker]
    exact numbered.pending

theorem Durable.carry (durable : Durable thrs s place)
    (transactions : next.transactions = s.transactions) (workers : next.workers = s.workers)
    (heap : ∀ id, (next.heap id).sn = (s.heap id).sn ∧ (next.heap id).buf = (s.heap id).buf)
    (grows : ∀ b piece, piece ∈ (s.tbufs b).log → piece ∈ (next.tbufs b).log)
    (stored : ∀ tx ∈ s.transactions, Stored s place tx → Logged next tx ∨ Stored next after tx)
    (numbered : ∀ t, t < thrs → Numbered next after t) (guarded : ∀ b, Guarded thrs next b)
    (returned : Returned thrs next) : Durable thrs next after := by
  refine ⟨transactions ▸ durable.proper, fun tx mem => ?_, numbered, guarded, returned⟩
  rw [transactions] at mem
  rcases durable.located tx mem with logged | there | coming
  · exact Or.inl (logged.mono grows)
  · exact (stored tx mem there).imp_right Or.inl
  · refine Or.inr (Or.inr ?_)
    unfold Coming at coming ⊢
    rw [workers, (heap _).1, (heap _).2]
    exact coming

theorem Durable.writer (durable : Durable thrs s place) (steady : Steady s next)
    (workers : next.workers = s.workers) (nextBuf : next.nextBuf = s.nextBuf)
    (heap : ∀ id, (next.heap id).sn = (s.heap id).sn ∧ (next.heap id).buf = (s.heap id).buf)
    (stored : ∀ tx ∈ s.transactions, Stored s place tx → Logged next tx ∨ Stored next after tx)
    (frozen : ∀ id b t, after id = .frozen b t → place id = .frozen b t) :
    Durable thrs next after := by
  refine durable.carry steady.transactions workers heap steady.grows stored ?_
    (fun b => (durable.guarded b).steady steady) (durable.returned.keep steady.results
      steady.reading fun b => Nat.le_of_eq (steady.safeSN b).symm)
  intro t bound
  refine (durable.numbered t bound).keep (by rw [workers]) (by rw [steady.localsn])
    (by rw [steady.transactions]; exact fun _ => id) (fun _ => (heap _).1) ?_
  intro id inRange here
  exact ⟨nextBuf ▸ inRange, frozen id _ _ here, (heap id).1⟩

/-! Detaching, walking and writing. -/

theorem Stored.move (stored : Stored s place tx) (nextBuf : s.nextBuf ≤ next.nextBuf)
    (kept : ∀ id, id < s.nextBuf → Keeps s place tx.thread id →
      Keeps next after tx.thread id ∧ (next.heap id).sn = (s.heap id).sn ∧
        (s.heap id).buf <+: (next.heap id).buf) : Stored next after tx := by
  obtain ⟨id, bound, keeps, inside, sn⟩ := stored
  obtain ⟨still, same, grows⟩ := kept id bound keeps
  exact ⟨id, Nat.lt_of_lt_of_le bound nextBuf, still, inside.trans grows.isInfix, same.trans sn⟩

theorem Keeps.waits (keeps : Keeps s place t id) {here : Place} (there : place id = here)
    (listed : here.tbuf ≠ none) :
    here.pending = some (t % 2) ∧ ∀ u, here.thread = some u → u = t := by
  subst there
  rcases keeps with ⟨current, _⟩ | waits
  · rw [current] at listed
    exact absurd rfl listed
  · exact waits

theorem Keeps.move (keeps : Keeps s place t id) (workers : next.workers t = s.workers t)
    (places : after id = place id ∨
      (after id).pending = some (t % 2) ∧ ∀ u, (after id).thread = some u → u = t) :
    Keeps next after t id := by
  rcases places with here | here
  · unfold Keeps
    rw [here, workers]
    exact keeps
  · exact Or.inr here

variable {b i : Nat} {tbuf : TBuf}

theorem chained_keeps (keeps : Keeps s place t id) : chained b i place id = place id ∨
      (chained b i place id).pending = some (t % 2) ∧
        ∀ u, (chained b i place id).thread = some u → u = t := by
  by_cases here : place id = .flush b i
  · right
    obtain ⟨pending, _⟩ := keeps.waits here nofun
    simp only [chained, here, if_true]
    exact ⟨pending, fun u there => by cases there⟩
  · left
    simp [chained, here]

theorem givenBack_keeps (keeps : Keeps s place t id) : givenBack b place id = place id := by
  refine if_neg fun (here : place id = .written b) => ?_
  cases (keeps.waits here nofun).1

theorem Stored.writev {iovs : List Iovec} (stored : Stored s place tx)
    (flushes : Flushes s next b iovs) (workers : next.workers = s.workers)
    (ready : ∀ iov ∈ iovs, iov.base < s.nextBuf ∧ place iov.base = .ready b ∧
      iov.len = (s.heap iov.base).buf.length)
    (collected : ∀ id, id < s.nextBuf → place id = .ready b → ∃ iov ∈ iovs, iov.base = id) :
    Logged next tx ∨ Stored next (flushed b place) tx := by
  obtain ⟨id, bound, keeps, inside, sn⟩ := stored
  by_cases here : place id = .ready b
  · have own : tx.thread % 2 = b := (Option.some.inj (keeps.waits here nofun).1).symm
    obtain ⟨iov, mem, base⟩ := collected id bound here
    left
    refine ⟨chunk s.heap iov, ?_, ?_⟩
    · rw [own, flushes.log]
      exact List.mem_append_right _ (List.mem_map_of_mem mem)
    · have len := (ready iov mem).2.2
      simp only [chunk, len, List.take_length, base]
      exact inside
  · right
    refine ⟨id, flushes.nextBuf ▸ bound, ?_, by rw [flushes.heap]; exact inside,
      by rw [flushes.heap]; exact sn⟩
    have same : flushed b place id = place id := by simp [flushed, here]
    unfold Keeps
    rw [same, workers]
    exact keeps

theorem Stored.walk (owned : Owned thrs s place) {cur : BufId} (pc : (s.tbufs b).pc = .walk i cur)
    (some_ : tx.entries ≠ []) (stored : Stored s place tx) (result : next = s.setTBuf b
      { collect s.heap (s.tbufs b) cur with tail := some cur, pc := onward s i cur }) :
    Logged next tx ∨ Stored next (walked s b cur place) tx := by
  subst result
  obtain ⟨bound, here⟩ := (owned.serves b).ahead pc
  by_cases nonempty : 0 < (s.heap cur).cur
  · have ready : Stored s (update place cur (.ready b)) tx := by
      refine stored.move (Nat.le_refl _) ?_
      intro id _ keeps
      refine ⟨keeps.move rfl ?_, rfl, List.prefix_refl _⟩
      by_cases same : id = cur
      · subst same
        rw [update_self]
        exact Or.inr ⟨(keeps.waits here nofun).1, fun u there => by cases there⟩
      · exact Or.inl (update_of_ne same ..)
    unfold walked
    rw [if_pos nonempty]
    by_cases full : (s.tbufs b).iovs.length + 1 = iovMax
    · have pushed := (owned.serves b).batch.push pc bound here (.ready b)
        ((s.tbufs b).iovs ++ [⟨cur, (s.heap cur).buf.length⟩]) (Or.inl ⟨rfl, rfl⟩)
      rw [if_pos full]
      refine ready.writev ⟨rfl, rfl, rfl, ?_, ?_⟩ rfl pushed.ready pushed.collected
      · simp [State.setTBuf, collect, nonempty, full, LogBuffer.writev]
      · intro c other
        simp [State.setTBuf, other]
    · rw [if_neg full]
      exact Or.inr ready
  · -- no transaction is stored in an empty buffer
    have empty := LocalPBuf.buf_eq_nil nonempty
    unfold walked
    rw [if_neg nonempty]
    obtain ⟨id, inRange, keeps, inside, sn⟩ := stored
    have different : id ≠ cur := by
      rintro rfl
      rw [empty] at inside
      exact some_ (List.infix_nil.mp inside)
    refine Or.inr ⟨id, inRange, ?_, inside, sn⟩
    unfold Keeps
    rw [update_of_ne different]
    exact keeps

theorem collect_numbers (heap : BufId → LocalPBuf) (tbuf : TBuf) (cur : BufId) :
    (collect heap tbuf cur).localsn = tbuf.localsn ∧ (collect heap tbuf cur).safeSN = tbuf.safeSN ∧
      ∀ piece ∈ tbuf.log, piece ∈ (collect heap tbuf cur).log := by
  unfold collect writev
  split
  · simp only
    split
    · exact ⟨rfl, rfl, fun _ mem => List.mem_append_left _ mem⟩
    · exact ⟨rfl, rfl, fun _ => id⟩
  · exact ⟨rfl, rfl, fun _ => id⟩

theorem steady_update (tbufs : next.tbufs = update s.tbufs b tbuf)
    (transactions : next.transactions = s.transactions) (reading : next.reading = s.reading)
    (results : next.results = s.results) (localsn : tbuf.localsn = (s.tbufs b).localsn)
    (safeSN : tbuf.safeSN = (s.tbufs b).safeSN)
    (grows : ∀ piece ∈ (s.tbufs b).log, piece ∈ tbuf.log) : Steady s next where
  transactions := transactions
  localsn c := by
    by_cases same : c = b
    · simp [tbufs, same, localsn]
    · simp [tbufs, same]
  safeSN c := by
    by_cases same : c = b
    · simp [tbufs, same, safeSN]
    · simp [tbufs, same]
  grows c piece mem := by
    by_cases same : c = b
    · subst same
      simpa [tbufs] using grows piece mem
    · simpa [tbufs, same] using mem
  reading := reading
  results := results

theorem steady_setTBuf (localsn : tbuf.localsn = (s.tbufs b).localsn)
    (safeSN : tbuf.safeSN = (s.tbufs b).safeSN)
    (grows : ∀ piece ∈ (s.tbufs b).log, piece ∈ tbuf.log) : Steady s (s.setTBuf b tbuf) :=
  steady_update rfl rfl rfl rfl localsn safeSN grows

/-! ### Detaching: the numbers of the workers are read -/

theorem Owned.frozen_head (owned : Owned thrs s place) (head : (s.tbufs b).frozenbufs t = some id) :
    id < s.nextBuf ∧ place id = .frozen b t := by
  obtain ⟨nodes, linked, members⟩ := (owned.serves b).frozen t
  rw [head] at linked
  cases linked with
  | cons behind => exact (members id).mp List.mem_cons_self

theorem Published.frozen_parity (published : Published s place) (bound : id < s.nextBuf)
    (here : place id = .frozen b t) : t % 2 = b := by
  obtain ⟨_, u, _, _, serves, _⟩ := published.waiting id b bound (by rw [here]; rfl)
  rw [serves.2 t (by rw [here]; rfl)]
  exact serves.1

theorem detach_localsn (owned : Owned thrs s place) (t : ThreadId) :
    (detach thrs s.heap (s.tbufs b)).localsn t = (s.tbufs b).localsn t ∨
      ∃ id, t < thrs ∧ id < s.nextBuf ∧ place id = .frozen b t ∧
        (detach thrs s.heap (s.tbufs b)).localsn t = (s.heap id).sn := by
  simp only [detach]
  cases head : (s.tbufs b).frozenbufs t with
  | none => exact Or.inl rfl
  | some id =>
    by_cases inRange : t < thrs
    · obtain ⟨bound, here⟩ := owned.frozen_head head
      exact Or.inr ⟨id, inRange, bound, here, by simp [inRange]⟩
    · exact Or.inl (by simp [inRange])

theorem detached_keeps (keeps : Keeps s place t id) :
    detached thrs b place id = place id ∨
      (detached thrs b place id).pending = some (t % 2) ∧
        ∀ u, (detached thrs b place id).thread = some u → u = t := by
  rcases detached_eq thrs b place id with same | ⟨u, _, old, new⟩
  · exact Or.inl same
  · rw [new]
    obtain ⟨pending, thread⟩ := keeps.waits old nofun
    exact Or.inr ⟨pending, thread⟩

theorem Durable.detach (owned : Owned thrs s place) (published : Published s place)
    (durable : Durable thrs s place)
    (result : next = s.setTBuf b (LogBuffer.detach thrs s.heap (s.tbufs b))) :
    Durable thrs next (detached thrs b place) := by
  have tbuf : next.tbufs b = LogBuffer.detach thrs s.heap (s.tbufs b) := by
    simp [result, State.setTBuf]
  have others : ∀ c, c ≠ b → next.tbufs c = s.tbufs c := by
    intro c different
    simp [result, State.setTBuf, different]
  have grows : ∀ c piece, piece ∈ (s.tbufs c).log → piece ∈ (next.tbufs c).log := by
    intro c piece mem
    by_cases same : c = b
    · subst same
      rw [tbuf]
      exact mem
    · rw [others c same]
      exact mem
  have safe : (next.tbufs b).safeSN = (s.tbufs b).safeSN := tbuf ▸ rfl
  -- the number read for a worker: not below the old one, not above the worker's own
  have read : ∀ t, t < thrs → t % 2 = b →
      (s.tbufs b).localsn t ≤ (next.tbufs b).localsn t ∧ (next.tbufs b).localsn t ≤ number s t ∧
        ((next.tbufs b).localsn t = (s.tbufs b).localsn t ∨
          Recorded s t ((next.tbufs b).localsn t)) := by
    intro t inRange own
    have numbered := durable.numbered t inRange
    subst own
    rw [tbuf]
    rcases detach_localsn owned t with same | ⟨id, _, bound, here, same⟩
    · rw [same]
      exact ⟨Nat.le_refl _, numbered.seen, Or.inl rfl⟩
    · rw [same]
      obtain ⟨above, below, recorded⟩ := numbered.frozen id bound here
      exact ⟨above, below, Or.inr recorded⟩
  have idle : ∀ t, t % 2 ≠ b → (next.tbufs b).localsn t = (s.tbufs b).localsn t := by
    intro t other
    rw [tbuf]
    rcases detach_localsn owned t with same | ⟨id, _, bound, here, _⟩
    · exact same
    · exact absurd (published.frozen_parity bound here) other
  have heap : next.heap = s.heap := result ▸ rfl
  have workers : next.workers = s.workers := result ▸ rfl
  have nextBuf : next.nextBuf = s.nextBuf := result ▸ rfl
  have transactions : next.transactions = s.transactions := result ▸ rfl
  refine durable.carry transactions workers (fun _ => heap ▸ ⟨rfl, rfl⟩) grows ?_ ?_ ?_ ?_
  · intro tx _ stored
    refine Or.inr (stored.move (Nat.le_of_eq nextBuf.symm) ?_)
    intro id _ keeps
    rw [heap]
    exact ⟨keeps.move (by rw [workers]) (detached_keeps keeps), rfl, List.prefix_refl _⟩
  · intro t inRange
    have numbered := durable.numbered t inRange
    by_cases own : t % 2 = b
    · -- its list is detached, so only its own buffer counts
      have same : number next t = number s t :=
        number_congr (by rw [workers]) (fun _ => by rw [heap])
      have kept : ∀ sn, Recorded s t sn → Recorded next t sn :=
        fun sn recorded => recorded.steady (by rw [transactions]; exact fun _ => id)
      constructor
      · rw [own, same]
        exact (read t inRange own).2.1
      · intro id _ here
        rw [own] at here
        exact absurd inRange (detached_frozen.mp here).2
      · rw [same]
        exact kept _ numbered.recorded
      · intro after pc
        rw [workers] at pc
        obtain ⟨sn, entries, shape, bound, recorded⟩ := numbered.publish after pc
        exact ⟨sn, entries, shape, same ▸ bound, kept sn recorded⟩
      · rw [workers]
        exact numbered.pending
    · refine numbered.keep (by rw [workers]) (by rw [others _ own])
        (by rw [transactions]; exact fun _ => id) (fun _ => by rw [heap]) ?_
      intro id bound here
      rw [nextBuf] at bound
      refine ⟨bound, ?_, by rw [heap]⟩
      exact (detached_other (by simp) (by simp [own])).mp here
  · intro c
    have guarded := durable.guarded c
    by_cases same : c = b
    · subst same
      constructor
      · intro tx mem own
        rw [transactions] at mem
        rw [safe]
        exact (guarded.unwritten tx mem own).imp_left fun logged => logged.mono grows
      · intro tx mem own unseen
        rw [transactions] at mem
        rw [safe]
        have before := (read tx.thread (durable.proper tx mem).2.2 own).1
        exact guarded.unseen tx mem own (by omega)
      · intro t inRange own seen
        rw [safe]
        obtain ⟨above, _, old | zero | ⟨tx, mem, thread, sn⟩⟩ :=
          read t inRange own
        · rw [old] at seen ⊢
          exact guarded.seen t inRange own seen
        · omega
        by_cases unseen : (s.tbufs c).localsn t = 0
        · -- seen for the first time: its number is one it has recorded
          rw [← sn]
          exact guarded.unseen tx mem (thread ▸ own) (thread ▸ unseen)
        · exact Nat.lt_of_lt_of_le (guarded.seen t inRange own (Nat.pos_of_ne_zero unseen)) above
      · intro t other
        rw [idle t other]
        exact guarded.other t other
      · intro none_
        rw [safe]
        apply guarded.start
        intro t inRange
        by_cases own : t % 2 = c
        · have above := (read t inRange own).1
          have zero := none_ t inRange
          omega
        · exact guarded.other t own
    · have tbufs := others c same
      exact guarded.keep transactions (by rw [tbufs]) (by rw [tbufs]) grows
  · refine durable.returned.keep (by rw [result]; rfl) (by rw [result]; rfl) ?_
    intro c
    by_cases same : c = b
    · subst same
      exact Nat.le_of_eq safe.symm
    · exact Nat.le_of_eq (by rw [others c same])

/-! ### Publishing the safe number -/

theorem minSN_spec (thrs : Nat) (localsn : ThreadId → Nat) :
    (minSN thrs localsn = 0 ∧ ∀ t, t < thrs → localsn t = 0) ∨
      0 < minSN thrs localsn ∧ (∃ t, t < thrs ∧ localsn t = minSN thrs localsn) ∧
        ∀ t, t < thrs → 0 < localsn t → minSN thrs localsn ≤ localsn t := by
  induction thrs with
  | zero => exact Or.inl ⟨rfl, by simp⟩
  | succ thrs ih =>
    -- the loop's last round
    have last : minSN (thrs + 1) localsn =
        if localsn thrs = 0 then minSN thrs localsn
        else if minSN thrs localsn = 0 ∨ localsn thrs < minSN thrs localsn then localsn thrs
        else minSN thrs localsn := by
      unfold minSN
      rw [List.range_succ, List.foldl_append]
      rfl
    by_cases zero : localsn thrs = 0
    · rw [last, if_pos zero]
      rcases ih with ⟨none_, all⟩ | ⟨positive, ⟨t, inRange, least⟩, below⟩
      · exact Or.inl ⟨none_, Nat.forall_lt_succ_right.mpr ⟨all, zero⟩⟩
      · refine Or.inr ⟨positive, ⟨t, Nat.lt_succ_of_lt inRange, least⟩, ?_⟩
        exact Nat.forall_lt_succ_right.mpr ⟨below, by omega⟩
    right
    rw [last, if_neg zero]
    rcases ih with ⟨none_, all⟩ | ⟨positive, ⟨t, inRange, least⟩, below⟩
    · rw [if_pos (Or.inl none_)]
      refine ⟨Nat.pos_of_ne_zero zero, ⟨thrs, Nat.lt_succ_self _, rfl⟩, ?_⟩
      refine Nat.forall_lt_succ_right.mpr ⟨fun u before some_ => ?_, fun _ => Nat.le_refl _⟩
      have nothing := all u before
      omega
    by_cases smaller : localsn thrs < minSN thrs localsn
    · rw [if_pos (Or.inr smaller)]
      refine ⟨Nat.pos_of_ne_zero zero, ⟨thrs, Nat.lt_succ_self _, rfl⟩, ?_⟩
      refine Nat.forall_lt_succ_right.mpr ⟨fun u before some_ => ?_, fun _ => Nat.le_refl _⟩
      have above := below u before some_
      omega
    · rw [if_neg (by omega)]
      refine ⟨positive, ⟨t, Nat.lt_succ_of_lt inRange, least⟩, ?_⟩
      exact Nat.forall_lt_succ_right.mpr ⟨below, by omega⟩

theorem Durable.above (owned : Owned thrs s place) (durable : Durable thrs s place)
    (pc : (s.tbufs b).pc = .publishSN) (mem : tx ∈ s.transactions) (own : tx.thread % 2 = b) :
    Logged s tx ∨ (s.tbufs b).localsn tx.thread ≤ tx.sn := by
  subst own
  have inRange := (durable.proper tx mem).2.2
  have numbered := durable.numbered tx.thread inRange
  rcases durable.located tx mem with logged | ⟨id, bound, keeps, _, sn⟩ | coming
  · exact Or.inl logged
  · right
    rw [← sn]
    rcases keeps with ⟨current, working⟩ | ⟨pending, thread⟩
    · -- in the worker's own buffer
      have held := ((owned.held tx.thread id).mpr ⟨bound, current⟩).2
      have seen := numbered.seen
      unfold number at seen
      unfold Worker.held at held
      unfold Worker.working at working
      cases at_ : (s.workers tx.thread).pc with
      | running rest | publish after =>
        rw [at_] at held seen
        cases held
        exact seen
      | getFree c after | reset c after | alloc after | setSN sn entries =>
        rw [at_] at working
        cases working
    -- the round is over: what is published is still frozen
    have serves := owned.serves (tx.thread % 2)
    have unused := serves.batch.unused (by simp [TBuf.batch, pc])
    cases here : place id with
    | frozen c u =>
      rw [here] at pending thread
      obtain rfl := thread u rfl
      rw [Option.some.inj pending] at here
      exact (numbered.frozen id bound here).1
    | flush c u =>
      rw [here] at pending thread
      obtain rfl := thread u rfl
      rw [Option.some.inj pending] at here
      have empty := serves.begun tx.thread inRange (by rw [pc]; exact inRange)
      obtain ⟨nodes, linked, members⟩ := serves.flush tx.thread
      rw [empty] at linked
      have inside := (members id).mpr ⟨bound, here⟩
      rw [linked.eq_nil] at inside
      cases inside
    | ahead c =>
      rw [here] at pending
      rw [Option.some.inj pending] at here
      exact absurd here (unused id bound).2.2
    | ready c =>
      rw [here] at pending
      rw [Option.some.inj pending] at here
      exact absurd here (unused id bound).1
    | current u | written c | free c =>
      rw [here] at pending
      cases pending
  · right
    have seen := numbered.seen
    unfold Coming at coming
    unfold number at seen
    cases at_ : (s.workers tx.thread).pc with
    | running rest =>
      rw [at_] at coming seen
      exact coming.2.1 ▸ seen
    | publish after =>
      rw [at_] at coming seen
      obtain ⟨sn, entries, shape, bound, _⟩ := numbered.publish after at_
      rw [coming] at shape
      cases shape
      unfold number at bound
      rw [at_] at bound
      exact Nat.le_trans seen bound
    | getFree c after | reset c after | alloc after =>
      rw [at_] at coming seen
      rw [show after = some (tx.sn, tx.entries) from coming] at seen
      exact seen
    | setSN sn entries =>
      rw [at_] at coming seen
      exact coming.1 ▸ seen

theorem Durable.publishSN (owned : Owned thrs s place) (durable : Durable thrs s place)
    (pc : (s.tbufs b).pc = .publishSN)
    (noticed : ∀ tx ∈ s.transactions, tx.thread % 2 = b → (s.tbufs b).localsn tx.thread = 0 →
      minSN thrs (s.tbufs b).localsn ≤ tx.sn) (result : next = s.setTBuf b
      { s.tbufs b with
        safeSN := if 0 < minSN thrs (s.tbufs b).localsn then
          minSN thrs (s.tbufs b).localsn - 1 else 0
        pc := .idle }) : Durable thrs next place := by
  have guarded := durable.guarded b
  have localsn : ∀ c, (next.tbufs c).localsn = (s.tbufs c).localsn := by
    intro c
    by_cases same : c = b
    · subst same
      simp [result, State.setTBuf]
    · simp [result, State.setTBuf, same]
  have logs : ∀ c piece, piece ∈ (s.tbufs c).log → piece ∈ (next.tbufs c).log := by
    intro c piece mem
    by_cases same : c = b
    · subst same
      simpa [result, State.setTBuf] using mem
    · simpa [result, State.setTBuf, same] using mem
  have others : ∀ c, c ≠ b → (next.tbufs c).safeSN = (s.tbufs c).safeSN := by
    intro c different
    simp [result, State.setTBuf, different]
  have safe : (next.tbufs b).safeSN = minSN thrs (s.tbufs b).localsn - 1 := by
    simp only [result, State.setTBuf, update_self]
    split <;> omega
  have grown : (s.tbufs b).safeSN ≤ (next.tbufs b).safeSN := by
    rw [safe]
    rcases minSN_spec thrs (s.tbufs b).localsn with ⟨_, all⟩ | ⟨positive, ⟨t, inRange, least⟩, _⟩
    · rw [guarded.start all]
      exact Nat.zero_le _
    have own : t % 2 = b := by
      by_contra other
      have zero := guarded.other t other
      omega
    have above := guarded.seen t inRange own (by omega)
    omega
  have below : ∀ t, t < thrs → 0 < (s.tbufs b).localsn t →
      (next.tbufs b).safeSN < (s.tbufs b).localsn t := by
    intro t inRange seen
    rw [safe]
    rcases minSN_spec thrs (s.tbufs b).localsn with ⟨none_, _⟩ | ⟨positive, _, least⟩
    · omega
    · have least := least t inRange seen
      omega
  have unseen : ∀ tx ∈ s.transactions, tx.thread % 2 = b → (s.tbufs b).localsn tx.thread = 0 →
      (next.tbufs b).safeSN < tx.sn := by
    intro tx mem own zero
    have bound := noticed tx mem own zero
    have positive := (durable.proper tx mem).1
    rw [safe]
    omega
  refine durable.carry (result ▸ rfl) (result ▸ rfl) (fun _ => result ▸ ⟨rfl, rfl⟩) logs
    (fun _ _ stored => Or.inr (result ▸ stored)) ?_ ?_ ?_
  · intro t inRange
    refine (durable.numbered t inRange).keep (by rw [result]; rfl) (by rw [localsn])
      (by rw [result]; exact fun _ => id) (fun _ => by rw [result]; rfl) ?_
    intro id bound here
    rw [result] at bound ⊢
    exact ⟨bound, here, rfl⟩
  · intro c
    by_cases same : c = b
    · subst same
      constructor
      · intro tx mem own
        rw [result] at mem
        rcases durable.above owned pc mem own with logged | above
        · exact Or.inl (logged.mono logs)
        right
        by_cases zero : (s.tbufs c).localsn tx.thread = 0
        · exact unseen tx mem own zero
        · have inRange := (durable.proper tx mem).2.2
          exact Nat.lt_of_lt_of_le (below tx.thread inRange (Nat.pos_of_ne_zero zero)) above
      · intro tx mem own zero
        rw [localsn] at zero
        rw [result] at mem
        exact unseen tx mem own zero
      · intro t inRange _ seen
        rw [localsn] at seen ⊢
        exact below t inRange seen
      · rw [localsn]
        exact guarded.other
      · intro all
        rw [localsn] at all
        rw [safe]
        rcases minSN_spec thrs (s.tbufs c).localsn with ⟨none_, _⟩ | ⟨positive, ⟨t, inRange, least⟩, _⟩
        · omega
        · have zero := all t inRange
          omega
    · exact (durable.guarded c).keep (by rw [result]; rfl) (localsn c) (others c same) logs
  · refine durable.returned.keep (by rw [result]; rfl) (by rw [result]; rfl) ?_
    intro c
    by_cases same : c = b
    · subst same
      exact grown
    · exact Nat.le_of_eq (others c same).symm

theorem Returned.answer (returned : Returned thrs s) {result : Nat} (tbufs : next.tbufs = s.tbufs)
    (results : next.results = s.results ++ [result]) (reading : next.reading = none)
    (below : Below thrs s result) (above : ∀ earlier ∈ s.results, earlier ≤ result) :
    Returned thrs next := by
  constructor
  · intro answer mem
    unfold Below
    rw [tbufs]
    rw [results] at mem
    rcases List.mem_append.mp mem with old | new
    · exact returned.results answer old
    · rw [List.mem_singleton.mp new]
      exact below
  · intro first read
    rw [reading] at read
    cases read
  · rw [results]
    refine List.pairwise_append.mpr ⟨returned.sorted, List.pairwise_singleton _ _, ?_⟩
    intro earlier mem last new
    rw [List.mem_singleton.mp new]
    exact above earlier mem

theorem Durable.asked (durable : Durable thrs s place) (heap : next.heap = s.heap)
    (nextBuf : next.nextBuf = s.nextBuf) (workers : next.workers = s.workers)
    (tbufs : next.tbufs = s.tbufs) (transactions : next.transactions = s.transactions)
    (returned : Returned thrs next) : Durable thrs next place := by
  have logs : ∀ b piece, piece ∈ (s.tbufs b).log → piece ∈ (next.tbufs b).log := by
    rw [tbufs]
    exact fun _ _ => id
  refine durable.carry transactions workers (fun _ => heap ▸ ⟨rfl, rfl⟩) logs ?_ ?_
    (fun b => (durable.guarded b).keep transactions (by rw [tbufs]) (by rw [tbufs]) logs) returned
  · unfold Stored Keeps
    rw [heap, nextBuf, workers]
    exact fun _ _ => Or.inr
  · intro t inRange
    refine (durable.numbered t inRange).keep (by rw [workers]) (by rw [tbufs])
      (by rw [transactions]; exact fun _ => id) (fun _ => by rw [heap]) ?_
    exact fun id bound here => ⟨nextBuf ▸ bound, here, by rw [heap]⟩

theorem Durable.getSafeSN (durable : Durable thrs s place) :
    Durable thrs (LogBuffer.getSafeSN thrs s) place := by
  have returned := durable.returned
  unfold LogBuffer.getSafeSN
  by_cases two : 1 < thrs
  · rw [if_pos two]
    cases reading : s.reading with
    | none =>
      refine durable.asked rfl rfl rfl rfl rfl ⟨returned.results, ?_, returned.sorted⟩
      intro first read
      cases read
      exact ⟨two, Nat.le_refl _, fun result mem => (returned.results result mem).1⟩
    | some s0 =>
      refine durable.asked rfl rfl rfl rfl rfl ?_
      obtain ⟨_, below, above⟩ := returned.reading s0 reading
      refine returned.answer rfl rfl rfl ⟨?_, fun _ => ?_⟩ ?_
      · split <;> omega
      · split <;> omega
      · intro earlier mem
        have first := above earlier mem
        have second := (returned.results earlier mem).2 two
        split <;> omega
  · rw [if_neg two]
    refine durable.asked rfl rfl rfl rfl rfl ?_
    refine returned.answer rfl rfl ?_ ⟨Nat.le_refl _, fun more => absurd more two⟩ ?_
    · show s.reading = none
      cases reading : s.reading with
      | none => rfl
      | some first => exact absurd (returned.reading first reading).1 two
    · exact fun earlier mem => (returned.results earlier mem).1

end EunoDb.LogBuffer
