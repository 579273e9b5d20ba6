import EunoDb.SafeNumber

/-! The durable sequence number, apart from workers that their `Writer` has not seen yet. -/

namespace EunoDb.LogBuffer

open Function Execution

/-! ### Workers -/

variable {thrs : Nat} {s next : State} {place : Places} {t : ThreadId}

theorem Durable.own {after : Places} (owned : Owned thrs s place) (durable : Durable thrs s place)
    (steady : Steady s next) (workers : ∀ u, u ≠ t → next.workers u = s.workers u)
    (nextBuf : s.nextBuf ≤ next.nextBuf)
    (rest : ∀ id, id < s.nextBuf → place id ≠ .current t → (∀ b, place id ≠ .free b) →
      after id = place id ∧ (next.heap id).sn = (s.heap id).sn ∧
        (next.heap id).buf = (s.heap id).buf)
    (frozen : ∀ id b u, u ≠ t → id < next.nextBuf → after id = .frozen b u →
      id < s.nextBuf ∧ place id = .frozen b u) (kept : ∀ id, id < s.nextBuf → Keeps s place t id →
      Keeps next after t id ∧ (next.heap id).sn = (s.heap id).sn ∧
        (s.heap id).buf <+: (next.heap id).buf)
    (coming : ∀ tx ∈ s.transactions, tx.thread = t → Coming s tx →
      Stored next after tx ∨ Coming next tx) (numbered : Numbered next after t) :
    Durable thrs next after := by
  -- another worker's buffer is none that the step touches
  have lbuf : ∀ u, u ≠ t → u < thrs → (s.workers u).working = true →
      (next.heap (s.workers u).lbuf).sn = (s.heap (s.workers u).lbuf).sn ∧
        (next.heap (s.workers u).lbuf).buf = (s.heap (s.workers u).lbuf).buf := by
    intro u other inRange working
    have held : (s.workers u).held = some (s.workers u).lbuf := by
      unfold Worker.working at working
      unfold Worker.held
      cases pc : (s.workers u).pc with
      | running _ | publish _ | setSN _ _ => rfl
      | getFree _ _ | reset _ _ | alloc _ =>
        rw [pc] at working
        cases working
    obtain ⟨bound, here⟩ := (owned.held u _).mp ⟨inRange, held⟩
    refine (rest _ bound ?_ ?_).2
    · rw [here]
      simpa using other
    · rw [here]
      simp
  have theirs : ∀ tx ∈ s.transactions, tx.thread ≠ t → Stored s place tx ∨ Coming s tx →
      Stored next after tx ∨ Coming next tx := by
    intro tx mem other there
    rcases there with stored | coming
    · refine Or.inl (stored.move nextBuf ?_)
      intro id bound keeps
      have same := rest id bound ?_ ?_
      · exact ⟨keeps.move (workers _ other) (Or.inl same.1), same.2.1,
          same.2.2 ▸ List.prefix_refl _⟩
      · rintro here
        rcases keeps with ⟨current, _⟩ | ⟨pending, _⟩
        · rw [here] at current
          cases current
          exact other rfl
        · rw [here] at pending
          cases pending
      · rintro b here
        cases (keeps.waits here nofun).1
    · right
      have inRange := (durable.proper tx mem).2.2
      have same := lbuf tx.thread other inRange
      unfold Worker.working at same
      unfold Coming at coming ⊢
      rw [workers _ other]
      cases pc : (s.workers tx.thread).pc with
      | running rest =>
        rw [pc] at same coming
        rw [(same rfl).1, (same rfl).2]
        exact coming
      | publish _ | getFree _ _ | reset _ _ | alloc _ | setSN _ _ =>
        rw [pc] at coming
        exact coming
  constructor
  · rw [steady.transactions]
    exact durable.proper
  · intro tx mem
    rw [steady.transactions] at mem
    rcases durable.located tx mem with logged | there
    · exact Or.inl (logged.mono steady.grows)
    right
    by_cases own : tx.thread = t
    · rcases there with stored | comes
      · exact Or.inl (stored.move nextBuf (by rw [own]; exact kept))
      · exact coming tx mem own comes
    · exact theirs tx mem own there
  · intro u inRange
    by_cases same : u = t
    · exact same ▸ numbered
    refine (durable.numbered u inRange).keep (workers u same) (by rw [steady.localsn])
      (by rw [steady.transactions]; exact fun _ => id)
      (fun working => (lbuf u same inRange working).1) ?_
    intro id bound here
    obtain ⟨before, there⟩ := frozen id _ u same bound here
    exact ⟨before, there, (rest id before (by simp [there]) (by simp [there])).2.1⟩
  · exact fun b => (durable.guarded b).steady steady
  · exact durable.returned.keep steady.results steady.reading
      fun b => Nat.le_of_eq (steady.safeSN b).symm

theorem steady_setWorker (s : State) (t : ThreadId) (worker : Worker) :
    Steady s (s.setWorker t worker) :=
  ⟨rfl, fun _ => rfl, fun _ => rfl, fun _ _ => id, rfl, rfl⟩

theorem setWorker_self (s : State) (t : ThreadId) (worker : Worker) :
    (s.setWorker t worker).workers t = worker :=
  update_self ..

theorem setWorker_other (s : State) {u : ThreadId} (other : u ≠ t) (worker : Worker) :
    (s.setWorker t worker).workers u = s.workers u :=
  update_of_ne other ..

def WorkerPc.asked : WorkerPc → Option Pending
  | .getFree _ after | .reset _ after | .alloc after => some after
  | .running _ | .publish _ | .setSN _ _ => none

theorem asked_ne {pc : WorkerPc} (asked : pc.asked ≠ some none) (b id : Nat) :
    pc ≠ .getFree b none ∧ pc ≠ .reset id none ∧ pc ≠ .alloc none :=
  ⟨fun is => asked (is ▸ rfl), fun is => asked (is ▸ rfl), fun is => asked (is ▸ rfl)⟩

section Asked

variable {pending : Pending} (asked : (s.workers t).pc.asked = some pending)

include asked

theorem number_asked : number s t = (pending.map Prod.fst).getD 0 := by
  unfold number
  cases pc : (s.workers t).pc <;> rw [pc] at asked <;> cases asked <;> rfl

theorem working_asked : (s.workers t).working = false := by
  unfold Worker.working
  cases pc : (s.workers t).pc <;> rw [pc] at asked <;> cases asked

theorem coming_asked {tx : Transaction} (own : tx.thread = t) :
    Coming s tx ↔ pending = some (tx.sn, tx.entries) := by
  subst own
  unfold Coming
  cases pc : (s.workers tx.thread).pc <;> rw [pc] at asked <;> cases asked <;> exact Iff.rfl

theorem Durable.asked_some (durable : Durable thrs s place) (inRange : t < thrs) :
    ∃ sn entries, pending = some (sn, entries) := by
  cases pending with
  | some pending => exact ⟨pending.1, pending.2, rfl⟩
  | none =>
    have never := (durable.numbered t inRange).pending
    cases pc : (s.workers t).pc <;> rw [pc] at asked <;> cases asked
    · exact absurd pc (never _ 0).1
    · exact absurd pc (never 0 _).2.1
    · exact absurd pc (never 0 0).2.2

end Asked

variable {id : BufId} {lbuf : LocalPBuf} {after : Pending} {sn : Nat} {entries : List Entry}

section

variable (owned : Owned thrs s place) (durable : Durable thrs s place) (inRange : t < thrs)

include owned durable inRange

theorem Durable.fill {worker : Worker} (held : (s.workers t).held = some id)
    (result : next = (s.setBuf id lbuf).setWorker t worker) (grows : (s.workers t).working = true →
      worker.working = true ∧ lbuf.sn = (s.heap id).sn ∧ (s.heap id).buf <+: lbuf.buf)
    (coming : ∀ tx ∈ s.transactions, tx.thread = t → Coming s tx →
      Stored next place tx ∨ Coming next tx) (same : number next t = number s t)
    (pc : (∃ rest, worker.pc = .running rest) ∨ ∃ sn entries, worker.pc = .setSN sn entries) :
    Durable thrs next place := by
  obtain ⟨bound, here⟩ := owned.place_held inRange held
  have at_ : next.workers t = worker := by
    rw [result]
    exact setWorker_self ..
  have heap : ∀ other, other ≠ id → next.heap other = s.heap other := by
    intro other different
    simp [result, State.setBuf, State.setWorker, different]
  have self : next.heap id = lbuf := by
    simp [result, State.setBuf, State.setWorker]
  have nextBuf : next.nextBuf = s.nextBuf := result ▸ rfl
  have moved : ∀ other, place other ≠ .current t → other ≠ id := by
    rintro other elsewhere rfl
    exact elsewhere here
  refine durable.own owned (t := t) ?_ ?_ (Nat.le_of_eq nextBuf.symm) ?_ ?_ ?_ coming ?_
  · rw [result]
    exact ⟨rfl, fun _ => rfl, fun _ => rfl, fun _ _ mem => mem, rfl, rfl⟩
  · intro u other
    rw [result]
    exact setWorker_other _ other _
  · intro other _ elsewhere _
    rw [heap other (moved other elsewhere)]
    exact ⟨rfl, rfl, rfl⟩
  · intro other b u _ inside frozen
    exact ⟨nextBuf ▸ inside, frozen⟩
  · intro other inside keeps
    rcases keeps with ⟨current, working⟩ | pending
    · have it : other = id := by
        have there := ((owned.held t other).mpr ⟨inside, current⟩).2
        rw [held] at there
        exact (Option.some.inj there).symm
      subst it
      obtain ⟨works, sn, buf⟩ := grows working
      rw [self]
      exact ⟨Or.inl ⟨current, at_ ▸ works⟩, sn, buf⟩
    · have different : other ≠ id := by
        rintro rfl
        rw [here] at pending
        cases pending.1
      rw [heap other different]
      exact ⟨Or.inr pending, rfl, List.prefix_refl _⟩
  · refine (durable.numbered t inRange).own same (by rw [result]; rfl)
      (by rw [result]; exact fun _ mem => mem) ?_ ?_ ?_
    · intro other inside frozen
      refine ⟨nextBuf ▸ inside, frozen, ?_⟩
      rw [heap other (moved other (by simp [frozen]))]
    · rw [at_]
      intro after publishing
      rw [publishing] at pc
      rcases pc with ⟨_, running⟩ | ⟨_, _, setting⟩
      · cases running
      · cases setting
    · refine asked_ne ?_
      rw [at_]
      rcases pc with ⟨rest, running⟩ | ⟨sn, entries, setting⟩
      · simp [running, WorkerPc.asked]
      · simp [setting, WorkerPc.asked]

theorem Durable.put {entry : Entry} {rest : List Entry}
    (pc : (s.workers t).pc = .running (entry :: rest))
    (fits : (s.heap (s.workers t).lbuf).putRecord entry = some lbuf) :
    Durable thrs
      ((s.setBuf (s.workers t).lbuf lbuf).setWorker t { s.workers t with pc := .running rest })
      place := by
  have held : (s.workers t).held = some (s.workers t).lbuf := by simp [Worker.held, pc]
  obtain ⟨bound, here⟩ := owned.place_held inRange held
  have added : lbuf.sn = (s.heap (s.workers t).lbuf).sn ∧
      lbuf.buf = (s.heap (s.workers t).lbuf).buf ++ [entry] := by
    unfold LocalPBuf.putRecord at fits
    split at fits
    · cases fits
      exact ⟨rfl, rfl⟩
    · cases fits
  refine durable.fill owned inRange held rfl ?_ ?_ ?_ (Or.inl ⟨rest, rfl⟩)
  · exact fun _ => ⟨rfl, added.1, added.2 ▸ List.prefix_append ..⟩
  · intro tx _ own coming
    subst own
    unfold Coming at coming
    rw [pc] at coming
    obtain ⟨_, sn, old, done, buf, entries⟩ := coming
    cases rest with
    | nil =>
      -- the last record: the transaction is in the buffer
      left
      refine ⟨(s.workers tx.thread).lbuf, bound, Or.inl ⟨here, ?_⟩, ?_, ?_⟩
      · rw [setWorker_self]
        rfl
      · simp only [State.setWorker, State.setBuf, update_self]
        rw [added.2, buf, entries, List.append_assoc]
        exact (List.suffix_append ..).isInfix
      · simpa [State.setWorker, State.setBuf, added.1] using sn
    | cons second rest =>
      right
      unfold Coming
      rw [setWorker_self]
      refine ⟨by simp, ?_, old, done ++ [entry], ?_, by simp [entries]⟩
      · simpa [State.setWorker, State.setBuf, added.1] using sn
      · simp [State.setWorker, State.setBuf, added.2, buf]
  · unfold number
    rw [setWorker_self, pc]
    simp [State.setWorker, State.setBuf, added.1]

theorem Durable.reset (pc : (s.workers t).pc = .reset id after) :
    Durable thrs ((s.setBuf id {}).setWorker t { pc := resume after, lbuf := id }) place := by
  have asked : (s.workers t).pc.asked = some after := by rw [pc]; rfl
  obtain ⟨sn, entries, rfl⟩ := durable.asked_some asked inRange
  refine durable.fill owned inRange (by simp [Worker.held, pc]) rfl ?_ ?_ ?_
    (Or.inr ⟨sn, entries, rfl⟩)
  · simp [Worker.working, pc]
  · intro tx _ own coming
    cases (coming_asked asked own).mp coming
    subst own
    right
    unfold Coming
    rw [setWorker_self]
    exact ⟨rfl, rfl⟩
  · rw [number_asked asked]
    unfold number
    rw [setWorker_self]
    rfl

theorem Durable.setSN (pc : (s.workers t).pc = .setSN sn entries) :
    Durable thrs
      ((s.setBuf (s.workers t).lbuf ((s.heap (s.workers t).lbuf).setSN sn)).setWorker t
        { s.workers t with pc := .running entries })
      place := by
  refine durable.fill owned inRange (by simp [Worker.held, pc]) rfl ?_ ?_ ?_
    (Or.inl ⟨entries, rfl⟩)
  · simp [Worker.working, pc]
  · intro tx mem own coming
    subst own
    right
    unfold Coming at coming ⊢
    rw [pc] at coming
    rw [setWorker_self]
    obtain ⟨rfl, rfl⟩ := coming
    refine ⟨(durable.proper tx mem).2.1, ?_, (s.heap (s.workers tx.thread).lbuf).buf, [], ?_, rfl⟩
    · simp [State.setWorker, State.setBuf, LocalPBuf.setSN]
    · simp [State.setWorker, State.setBuf, LocalPBuf.setSN]
  · unfold number
    rw [setWorker_self, pc]
    simp [State.setWorker, State.setBuf, LocalPBuf.setSN]

theorem Durable.seek {after : Places} {pending : Pending}
    (asked : (s.workers t).pc.asked = some pending) (steady : Steady s next)
    (workers : ∀ u, u ≠ t → next.workers u = s.workers u) (nextBuf : s.nextBuf ≤ next.nextBuf)
    (heap : ∀ id, id < s.nextBuf → next.heap id = s.heap id)
    (places : ∀ id, id < s.nextBuf → (∀ b, place id ≠ .free b) → after id = place id)
    (frozen : ∀ id b u, id < next.nextBuf → after id = .frozen b u →
      id < s.nextBuf ∧ place id = .frozen b u)
    (then_ : (next.workers t).pc.asked = some pending ∨ (next.workers t).pc = resume pending) :
    Durable thrs next after := by
  obtain ⟨sn, entries, rfl⟩ := durable.asked_some asked inRange
  refine durable.own owned steady workers nextBuf ?_ ?_ ?_ ?_ ?_
  · intro id bound _ notFree
    rw [heap id bound]
    exact ⟨places id bound notFree, rfl, rfl⟩
  · exact fun id b u _ bound here => frozen id b u bound here
  · intro id bound keeps
    rw [heap id bound]
    rcases keeps with ⟨_, working⟩ | waits
    · rw [working_asked asked] at working
      cases working
    have notFree : ∀ b, place id ≠ .free b := by
      intro b free
      rw [free] at waits
      cases waits.1
    refine ⟨Or.inr ?_, rfl, List.prefix_refl _⟩
    rw [places id bound notFree]
    exact waits
  · intro tx _ own coming
    cases (coming_asked asked own).mp coming
    right
    rcases then_ with again | resumed
    · exact (coming_asked again own).mpr rfl
    · unfold Coming
      rw [own, resumed]
      exact ⟨rfl, rfl⟩
  refine (durable.numbered t inRange).own ?_ (by rw [steady.localsn])
    (by rw [steady.transactions]; exact fun _ => id) ?_ ?_ ?_
  · rw [number_asked asked]
    rcases then_ with again | resumed
    · rw [number_asked again]
    · unfold number
      rw [resumed]
      rfl
  · intro id bound here
    obtain ⟨inside, there⟩ := frozen id _ _ bound here
    exact ⟨inside, there, by rw [heap id inside]⟩
  · intro rest publishing
    rw [publishing] at then_
    rcases then_ with again | resumed
    · cases again
    · cases resumed
  · refine asked_ne ?_
    rcases then_ with again | resumed
    · rw [again]
      simp
    · rw [resumed]
      simp [resume, WorkerPc.asked]

theorem Durable.publish (pc : (s.workers t).pc = .publish after)
    (result : next = publishLocalBuffer s t after) :
    Durable thrs next (update place (s.workers t).lbuf (.frozen (t % 2) t)) := by
  have held : (s.workers t).held = some (s.workers t).lbuf := by simp [Worker.held, pc]
  obtain ⟨bound, here⟩ := owned.place_held inRange held
  have numbered := durable.numbered t inRange
  obtain ⟨sn, entries, rfl, above, recorded⟩ := numbered.publish after pc
  have now : number s t = (s.heap (s.workers t).lbuf).sn := by
    unfold number
    rw [pc]
  have at_ : (next.workers t).pc = .getFree 0 (some (sn, entries)) := by
    simp [result, publishLocalBuffer, State.setWorker]
  have then_ : number next t = sn := by
    unfold number
    rw [at_]
    rfl
  have heap : ∀ id, (next.heap id).sn = (s.heap id).sn ∧ (next.heap id).buf = (s.heap id).buf := by
    intro id
    by_cases same : id = (s.workers t).lbuf
    · subst same
      simp [result, publishLocalBuffer, State.setWorker, State.setTBuf, State.setBuf,
        LocalPBuf.setNext]
    · simp [result, publishLocalBuffer, State.setWorker, State.setTBuf, State.setBuf, same]
  have steady : Steady s next := by
    rw [result]
    exact steady_update (b := t % 2) rfl rfl rfl rfl rfl rfl fun _ mem => mem
  have nextBuf : next.nextBuf = s.nextBuf := result ▸ rfl
  refine durable.own owned (t := t) steady ?_ (Nat.le_of_eq nextBuf.symm) ?_ ?_ ?_ ?_ ?_
  · intro u other
    simp [result, publishLocalBuffer, State.setWorker, State.setTBuf, State.setBuf, other]
  · intro id _ elsewhere _
    have different : id ≠ (s.workers t).lbuf := by
      rintro rfl
      exact elsewhere here
    exact ⟨update_of_ne different .., heap id⟩
  · intro id b u other inside frozen
    by_cases same : id = (s.workers t).lbuf
    · subst same
      rw [update_self] at frozen
      cases frozen
      exact absurd rfl other
    · rw [update_of_ne same] at frozen
      exact ⟨nextBuf ▸ inside, frozen⟩
  · -- its buffer waits for the `Writer` now
    intro id inside keeps
    refine ⟨Or.inr ?_, (heap id).1, (heap id).2 ▸ List.prefix_refl _⟩
    by_cases same : id = (s.workers t).lbuf
    · subst same
      rw [update_self]
      exact ⟨rfl, fun u there => (Option.some.inj there).symm⟩
    rw [update_of_ne same]
    rcases keeps with ⟨current, _⟩ | waits
    · have there := ((owned.held t id).mpr ⟨inside, current⟩).2
      rw [held] at there
      exact absurd (Option.some.inj there).symm same
    · exact waits
  · intro tx _ own coming
    subst own
    right
    unfold Coming at coming ⊢
    rw [pc] at coming
    rw [at_]
    exact coming
  have kept : ∀ sn, Recorded s t sn → Recorded next t sn :=
    fun sn recorded => recorded.steady (by rw [steady.transactions]; exact fun _ => id)
  constructor
  · rw [steady.localsn, then_]
    exact Nat.le_trans numbered.seen above
  · intro id inside frozen
    rw [steady.localsn, then_, (heap id).1]
    by_cases same : id = (s.workers t).lbuf
    · subst same
      rw [← now]
      exact ⟨numbered.seen, above, kept _ numbered.recorded⟩
    · rw [update_of_ne same] at frozen
      obtain ⟨least, most, known⟩ := numbered.frozen id (nextBuf ▸ inside) frozen
      exact ⟨least, Nat.le_trans most above, kept _ known⟩
  · rw [then_]
    exact kept sn recorded
  · intro rest publishing
    rw [at_] at publishing
    cases publishing
  · rw [at_]
    simp

end

theorem Durable.record (durable : Durable thrs s place) {then_ : WorkerPc} (inRange : t < thrs)
    (pc : (s.workers t).pc = .running []) (some_ : entries ≠ []) (positive : 0 < sn)
    (ordered : ∀ tx ∈ s.transactions, tx.thread = t → tx.sn ≤ sn)
    (noticed : (s.tbufs (t % 2)).localsn t = 0 → (s.tbufs (t % 2)).safeSN < sn)
    (shape : then_ = .running entries ∧ (s.heap (s.workers t).lbuf).sn = sn ∨
      then_ = .publish (some (sn, entries)))
    (result : next = { s.setWorker t { s.workers t with pc := then_ } with
      transactions := s.transactions ++ [⟨t, sn, entries⟩] }) : Durable thrs next place := by
  have numbered := durable.numbered t inRange
  have worker : next.workers t = { s.workers t with pc := then_ } := by
    rw [result]
    exact setWorker_self ..
  have others : ∀ u, u ≠ t → next.workers u = s.workers u := by
    intro u other
    rw [result]
    exact setWorker_other _ other _
  have heap : next.heap = s.heap := result ▸ rfl
  have tbufs : next.tbufs = s.tbufs := result ▸ rfl
  have nextBuf : next.nextBuf = s.nextBuf := result ▸ rfl
  have transactions : next.transactions = s.transactions ++ [⟨t, sn, entries⟩] := by
    rw [result]
  have old : ∀ tx ∈ s.transactions, tx ∈ next.transactions := by
    intro tx mem
    rw [transactions]
    exact List.mem_append_left _ mem
  have logs : ∀ b piece, piece ∈ (s.tbufs b).log → piece ∈ (next.tbufs b).log := by
    rw [tbufs]
    exact fun _ _ => id
  have working : (next.workers t).working = true := by
    rw [worker]
    rcases shape with ⟨rfl, _⟩ | rfl <;> rfl
  have now : number s t = (s.heap (s.workers t).lbuf).sn := by
    unfold number
    rw [pc]
  have then_number : number next t = number s t := by
    rw [now]
    unfold number
    rw [worker, heap]
    rcases shape with ⟨rfl, _⟩ | rfl <;> rfl
  -- the worker's earlier numbers are not above the new one
  have above : number s t ≤ sn := by
    rcases numbered.recorded with zero | ⟨tx, mem, own, same⟩
    · omega
    · rw [← same]
      exact ordered tx mem own
  have fresh : (s.tbufs (t % 2)).safeSN < sn := by
    by_cases zero : (s.tbufs (t % 2)).localsn t = 0
    · exact noticed zero
    · have seen := (durable.guarded (t % 2)).seen t inRange rfl (Nat.pos_of_ne_zero zero)
      have least := numbered.seen
      omega
  have recorded : Recorded next t sn := by
    refine Or.inr ⟨⟨t, sn, entries⟩, ?_, rfl, rfl⟩
    rw [transactions]
    exact List.mem_append_right _ List.mem_cons_self
  constructor
  · intro tx mem
    rw [transactions] at mem
    rcases List.mem_append.mp mem with before | new
    · exact durable.proper tx before
    · rw [List.mem_singleton.mp new]
      exact ⟨positive, some_, inRange⟩
  · intro tx mem
    rw [transactions] at mem
    rcases List.mem_append.mp mem with before | new
    · rcases durable.located tx before with logged | stored | coming
      · exact Or.inl (logged.mono logs)
      · refine Or.inr (Or.inl (stored.move (Nat.le_of_eq nextBuf.symm) ?_))
        intro id _ keeps
        rw [heap]
        refine ⟨keeps.imp_left ?_, rfl, List.prefix_refl _⟩
        rintro ⟨current, works⟩
        by_cases own : tx.thread = t
        · exact ⟨current, own ▸ working⟩
        · exact ⟨current, by rw [others _ own]; exact works⟩
      · refine Or.inr (Or.inr ?_)
        unfold Coming at coming ⊢
        by_cases own : tx.thread = t
        · rw [own, pc] at coming
          exact absurd rfl coming.1
        · rw [others _ own, heap]
          exact coming
    · rw [List.mem_singleton.mp new]
      refine Or.inr (Or.inr ?_)
      unfold Coming
      rw [worker, heap]
      rcases shape with ⟨rfl, same⟩ | rfl
      · exact ⟨some_, same, (s.heap (s.workers t).lbuf).buf, [], by simp, rfl⟩
      · rfl
  · intro u bound
    by_cases same : u = t
    · subst same
      constructor
      · rw [tbufs, then_number]
        exact numbered.seen
      · intro id inside frozen
        rw [tbufs, then_number, heap]
        obtain ⟨least, most, known⟩ := numbered.frozen id (nextBuf ▸ inside) frozen
        exact ⟨least, most, known.steady old⟩
      · rw [then_number]
        exact numbered.recorded.steady old
      · intro after publishing
        rw [worker] at publishing
        rcases shape with ⟨rfl, _⟩ | rfl
        · cases publishing
        · cases publishing
          exact ⟨sn, entries, rfl, then_number ▸ above, recorded⟩
      · rw [worker]
        rcases shape with ⟨rfl, _⟩ | rfl <;> simp
    · refine (durable.numbered u bound).keep (others u same) (by rw [tbufs]) old
        (fun _ => by rw [heap]) ?_
      exact fun id inside frozen => ⟨nextBuf ▸ inside, frozen, by rw [heap]⟩
  · intro b
    have guarded := durable.guarded b
    constructor
    · intro tx mem own
      rw [transactions] at mem
      rw [tbufs]
      rcases List.mem_append.mp mem with before | new
      · exact (guarded.unwritten tx before own).imp_left fun logged => logged.mono logs
      · rw [List.mem_singleton.mp new] at own ⊢
        exact Or.inr (own ▸ fresh)
    · intro tx mem own zero
      rw [transactions] at mem
      rw [tbufs] at zero ⊢
      rcases List.mem_append.mp mem with before | new
      · exact guarded.unseen tx before own zero
      · rw [List.mem_singleton.mp new] at own ⊢
        exact own ▸ fresh
    · rw [tbufs]
      exact guarded.seen
    · rw [tbufs]
      exact guarded.other
    · rw [tbufs]
      exact guarded.start
  · refine durable.returned.keep (by rw [result]; rfl) (by rw [result]; rfl) ?_
    rw [tbufs]
    exact fun _ => Nat.le_refl _

/-! ### Runs -/

def inOrder (s : State) : Act → Prop
  | .update t sn _ => 0 < sn ∧ ∀ tx ∈ s.transactions, tx.thread = t → tx.sn ≤ sn
  | .freeze _ => False
  | .worker _ | .writer _ | .getSafeSN => True

def noticed (thrs : Nat) (s : State) : Act → Prop
  | .update t sn _ => (s.tbufs (t % 2)).localsn t = 0 → (s.tbufs (t % 2)).safeSN < sn
  | .writer b => (s.tbufs b).pc = .publishSN → ∀ tx ∈ s.transactions, tx.thread % 2 = b →
      (s.tbufs b).localsn tx.thread = 0 → minSN thrs (s.tbufs b).localsn ≤ tx.sn
  | .freeze _ | .worker _ | .getSafeSN => True

instance (s : State) : (act : Act) → Decidable (inOrder s act)
  | .update _ _ _ => inferInstanceAs (Decidable (_ ∧ _))
  | .freeze _ => inferInstanceAs (Decidable False)
  | .worker _ | .writer _ | .getSafeSN => inferInstanceAs (Decidable True)

instance (thrs : Nat) (s : State) : (act : Act) → Decidable (noticed thrs s act)
  | .update _ _ _ => inferInstanceAs (Decidable (_ → _))
  | .writer _ => inferInstanceAs (Decidable (_ → _))
  | .freeze _ | .worker _ | .getSafeSN => inferInstanceAs (Decidable True)

theorem Durable.step {act : Act} {after : Places} (owned : Owned thrs s place)
    (published : Published s place) (durable : Durable thrs s place) (ordered : inOrder s act)
    (admitted : noticed thrs s act) (taken : Step thrs s place act next after) :
    Durable thrs next after := by
  have entries : ∀ {records : List Record}, records ≠ [] → s.entries records ≠ [] := by
    intro records some_
    simpa [State.entries] using some_
  -- linking buffers leaves their numbers and records
  have linked : ∀ last next id,
      ((s.setBuf last ((s.heap last).setNext next)).heap id).sn = (s.heap id).sn ∧
        ((s.setBuf last ((s.heap last).setNext next)).heap id).buf = (s.heap id).buf := by
    intro last next id
    by_cases same : id = last <;> simp [State.setBuf, LocalPBuf.setNext, same]
  cases taken with
  | nothing inRange => exact durable
  | fits inRange pc some_ same =>
    exact durable.record inRange pc (entries some_) ordered.1 ordered.2 admitted
      (Or.inl ⟨rfl, same⟩) rfl
  | change inRange pc some_ =>
    exact durable.record inRange pc (entries some_) ordered.1 ordered.2 admitted
      (Or.inr rfl) rfl
  | freeze inRange pc => exact ordered.elim
  | put inRange pc fits => exact durable.put owned inRange pc fits
  | publish inRange pc => exact durable.publish owned inRange pc rfl
  | @pop t b pending id inRange pc found =>
    obtain ⟨nodes, linked, members⟩ := (owned.serves b).free
    rw [found] at linked
    have free : place id = .free b := by
      cases linked with
      | cons behind => exact ((members id).mp List.mem_cons_self).2
    refine durable.seek owned inRange (by rw [pc]; rfl) (steady_update rfl rfl rfl rfl rfl rfl
      fun _ mem => mem) (fun u other => setWorker_other _ other _) (Nat.le_refl _)
      (fun _ _ => rfl) ?_ ?_ (Or.inl (by rw [setWorker_self]; rfl))
    · intro other _ notFree
      refine update_of_ne ?_ ..
      rintro rfl
      exact notFree b free
    intro other c u inside frozen
    by_cases same : other = id
    · rw [same, update_self] at frozen
      cases frozen
    · rw [update_of_ne same] at frozen
      exact ⟨inside, frozen⟩
  | @popNone t b pending inRange pc empty =>
    refine durable.seek owned inRange (by rw [pc]; rfl) (steady_setWorker ..)
      (fun u other => setWorker_other _ other _) (Nat.le_refl _) (fun _ _ => rfl)
      (fun _ _ _ => rfl) (fun _ _ _ inside frozen => ⟨inside, frozen⟩) ?_
    rw [setWorker_self]
    by_cases first : b = 0
    · exact Or.inl (by simp [first, WorkerPc.asked])
    · exact Or.inl (by simp [first, WorkerPc.asked])
  | reset inRange pc => exact durable.reset owned inRange pc
  | @alloc t pending inRange pc =>
    refine durable.seek owned inRange (by rw [pc]; rfl) ⟨rfl, fun _ => rfl, fun _ => rfl,
      fun _ _ mem => mem, rfl, rfl⟩ (fun u other => setWorker_other _ other _)
      (Nat.le_succ _) ?_ ?_ ?_ ?_
    · intro id inside
      simp [State.setWorker, State.setBuf, Nat.ne_of_lt inside]
    · intro id inside _
      exact update_of_ne (Nat.ne_of_lt inside) ..
    · intro id b u inside frozen
      by_cases same : id = s.nextBuf
      · rw [same, update_self] at frozen
        cases frozen
      · rw [update_of_ne same] at frozen
        exact ⟨Nat.lt_of_le_of_ne (Nat.le_of_lt_succ inside) same, frozen⟩
    · exact Or.inr (by simp [State.setWorker])
  | setSN inRange pc => exact durable.setSN owned inRange pc
  | detach inRange pc => exact durable.detach owned published rfl
  | chainSkip inRange pc more empty | giveNothing inRange pc tail =>
    exact durable.writer (steady_setTBuf rfl rfl fun _ => id) rfl rfl (fun _ => ⟨rfl, rfl⟩)
      (fun _ _ => Or.inr) (fun _ _ _ => id)
  | @chainFirst b i cur inRange pc more found first =>
    refine durable.writer (steady_setTBuf rfl rfl fun _ => id) rfl rfl (fun _ => ⟨rfl, rfl⟩) ?_ ?_
    · intro tx _ stored
      refine Or.inr (stored.move (Nat.le_refl _) ?_)
      exact fun id _ keeps => ⟨keeps.move rfl (chained_keeps keeps), rfl, List.prefix_refl _⟩
    · exact fun id c t => (transfer_eq (by simp) (by simp)).mp
  | @chainNext b i cur last inRange pc more found tail =>
    refine durable.writer (steady_update rfl rfl rfl rfl rfl rfl fun _ mem => mem) rfl rfl
      (linked last (some cur)) ?_ ?_
    · intro tx _ stored
      refine Or.inr (stored.move (Nat.le_refl _) ?_)
      intro id _ keeps
      obtain ⟨sn, buf⟩ := linked last (some cur) id
      exact ⟨keeps.move rfl (chained_keeps keeps), sn, buf ▸ List.prefix_refl _⟩
    · exact fun id c t => (transfer_eq (by simp) (by simp)).mp
  | @flush b i inRange pc done =>
    have batch := (owned.serves b).batch
    refine durable.writer (steady_setTBuf rfl rfl fun _ => List.mem_append_left _) rfl rfl
      (fun _ => ⟨rfl, rfl⟩) ?_ ?_
    · intro tx _ stored
      refine stored.writev ⟨rfl, rfl, rfl, ?_, ?_⟩ rfl batch.ready batch.collected
      · simp [State.setTBuf, LogBuffer.writev]
      · intro c other
        simp [State.setTBuf, other]
    · exact fun id c t => (transfer_eq (by simp) (by simp)).mp
  | @walk b i cur inRange pc =>
    obtain ⟨localsn, safeSN, grows⟩ := collect_numbers s.heap (s.tbufs b) cur
    refine durable.writer (steady_setTBuf localsn safeSN grows) rfl rfl
      (fun _ => ⟨rfl, rfl⟩) ?_ ?_
    · intro tx mem stored
      exact stored.walk owned pc (durable.proper tx mem).2.1 rfl
    · intro id c t there
      exact (walked_other s ((owned.serves b).ahead pc).2 (by simp) (by simp) (by simp)).mp there
  | @giveBack b last inRange pc tail =>
    refine durable.writer (steady_update rfl rfl rfl rfl rfl rfl fun _ mem => mem) rfl rfl
      (linked last (s.tbufs b).freebufs) ?_ ?_
    · intro tx _ stored
      refine Or.inr (stored.move (Nat.le_refl _) ?_)
      intro id _ keeps
      obtain ⟨sn, buf⟩ := linked last (s.tbufs b).freebufs id
      exact ⟨keeps.move rfl (Or.inl (givenBack_keeps keeps)), sn, buf ▸ List.prefix_refl _⟩
    · exact fun id c t => (transfer_eq (by simp) (by simp)).mp
  | publishSN inRange pc => exact durable.publishSN owned pc (admitted pc) rfl
  | getSafeSN => exact durable.getSafeSN

theorem created_durable (thrs : Nat) : Durable thrs (created thrs) .current where
  proper := fun _ mem => by cases mem
  located := fun _ mem => by cases mem
  numbered := fun t _ =>
    { seen := Nat.zero_le _
      frozen := fun _ _ here => by cases here
      recorded := Or.inl rfl
      publish := fun _ pc => by cases pc
      pending := fun _ _ => by simp [created] }
  guarded := fun b =>
    { unwritten := fun _ mem => by cases mem
      unseen := fun _ mem => by cases mem
      seen := fun _ _ _ seen => by cases seen
      other := fun _ _ => rfl
      start := fun _ => rfl }
  returned :=
    { results := fun _ mem => by cases mem
      reading := fun _ read => by cases read
      sorted := List.Pairwise.nil }

/-- In every run in which no worker unseen by its `Writer` is at or below the safe
number, what `GetSafeSN` returned covers only logged transactions, and its results
do not decrease. -/
theorem safeSN_durable (thrs : Nat) (acts : List Act) (final : State)
    (ordered : Execution.Each (step thrs) inOrder (created thrs) acts)
    (admitted : Execution.Each (step thrs) (noticed thrs) (created thrs) acts)
    (reached : Execution.run (step thrs) (created thrs) acts = some final) :
    (∀ result ∈ final.results, ∀ tx ∈ final.transactions, tx.sn ≤ result → Logged final tx) ∧
      final.results.Pairwise (· ≤ ·) := by
  have carried : ∀ s act next,
      (∃ place, Owned thrs s place ∧ Published s place ∧ Durable thrs s place) →
      inOrder s act ∧ noticed thrs s act → step thrs s act = some next →
      ∃ place, Owned thrs next place ∧ Published next place ∧ Durable thrs next place := by
    rintro s act next ⟨place, owned, published, durable⟩ ⟨order, notice⟩ taken
    obtain ⟨after, outcome⟩ := step_cases taken place
    exact ⟨after, owned.step outcome, published.step owned outcome,
      durable.step owned published order notice outcome⟩
  obtain ⟨place, _, _, durable⟩ := Execution.run_preserves carried
    ⟨.current, created_owned thrs, created_published thrs, created_durable thrs⟩
    (Execution.each_and ordered admitted) reached
  refine ⟨?_, durable.returned.sorted⟩
  intro result returned tx member bound
  have below := durable.returned.results result returned
  have inRange := (durable.proper tx member).2.2
  rcases (durable.guarded (tx.thread % 2)).unwritten tx member rfl with logged | above
  · exact logged
  · -- the safe number of the worker's own `Writer` is not below the result
    have least : result ≤ (final.tbufs (tx.thread % 2)).safeSN := by
      rcases Nat.mod_two_eq_zero_or_one tx.thread with even | odd
      · rw [even]
        exact below.1
      · rw [odd]
        rcases Nat.eq_zero_or_pos tx.thread with zero | positive
        · rw [zero] at odd
          cases odd
        · exact below.2 (Nat.lt_of_le_of_lt positive inRange)
    omega

def changing (t : ThreadId) (sn : Nat) : List Act :=
  .update t sn [⟨0, 7, 1, some 3, 8⟩] :: List.replicate 6 (.worker t)

def bothSeen : List Act :=
  changing 0 5 ++ changing 1 6 ++ changing 0 7 ++ changing 1 7 ++ List.replicate 8 (.writer 0) ++
    List.replicate 8 (.writer 1) ++ [.getSafeSN, .getSafeSN] ++ (changing 0 8).take 5 ++
    (changing 1 9).take 5 ++ List.replicate 8 (.writer 0) ++ List.replicate 8 (.writer 1) ++
    [.getSafeSN, .getSafeSN]

theorem safeSN_durable_bothSeen : ∃ final,
    Execution.run (step 2) (created 2) bothSeen = some final ∧ final.results = [4, 6] ∧
      final.transactions.map Transaction.sn = [5, 6, 7, 7, 8, 9] ∧
      (∀ result ∈ final.results, ∀ tx ∈ final.transactions, tx.sn ≤ result → Logged final tx) ∧
      final.results.Pairwise (· ≤ ·) := by
  have seen : (Execution.run (step 2) (created 2) bothSeen).map
      (fun final => (final.results, final.transactions.map Transaction.sn)) =
        some ([4, 6], [5, 6, 7, 7, 8, 9]) := by decide +kernel
  obtain ⟨final, reached, shape⟩ := Option.map_eq_some_iff.mp seen
  exact ⟨final, reached, congrArg Prod.fst shape, congrArg Prod.snd shape,
    safeSN_durable 2 bothSeen final (by decide +kernel) (by decide +kernel) reached⟩

def unseen : List Act :=
  changing 2 5 ++ changing 0 10 ++ changing 1 10 ++ changing 0 11 ++ changing 1 11 ++
    List.replicate 10 (.writer 0) ++ List.replicate 9 (.writer 1) ++ [.getSafeSN, .getSafeSN]

def seenLate : List Act :=
  .update 2 6 [⟨0, 8, 1, some 3, 8⟩] :: .worker 2 :: List.replicate 8 (.writer 0) ++
    [.getSafeSN, .getSafeSN]

instance (s : State) (tx : Transaction) : Decidable (Logged s tx) :=
  inferInstanceAs (Decidable (∃ piece ∈ _, _))

theorem safeSN_skips_unseen : ∃ middle final,
    Execution.Each (step 3) inOrder (created 3) (unseen ++ seenLate) ∧
      Execution.run (step 3) (created 3) unseen = some middle ∧
      Execution.run (step 3) middle seenLate = some final ∧
      middle.results = [9] ∧ (∃ tx ∈ middle.transactions, tx.sn = 5 ∧ ¬ Logged middle tx) ∧
      final.results = [9, 4] := by
  have before : (Execution.run (step 3) (created 3) unseen).map (fun middle =>
      (middle.results, decide (∃ tx ∈ middle.transactions, tx.sn = 5 ∧ ¬ Logged middle tx),
        (Execution.run (step 3) middle seenLate).map State.results)) =
      some ([9], true, some [9, 4]) := by decide +kernel
  obtain ⟨middle, reached, shape⟩ := Option.map_eq_some_iff.mp before
  simp only [Prod.mk.injEq, decide_eq_true_eq] at shape
  obtain ⟨results, lost, after⟩ := shape
  obtain ⟨final, finished, last⟩ := Option.map_eq_some_iff.mp after
  exact ⟨middle, final, by decide +kernel, reached, finished, results, lost, last⟩

end EunoDb.LogBuffer
