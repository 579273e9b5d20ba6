import EunoDb.LogBytes
import EunoDb.LogOwnership

/-! The space that `RecordTX` reserves. -/

namespace EunoDb.LogBuffer

open Execution

def reserved (entries : List Entry) : Nat := (entries.map fun entry => entry.record.estimate).sum

def appended (entries : List Entry) : Nat := (entries.map fun entry => entry.record.size).sum

def Record.Proper (record : Record) : Prop := 8 ≤ record.vlen ∧ record.seqno.toNat < 2 ^ 56

instance (record : Record) : Decidable record.Proper := inferInstanceAs (Decidable (_ ∧ _))

def reservable : Act → Prop
  | .update _ _ records =>
    (∀ record ∈ records, record.Proper) ∧ (records.map Record.estimate).sum ≤ bsize
  | .freeze _ | .worker _ | .writer _ | .getSafeSN => True

instance : (act : Act) → Decidable (reservable act)
  | .update _ _ _ => inferInstanceAs (Decidable (_ ∧ _))
  | .freeze _ | .worker _ | .writer _ | .getSafeSN => isTrue trivial

theorem Record.Proper.size {record : Record} (proper : record.Proper) :
    record.seqSize ≤ 8 ∧ record.size < record.estimate := by
  obtain ⟨long, small⟩ := proper
  have short : record.seqSize ≤ 8 := LogBytes.uvint64Size_le 9 _ 7 (by simpa using small)
  refine ⟨short, ?_⟩
  unfold Record.size Record.estimate
  split <;> omega

theorem appended_append (before after : List Entry) :
    appended (before ++ after) = appended before + appended after := by
  simp [appended]

theorem reserved_append (before after : List Entry) :
    reserved (before ++ after) = reserved before + reserved after := by
  simp [reserved]

theorem appended_le {entries : List Entry} (proper : ∀ entry ∈ entries, entry.record.Proper) :
    appended entries ≤ reserved entries := by
  induction entries with
  | nil => exact Nat.le_refl _
  | cons entry rest ih =>
    have first := (proper entry (List.mem_cons_self ..)).size.2
    have others := ih fun other mem => proper other (List.mem_cons_of_mem _ mem)
    simp only [appended, reserved, List.map_cons, List.sum_cons] at others ⊢
    omega

variable {lbuf : LocalPBuf} {entry : Entry} {pending : Pending} {id other : BufId}

theorem LocalPBuf.putRecord_buf {filled : LocalPBuf} (put : lbuf.putRecord entry = some filled) :
    filled.buf = lbuf.buf ++ [entry] := by
  unfold LocalPBuf.putRecord at put
  split at put <;> cases put
  rfl

theorem LocalPBuf.putRecord_fits (lbuf : LocalPBuf) (proper : entry.record.Proper)
    (room : lbuf.cur + entry.record.estimate ≤ bsize) :
    ∃ filled, lbuf.putRecord entry = some filled ∧ filled.buf = lbuf.buf ++ [entry] ∧
      filled.cur < bsize := by
  obtain ⟨short, less⟩ := proper.size
  refine ⟨_, if_pos ⟨short, by omega⟩, rfl, ?_⟩
  show lbuf.cur + entry.record.size < bsize
  omega

/-! ### The reservation of a worker -/

def Begun (s : State) (t : ThreadId) (done rest : List Entry) : Prop :=
  rest = [] ∨ ∃ tx ∈ s.transactions, tx.thread = t ∧ tx.entries = done ++ rest

def Asked (s : State) (t : ThreadId) : Pending → Prop
  | none => True
  | some (_, entries) => reserved entries ≤ bsize ∧ Begun s t [] entries

def Reserved (s : State) (t : ThreadId) : Prop :=
  match (s.workers t).pc with
  | .running rest => ∃ before done, (s.heap (s.workers t).lbuf).buf = before ++ done ∧
      appended before + reserved (done ++ rest) ≤ bsize ∧ Begun s t done rest
  | .setSN sn entries => (s.heap (s.workers t).lbuf).buf = [] ∧ Asked s t (some (sn, entries))
  | .publish after | .getFree _ after | .reset _ after | .alloc after => Asked s t after

structure Reserving (thrs : Nat) (s : State) : Prop where
  proper : ∀ tx ∈ s.transactions, ∀ entry ∈ tx.entries, entry.record.Proper
  room : ∀ t, t < thrs → Reserved s t

variable {s next : State} {thrs : Nat} {t : ThreadId} {place after : Places} {act : Act}

theorem Begun.mono {done rest : List Entry} (begun : Begun s t done rest)
    (grows : ∀ tx ∈ s.transactions, tx ∈ next.transactions) : Begun next t done rest :=
  begun.imp_right fun ⟨tx, mem, own, entries⟩ => ⟨tx, grows tx mem, own, entries⟩

theorem Asked.mono (asked : Asked s t pending)
    (grows : ∀ tx ∈ s.transactions, tx ∈ next.transactions) : Asked next t pending := by
  cases pending with
  | none => trivial
  | some pending => exact ⟨asked.1, asked.2.mono grows⟩

theorem Reserved.keep (room : Reserved s t) (worker : next.workers t = s.workers t)
    (grows : ∀ tx ∈ s.transactions, tx ∈ next.transactions)
    (buf : ∀ id, (s.workers t).held = some id → (next.heap id).buf = (s.heap id).buf) :
    Reserved next t := by
  unfold Reserved at room ⊢
  rw [worker]
  unfold Worker.held at buf
  split <;> rename_i pc <;> rw [pc] at room buf
  · obtain ⟨before, done, split, fits, begun⟩ := room
    exact ⟨before, done, (buf _ rfl).trans split, fits, begun.mono grows⟩
  · exact ⟨(buf _ rfl).trans room.1, room.2.mono grows⟩
  all_goals exact Asked.mono room grows

/-! ### Steps of others -/

def Act.thread : Act → Option ThreadId
  | .update t _ _ | .freeze t | .worker t => some t
  | .writer _ | .getSafeSN => none

structure Aside (s next : State) (act : Act) (thrs : Nat) : Prop where
  transactions : next.transactions = s.transactions ∨ ∃ t sn records,
    act = .update t sn records ∧ next.transactions = s.transactions ++ [⟨t, sn, s.entries records⟩]
  workers : ∀ t, act.thread ≠ some t → next.workers t = s.workers t
  bufs : ∀ t id, t < thrs → act.thread ≠ some t → (s.workers t).held = some id →
    (next.heap id).buf = (s.heap id).buf

theorem Owned.held_ne (owned : Owned thrs s place) {u : ThreadId} (inRange : t < thrs)
    (inRange' : u < thrs) (different : u ≠ t) (held : (s.workers t).held = some id)
    (held' : (s.workers u).held = some other) : other ≠ id := by
  rintro rfl
  have here := (owned.place_held inRange held).2
  rw [(owned.place_held inRange' held').2, Place.current.injEq] at here
  exact different here

theorem setBuf_buf (same : other = id → lbuf.buf = (s.heap id).buf) :
    ((s.setBuf id lbuf).heap other).buf = (s.heap other).buf := by
  by_cases this : other = id
  · subst this
    simpa [State.setBuf] using same rfl
  · simp [State.setBuf, this]

theorem Step.aside (owned : Owned thrs s place) (outcome : Step thrs s place act next after) :
    Aside s next act thrs := by
  have alone {t u : ThreadId} (other : some t ≠ some u) (worker : Worker) :
      Function.update s.workers t worker u = s.workers u :=
    Function.update_of_ne (fun same => other (by rw [same])) ..
  have apart {t u : ThreadId} {id mine : BufId} (inRange : t < thrs) (inRange' : u < thrs)
      (other : some t ≠ some u) (held : (s.workers t).held = some mine)
      (held' : (s.workers u).held = some id) : id ≠ mine :=
    owned.held_ne inRange inRange' (fun same => other (by rw [same])) held held'
  cases outcome with
  | fits | change =>
    exact ⟨Or.inr ⟨_, _, _, rfl, rfl⟩, fun u other => alone other _, fun _ _ _ _ _ => rfl⟩
  | nothing | detach | chainSkip | chainFirst | flush | walk | giveNothing | publishSN =>
    exact ⟨Or.inl rfl, fun _ _ => rfl, fun _ _ _ _ _ => rfl⟩
  | freeze | popNone | pop => exact ⟨Or.inl rfl, fun u other => alone other _, fun _ _ _ _ _ => rfl⟩
  | put inRange pc | setSN inRange pc | reset inRange pc =>
    refine ⟨Or.inl rfl, fun u other => alone other _, fun u id inRange' other held => ?_⟩
    exact setBuf_buf fun same =>
      absurd same (apart inRange inRange' other (by rw [Worker.held, pc]) held)
  | publish =>
    exact ⟨Or.inl rfl, fun u other => alone other _, fun _ _ _ _ _ => setBuf_buf fun _ => rfl⟩
  | alloc =>
    refine ⟨Or.inl rfl, fun u other => alone other _, fun u id inRange' other held => ?_⟩
    have bound := (owned.place_held inRange' held).1
    exact setBuf_buf fun same => absurd same (Nat.ne_of_lt bound)
  | chainNext | giveBack =>
    exact ⟨Or.inl rfl, fun _ _ => rfl, fun _ _ _ _ _ => setBuf_buf fun _ => rfl⟩
  | getSafeSN =>
    unfold LogBuffer.getSafeSN
    split
    · split <;> exact ⟨Or.inl rfl, fun _ _ => rfl, fun _ _ _ _ _ => rfl⟩
    · exact ⟨Or.inl rfl, fun _ _ => rfl, fun _ _ _ _ _ => rfl⟩

/-! ### A worker's own steps -/

theorem Asked.resume (asked : Asked s t pending)
    (worker : next.workers t = { pc := resume pending, lbuf := id }) (empty : next.heap id = {})
    (grows : ∀ tx ∈ s.transactions, tx ∈ next.transactions) : Reserved next t := by
  have nothing : (next.heap id).buf = [] := by rw [empty]
  unfold Reserved
  rw [worker]
  cases pending with
  | none => exact ⟨[], [], nothing, Nat.zero_le _, Or.inl rfl⟩
  | some pending => exact ⟨nothing, asked.mono grows⟩

theorem Reserved.worker (room : Reserved s t) (outcome : Step thrs s place (.worker t) next after) :
    Reserved next t := by
  unfold Reserved at room
  cases outcome with
  | @put _ entry rest lbuf inRange pc fits =>
    rw [pc] at room
    obtain ⟨before, done, split, fits', begun⟩ := room
    simp only [Reserved, State.setWorker, State.setBuf, Function.update_self]
    refine ⟨before, done ++ [entry], ?_, by rwa [List.append_assoc], ?_⟩
    · rw [LocalPBuf.putRecord_buf fits, split, List.append_assoc]
    · rw [Begun, List.append_assoc]
      exact Or.inr (begun.resolve_left (List.cons_ne_nil _ _))
  | publish inRange pc =>
    rw [pc] at room
    simp only [Reserved, publishLocalBuffer, State.setWorker, Function.update_self]
    exact Asked.mono room fun _ => id
  | pop inRange pc =>
    rw [pc] at room
    simp only [Reserved, State.setWorker, Function.update_self]
    exact Asked.mono room fun _ => id
  | popNone inRange pc =>
    rw [pc] at room
    simp only [Reserved, State.setWorker, Function.update_self]
    split <;> rename_i is
    all_goals split at is <;> cases is <;> exact Asked.mono room fun _ => id
  | reset inRange pc | alloc inRange pc =>
    rw [pc] at room
    exact Asked.resume room (Function.update_self ..) (Function.update_self ..) fun _ => id
  | setSN inRange pc =>
    rw [pc] at room
    obtain ⟨empty, fits, begun⟩ := room
    simp only [Reserved, State.setWorker, State.setBuf, Function.update_self]
    refine ⟨[], [], empty, by simpa [appended] using fits, begun⟩

theorem Reserved.update (room : Reserved s t) {sn : Nat} {records : List Record}
    (total : (records.map Record.estimate).sum ≤ bsize) :
    Reserved (writeUpdateRecords s t sn records) t := by
  have estimate : reserved (s.entries records) = (records.map Record.estimate).sum := by
    simp [reserved, State.entries, Function.comp_def]
  by_cases none_ : records = []
  · rwa [writeUpdateRecords, if_pos none_]
  have begun : Begun (writeUpdateRecords s t sn records) t [] (s.entries records) := by
    rw [Begun, writeUpdateRecords, if_neg none_]
    exact Or.inr ⟨_, List.mem_append_right _ (List.mem_singleton_self _), rfl, rfl⟩
  unfold Reserved
  rw [writeUpdateRecords, if_neg none_] at begun ⊢
  simp only [State.setWorker, Function.update_self]
  by_cases full : (s.heap (s.workers t).lbuf).emptySlotNum < (records.map Record.estimate).sum ∨
      (s.heap (s.workers t).lbuf).sn ≠ sn
  · rw [if_pos full]
    exact ⟨Nat.le_trans (Nat.le_of_eq estimate) total, begun⟩
  rw [if_neg full]
  refine ⟨_, [], (List.append_nil _).symm, ?_, begun⟩
  have room : ¬ (bsize : Int) - (s.heap (s.workers t).lbuf).cur <
    (records.map Record.estimate).sum := fun less => full (Or.inl less)
  rw [LocalPBuf.counted] at room
  change appended _ + reserved (s.entries records) ≤ bsize
  rw [estimate, appended]
  omega

theorem Reserving.step (reserving : Reserving thrs s) (owned : Owned thrs s place)
    (allowed : reservable act) (taken : step thrs s act = some next)
    (outcome : Step thrs s place act next after) : Reserving thrs next := by
  have aside := outcome.aside owned
  have grows : ∀ tx ∈ s.transactions, tx ∈ next.transactions := by
    rcases aside.transactions with same | ⟨_, _, _, -, more⟩
    · rw [same]
      exact fun _ => id
    · rw [more]
      exact fun _ => List.mem_append_left _
  constructor
  · rcases aside.transactions with same | ⟨_, _, records, rfl, more⟩
    · rw [same]
      exact reserving.proper
    intro tx mem entry inside
    rw [more, List.mem_append, List.mem_singleton] at mem
    rcases mem with old | rfl
    · exact reserving.proper tx old entry inside
    · obtain ⟨record, given, rfl⟩ := List.mem_map.mp inside
      exact allowed.1 record given
  intro t inRange
  have room := reserving.room t inRange
  by_cases mine : act.thread = some t
  · cases act with
    | update u sn records =>
      cases mine
      obtain ⟨ready, rfl⟩ := Option.ite_some_none_eq_some.mp taken
      exact room.update allowed.2
    | freeze u =>
      cases mine
      obtain ⟨ready, rfl⟩ := Option.ite_some_none_eq_some.mp taken
      simp [Reserved, State.setWorker, Asked]
    | worker u =>
      cases mine
      exact room.worker outcome
    | writer b | getSafeSN => cases mine
  · exact room.keep (aside.workers t mine) grows fun id => aside.bufs t id inRange mine

/-- Every transaction's records fit into what was reserved for it, in any run of the workers,
the writers and `FrozeAllBuffer`: at each `PutRecord`, the records of the transaction that were
put, with this one, are the last of one buffer and take no more bytes than were reserved, and
the call returns with `cur` inside the buffer. -/
theorem records_fit (thrs : Nat) (acts : List Act) (final : State)
    (reached : Execution.run (LogBuffer.step thrs) (created thrs) acts = some final)
    (allowed : ∀ act ∈ acts, reservable act) (t : ThreadId) (inRange : t < thrs) (entry : Entry)
    (rest : List Entry) (pc : (final.workers t).pc = .running (entry :: rest)) :
    ∃ filled before done, ∃ tx ∈ final.transactions,
      tx.thread = t ∧ tx.entries = done ++ entry :: rest ∧
      (final.heap (final.workers t).lbuf).buf = before ++ done ∧
      LogBuffer.step thrs final (.worker t) = some
        ((final.setBuf (final.workers t).lbuf filled).setWorker t
          { final.workers t with pc := .running rest }) ∧
      filled.buf = before ++ (done ++ [entry]) ∧
      appended (done ++ [entry]) ≤ reserved tx.entries ∧ filled.cur < bsize := by
  have kept : ∀ s act next, (∃ place, Owned thrs s place) ∧ Reserving thrs s → reservable act →
      LogBuffer.step thrs s act = some next →
      (∃ place, Owned thrs next place) ∧ Reserving thrs next := by
    rintro s act next ⟨⟨place, owned⟩, reserving⟩ allowed taken
    obtain ⟨after, outcome⟩ := step_cases taken place
    exact ⟨⟨after, owned.step outcome⟩, reserving.step owned allowed taken outcome⟩
  have started : Reserving thrs (created thrs) :=
    ⟨fun _ member => (List.not_mem_nil member).elim,
      fun _ _ => ⟨[], [], rfl, Nat.zero_le _, Or.inl rfl⟩⟩
  obtain ⟨-, proper, room⟩ := Execution.run_preserves kept ⟨⟨.current, created_owned thrs⟩, started⟩
    (Execution.each_of_forall allowed) reached
  have mine := room t inRange
  unfold Reserved at mine
  rw [pc] at mine
  obtain ⟨before, done, split, fits, begun⟩ := mine
  obtain ⟨tx, member, own, entries⟩ := begun.resolve_left (List.cons_ne_nil _ _)
  have all := proper tx member
  rw [entries] at all
  have first : entry.record.Proper := all entry (by simp)
  have before' : appended done ≤ reserved done :=
    appended_le fun other inside => all other (List.mem_append_left _ inside)
  have whole : reserved (done ++ entry :: rest) =
      reserved done + (entry.record.estimate + reserved rest) := by
    rw [reserved_append, reserved, reserved, List.map_cons, List.sum_cons, reserved]
  have more : appended (done ++ [entry]) = appended done + entry.record.size := by
    rw [appended_append, appended, appended, List.map_singleton, List.sum_singleton]
  have cur : (final.heap (final.workers t).lbuf).cur = appended before + appended done := by
    rw [← appended_append, ← split]
    exact LocalPBuf.counted _
  obtain ⟨filled, put, buf, inside⟩ := LocalPBuf.putRecord_fits _ first
    (show (final.heap (final.workers t).lbuf).cur + _ ≤ _ by omega)
  refine ⟨filled, before, done, tx, member, own, entries, split, ?_, ?_, ?_, inside⟩
  · rw [LogBuffer.step, if_pos inRange, workerStep, pc]
    simp only [put, Option.map_some]
  · rw [buf, split, List.append_assoc]
  · have less := first.size.2
    rw [entries, whole]
    omega

/-- Two transactions of a put and a deletion, over tables of other lengths, in one buffer. -/
def twoTransactions : List Act :=
  .update 0 5 [⟨0, 7, 1, some 3, 8⟩, ⟨1, 8, 2, none, 16⟩] :: List.replicate 7 (.worker 0) ++
    [.update 0 5 [⟨2, 9, 300, some 4, 24⟩, ⟨1, 8, 3, none, 16⟩], .worker 0]

theorem records_fit_deletion : ∃ final,
    Execution.run (LogBuffer.step 1) (created 1) twoTransactions = some final ∧
      (final.workers 0).pc = .running [⟨1, ⟨1, 8, 3, none, 16⟩⟩] ∧
      (final.heap (final.workers 0).lbuf).buf.length = 3 ∧
      ∃ filled before done, ∃ tx ∈ final.transactions,
        tx.entries = done ++ [⟨1, ⟨1, 8, 3, none, 16⟩⟩] ∧
        (final.heap (final.workers 0).lbuf).buf = before ++ done ∧
        LogBuffer.step 1 final (.worker 0) = some
          ((final.setBuf (final.workers 0).lbuf filled).setWorker 0
            { final.workers 0 with pc := .running [] }) ∧
        appended (done ++ [⟨1, ⟨1, 8, 3, none, 16⟩⟩]) ≤ reserved tx.entries ∧
        filled.cur < bsize := by
  obtain ⟨final, ran, shape⟩ : ∃ final, Execution.run (LogBuffer.step 1) (created 1)
      twoTransactions = some final ∧ ((final.workers 0).pc,
        (final.heap (final.workers 0).lbuf).buf.length) =
          (.running [⟨1, ⟨1, 8, 3, none, 16⟩⟩], 3) :=
    Option.map_eq_some_iff.mp (by decide +kernel)
  have pc := congrArg Prod.fst shape
  obtain ⟨filled, before, done, tx, mem, -, entries, split, put, -, fits, inside⟩ :=
    records_fit 1 twoTransactions final ran (by decide +kernel) 0 (by decide) _ _ pc
  exact ⟨final, ran, pc, congrArg Prod.snd shape, filled, before, done, tx, mem, entries, split, put,
    fits, inside⟩

end EunoDb.LogBuffer
