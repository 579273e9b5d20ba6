import EunoDb.Layout

/-! Read-write transactions are serializable in the order of their `End` sections. -/

namespace EunoDb.Machine

open Memstore TxSets History Execution

abbrev Entry := TableId × Key

def report (value : Value) : Bool × Value := (validateValue value, value)

def Event.access : Event → Access Entry Value (Bool × Value)
  | .get tableid key found val => .read (tableid, key) (found, val)
  | .put tableid key val => .write (tableid, key) val

def accesses (events : List Event) : List (Access Entry Value (Bool × Value)) :=
  events.map Event.access

def serialized (log : List Commit) : List (Access Entry Value (Bool × Value)) :=
  log.flatMap fun commit => accesses commit.events

def State.contents (s : State) (entry : Entry) : Value :=
  match s.table entry.1 entry.2 with
  | some node => (s.heap node).value
  | none => .logicalDelete

def Agrees (s : State) (readset : ReadSet Empty) (view : Entry → Value) : Prop :=
  ∀ pair ∈ readset.seqs, pair.seq = (s.heap pair.seqptr).seq ∧
    ∀ tableid key, s.table tableid key = some pair.seqptr →
      view (tableid, key) = (s.heap pair.seqptr).value

structure InTx (s : State) (th : Thread) : Prop where
  writes : th.writeset.map (fun kv => ((kv.tableid, kv.key), kv.val)) =
    written (accesses th.events)
  labels : ∀ pair ∈ th.readset.seqs, 0 ≤ pair.label
  pairs : ∀ pair ∈ th.readset.seqs, s.main pair.seqptr ∧ pair.seq ≤ (s.heap pair.seqptr).seq
  reads : ∀ view, Agrees s th.readset view →
    replay report view (accesses th.events) = some (content view (written (accesses th.events)))

def AtPc (s : State) (th : Thread) : Prop :=
  match th.pc with
  | .getFind tableid key _ => latest (written (accesses th.events)) (tableid, key) = none
  | .getSection tableid key _ _ => latest (written (accesses th.events)) (tableid, key) = none
  | .getCheck tableid key node =>
    latest (written (accesses th.events)) (tableid, key) = none ∧
      ∃ pair ∈ th.readset.seqs, pair.seqptr = node
  | .getRead tableid key node =>
    latest (written (accesses th.events)) (tableid, key) = none ∧
      ∃ pair ∈ th.readset.seqs, pair.seqptr = node ∧
        (pair.seq = (s.heap node).seq → validateValue (s.heap node).value = true)
  | _ => True

/-! ### Other threads' steps -/

variable {s next middle : State} {th own : Thread} {cfg : Config} {t : ThreadId}

variable {view base : Entry → Value} {tableid : TableId} {key : Key} {value : Value}
  {other : Thread}

theorem Agrees.back {readset : ReadSet Empty} (grows : Grows s next)
    (pairs : ∀ pair ∈ readset.seqs, s.main pair.seqptr ∧ pair.seq ≤ (s.heap pair.seqptr).seq)
    (agrees : Agrees next readset view) : Agrees s readset view := by
  intro pair mem
  obtain ⟨record, bound⟩ := pairs pair mem
  obtain ⟨current, holds⟩ := agrees pair mem
  have rise := grows.seq record
  have still : (next.heap pair.seqptr).seq = (s.heap pair.seqptr).seq := by omega
  refine ⟨current.trans still, ?_⟩
  intro tableid key mapped
  rw [holds tableid key (grows.table mapped)]
  exact grows.value record still

theorem InTx.mono (inTx : InTx s th) (grows : Grows s next) :
    InTx next th where
  writes := inTx.writes
  labels := inTx.labels
  pairs := fun pair mem =>
    ⟨grows.main (inTx.pairs pair mem).1,
      le_trans (inTx.pairs pair mem).2 (grows.seq (inTx.pairs pair mem).1)⟩
  reads := fun view agrees => inTx.reads view (agrees.back grows inTx.pairs)

theorem AtPc.mono (atPc : AtPc s th) (inTx : th.pc.inTx = true → InTx s th) (grows : Grows s next) :
    AtPc next th := by
  unfold AtPc at atPc ⊢
  cases pc : th.pc with
  | getRead tableid key node =>
    simp only [pc] at atPc
    obtain ⟨unwritten, pair, mem, rfl, valid⟩ := atPc
    refine ⟨unwritten, pair, mem, rfl, ?_⟩
    intro current
    obtain ⟨record, bound⟩ := (inTx (by rw [pc]; rfl)).pairs pair mem
    have rise := grows.seq record
    have still : (next.heap pair.seqptr).seq = (s.heap pair.seqptr).seq := by omega
    rw [grows.value record still]
    exact valid (current.trans still)
  | getFind tableid key label | getSection tableid key label node | getCheck tableid key node =>
    simpa only [pc] using atPc
  | _ => trivial

/-! ### The thread's own steps -/

theorem inTx_begin (s : State) (th : Thread) (readset : th.readset = {})
    (writeset : th.writeset = []) (events : th.events = []) : InTx s th := by
  constructor
  · simp [writeset, events, accesses, written]
  · simp [readset]
  · simp [readset]
  · intro view _
    rw [events]
    rfl

theorem InTx.finishGet (inTx : InTx s th) {clock : Nat} {found : Bool} {val : Value}
    (answer : ∀ view, Agrees s th.readset view →
      (found, val) = report (content view (written (accesses th.events)) (tableid, key))) :
    InTx s (finishGet th clock tableid key found val) := by
  have events : accesses (Machine.finishGet th clock tableid key found val).events =
      accesses th.events ++ [.read (tableid, key) (found, val)] := by
    simp [Machine.finishGet, accesses, Event.access]
  have unchanged : written (accesses (Machine.finishGet th clock tableid key found val).events) =
      written (accesses th.events) := by
    rw [events, written_append]
    simp [written]
  constructor
  · rw [unchanged]
    exact inTx.writes
  · exact inTx.labels
  · exact inTx.pairs
  · intro view agrees
    rw [unchanged, events, replay_concat (inTx.reads view agrees)]
    simp [access, answer view agrees]

theorem InTx.add (inTx : InTx s th) {node : NodeId} {label : Int} (record : s.main node)
    (position : 0 ≤ label) : InTx s { th with readset := th.readset.add s.heap node label } := by
  constructor
  · exact inTx.writes
  · intro pair mem
    rcases List.mem_append.mp mem with earlier | last
    · exact inTx.labels pair earlier
    · rw [List.mem_singleton.mp last]
      exact position
  · intro pair mem
    rcases List.mem_append.mp mem with earlier | last
    · exact inTx.pairs pair earlier
    · rw [List.mem_singleton.mp last]
      exact ⟨record, le_refl _⟩
  · intro view agrees
    exact inTx.reads view fun pair mem => agrees pair (List.mem_append_left _ mem)

theorem content_of_agrees {pair : RSSeqPair}
    (unwritten : latest (written (accesses th.events)) (tableid, key) = none)
    (agrees : Agrees s th.readset view) (mem : pair ∈ th.readset.seqs)
    (mapped : s.table tableid key = some pair.seqptr) :
    content view (written (accesses th.events)) (tableid, key) = (s.heap pair.seqptr).value := by
  rw [content, unwritten]
  exact (agrees pair mem).2 tableid key mapped

theorem report_of_present (present : value ≠ .haveRemoved) :
    report value = (decide (value ≠ .logicalDelete), value) := by
  cases value with
  | haveRemoved => exact absurd rfl present
  | logicalDelete | pointer object => rfl

theorem report_of_invalid (present : value ≠ .haveRemoved) (invalid : validateValue value = false) :
    report value = (false, .logicalDelete) := by
  cases value with
  | haveRemoved => exact absurd rfl present
  | logicalDelete => rfl
  | pointer object => cases invalid

theorem InTx.move (inTx : InTx s th) (readset : other.readset = th.readset)
    (writeset : other.writeset = th.writeset) (events : other.events = th.events) :
    InTx s other := by
  constructor
  · rw [writeset, events]
    exact inTx.writes
  · rw [readset]
    exact inTx.labels
  · rw [readset]
    exact inTx.pairs
  · rw [readset, events]
    exact inTx.reads

theorem InTx.put {kv : WSKV} (inTx : InTx s th) (readset : other.readset = th.readset)
    (writeset : other.writeset = th.writeset ++ [kv])
    (events : other.events = th.events ++ [.put kv.tableid kv.key kv.val]) : InTx s other := by
  have steps : accesses other.events =
      accesses th.events ++ [.write (kv.tableid, kv.key) kv.val] := by
    simp [events, accesses, Event.access]
  have writes : written (accesses other.events) =
      written (accesses th.events) ++ [((kv.tableid, kv.key), kv.val)] := by
    rw [steps, written_append]
    rfl
  constructor
  · rw [writes, writeset, List.map_append, inTx.writes]
    rfl
  · rw [readset]
    exact inTx.labels
  · rw [readset]
    exact inTx.pairs
  · intro view agrees
    rw [readset] at agrees
    rw [writes, steps, replay_concat (inTx.reads view agrees), content_concat]
    rfl

theorem step_inTx (shared : Shared s) (tidy : Tidy s th) (grows : Grows s middle)
    (inTx : th.pc.inTx = true → InTx s th) (atPc : AtPc s th) (taken : Step cfg s t th middle own)
    (inside : own.pc.inTx = true) : InTx middle own := by
  have old : th.pc.inTx = true → InTx middle th := fun before => (inTx before).mono grows
  cases taken with
  | begin pc => exact inTx_begin _ _ rfl rfl rfl
  | @getOwn tableid key val pc own =>
    have before : th.pc.inTx = true := by rw [pc]; rfl
    rw [lookup_eq_latest, (inTx before).writes] at own
    apply (inTx before).finishGet
    intro view _
    have present : val ≠ .haveRemoved := by
      rw [← (inTx before).writes] at own
      obtain ⟨kv, mem, same⟩ := List.mem_map.mp (latest_mem own)
      cases same
      exact (tidy.entries before kv mem).value
    rw [content, own, Option.getD_some, report_of_present present]
  | @getSection tableid key label node pc present =>
    have record : s.main node := ⟨tableid, key, tidy.target _ _ _ (by rw [pc]; rfl)⟩
    exact ((inTx (by rw [pc]; rfl)).add record (Int.natCast_nonneg label)).move rfl rfl rfl
  | @iterSection tableid key node pc =>
    have record : s.main node := ⟨tableid, key, tidy.target _ _ _ (by rw [pc]; rfl)⟩
    exact ((inTx (by rw [pc]; rfl)).add record (Int.le_refl 0)).move rfl rfl rfl
  | @getAbsent tableid key node pc invalid =>
    have mapped := tidy.target tableid key node (by rw [pc]; rfl)
    simp only [AtPc, pc] at atPc
    obtain ⟨unwritten, pair, mem, rfl⟩ := atPc
    apply (inTx (by rw [pc]; rfl)).finishGet
    intro view agrees
    rw [content_of_agrees unwritten agrees mem mapped,
      report_of_invalid (shared.present ⟨_, _, mapped⟩) invalid]
  | @getRead tableid key node pc =>
    have mapped := tidy.target tableid key node (by rw [pc]; rfl)
    simp only [AtPc, pc] at atPc
    obtain ⟨unwritten, pair, mem, rfl, valid⟩ := atPc
    apply (inTx (by rw [pc]; rfl)).finishGet
    intro view agrees
    rw [content_of_agrees unwritten agrees mem mapped, report,
      valid (agrees pair mem).1]
  | addCheck pc present chosen =>
    obtain ⟨_, rfl⟩ := payloadValue_own chosen
    exact (old (by rw [pc]; rfl)).put rfl rfl rfl
  | _ =>
    first
    | exact (old (by simp_all [Pc.inTx])).move rfl rfl rfl
    | cases inside

theorem step_atPc (inTx : th.pc.inTx = true → InTx s th) (atPc : AtPc s th)
    (taken : Step cfg s t th middle own) : AtPc middle own := by
  cases taken with
  | @getCall tableid key label pc bound other =>
    rw [lookup_eq_latest, (inTx (by rw [pc]; rfl)).writes] at other
    exact other
  | getFind pc found | getRetry pc removed =>
    simp only [AtPc, pc] at atPc
    exact atPc
  | getSection pc present =>
    simp only [AtPc, pc] at atPc
    exact ⟨atPc, _, List.mem_append_right _ List.mem_cons_self, rfl⟩
  | getCheck pc valid =>
    simp only [AtPc, pc] at atPc
    obtain ⟨unwritten, pair, mem, same⟩ := atPc
    exact ⟨unwritten, pair, mem, same, fun _ => valid⟩
  | iterValue pc cursor => simp [AtPc, setBuffer, pc]
  | _ => trivial

/-! ### The committed map -/

theorem Quiet.contents (quiet : Quiet s next)
    (unused : ∀ node, s.nextNode ≤ node → s.heap node = {}) : next.contents = s.contents := by
  funext entry
  unfold State.contents
  cases mapped : next.table entry.1 entry.2 with
  | some node =>
    simp only [(quiet.record node).value]
    rcases quiet.tables.origin mapped with earlier | ⟨absent, rfl, _, _⟩
    · rw [earlier]
    · simp [absent, unused _ (le_refl _)]
  | none =>
    cases before : s.table entry.1 entry.2 with
    | none => rfl
    | some node =>
      rw [quiet.tables.keeps before] at mapped
      cases mapped

theorem committed_contents {ws : WriteState} (shared : Shared s)
    (mapped : ∀ kv ∈ th.writeset, s.table kv.tableid kv.key = some kv.node)
    (effect : WriteEffect s.main (writeState s th) th.writeset ws) :
    (committed s t th ws).contents =
      content s.contents (th.writeset.map fun kv => ((kv.tableid, kv.key), kv.val)) := by
  funext entry
  obtain ⟨tableid, key⟩ := entry
  show (match s.table tableid key with
    | some node => (ws.heap node).value
    | none => .logicalDelete) = _
  unfold content State.contents
  cases present : s.table tableid key with
  | some node =>
    -- nodes and keys name the same records, so the last write is the same one
    have names : ∀ kv ∈ th.writeset, kv.node = node ↔ (kv.tableid, kv.key) = (tableid, key) := by
      intro kv mem
      constructor
      · rintro rfl
        obtain ⟨sameTable, sameKey⟩ := shared.injective (mapped kv mem) present
        rw [sameTable, sameKey]
      · rintro ⟨⟩
        exact Option.some.inj ((mapped kv mem).symm.trans present)
    simp only [effect.value node ⟨tableid, key, present⟩, content,
      latest_map th.writeset (fun kv => kv.node) (fun kv => (kv.tableid, kv.key))
        (fun kv => kv.val) names]
    rfl
  | none =>
    have untouched : latest (th.writeset.map fun kv => ((kv.tableid, kv.key), kv.val))
        (tableid, key) = none := by
      rw [latest_eq_none_iff]
      intro entry mem named
      obtain ⟨kv, inSet, rfl⟩ := List.mem_map.mp mem
      cases named
      rw [mapped kv inSet] at present
      cases present
    rw [untouched]
    rfl

theorem endValid_agrees (inTx : InTx s th) (valid : endValid s th = true) :
    Agrees s th.readset s.contents := by
  unfold endValid at valid
  have passed := (Bool.and_eq_true_iff.mp valid).1
  obtain ⟨current, _⟩ :=
    (ReadSet.validate_eq_noConflict th.readset s.heap Empty.elim inTx.labels).mp
      (of_decide_eq_true passed)
  intro pair mem
  refine ⟨current pair mem, ?_⟩
  intro tableid key mapped
  simp [State.contents, mapped]

structure Serial (base : Entry → Value) (s : State) : Prop where
  layout : Layout s
  inTx : ∀ u, (s.threads u).pc.inTx = true → InTx s (s.threads u)
  atPc : ∀ u, AtPc s (s.threads u)
  log : replay report base (serialized s.log) = some s.contents

theorem step_log (serial : Serial base s) (admitted : ¬ removes s t)
    (taken : Step cfg s t (s.threads t) middle own) :
    replay report base (serialized middle.log) = some middle.contents := by
  have shared := serial.layout.shared
  rcases step_quiet shared.unused admitted taken with quiet | ⟨ws, pc, valid, written, rfl, _⟩
  · rw [quiet.log, quiet.contents shared.unused]
    exact serial.log
  have tidy := serial.layout.tidy t
  have inside : (s.threads t).pc.inTx = true := by rw [pc]; rfl
  have inTx := serial.inTx t inside
  have own := inTx.reads s.contents (endValid_agrees inTx valid)
  have result := committed_contents (t := t) shared
    (fun kv mem => (tidy.entries inside kv mem).mapped)
    (commit_effect shared tidy pc written)
  show replay report base (serialized (s.log ++ [⟨t, (s.threads t).events, s.snapshot⟩])) = _
  rw [result, inTx.writes, ← own, serialized, List.flatMap_append, replay_append]
  simp only [List.flatMap_cons, List.flatMap_nil, List.append_nil]
  rw [show replay report base (s.log.flatMap fun commit => accesses commit.events) =
    some s.contents from serial.log]
  rfl

theorem step_serial {act : Act} (serial : Serial base s) (admitted : ¬ removes s t)
    (taken : step cfg s (t, act) = some next) : Serial base next := by
  have layout := step_layout serial.layout admitted taken
  obtain ⟨_, middle, own, outcome, rfl⟩ := step_cases taken
  have grows := step_grows serial.layout admitted outcome
  have finish := quiet_finished s middle t own
  have threads := step_threads outcome
  have shared := step_shared serial.layout admitted outcome
  have self := step_inTx serial.layout.shared (serial.layout.tidy t) grows (serial.inTx t)
    (serial.atPc t) outcome
  constructor
  · exact layout
  · apply all_threads (P := fun _ th => th.pc.inTx = true → InTx (finished s middle t own) th)
      threads
    · exact fun inside => (self inside).mono finish.grows
    · exact fun u _ inside => ((serial.inTx u inside).mono grows).mono finish.grows
  · apply all_threads (P := fun _ => AtPc (finished s middle t own)) threads
    · exact (step_atPc (serial.inTx t) (serial.atPc t) outcome).mono self finish.grows
    · intro u _
      exact ((serial.atPc u).mono (serial.inTx u) grows).mono
        (fun inside => (serial.inTx u inside).mono grows) finish.grows
  · rw [finish.log, finish.contents shared.unused]
    exact step_log serial admitted outcome

theorem loaded_serial (records : List (TableId × Key × Ptr)) :
    Serial (loaded records).contents (loaded records) := by
  constructor
  · exact loaded_layout records
  · intro u inside
    rw [loaded_threads] at inside
    cases inside
  · intro u
    rw [loaded_threads]
    trivial
  · obtain ⟨_, _, _, _, _, _, fields⟩ := loaded_fields records
    rw [fields]
    rfl

def contention : List (ThreadId × Act) :=
  [(0, .call .begin), (1, .call .begin), (1, .call (.get 0 7 0)), (1, .tick), (1, .tick),
    (0, .call (.add 0 7 (.given 20))), (0, .tick), (0, .tick), (0, .tick), (0, .call .finish),
    (1, .tick), (1, .tick), (1, .call .finish), (1, .tick), (1, .tick), (1, .tick),
    (1, .call .begin), (1, .call (.get 0 7 0)), (1, .tick), (1, .tick), (1, .tick), (1, .tick),
    (1, .call (.add 0 7 .deleted)), (1, .tick), (1, .tick), (1, .call (.get 0 7 0)),
    (1, .call .finish)]

end EunoDb.Machine
