import EunoDb.StalePointers
import EunoDb.Threshold

/-! The node buffer of `DBTX::Add`. -/

namespace EunoDb.Machine

open Memstore TxSets Execution

def Pc.adding : Pc → Option (TableId × Key)
  | .addFind tableid key _ => some (tableid, key)
  | .addInsert tableid key _ => some (tableid, key)
  | .addCheck tableid key _ _ => some (tableid, key)
  | _ => none

structure Buffers (th : Thread) : Prop where
  initial : ∀ tableid, (th.buffer tableid).node = none → (th.buffer tableid).key = -1
  filled : ∀ tableid key, th.pc.adding = some (tableid, key) →
    (th.buffer tableid).node = none → key ≠ -1

def addsInitial (s : State) (act : ThreadId × Act) : Prop :=
  ∃ tableid payload, act.2 = .call (.add tableid (-1) payload) ∧
    ((s.threads act.1).buffer tableid).node = none

variable {th : Thread} {cfg : Config} {s : State} {t : ThreadId}

theorem Buffers.setBuffer (buffers : Buffers th) (tableid : TableId) (key : Key) (node : NodeId)
    (pc : Pc) (same : ∀ entry, pc.adding = some entry → th.pc.adding = some entry) :
    Buffers { setBuffer th tableid key node with pc := pc } where
  initial := by
    intro other empty
    by_cases here : other = tableid
    · subst here
      simp [EunoDb.Machine.setBuffer] at empty
    · simp only [EunoDb.Machine.setBuffer, Function.update_of_ne here] at empty ⊢
      exact buffers.initial other empty
  filled := by
    intro other query adds empty
    by_cases here : other = tableid
    · subst here
      simp [EunoDb.Machine.setBuffer] at empty
    · simp only [EunoDb.Machine.setBuffer, Function.update_of_ne here] at empty
      exact buffers.filled other query (same _ adds) empty

theorem Buffers.move {other : Thread} (buffers : Buffers th) (same : other.buffer = th.buffer)
    (adding : ∀ entry, other.pc.adding = some entry → th.pc.adding = some entry) :
    Buffers other where
  initial := same ▸ buffers.initial
  filled := by
    intro tableid key adds empty
    rw [same] at empty
    exact buffers.filled tableid key (adding _ adds) empty

theorem step_buffers {middle : State} {own : Thread} (buffers : Buffers th)
    (taken : Step cfg s t th middle own)
    (calls : ∀ {tableid key payload}, own.pc = .addFind tableid key payload → th.pc = .body →
      (th.buffer tableid).node = none → key ≠ -1) : Buffers own := by
  cases taken with
  | addCall pc bound =>
    refine ⟨buffers.initial, ?_⟩
    intro tableid key adds empty
    cases adds
    exact calls rfl pc empty
  | getFind pc found => exact buffers.setBuffer _ _ _ _ (by simp [Pc.adding])
  | addInsert pc copied found => exact buffers.setBuffer _ _ _ _ (by rw [pc]; exact fun _ => id)
  | iterValue pc cursor => exact buffers.setBuffer _ _ _ th.pc (fun _ => id)
  | addCheck pc present chosen =>
    obtain ⟨_, rfl⟩ := payloadValue_own chosen
    exact buffers.move rfl (by simp [Pc.adding])
  | endCollect pc =>
    obtain ⟨_, _, _, fields⟩ := collect_fields s.heap th.writeset th
    apply buffers.move
    · unfold collectOldVersions
      rw [fields]
    · simp [Pc.adding]
  | addHit pc | addMiss pc | addInsertCopied pc | addRetry pc =>
    exact buffers.move rfl (by rw [pc]; exact fun _ => id)
  | _ => exact buffers.move rfl (by simp [Pc.adding, finishGet, ended])

theorem step_add {next : State} {act : Act} {tableid : TableId} {key : Key} {payload : Payload}
    (taken : step cfg s (t, act) = some next) (body : (s.threads t).pc = .body)
    (adds : (next.threads t).pc = .addFind tableid key payload) :
    act = .call (.add tableid key payload) := by
  obtain ⟨op, rfl, entered⟩ := step_body taken body
  rw [adds] at entered
  cases op with
  | add owner query given =>
    cases entered
    rfl
  | _ => simp [Op.entered] at entered

/-! ### Main result -/

/-- In every run in which no commit reuses a node that a buffer or a removal
request points to, and no `Add` of the key -1 meets an initial buffer: when `Add`
compares the buffered key with its own and they are equal, there is a buffered
node, and unless it was removed it is the node the table maps the key to. -/
theorem buffer_agrees (cfg : Config) (records : List (TableId × Key × Ptr))
    (acts : List (ThreadId × Act)) (final : State)
    (admitted : Execution.Each (step cfg)
      (fun s act => ¬ reusesPointed s act ∧ ¬ addsInitial s act) (loaded records) acts)
    (reached : Execution.run (step cfg) (loaded records) acts = some final) (t : ThreadId)
    (tableid : TableId) (key : Key) (payload : Payload)
    (adds : (final.threads t).pc = .addFind tableid key payload)
    (same : ((final.threads t).buffer tableid).key = key) :
    ∃ node, ((final.threads t).buffer tableid).node = some node ∧
      ((final.heap node).value ≠ .haveRemoved → final.table tableid key = some node) := by
  have preserved : ∀ (s : State) (act : ThreadId × Act) (next : State),
      Guarded cfg s ∧ (∀ u, Buffers (s.threads u)) →
      (¬ reusesPointed s act ∧ ¬ addsInitial s act) → step cfg s act = some next →
      Guarded cfg next ∧ ∀ u, Buffers (next.threads u) := by
    rintro s ⟨u, act⟩ next ⟨guarded, buffers⟩ ⟨unused, ordinary⟩ taken
    refine ⟨step_guarded guarded unused taken, ?_⟩
    obtain ⟨_, middle, own, outcome, rfl⟩ := step_cases taken
    apply all_threads (P := fun _ th => Buffers th) (step_threads outcome)
    · apply step_buffers (buffers u) outcome
      rintro owner query given after body empty rfl
      have calls := step_add taken body (by rw [finished_self]; exact after)
      exact ordinary ⟨owner, given, calls, empty⟩
    · exact fun v _ => buffers v
  have initial : ∀ u, Buffers ((loaded records).threads u) := by
    intro u
    rw [loaded_threads]
    exact ⟨fun _ _ => rfl, fun _ _ adds => by cases adds⟩
  obtain ⟨guarded, buffers⟩ :=
    Execution.run_preserves preserved ⟨loaded_guarded cfg records, initial⟩ admitted reached
  cases buffered : ((final.threads t).buffer tableid).node with
  | none =>
    have different := (buffers t).filled tableid key (by rw [adds]; rfl) buffered
    exact absurd (same.symm.trans ((buffers t).initial tableid buffered)) different
  | some node =>
    refine ⟨node, rfl, ?_⟩
    intro present
    have current := (guarded.agrees t).buffered tableid node buffered
    rw [same] at current
    exact current.resolve_right present

def ordinary (s : State) (act : ThreadId × Act) : Bool :=
  decide (reused s act.1 = []) &&
    match act.2 with
    | .call (.add _ key _) => decide (key ≠ -1)
    | _ => true

theorem ordinary_admitted {act : ThreadId × Act} (holds : ordinary s act = true) :
    ¬ reusesPointed s act ∧ ¬ addsInitial s act := by
  obtain ⟨first, second⟩ := Bool.and_eq_true_iff.mp holds
  constructor
  · rintro ⟨_, _, node, mem, _⟩
    rw [of_decide_eq_true first] at mem
    cases mem
  · rintro ⟨tableid, payload, calls, _⟩
    rw [calls] at second
    exact of_decide_eq_true second rfl

def insertFive : List (ThreadId × Act) := transaction 1 (adding 1 5 (.given 10) 3) 0

def addFive : List (ThreadId × Act) := [(1, .call .begin), (1, .call (.add 0 5 (.given 11)))]

theorem buffer_agrees_again : ∃ final,
    Execution.run (step shipped) (loaded []) (insertFive ++ addFive) = some final ∧
      (final.threads 1).pc = .addFind 0 5 (.given 11) ∧
      ((final.threads 1).buffer 0).key = 5 ∧
      ∃ node, ((final.threads 1).buffer 0).node = some node ∧
        ((final.heap node).value ≠ .haveRemoved → final.table 0 5 = some node) :=
  ⟨_, rfl, rfl, rfl,
    buffer_agrees shipped [] (insertFive ++ addFive) _
      (Execution.each_mono (fun _ _ => ordinary_admitted) (by decide +kernel)) rfl 1 0 5 (.given 11)
      rfl rfl⟩

/-! ### A reused node in the buffer -/

def removal : List (ThreadId × Act) :=
  insertion ++ insertFive ++ transaction 0 (adding 0 5 .deleted 3) 1 ++
    transaction 0 (churn 0 5 50) 50 ++ transaction 0 (churn 0 5 50) 50 ++ ticks 0 305

structure Dangling (s : State) : Prop where
  ready : Overwritable s
  few : (s.threads 0).gcnum < 100000
  buffer : (s.threads 1).buffer 0 = ⟨5, some 1⟩
  absent : s.table 0 5 = none
  pooled : ((s.threads 0).memnodesPool 0).gc.freelist = [1]

theorem removal_dangling : ∃ s,
    run (step shipped) (loaded []) removal = some s ∧ Dangling s := by
  have seen : (run (step shipped) (loaded []) removal).map (fun s => decide
      (resting (s.threads 0) = true ∧ resting (s.threads 1) = true ∧ (s.threads 0).rmlist = [] ∧
        (s.threads 0).gcnum = 102 ∧ (s.threads 0).buffer 0 = ⟨5, some 1⟩ ∧
        (s.threads 1).buffer 0 = ⟨5, some 1⟩ ∧ s.table 0 5 = none ∧ s.table 0 7 = some 0 ∧
        ((s.threads 0).valuesPool 0).freelist = [] ∧
        ((s.threads 0).memnodesPool 0).gc.freelist = [1] ∧ (s.heap 0).value = .pointer 0 ∧
        (s.heap 0).counter = 1 ∧ s.snapshot = 1)) = some true := by
    decide +kernel
  obtain ⟨s, ran, holds⟩ := Option.map_eq_some_iff.mp seen
  obtain ⟨first, second, rmlist, gcnum, own, buffer, absent, table, free, pooled, value, counter,
    snapshot⟩ := of_decide_eq_true holds
  refine ⟨s, ran, ?_, by omega, buffer, absent, pooled⟩
  exact
    { pc := resting_pc first
      rmlist := by simp [rmlist]
      buffer := by simp [own]
      free := free
      table := table
      value := ⟨_, value⟩
      counter := counter.trans snapshot.symm
      started := by simp [snapshot]
      other := resting_pc second }

theorem getFreeObj_of_mem {pool : ObjPool} {object : Nat} (free : pool.freelist = [object]) :
    ∃ rest, pool.getFreeObj = some (object, rest) := by
  cases taken : pool.getFreeObj with
  | none =>
    rw [ObjPool.getFreeObj_none taken] at free
    cases free
  | some result =>
    have popped := (ObjPool.getFreeObj_some taken).1
    rw [free, List.cons.injEq] at popped
    exact ⟨result.2, by rw [popped.1]⟩

def newSnapshot : List (ThreadId × Act) :=
  [(1, .call .roBegin), (1, .tick), (1, .call .roAbort)]

theorem collected_reused {start : State} (dangling : Dangling start)
    (collected : Collected start s) :
    ∃ next, run (step shipped) s (newSnapshot ++ overwriting.take 6) = some next ∧
      (next.threads 1).pc = .idle ∧ (next.threads 1).buffer 0 = ⟨5, some 1⟩ ∧
      (next.heap 1).value ≠ .haveRemoved ∧ next.table 0 5 = none := by
  obtain ⟨replaced, value⟩ := collected.value
  have others := collected.others 1 (by decide)
  have idle : (s.threads 1).pc = .idle := by rw [others, dangling.ready.other]
  have started : s.snapshot ≠ 0 := collected.snapshot ▸ dangling.ready.started
  have table : s.table 0 7 = some 0 := collected.table ▸ dangling.ready.table
  have absent : s.table 0 5 = none := collected.table ▸ dangling.absent
  have buffer : (s.threads 1).buffer 0 = ⟨5, some 1⟩ := by rw [others, dangling.buffer]
  obtain ⟨object, pool, popped⟩ := collected.popped
  obtain ⟨rest, node⟩ : ∃ rest, ((s.threads 0).memnodesPool 0).getFreeObj = some (1, rest) := by
    rw [collected.memnodesPool]
    exact getFreeObj_of_mem dangling.pooled
  simp [newSnapshot, overwriting, shipped, run, step, perform, call, tick, collected.pc,
    idle, Op.inBounds, State.setThread, collected.buffer, getWithInsert, table, value,
    payloadValue, popped, endSection, endValid, ReadSet.validate, WriteSet.checkWriteSet,
    noConflict, write, writeEntry, stampCounter, collected.counter, started, registerDelete,
    Except.map, writeNewVersion, getMemNode, node, writeState, recordCommit, bind, Except.bind,
    pure, Except.pure, buffer, absent]

/-- `Add` takes the buffered path to a node that the table does not map its key
to: the node of the removed key, in use as an old version of another record. And
`Add` of the key 2^64-1 reads the value of the null node of the initial buffer. -/
theorem buffer_stale :
    (∃ acts final, Execution.run (step shipped) (loaded []) acts = some final ∧
      ∃ payload node, (final.threads 1).pc = .addFind 0 5 payload ∧
        (final.threads 1).buffer 0 = ⟨5, some node⟩ ∧ (final.heap node).value ≠ .haveRemoved ∧
        final.table 0 5 = none) ∧
    ∃ acts final, Execution.run (step shipped) (loaded []) acts = some final ∧
      ∃ payload, (final.threads 0).pc = .addFind 0 (-1) payload ∧
        (final.threads 0).buffer 0 = ⟨-1, none⟩ := by
  constructor
  · obtain ⟨start, removed, dangling⟩ := removal_dangling
    obtain ⟨acts, full, filled, collected⟩ := collection_reachable dangling.ready dangling.few
    obtain ⟨s, reusing, idle, buffer, value, absent⟩ := collected_reused dangling collected
    have adding : ∃ final, Execution.run (step shipped) s addFive = some final ∧
        (final.threads 1).pc = .addFind 0 5 (.given 11) ∧
        (final.threads 1).buffer = (s.threads 1).buffer ∧ final.heap = s.heap ∧
        final.table = s.table := by
      simp [addFive, shipped, Execution.run, step, perform, call, idle, Op.inBounds,
        State.setThread]
    obtain ⟨final, added, pc, sameBuffer, heap, table⟩ := adding
    have ran : Execution.run (step shipped) (loaded [])
        (removal ++ (acts ++ (newSnapshot ++ overwriting.take 6 ++ addFive))) = some final := by
      rw [Execution.run_append, removed, Option.bind_some, Execution.run_append,
        (Execution.checkedRun_iff.mp filled).1, Option.bind_some, Execution.run_append, reusing,
        Option.bind_some, added]
    exact ⟨_, final, ran, .given 11, 1, pc, sameBuffer ▸ buffer, heap ▸ value, table ▸ absent⟩
  · exact ⟨[(0, .call .begin), (0, .call (.add 0 (-1) (.given 10)))], _, rfl, _, rfl, rfl⟩

end EunoDb.Machine
