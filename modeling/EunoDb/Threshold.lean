import EunoDb.ValuePools

/-! Reaching the thresholds of 100000 retired objects and 100 requests. -/

namespace EunoDb.Machine

open Memstore TxSets Execution

def shipped : Config := ⟨2, 1, 100000, 100⟩

def Unremoved (s : State) (act : ThreadId × Act) : Prop := ¬ removes s act.1 ∧ givesNew s act.1

instance (s : State) (act : ThreadId × Act) : Decidable (Unremoved s act) :=
  inferInstanceAs (Decidable (_ ∧ _))

structure Overwritable (s : State) : Prop where
  pc : (s.threads 0).pc = .idle
  rmlist : (s.threads 0).rmlist.length < 100
  buffer : ((s.threads 0).buffer 0).key ≠ 7
  free : ((s.threads 0).valuesPool 0).freelist = []
  table : s.table 0 7 = some 0
  value : ∃ object, (s.heap 0).value = .pointer object
  counter : (s.heap 0).counter = s.snapshot
  started : s.snapshot ≠ 0
  other : (s.threads 1).pc = .idle

structure Untouched (start s : State) : Prop where
  memnodesPool : (s.threads 0).memnodesPool = (start.threads 0).memnodesPool
  rmlist : (s.threads 0).rmlist = (start.threads 0).rmlist
  others : ∀ u, u ≠ 0 → s.threads u = start.threads u
  table : s.table = start.table
  snapshot : s.snapshot = start.snapshot
  record : ∀ node, node ≠ 0 → s.heap node = start.heap node

theorem untouched_refl (s : State) : Untouched s s :=
  ⟨rfl, rfl, fun _ _ => rfl, rfl, rfl, fun _ _ => rfl⟩

variable {start s : State}

theorem Untouched.trans {middle : State} (first : Untouched start middle)
    (second : Untouched middle s) : Untouched start s where
  memnodesPool := second.memnodesPool.trans first.memnodesPool
  rmlist := second.rmlist.trans first.rmlist
  others := fun u other => (second.others u other).trans (first.others u other)
  table := second.table.trans first.table
  snapshot := second.snapshot.trans first.snapshot
  record := fun node other => (second.record node other).trans (first.record node other)

theorem getFreeObj_empty {pool : ObjPool} (empty : pool.freelist = []) :
    pool.getFreeObj = none := by
  cases taken : pool.getFreeObj with
  | none => rfl
  | some result =>
    have nonempty := (ObjPool.getFreeObj_some taken).1
    rw [empty] at nonempty
    cases nonempty

def overwriting : List (ThreadId × Act) :=
  [(0, .call .begin), (0, .call (.add 0 7 .copied)), (0, .tick), (0, .tick), (0, .tick),
    (0, .call .finish), (0, .tick), (0, .tick)]

structure Retiring (start s : State) : Prop extends Untouched start s where
  pc : (s.threads 0).pc = .gcCheck
  gcnum : (s.threads 0).gcnum = (start.threads 0).gcnum + 1
  buffer : (s.threads 0).buffer = (start.threads 0).buffer
  values : ∃ object, (s.threads 0).valuesPool 0 =
    ((start.threads 0).valuesPool 0).addGCObj object 0
  value : ∃ object, (s.heap 0).value = .pointer object
  counter : (s.heap 0).counter = s.snapshot

theorem overwriting_retires (ready : Overwritable s) :
    ∃ next, checkedRun (step shipped) Unremoved s overwriting = some next ∧
      Retiring s next := by
  obtain ⟨object, value⟩ := ready.value
  have free := getFreeObj_empty ready.free
  simp [overwriting, shipped, Unremoved, removes, givesNew, checkedRun, step, perform, call, tick,
    ready.pc, Op.inBounds, State.setThread, ready.buffer, getWithInsert, ready.table, value,
    payloadValue, free, acquire, endSection, endValid, ReadSet.validate, WriteSet.checkWriteSet,
    noConflict, write, writeEntry, stampCounter, ready.counter, ready.started, registerDelete,
    Except.map, writeInPlace, writeState, recordCommit, collectOldVersions, collectEntry,
    addDeletedValue, bind, Except.bind, pure, Except.pure]
  -- what is left are the fields of the state it computed
  constructor
  case values => exact ⟨object, rfl⟩
  case toUntouched => constructor <;> simp +contextual
  all_goals simp

theorem retiring_skips (ready : Overwritable start) (retiring : Retiring start s)
    (few : (start.threads 0).gcnum + 1 < 100000) :
    ∃ next, checkedRun (step shipped) Unremoved s [(0, .tick), (0, .tick)] = some next ∧
      Overwritable next ∧ Untouched start next ∧
      (next.threads 0).gcnum = (start.threads 0).gcnum + 1 := by
  have short := retiring.rmlist ▸ ready.rmlist
  obtain ⟨object, values⟩ := retiring.values
  simp [shipped, Unremoved, removes, givesNew, checkedRun, step, perform, tick,
    retiring.pc, State.setThread, retiring.gcnum, few, short]
  constructor
  · constructor <;>
      simp [short, retiring.buffer, ready.buffer, values, ready.free, retiring.table, ready.table,
        retiring.value, retiring.counter, retiring.snapshot, ready.started,
        retiring.others, ready.other]
  · constructor <;>
      simp +contextual [retiring.memnodesPool, retiring.table, retiring.snapshot, retiring.record,
        retiring.others, retiring.rmlist]

def insertion : List (ThreadId × Act) := overwriting ++ [(0, .tick), (0, .tick)]

def overwritings (n : Nat) : List (ThreadId × Act) := (List.replicate n insertion).flatten

theorem overwritings_fill (ready : Overwritable s) (n : Nat)
    (few : (s.threads 0).gcnum + n < 100000) :
    ∃ next, checkedRun (step shipped) Unremoved s (overwritings n) = some next ∧
      Overwritable next ∧ Untouched s next ∧ (next.threads 0).gcnum = (s.threads 0).gcnum + n := by
  induction n generalizing s with
  | zero => exact ⟨s, rfl, ready, untouched_refl s, rfl⟩
  | succ n ih =>
    obtain ⟨middle, ran, retiring⟩ := overwriting_retires ready
    obtain ⟨once, skipped, again, untouched, gcnum⟩ :=
      retiring_skips ready retiring (by omega)
    obtain ⟨final, rest, filled, later, count⟩ := ih again (by omega)
    refine ⟨final, ?_, filled, untouched.trans later, by omega⟩
    rw [overwritings, List.replicate_succ, List.flatten_cons, insertion, List.append_assoc,
      checkedRun_append ran, checkedRun_append skipped]
    exact rest

structure Collected (start s : State) : Prop where
  pc : (s.threads 0).pc = .idle
  buffer : ((s.threads 0).buffer 0).key ≠ 7
  values : ((s.threads 0).valuesPool 0).freelist ≠ []
  memnodesPool : (s.threads 0).memnodesPool 0 = ((start.threads 0).memnodesPool 0).gc
  rmlist : (s.threads 0).rmlist = (start.threads 0).rmlist
  others : ∀ u, u ≠ 0 → s.threads u = start.threads u
  table : s.table = start.table
  snapshot : s.snapshot = start.snapshot
  record : ∀ node, node ≠ 0 → s.heap node = start.heap node
  value : ∃ object, (s.heap 0).value = .pointer object
  counter : (s.heap 0).counter = s.snapshot

theorem Collected.popped (collected : Collected start s) :
    ∃ object pool, ((s.threads 0).valuesPool 0).getFreeObj = some (object, pool) := by
  cases taken : ((s.threads 0).valuesPool 0).getFreeObj with
  | none => exact absurd (ObjPool.getFreeObj_none taken) collected.values
  | some result => exact ⟨result.1, result.2, rfl⟩

theorem retiring_collects (ready : Overwritable start) (retiring : Retiring start s)
    (many : (start.threads 0).gcnum + 1 = 100000) :
    ∃ next, checkedRun (step shipped) Unremoved s
        [(0, .tick), (0, .tick), (0, .tick)] = some next ∧ Collected start next := by
  have short := retiring.rmlist ▸ ready.rmlist
  obtain ⟨object, values⟩ := retiring.values
  have idle : (s.threads 1).pc = .idle := by rw [retiring.others 1 (by decide), ready.other]
  have free : ((s.threads 0).valuesPool 0).gc.freelist ≠ [] := by
    intro empty
    have perm := ObjPool.freelist_gc_perm ((s.threads 0).valuesPool 0)
    rw [empty, values] at perm
    have nothing := List.append_eq_nil_iff.mp perm.symm.eq_nil
    have retired := ObjPool.retired_addGCObj ((start.threads 0).valuesPool 0) object 0
    rw [nothing.1] at retired
    cases retired.symm.eq_nil
  simp [shipped, Unremoved, removes, givesNew, checkedRun, step, perform, tick,
    retiring.pc, State.setThread, retiring.gcnum, many, short, waitOver, runningNow, Pc.active,
    List.range, List.range.loop, idle, recordGC, gcPools]
  constructor <;>
    simp +contextual [gcPool, free, retiring.buffer, ready.buffer, retiring.table,
      retiring.value, retiring.counter, retiring.snapshot, retiring.memnodesPool,
      retiring.record, retiring.others, retiring.rmlist]

theorem collection_reachable (ready : Overwritable s) (few : (s.threads 0).gcnum < 100000) :
    ∃ acts next, checkedRun (step shipped) Unremoved s acts = some next ∧
      Collected s next := by
  obtain ⟨full, filled, again, untouched, gcnum⟩ :=
    overwritings_fill ready (99999 - (s.threads 0).gcnum) (by omega)
  obtain ⟨middle, ran, retiring⟩ := overwriting_retires again
  obtain ⟨final, rest, collected⟩ := retiring_collects again retiring (by omega)
  refine ⟨overwritings (99999 - (s.threads 0).gcnum) ++
    (overwriting ++ [(0, .tick), (0, .tick), (0, .tick)]), final, ?_, ?_⟩
  · rw [checkedRun_append filled, checkedRun_append ran]
    exact rest
  exact
    { collected with
      memnodesPool := by rw [collected.memnodesPool, untouched.memnodesPool]
      rmlist := collected.rmlist.trans untouched.rmlist
      others := fun u other => (collected.others u other).trans (untouched.others u other)
      table := collected.table.trans untouched.table
      snapshot := collected.snapshot.trans untouched.snapshot
      record := fun node other =>
        (collected.record node other).trans (untouched.record node other) }

/-! ### Removal requests -/

def resting (th : Thread) : Bool :=
  match th.pc with
  | .idle => true
  | _ => false

theorem resting_pc {th : Thread} (rests : resting th = true) : th.pc = .idle := by
  unfold resting at rests
  split at rests
  · assumption
  · cases rests

def ticks (t : ThreadId) (n : Nat) : List (ThreadId × Act) := List.replicate n (t, .tick)

def adding (t : ThreadId) (key : Key) (payload : Payload) (steps : Nat) :
    List (ThreadId × Act) :=
  (t, .call (.add 0 key payload)) :: ticks t steps

def transaction (t : ThreadId) (body : List (ThreadId × Act)) (deletes : Nat) :
    List (ThreadId × Act) :=
  (t, .call .begin) :: body ++ (t, .call .finish) :: ticks t (deletes + 4)

def churn (t : ThreadId) (key : Key) (n : Nat) : List (ThreadId × Act) :=
  (List.replicate n (adding t key .copied 2 ++ adding t key .deleted 2)).flatten

end EunoDb.Machine
