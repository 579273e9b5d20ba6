import EunoDb.Machine

/-! `Step` lists the outcomes of `call` and `tick`; invariants are proved by cases on it. -/

namespace EunoDb.Machine

open Memstore TxSets Function

def insertNode (state : State) (tableid : TableId) (key : Key) : State :=
  { state with
    heap := update state.heap state.nextNode {}
    nextNode := state.nextNode + 1
    table := update state.table tableid
      (update (state.table tableid) key (some state.nextNode)) }

inductive Found (state : State) (tableid : TableId) (key : Key) : NodeId → State → Prop where
  | present {node : NodeId} (mapped : state.table tableid key = some node) :
      Found state tableid key node state
  | inserted (absent : state.table tableid key = none) :
      Found state tableid key state.nextNode (insertNode state tableid key)

theorem getWithInsert_found (state : State) (tableid : TableId) (key : Key) :
    Found state tableid key (getWithInsert state tableid key).1
      (getWithInsert state tableid key).2 := by
  unfold getWithInsert
  cases present : state.table tableid key with
  | some node => exact .present present
  | none => exact .inserted present

def committed (s : State) (t : ThreadId) (th : Thread) (ws : WriteState) : State :=
  recordCommit s t th ws { s with heap := ws.heap, nextNode := ws.nextNode }

def ended (th : Thread) (ws : WriteState) : Thread :=
  { th with
    pc := .endCollect, writeset := ws.written, deleteset := ws.deleteset,
    memnodesPool := ws.memnodesPool }

def unmapped (s : State) (obj : RMObj) (node : NodeId) : State :=
  let heap := update s.heap obj.node { s.heap obj.node with value := .haveRemoved }
  { s with
    heap := update heap node { heap node with seq := (heap node).seq + 1 }
    table := update s.table obj.tableid
      (update (s.table obj.tableid) obj.key none) }

variable {s next : State} {cfg : Config} {t : ThreadId} {th : Thread}

theorem remove_cases {obj : RMObj} (removed : remove s obj = some next) :
    (s.heap obj.node).seq ≠ obj.seq ∧ next = s ∨
      (s.heap obj.node).seq = obj.seq ∧ ∃ node, s.table obj.tableid obj.key = some node ∧
        next = unmapped s obj node := by
  unfold remove getWithDelete at removed
  split at removed
  · obtain ⟨_, found, rfl⟩ := Option.map_eq_some_iff.mp removed
    obtain ⟨node, mapped, same⟩ := Option.map_eq_some_iff.mp found
    cases same
    exact Or.inr ⟨‹_›, node, mapped, rfl⟩
  · cases removed
    exact Or.inl ⟨‹_›, rfl⟩

inductive Step (cfg : Config) (s : State) (t : ThreadId) (th : Thread) :
    State → Thread → Prop where
  | begin (pc : th.pc = .idle) :
      Step cfg s t th s
        { th with
          pc := .body, epoch := th.epoch + 1, readset := {}, writeset := [], deleteset := [],
          cursor := none, events := [], began := s.clock, reads := [] }
  | getOwn {tableid : TableId} {key : Key} {val : Value} (pc : th.pc = .body)
      (own : WriteSet.lookup th.writeset tableid key = some val) :
      Step cfg s t th s
        (finishGet th s.clock tableid key (decide (val ≠ .logicalDelete)) val)
  | getCall {tableid : TableId} {key : Key} {label : Nat} (pc : th.pc = .body)
      (bound : tableid < cfg.number)
      (other : WriteSet.lookup th.writeset tableid key = none) :
      Step cfg s t th s { th with pc := .getFind tableid key label }
  | addCall {tableid : TableId} {key : Key} {payload : Payload} (pc : th.pc = .body)
      (bound : tableid < cfg.number) :
      Step cfg s t th s { th with pc := .addFind tableid key payload }
  | iterate {tableid : TableId} {key : Key} {node : NodeId} (pc : th.pc = .body)
      (mapped : s.table tableid key = some node) :
      Step cfg s t th s { th with pc := .iterSection tableid key node }
  | iterValue {tableid : TableId} {key : Key} {node : NodeId} (pc : th.pc = .body)
      (cursor : th.cursor = some (tableid, key, node)) :
      Step cfg s t th s (setBuffer th tableid key node)
  | commit {ws : WriteState} (pc : th.pc = .body) (valid : endValid s th = true)
      (written : write s.snapshot (writeState s th) th.writeset = .ok ws) :
      Step cfg s t th (committed s t th ws) (ended th ws)
  | conflict (pc : th.pc = .body) (invalid : endValid s th = false) :
      Step cfg s t th s { th with pc := .endAbort }
  | abort (pc : th.pc = .body) :
      Step cfg s t th (release s th.writeset)
        { th with pc := .idle, readset := {}, writeset := [], deleteset := [] }
  | roBegin (pc : th.pc = .idle) :
      Step cfg s t th s
        { th with pc := .roSnapshot, epoch := th.epoch + 1, began := s.clock, reads := [] }
  | roGet {tableid : TableId} {key : Key} (pc : th.pc = .roBody) :
      Step cfg s t th s
        { th with pc := .roScan tableid key (s.table tableid key) }
  | roFinish (pc : th.pc = .roBody) :
      Step cfg s t th s { th with pc := .gcCheck }
  | roAbort (pc : th.pc = .roBody) :
      Step cfg s t th s { th with pc := .idle }
  | getFind {tableid : TableId} {key : Key} {label : Nat} {node : NodeId} {next : State}
      (pc : th.pc = .getFind tableid key label) (found : Found s tableid key node next) :
      Step cfg s t th next
        { setBuffer th tableid key node with pc := .getSection tableid key label node }
  | getRetry {tableid : TableId} {key : Key} {label : Nat} {node : NodeId}
      (pc : th.pc = .getSection tableid key label node)
      (removed : (s.heap node).value = .haveRemoved) :
      Step cfg s t th s { th with pc := .getFind tableid key label }
  | getSection {tableid : TableId} {key : Key} {label : Nat} {node : NodeId}
      (pc : th.pc = .getSection tableid key label node)
      (present : (s.heap node).value ≠ .haveRemoved) :
      Step cfg s t th s
        { th with pc := .getCheck tableid key node, readset := th.readset.add s.heap node label }
  | getCheck {tableid : TableId} {key : Key} {node : NodeId}
      (pc : th.pc = .getCheck tableid key node)
      (valid : validateValue (s.heap node).value = true) :
      Step cfg s t th s { th with pc := .getRead tableid key node }
  | getAbsent {tableid : TableId} {key : Key} {node : NodeId}
      (pc : th.pc = .getCheck tableid key node)
      (invalid : validateValue (s.heap node).value = false) :
      Step cfg s t th s (finishGet th s.clock tableid key false .logicalDelete)
  | getRead {tableid : TableId} {key : Key} {node : NodeId}
      (pc : th.pc = .getRead tableid key node) :
      Step cfg s t th s
        (finishGet th s.clock tableid key true (s.heap node).value)
  | addHit {tableid : TableId} {key : Key} {payload : Payload} {node : NodeId}
      (pc : th.pc = .addFind tableid key payload) (same : (th.buffer tableid).key = key)
      (buffered : (th.buffer tableid).node = some node)
      (present : (s.heap node).value ≠ .haveRemoved) :
      Step cfg s t th s { th with pc := .addCheck tableid key payload node }
  | addMiss {tableid : TableId} {key : Key} {payload : Payload}
      (pc : th.pc = .addFind tableid key payload) :
      Step cfg s t th s { th with pc := .addInsert tableid key payload }
  | addInsert {tableid : TableId} {key : Key} {payload : Payload} {node : NodeId} {next : State}
      (pc : th.pc = .addInsert tableid key payload) (buffers : payload ≠ .copied)
      (found : Found s tableid key node next) :
      Step cfg s t th next
        { setBuffer th tableid key node with pc := .addCheck tableid key payload node }
  | addInsertCopied {tableid : TableId} {key : Key} {node : NodeId} {next : State}
      (pc : th.pc = .addInsert tableid key .copied) (found : Found s tableid key node next) :
      Step cfg s t th next { th with pc := .addCheck tableid key .copied node }
  | addRetry {tableid : TableId} {key : Key} {payload : Payload} {node : NodeId}
      (pc : th.pc = .addCheck tableid key payload node)
      (removed : (s.heap node).value = .haveRemoved) :
      Step cfg s t th s { th with pc := .addFind tableid key payload }
  | addCheck {tableid : TableId} {key : Key} {payload : Payload} {node : NodeId} {val : Value}
      {next : State} {own : Thread} (pc : th.pc = .addCheck tableid key payload node)
      (present : (s.heap node).value ≠ .haveRemoved)
      (chosen : payloadValue s th tableid payload = (val, next, own)) :
      Step cfg s t th next
        { own with
          pc := .body
          writeset := own.writeset ++ [{ tableid, key, node, val }]
          events := own.events ++ [.put tableid key val] }
  | iterSection {tableid : TableId} {key : Key} {node : NodeId}
      (pc : th.pc = .iterSection tableid key node) :
      Step cfg s t th s
        { th with
          pc := .body
          readset := th.readset.add s.heap node 0
          cursor := if validateValue (s.heap node).value then some (tableid, key, node)
            else none }
  | endCollect (pc : th.pc = .endCollect) :
      Step cfg s t th s
        { collectOldVersions s.heap th with pc := .endRemove th.deleteset }
  | endReturn (pc : th.pc = .endRemove []) :
      Step cfg s t th s { th with pc := .gcCheck }
  | endRemove {element : DELElement} {rest : List DELElement}
      (pc : th.pc = .endRemove (element :: rest)) :
      Step cfg s t th { s with heap := (addRMObj s.heap th element).1 }
        { (addRMObj s.heap th element).2 with pc := .endRemove rest }
  | endAbort (pc : th.pc = .endAbort) :
      Step cfg s t th (release s th.writeset) { th with pc := .gcCheck }
  | gcSkip (pc : th.pc = .gcCheck) (few : th.gcnum < cfg.gcThreshold) :
      Step cfg s t th s { th with pc := .delayCheck }
  | gcStart (pc : th.pc = .gcCheck) (many : cfg.gcThreshold ≤ th.gcnum) :
      Step cfg s t th s { th with pc := .gcWait (runningNow cfg s t) }
  | gcMove {waited : ThreadId → Option Nat} (pc : th.pc = .gcWait waited)
      (past : waitOver cfg s waited = true) :
      Step cfg s t th (recordGC cfg s th) { gcPools cfg th with pc := .delayCheck }
  | delaySkip (pc : th.pc = .delayCheck) (few : th.rmlist.length < cfg.rmThreshold) :
      Step cfg s t th s { th with pc := .idle }
  | delayStart (pc : th.pc = .delayCheck) (many : cfg.rmThreshold ≤ th.rmlist.length) :
      Step cfg s t th s { th with pc := .delayWait (runningNow cfg s t) }
  | delayOver {waited : ThreadId → Option Nat} (pc : th.pc = .delayWait waited)
      (past : waitOver cfg s waited = true) :
      Step cfg s t th s { th with pc := .rmLoop }
  | rmDone (pc : th.pc = .rmLoop) (empty : th.rmlist = []) :
      Step cfg s t th s { th with pc := .idle }
  | rmPop {obj : RMObj} {rest : List RMObj} (pc : th.pc = .rmLoop)
      (queued : th.rmlist = obj :: rest) :
      Step cfg s t th
        { s with
          heap := update s.heap obj.node
            { s.heap obj.node with gcRef := (s.heap obj.node).gcRef - 1 } }
        { th with pc := .rmRemove obj (s.heap obj.node).gcRef, rmlist := rest }
  | rmStale {obj : RMObj} {ref : Int} (pc : th.pc = .rmRemove obj ref)
      (stale : (s.heap obj.node).seq ≠ obj.seq) :
      Step cfg s t th s { th with pc := .rmTest obj ref }
  | rmRemove {obj : RMObj} {ref : Int} {node : NodeId} (pc : th.pc = .rmRemove obj ref)
      (current : (s.heap obj.node).seq = obj.seq)
      (mapped : s.table obj.tableid obj.key = some node) :
      Step cfg s t th (unmapped s obj node) { th with pc := .rmTest obj ref }
  | rmHand {obj : RMObj} (pc : th.pc = .rmTest obj 1)
      (removed : (s.heap obj.node).value = .haveRemoved) :
      Step cfg s t th { s with handed := s.handed ++ [obj.node] }
        { addDeletedNode th obj.tableid obj.node with pc := .rmLoop }
  | rmKeep {obj : RMObj} {ref : Int} (pc : th.pc = .rmTest obj ref)
      (kept : ¬ ((s.heap obj.node).value = .haveRemoved ∧ ref = 1)) :
      Step cfg s t th s { th with pc := .rmLoop }
  | roSnapshot (pc : th.pc = .roSnapshot) :
      Step cfg s t th { s with snapshot := s.snapshot + 1 }
        { th with pc := .roBody, oldsnapshot := s.snapshot, beginLog := s.log }
  | roScan {tableid : TableId} {key : Key} {node : Option NodeId} {result : Option Ptr}
      (pc : th.pc = .roScan tableid key node)
      (scanned : scanMemNode s.heap th.oldsnapshot (s.snapshot + 1) node = some result) :
      Step cfg s t th s { returned th s.clock result with pc := .roBody }

theorem call_cases {op : Op} (bounds : op.inBounds cfg = true) (taken : call s t th op = some next) :
    ∃ middle own, Step cfg s t th middle own ∧ next = middle.setThread t own := by
  cases op with
  | begin =>
    simp only [call] at taken
    split at taken
    · cases taken
      exact ⟨_, _, .begin ‹_›, rfl⟩
    · cases taken
  | get tableid key label =>
    simp only [call] at taken
    split at taken
    · split at taken
      · cases taken
        exact ⟨_, _, .getOwn ‹_› ‹_›, rfl⟩
      · cases taken
        exact ⟨_, _, .getCall ‹_› (by simpa [Op.inBounds] using bounds) ‹_›, rfl⟩
    · cases taken
  | add tableid key payload =>
    simp only [call] at taken
    split at taken
    · cases taken
      exact ⟨_, _, .addCall ‹_› (by simpa [Op.inBounds] using bounds), rfl⟩
    · cases taken
  | iterate tableid key =>
    simp only [call] at taken
    split at taken
    · cases taken
      exact ⟨_, _, .iterate ‹_› ‹_›, rfl⟩
    · cases taken
  | iterValue =>
    simp only [call] at taken
    split at taken
    · cases taken
      exact ⟨_, _, .iterValue ‹_› ‹_›, rfl⟩
    · cases taken
  | finish =>
    simp only [call, endSection] at taken
    split at taken
    · split at taken
      · split at taken
        · cases taken
        · cases taken
          exact ⟨_, _, .commit ‹_› ‹_› ‹_›, rfl⟩
      · cases taken
        exact ⟨_, _, .conflict ‹_› (by simpa using ‹¬ endValid s th = true›), rfl⟩
    · cases taken
  | abort =>
    simp only [call] at taken
    split at taken
    · cases taken
      exact ⟨_, _, .abort ‹_›, rfl⟩
    · cases taken
  | roBegin =>
    simp only [call] at taken
    split at taken
    · cases taken
      exact ⟨_, _, .roBegin ‹_›, rfl⟩
    · cases taken
  | roGet tableid key =>
    simp only [call] at taken
    split at taken
    · cases taken
      exact ⟨_, _, .roGet ‹_›, rfl⟩
    · cases taken
  | roFinish =>
    simp only [call] at taken
    split at taken
    · cases taken
      exact ⟨_, _, .roFinish ‹_›, rfl⟩
    · cases taken
  | roAbort =>
    simp only [call] at taken
    split at taken
    · cases taken
      exact ⟨_, _, .roAbort ‹_›, rfl⟩
    · cases taken

theorem tick_cases (taken : tick cfg s t th = some next) :
    ∃ middle own, Step cfg s t th middle own ∧ next = middle.setThread t own := by
  unfold tick at taken
  cases pc : th.pc with
  | idle | body | roBody => simp [pc] at taken
  | getFind tableid key label =>
    simp only [pc, Option.some.injEq] at taken
    subst next
    exact ⟨_, _, .getFind pc (getWithInsert_found s tableid key), rfl⟩
  | getSection tableid key label node =>
    simp only [pc] at taken
    split at taken
    · cases taken
      exact ⟨_, _, .getRetry pc ‹_›, rfl⟩
    · cases taken
      exact ⟨_, _, .getSection pc ‹_›, rfl⟩
  | getCheck tableid key node =>
    simp only [pc] at taken
    split at taken
    · cases taken
      exact ⟨_, _, .getCheck pc ‹_›, rfl⟩
    · cases taken
      exact ⟨_, _, .getAbsent pc (by simpa using ‹¬ validateValue (s.heap node).value = true›), rfl⟩
  | getRead tableid key node =>
    simp only [pc, Option.some.injEq] at taken
    subst next
    exact ⟨_, _, .getRead pc, rfl⟩
  | addFind tableid key payload =>
    simp only [pc] at taken
    split at taken
    · rename_i same
      obtain ⟨node, buffered, outcome⟩ := Option.map_eq_some_iff.mp taken
      split at outcome
      · subst next
        exact ⟨_, _, .addHit pc same buffered ‹_›, rfl⟩
      · subst next
        exact ⟨_, _, .addMiss pc, rfl⟩
    · cases taken
      exact ⟨_, _, .addMiss pc, rfl⟩
  | addInsert tableid key payload =>
    simp only [pc, Option.some.injEq] at taken
    subst next
    by_cases copied : payload = .copied
    · subst payload
      exact ⟨_, _, .addInsertCopied pc (getWithInsert_found s tableid key), rfl⟩
    · simp only [copied, if_false]
      exact ⟨_, _, .addInsert pc copied (getWithInsert_found s tableid key), rfl⟩
  | addCheck tableid key payload node =>
    simp only [pc] at taken
    split at taken
    · cases taken
      exact ⟨_, _, .addRetry pc ‹_›, rfl⟩
    · rename_i present
      cases taken
      exact ⟨_, _, .addCheck pc present rfl, rfl⟩
  | iterSection tableid key node =>
    simp only [pc, Option.some.injEq] at taken
    subst next
    exact ⟨_, _, .iterSection pc, rfl⟩
  | endCollect =>
    simp only [pc, Option.some.injEq] at taken
    subst next
    exact ⟨_, _, .endCollect pc, rfl⟩
  | endRemove queue =>
    cases queue with
    | nil =>
      simp only [pc, Option.some.injEq] at taken
      subst next
      exact ⟨_, _, .endReturn pc, rfl⟩
    | cons element rest =>
      simp only [pc, Option.some.injEq] at taken
      subst next
      exact ⟨_, _, .endRemove pc, rfl⟩
  | endAbort =>
    simp only [pc, Option.some.injEq] at taken
    subst next
    exact ⟨_, _, .endAbort pc, rfl⟩
  | gcCheck =>
    simp only [pc] at taken
    split at taken
    · cases taken
      exact ⟨_, _, .gcSkip pc ‹_›, rfl⟩
    · cases taken
      exact ⟨_, _, .gcStart pc (Nat.le_of_not_lt ‹_›), rfl⟩
  | gcWait waited =>
    simp only [pc] at taken
    split at taken
    · cases taken
      exact ⟨_, _, .gcMove pc ‹_›, rfl⟩
    · cases taken
  | delayCheck =>
    simp only [pc] at taken
    split at taken
    · cases taken
      exact ⟨_, _, .delaySkip pc ‹_›, rfl⟩
    · cases taken
      exact ⟨_, _, .delayStart pc (Nat.le_of_not_lt ‹_›), rfl⟩
  | delayWait waited =>
    simp only [pc] at taken
    split at taken
    · cases taken
      exact ⟨_, _, .delayOver pc ‹_›, rfl⟩
    · cases taken
  | rmLoop =>
    simp only [pc] at taken
    split at taken
    · cases taken
      exact ⟨_, _, .rmDone pc ‹_›, rfl⟩
    · cases taken
      exact ⟨_, _, .rmPop pc ‹_›, rfl⟩
  | rmRemove obj ref =>
    simp only [pc] at taken
    obtain ⟨middle, removed, outcome⟩ := Option.map_eq_some_iff.mp taken
    subst next
    rcases remove_cases removed with ⟨stale, rfl⟩ | ⟨current, node, mapped, rfl⟩
    · exact ⟨_, _, .rmStale pc stale, rfl⟩
    · exact ⟨_, _, .rmRemove pc current mapped, rfl⟩
  | rmTest obj ref =>
    simp only [pc] at taken
    split at taken
    · rename_i removed
      cases taken
      exact ⟨_, _, .rmHand (removed.2 ▸ pc) removed.1, rfl⟩
    · cases taken
      exact ⟨_, _, .rmKeep pc ‹_›, rfl⟩
  | roSnapshot =>
    simp only [pc, Option.some.injEq] at taken
    subst next
    exact ⟨_, _, .roSnapshot pc, rfl⟩
  | roScan tableid key node =>
    simp only [pc] at taken
    obtain ⟨result, scanned, outcome⟩ := Option.map_eq_some_iff.mp taken
    subst next
    exact ⟨_, _, .roScan pc scanned, rfl⟩

def finished (s middle : State) (t : ThreadId) (own : Thread) : State :=
  { middle.setThread t own with clock := s.clock + 1 }

theorem step_cases {act : Act} (taken : step cfg s (t, act) = some next) :
    t < cfg.thrs ∧ ∃ middle own, Step cfg s t (s.threads t) middle own ∧
      next = finished s middle t own := by
  unfold step at taken
  split at taken
  · rename_i inRange
    obtain ⟨after, performed, rfl⟩ := Option.map_eq_some_iff.mp taken
    refine ⟨inRange, ?_⟩
    have outcome : ∃ middle own, Step cfg s t (s.threads t) middle own ∧
        after = middle.setThread t own := by
      cases act with
      | call op =>
        simp only [perform] at performed
        split at performed
        · exact call_cases ‹_› performed
        · cases performed
      | tick => exact tick_cases performed
    obtain ⟨middle, own, result, rfl⟩ := outcome
    exact ⟨middle, own, result, rfl⟩
  · cases taken

def Op.entered : Op → Pc → Prop
  | .get tableid key label, pc => pc = .body ∨ pc = .getFind tableid key label
  | .add tableid key payload, pc => pc = .addFind tableid key payload
  | .iterate tableid key, pc => ∃ node, pc = .iterSection tableid key node
  | .iterValue, pc => pc = .body
  | .finish, pc => pc = .endCollect ∨ pc = .endAbort
  | .abort, pc => pc = .idle
  | _, _ => False

theorem call_body {op : Op} (taken : call s t th op = some next) (body : th.pc = .body) :
    op.entered (next.threads t).pc := by
  cases op with
  | begin | roBegin | roGet tableid key | roFinish | roAbort => simp [call, body] at taken
  | add tableid key payload | abort =>
    simp only [call, body] at taken
    cases taken
    simp [State.setThread, Op.entered]
  | get tableid key label =>
    simp only [call, body] at taken
    split at taken <;>
      · cases taken
        simp [State.setThread, finishGet, Op.entered]
  | iterate tableid key =>
    simp only [call, body] at taken
    split at taken
    · cases taken
      simp [State.setThread, Op.entered]
    · cases taken
  | iterValue =>
    simp only [call, body] at taken
    split at taken
    · cases taken
      simp [State.setThread, setBuffer, body, Op.entered]
    · cases taken
  | finish =>
    simp only [call, body, endSection] at taken
    split at taken
    · split at taken
      · cases taken
      · cases taken
        simp [State.setThread, recordCommit, Op.entered]
    · cases taken
      simp [State.setThread, Op.entered]

theorem step_body {act : Act} (taken : step cfg s (t, act) = some next)
    (body : (s.threads t).pc = .body) : ∃ op, act = .call op ∧ op.entered (next.threads t).pc := by
  unfold step at taken
  split at taken
  · obtain ⟨after, performed, rfl⟩ := Option.map_eq_some_iff.mp taken
    cases act with
    | tick => simp [perform, tick, body] at performed
    | call op =>
      simp only [perform] at performed
      split at performed
      · have entered := call_body performed body
        exact ⟨op, rfl, entered⟩
      · cases performed
  · cases taken

end EunoDb.Machine
