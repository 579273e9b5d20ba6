import EunoDb.TxSets
import EunoDb.Execution

/-! Threads run read-write (`db/dbtx.cc`) and read-only transactions (`db/dbrotx.cc`) and between
them `DBTables::GC` and `RMPool::RemoveAll`. Every `tick` is one access to shared memory or one
atomic section (RTM region). A table maps each key to at most one node; the grace period is what
`Rcu.grace_period` establishes. Undefined behaviour has no successor: a null dereference,
`exit(1)` on a full delete set, the unreachable branch of `Write`. The snapshot stays below
`2 ^ 64`, read and write sets below `2 ^ 30` entries. -/

namespace EunoDb.Machine

open Memstore TxSets Function

abbrev ThreadId := Nat

structure Config where
  thrs : Nat
  number : Nat
  gcThreshold : Nat := 100000
  rmThreshold : Nat := 100

inductive Payload where
  | given (object : Ptr)
  | copied
  | deleted
  deriving DecidableEq, Repr

structure BufferNode where
  key : Key := -1
  node : Option NodeId := none
  deriving DecidableEq, Repr

structure RMObj where
  tableid : TableId
  key : Key
  node : NodeId
  seq : Nat
  deriving DecidableEq, Repr

inductive Pc where
  | idle
  | body
  | getFind (tableid : TableId) (key : Key) (label : Nat)
  | getSection (tableid : TableId) (key : Key) (label : Nat) (node : NodeId)
  | getCheck (tableid : TableId) (key : Key) (node : NodeId)
  | getRead (tableid : TableId) (key : Key) (node : NodeId)
  | addFind (tableid : TableId) (key : Key) (payload : Payload)
  | addInsert (tableid : TableId) (key : Key) (payload : Payload)
  | addCheck (tableid : TableId) (key : Key) (payload : Payload) (node : NodeId)
  | iterSection (tableid : TableId) (key : Key) (node : NodeId)
  | endCollect
  | endRemove (queue : List DELElement)
  | endAbort
  | gcCheck
  | gcWait (waited : ThreadId → Option Nat)
  | delayCheck
  | delayWait (waited : ThreadId → Option Nat)
  | rmLoop
  | rmRemove (obj : RMObj) (ref : Int)
  | rmTest (obj : RMObj) (ref : Int)
  | roSnapshot
  | roBody
  | roScan (tableid : TableId) (key : Key) (node : Option NodeId)

def Pc.active : Pc → Bool
  | .idle | .gcCheck | .gcWait _ | .delayCheck | .delayWait _
  | .rmLoop | .rmRemove _ _ | .rmTest _ _ => false
  | _ => true

inductive Event where
  | get (tableid : TableId) (key : Key) (found : Bool) (val : Value)
  | put (tableid : TableId) (key : Key) (val : Value)
  deriving DecidableEq, Repr

structure Commit where
  thread : ThreadId
  events : List Event
  sn : Nat
  deriving DecidableEq, Repr

structure Thread where
  pc : Pc := .idle
  epoch : Nat := 0
  readset : ReadSet Empty := {}
  writeset : List WSKV := []
  deleteset : List DELElement := []
  buffer : TableId → BufferNode := fun _ => {}
  cursor : Option (TableId × Key × NodeId) := none
  valuesPool : TableId → ObjPool := fun _ => {}
  memnodesPool : TableId → ObjPool := fun _ => {}
  gcnum : Nat := 0
  rmlist : List RMObj := []
  oldsnapshot : Nat := 0
  -- history: no step below reads these
  events : List Event := []
  beginLog : List Commit := []
  began : Nat := 0
  reads : List (Ptr × Nat) := []

structure State where
  heap : Heap := fun _ => {}
  nextNode : NodeId := 0
  nextValue : Ptr := 0
  table : TableId → Key → Option NodeId := fun _ _ => none
  snapshot : Nat := 1
  threads : ThreadId → Thread := fun _ => {}
  -- history: no step below reads these
  clock : Nat := 1
  log : List Commit := []
  handed : List NodeId := []
  held : NodeId → Bool := fun _ => false
  known : Ptr → Bool := fun _ => false
  nodeRetired : NodeId → Nat := fun _ => 0
  nodeRecycled : NodeId → Nat := fun _ => 0
  valueRetired : Ptr → Nat := fun _ => 0
  valueRecycled : Ptr → Nat := fun _ => 0

inductive Op where
  | begin
  | get (tableid : TableId) (key : Key) (label : Nat)
  | add (tableid : TableId) (key : Key) (payload : Payload)
  | iterate (tableid : TableId) (key : Key)
  | iterValue
  | finish
  | abort
  | roBegin
  | roGet (tableid : TableId) (key : Key)
  | roFinish
  | roAbort
  deriving DecidableEq, Repr

inductive Act where
  | call (op : Op)
  | tick
  deriving DecidableEq, Repr

def State.setThread (state : State) (t : ThreadId) (th : Thread) : State :=
  { state with threads := update state.threads t th }

def getWithInsert (state : State) (tableid : TableId) (key : Key) : NodeId × State :=
  match state.table tableid key with
  | some node => (node, state)
  | none =>
    (state.nextNode,
      { state with
        heap := update state.heap state.nextNode {}
        nextNode := state.nextNode + 1
        table := update state.table tableid
          (update (state.table tableid) key (some state.nextNode)) })

def getWithDelete (state : State) (tableid : TableId) (key : Key) : Option (NodeId × State) :=
  (state.table tableid key).map fun node =>
    (node, { state with
      table := update state.table tableid
        (update (state.table tableid) key none) })

/-! ### Read-only scan -/

def scanLoop (heap : Heap) (oldsnapshot : Nat) : Nat → Option NodeId → Option (Option NodeId)
  | _, none => some none
  | 0, some _ => none
  | fuel + 1, some node =>
    if oldsnapshot < (heap node).counter then
      scanLoop heap oldsnapshot fuel (heap node).oldVersions
    else some (some node)

def visible (value : Value) : Option Ptr :=
  match value with
  | .pointer object => some object
  | .logicalDelete => none
  | .haveRemoved => none

def scanMemNode (heap : Heap) (oldsnapshot fuel : Nat) :
    Option NodeId → Option (Option Ptr)
  | none => some none
  | some node =>
    if (heap node).counter ≤ oldsnapshot then some (visible (heap node).value)
    else
      (scanLoop heap oldsnapshot fuel (heap node).oldVersions).map fun found =>
        found.bind fun version => visible (heap version).value

/-! ### End of a transaction -/

def endValid (state : State) (th : Thread) : Bool :=
  decide (th.readset.validate state.heap Empty.elim = noConflict) &&
    WriteSet.checkWriteSet state.heap th.writeset

def writeState (state : State) (th : Thread) : WriteState :=
  { heap := state.heap, nextNode := state.nextNode, memnodesPool := th.memnodesPool,
    deleteset := th.deleteset }

def retires (heap : Heap) (kv : WSKV) (object : Ptr) : Bool :=
  decide (kv.val = .pointer object) ||
    match kv.dummy with
    | some dummy => decide ((heap dummy).value = .pointer object)
    | none => false

def recordCommit (state : State) (t : ThreadId) (th : Thread) (ws : WriteState) (next : State) :
    State :=
  { next with
    log := state.log ++ [⟨t, th.events, state.snapshot⟩]
    held := fun node => state.held node ||
      th.writeset.any fun kv => decide (kv.node = node) && validateValue kv.val
    nodeRetired := fun node =>
      if ws.written.any fun kv => decide (kv.dummy = some node) then state.clock
      else state.nodeRetired node
    nodeRecycled := fun node =>
      if (ws.written.any fun kv => decide (kv.dummy = some node)) && decide (node < state.nextNode)
      then state.clock else state.nodeRecycled node
    valueRetired := fun object =>
      if ws.written.any fun kv => retires ws.heap kv object then state.clock
      else state.valueRetired object }

def endSection (state : State) (t : ThreadId) (th : Thread) : Option State :=
  if endValid state th then
    match write state.snapshot (writeState state th) th.writeset with
    | .error _ => none
    | .ok ws =>
      some (recordCommit state t th ws { state.setThread t
          { th with
            pc := .endCollect, writeset := ws.written, deleteset := ws.deleteset,
            memnodesPool := ws.memnodesPool } with
        heap := ws.heap
        nextNode := ws.nextNode })
  else some (state.setThread t { th with pc := .endAbort })

def addDeletedValue (th : Thread) (tableid : TableId) (value : Value) : Thread :=
  match value with
  | .pointer object =>
    { th with
      gcnum := th.gcnum + 1
      valuesPool := update th.valuesPool tableid
        ((th.valuesPool tableid).addGCObj object 0) }
  | .logicalDelete => th
  | .haveRemoved => th

def addDeletedNode (th : Thread) (tableid : TableId) (node : NodeId) : Thread :=
  { th with
    gcnum := th.gcnum + 1
    memnodesPool := update th.memnodesPool tableid
      ((th.memnodesPool tableid).addGCObj node 0) }

def collectEntry (heap : Heap) (th : Thread) (kv : WSKV) : Thread :=
  let th := addDeletedValue th kv.tableid kv.val
  match kv.dummy with
  | none => th
  | some dummy =>
    addDeletedValue (addDeletedNode th kv.tableid dummy) kv.tableid (heap dummy).value

def collectOldVersions (heap : Heap) (th : Thread) : Thread :=
  th.writeset.foldl (collectEntry heap) th

/-! ### Grace periods, garbage collection and removal -/

def runningNow (cfg : Config) (state : State) (t u : ThreadId) : Option Nat :=
  if u ≠ t ∧ u < cfg.thrs ∧ (state.threads u).pc.active then some (state.threads u).epoch
  else none

def waitOver (cfg : Config) (state : State) (waited : ThreadId → Option Nat) : Bool :=
  (List.range cfg.thrs).all fun u =>
    !((state.threads u).pc.active && decide (waited u = some (state.threads u).epoch))

def gcPool (cfg : Config) (pools : TableId → ObjPool) : TableId → ObjPool :=
  fun tableid => if tableid < cfg.number then (pools tableid).gc else pools tableid

def gcPools (cfg : Config) (th : Thread) : Thread :=
  { th with
    valuesPool := gcPool cfg th.valuesPool
    memnodesPool := gcPool cfg th.memnodesPool
    gcnum := 0 }

def recycles (cfg : Config) (pools : TableId → ObjPool) (object : Nat) : Bool :=
  (List.range cfg.number).any fun tableid => decide (object ∈ (pools tableid).retired)

def recordGC (cfg : Config) (state : State) (th : Thread) : State :=
  { state with
    nodeRecycled := fun node =>
      if recycles cfg th.memnodesPool node then state.clock else state.nodeRecycled node
    valueRecycled := fun object =>
      if recycles cfg th.valuesPool object then state.clock else state.valueRecycled object }

def addRMObj (heap : Heap) (th : Thread) (element : DELElement) : Heap × Thread :=
  (update heap element.node
      { heap element.node with gcRef := (heap element.node).gcRef + 1 },
    { th with rmlist := ⟨element.tableid, element.key, element.node, element.seq⟩ :: th.rmlist })

def remove (state : State) (obj : RMObj) : Option State :=
  if (state.heap obj.node).seq = obj.seq then
    let state := { state with
      heap := update state.heap obj.node
        { state.heap obj.node with value := .haveRemoved } }
    (getWithDelete state obj.tableid obj.key).map fun (node, state) =>
      { state with
        heap := update state.heap node
          { state.heap node with seq := (state.heap node).seq + 1 } }
  else some state

/-! ### Steps -/

def returned (th : Thread) (clock : Nat) (result : Option Ptr) : Thread :=
  { th with
    reads := match result with
      | some object => th.reads ++ [(object, clock)]
      | none => th.reads }

def finishGet (th : Thread) (clock : Nat) (tableid : TableId) (key : Key) (found : Bool)
    (val : Value) : Thread :=
  { returned th clock (visible val) with
    pc := .body
    events := th.events ++ [.get tableid key found val] }

def acquire (state : State) (object : Ptr) : State :=
  { state with
    nextValue := max state.nextValue (object + 1)
    known := update state.known object true }

def release (state : State) (kvs : List WSKV) : State :=
  { state with
    known := fun object =>
      state.known object && !(kvs.any fun kv => decide (kv.val = .pointer object)) }

def payloadValue (state : State) (th : Thread) (tableid : TableId) :
    Payload → Value × State × Thread
  | .given object => (.pointer object, acquire state object, th)
  | .deleted => (.logicalDelete, state, th)
  | .copied =>
    match (th.valuesPool tableid).getFreeObj with
    | some (object, pool) =>
      (.pointer object,
        { state with
          valueRecycled := update state.valueRecycled object state.clock },
        { th with valuesPool := update th.valuesPool tableid pool })
    | none => (.pointer state.nextValue, acquire state state.nextValue, th)

def setBuffer (th : Thread) (tableid : TableId) (key : Key) (node : NodeId) : Thread :=
  { th with buffer := update th.buffer tableid ⟨key, some node⟩ }

def Op.inBounds (cfg : Config) : Op → Bool
  | .get tableid _ _ => decide (tableid < cfg.number)
  | .add tableid _ _ => decide (tableid < cfg.number)
  | .iterate tableid _ => decide (tableid < cfg.number)
  | .roGet tableid _ => decide (tableid < cfg.number)
  | _ => true

def call (state : State) (t : ThreadId) (th : Thread) : Op → Option State
  | .begin =>
    match th.pc with
    | .idle => some (state.setThread t
        { th with
          pc := .body, epoch := th.epoch + 1, readset := {}, writeset := [], deleteset := [],
          cursor := none, events := [], began := state.clock, reads := [] })
    | _ => none
  | .get tableid key label =>
    match th.pc with
    | .body =>
      match WriteSet.lookup th.writeset tableid key with
      | some val => some (state.setThread t
          (finishGet th state.clock tableid key (decide (val ≠ .logicalDelete)) val))
      | none => some (state.setThread t { th with pc := .getFind tableid key label })
    | _ => none
  | .add tableid key payload =>
    match th.pc with
    | .body => some (state.setThread t { th with pc := .addFind tableid key payload })
    | _ => none
  | .iterate tableid key =>
    match th.pc, state.table tableid key with
    | .body, some node => some (state.setThread t { th with pc := .iterSection tableid key node })
    | _, _ => none
  | .iterValue =>
    match th.pc, th.cursor with
    | .body, some (tableid, key, node) => some (state.setThread t (setBuffer th tableid key node))
    | _, _ => none
  | .finish =>
    match th.pc with
    | .body => endSection state t th
    | _ => none
  | .abort =>
    match th.pc with
    | .body => some ((release state th.writeset).setThread t
        { th with pc := .idle, readset := {}, writeset := [], deleteset := [] })
    | _ => none
  | .roBegin =>
    match th.pc with
    | .idle => some (state.setThread t
        { th with pc := .roSnapshot, epoch := th.epoch + 1, began := state.clock, reads := [] })
    | _ => none
  | .roGet tableid key =>
    match th.pc with
    | .roBody => some (state.setThread t { th with
        pc := .roScan tableid key (state.table tableid key) })
    | _ => none
  | .roFinish =>
    match th.pc with
    | .roBody => some (state.setThread t { th with pc := .gcCheck })
    | _ => none
  | .roAbort =>
    match th.pc with
    | .roBody => some (state.setThread t { th with pc := .idle })
    | _ => none

def tick (cfg : Config) (state : State) (t : ThreadId) (th : Thread) : Option State :=
  match th.pc with
  | .idle | .body | .roBody => none
  | .getFind tableid key label =>
    let (node, state) := getWithInsert state tableid key
    some (state.setThread t
      { setBuffer th tableid key node with pc := .getSection tableid key label node })
  | .getSection tableid key label node =>
    if (state.heap node).value = .haveRemoved then
      some (state.setThread t { th with pc := .getFind tableid key label })
    else
      some (state.setThread t { th with
        pc := .getCheck tableid key node, readset := th.readset.add state.heap node label })
  | .getCheck tableid key node =>
    if validateValue (state.heap node).value then
      some (state.setThread t { th with pc := .getRead tableid key node })
    else some (state.setThread t (finishGet th state.clock tableid key false .logicalDelete))
  | .getRead tableid key node =>
    some (state.setThread t
      (finishGet th state.clock tableid key true (state.heap node).value))
  | .addFind tableid key payload =>
    if (th.buffer tableid).key = key then
      -- the test reads `buffer[tableid].node->value`
      (th.buffer tableid).node.map fun node =>
        if (state.heap node).value ≠ .haveRemoved then
          state.setThread t { th with pc := .addCheck tableid key payload node }
        else state.setThread t { th with pc := .addInsert tableid key payload }
    else some (state.setThread t { th with pc := .addInsert tableid key payload })
  | .addInsert tableid key payload =>
    let (node, state) := getWithInsert state tableid key
    let th := if payload = .copied then th else setBuffer th tableid key node
    some (state.setThread t { th with pc := .addCheck tableid key payload node })
  | .addCheck tableid key payload node =>
    if (state.heap node).value = .haveRemoved then
      some (state.setThread t { th with pc := .addFind tableid key payload })
    else
      let (val, state, th) := payloadValue state th tableid payload
      some (state.setThread t { th with
        pc := .body
        writeset := th.writeset ++ [{ tableid, key, node, val }]
        events := th.events ++ [.put tableid key val] })
  | .iterSection tableid key node =>
    some (state.setThread t { th with
      pc := .body
      readset := th.readset.add state.heap node 0
      cursor := if validateValue (state.heap node).value then some (tableid, key, node)
        else none })
  | .endCollect =>
    some (state.setThread t
      { collectOldVersions state.heap th with pc := .endRemove th.deleteset })
  | .endRemove [] => some (state.setThread t { th with pc := .gcCheck })
  | .endRemove (element :: rest) =>
    let (heap, th) := addRMObj state.heap th element
    some { state.setThread t { th with pc := .endRemove rest } with heap := heap }
  | .endAbort => some ((release state th.writeset).setThread t { th with pc := .gcCheck })
  | .gcCheck =>
    if th.gcnum < cfg.gcThreshold then some (state.setThread t { th with pc := .delayCheck })
    else some (state.setThread t { th with pc := .gcWait (runningNow cfg state t) })
  | .gcWait waited =>
    if waitOver cfg state waited then
      some ((recordGC cfg state th).setThread t { gcPools cfg th with pc := .delayCheck })
    else none
  | .delayCheck =>
    if th.rmlist.length < cfg.rmThreshold then some (state.setThread t { th with pc := .idle })
    else some (state.setThread t { th with pc := .delayWait (runningNow cfg state t) })
  | .delayWait waited =>
    if waitOver cfg state waited then some (state.setThread t { th with pc := .rmLoop })
    else none
  | .rmLoop =>
    match th.rmlist with
    | [] => some (state.setThread t { th with pc := .idle })
    | obj :: rest =>
      let node := state.heap obj.node
      some { state.setThread t { th with pc := .rmRemove obj node.gcRef, rmlist := rest } with
        heap := update state.heap obj.node { node with gcRef := node.gcRef - 1 } }
  | .rmRemove obj ref =>
    (remove state obj).map fun state => state.setThread t { th with pc := .rmTest obj ref }
  | .rmTest obj ref =>
    if (state.heap obj.node).value = .haveRemoved ∧ ref = 1 then
      some { state.setThread t { addDeletedNode th obj.tableid obj.node with pc := .rmLoop } with
        handed := state.handed ++ [obj.node] }
    else some (state.setThread t { th with pc := .rmLoop })
  | .roSnapshot =>
    some { state.setThread t { th with
        pc := .roBody, oldsnapshot := state.snapshot, beginLog := state.log } with
      snapshot := state.snapshot + 1 }
  | .roScan _ _ node =>
    (scanMemNode state.heap th.oldsnapshot (state.snapshot + 1) node).map fun result =>
      state.setThread t { returned th state.clock result with pc := .roBody }

def perform (cfg : Config) (state : State) (t : ThreadId) : Act → Option State
  | .call op => if op.inBounds cfg then call state t (state.threads t) op else none
  | .tick => tick cfg state t (state.threads t)

def step (cfg : Config) (state : State) (act : ThreadId × Act) : Option State :=
  if act.1 < cfg.thrs then
    (perform cfg state act.1 act.2).map fun next => { next with clock := state.clock + 1 }
  else none

def put (state : State) (tableid : TableId) (key : Key) (object : Ptr) : State :=
  let (node, state) := getWithInsert (acquire state object) tableid key
  { state with
    heap := update state.heap node
      { state.heap node with value := .pointer object, seq := 1 }
    held := update state.held node true }

def loaded (records : List (TableId × Key × Ptr)) : State :=
  records.foldl (fun state record => put state record.1 record.2.1 record.2.2) {}

end EunoDb.Machine
