import EunoDb.Execution
import EunoDb.SkipInsert

/-! `GetWithInsertFineGrainLock` and `Get`, interleaved at single reads and writes of links and
locks. Waiting for a taken lock has no successor. The locks of new nodes are free. -/

namespace EunoDb.FineGrainLock

open Execution LinkedList SkipLevels Function
open SkipInsert (NodeId ThreadId head Extends Sound)

def kMaxHeight : Nat := 16

structure Call (Key : Type) where
  key : Key
  height : Nat
  preds : Nat → Option NodeId := fun _ => none
  succs : Nat → Option NodeId := fun _ => none
  highestLocked : Int := -1

structure Lookup (Key : Type) where
  key : Key
  earlier : List (Key × NodeId)

inductive Pc (Key : Type) where
  | idle
  -- FindGreaterOrEqual
  | load (call : Call Key) (level : Nat) (x : NodeId)
  | compare (call : Call Key) (level : Nat) (x : NodeId) (next : Option NodeId)
  | test (call : Call Key) (x : Option NodeId)
  -- the loop that locks and checks, and the one that unlocks before the next attempt
  | lock (call : Call Key) (i : Nat) (prevpred : Option NodeId)
  | validate (call : Call Key) (i : Nat) (prevpred : Option NodeId)
  | unlock (call : Call Key) (i : Nat) (prevpred : Option NodeId)
  -- the loop that links the new node, and the one that unlocks behind it
  | newNode (call : Call Key)
  | loadNext (call : Call Key) (node : NodeId) (i : Nat)
  | storeNext (call : Call Key) (node : NodeId) (i : Nat) (value : Option NodeId)
  | setPred (call : Call Key) (node : NodeId) (i : Nat)
  | release (call : Call Key) (node : NodeId) (i : Nat) (prevpred : Option NodeId)
  -- Get
  | getMax (get : Lookup Key)
  | getLoad (get : Lookup Key) (level : Nat) (x : NodeId)
  | getCompare (get : Lookup Key) (level : Nat) (x : NodeId) (next : Option NodeId)
  | getTest (get : Lookup Key) (x : Option NodeId)

structure Found (Key : Type) where
  get : Lookup Key
  result : Option NodeId

structure World (Key : Type) where
  memory : Memory NodeId Key
  maxHeight : Nat := 1
  lock : NodeId → Option ThreadId := fun _ => none
  allocated : NodeId → Bool := fun node => node == head
  pc : ThreadId → Pc Key := fun _ => .idle
  -- history
  linked : List (Nat × NodeId) := []
  returned : List (Key × NodeId) := []
  found : List (Found Key) := []

variable {Key : Type}

def initial (memory : Memory NodeId Key) : World Key where
  memory := { memory with next := update memory.next head fun _ => none }

inductive Act (Key : Type) where
  | getWithInsert (t : ThreadId) (key : Key) (height : Nat)
  | get (t : ThreadId) (key : Key)
  | malloc (t : ThreadId) (node : NodeId)
  | advance (t : ThreadId)
  deriving DecidableEq

def World.setPc (w : World Key) (t : ThreadId) (pc : Pc Key) : World Key :=
  { w with pc := update w.pc t pc }

def World.return_ (w : World Key) (t : ThreadId) (key : Key) (node : NodeId) : World Key :=
  { w.setPc t .idle with returned := w.returned ++ [(key, node)] }

def World.unlock (w : World Key) (node : NodeId) : World Key :=
  { w with lock := update w.lock node none }

def World.unlockPred (w : World Key) (pred : NodeId) (prevpred : Option NodeId) : World Key :=
  if some pred ≠ prevpred then w.unlock pred else w

def descend (call : Call Key) (x : NodeId) (next : Option NodeId) (level : Nat) : Pc Key :=
  let call := { call with
    preds := update call.preds level (some x)
    succs := update call.succs level next }
  match level with
  | 0 => .test call next
  | level + 1 => .load call level x

def getDescend (get : Lookup Key) (x : NodeId) (next : Option NodeId) : Nat → Pc Key
  | 0 => .getTest get next
  | level + 1 => .getLoad get level x

def World.newNode (w : World Key) (t : ThreadId) (call : Call Key) (node : NodeId) : World Key :=
  let memory := { w.memory with key := update w.memory.key node call.key }
  { w with
    memory := memory.setNext node 0 none
    allocated := update w.allocated node true }.setPc t (.loadNext call node 0)

section Steps

variable [LinearOrder Key]

def compareNext (memory : Memory NodeId Key) (call : Call Key) (level : Nat) (x : NodeId) :
    Option NodeId → Pc Key
  | none => descend call x none level
  | some next =>
    if memory.key next < call.key then .load call level next
    else descend call x (some next) level

def World.testFound (w : World Key) (t : ThreadId) (call : Call Key) : Option NodeId → World Key
  | none => w.setPc t (.lock call 0 none)
  | some x =>
    if w.memory.key x = call.key then w.return_ t call.key x
    else w.setPc t (.lock call 0 none)

def getCompareNext (memory : Memory NodeId Key) (get : Lookup Key) (level : Nat) (x : NodeId) :
    Option NodeId → Pc Key
  | none => getDescend get x none level
  | some next =>
    if memory.key next < get.key then .getLoad get level next
    else getDescend get x (some next) level

def World.getReturn (w : World Key) (t : ThreadId) (get : Lookup Key) : Option NodeId → World Key
  | none => { w.setPc t .idle with found := w.found ++ [⟨get, none⟩] }
  | some x =>
    { w.setPc t .idle with
      found := w.found ++ [⟨get, if get.key = w.memory.key x then some x else none⟩] }

def advance (w : World Key) (t : ThreadId) : Option (World Key) :=
  match w.pc t with
  | .load call level x => some (w.setPc t (.compare call level x (w.memory.next x level)))
  | .compare call level x next => some (w.setPc t (compareNext w.memory call level x next))
  | .test call x => some (w.testFound t call x)
  | .lock call i prevpred => do
      let pred ← call.preds i
      if some pred = prevpred then
        return w.setPc t (.validate call i prevpred)
      else if w.lock pred = none then
        return { w with lock := update w.lock pred (some t) }.setPc t
          (.validate { call with highestLocked := i } i (some pred))
      else none
  | .validate call i prevpred => do
      let pred ← call.preds i
      if call.succs i = w.memory.next pred i then
        if i + 1 < call.height then
          return w.setPc t (.lock call (i + 1) prevpred)
        else
          return w.setPc t (.newNode call)
      else
        return w.setPc t (.unlock call 0 none)
  | .unlock call i prevpred =>
    if (i : Int) < call.highestLocked + 1 then do
      let pred ← call.preds i
      return (w.unlockPred pred prevpred).setPc t (.unlock call (i + 1) (some pred))
    else
      return w.setPc t (.load call (kMaxHeight - 1) head)
  | .loadNext call node i => do
      let pred ← call.preds i
      return w.setPc t (.storeNext call node i (w.memory.next pred i))
  | .storeNext call node i value =>
    some ({ w with memory := w.memory.setNext node i value }.setPc t (.setPred call node i))
  | .setPred call node i => do
      let pred ← call.preds i
      let w := { w with
        memory := w.memory.setNext pred i (some node)
        linked := w.linked ++ [(i, node)] }
      if i + 1 < call.height then
        return w.setPc t (.loadNext call node (i + 1))
      else
        return w.setPc t (.release call node 0 none)
  | .release call node i prevpred =>
    if i < call.height then do
      let pred ← call.preds i
      return (w.unlockPred pred prevpred).setPc t (.release call node (i + 1) (some pred))
    else
      return w.return_ t call.key node
  | .getMax get => some (w.setPc t (.getLoad get (w.maxHeight - 1) head))
  | .getLoad get level x => some (w.setPc t (.getCompare get level x (w.memory.next x level)))
  | .getCompare get level x next => some (w.setPc t (getCompareNext w.memory get level x next))
  | .getTest get x => some (w.getReturn t get x)
  | .idle => none
  | .newNode _ => none

def step (w : World Key) : Act Key → Option (World Key)
  | .getWithInsert t key height =>
    match w.pc t with
    | .idle =>
      if 1 ≤ height ∧ height ≤ kMaxHeight then
        some (w.setPc t (.load { key := key, height := height } (kMaxHeight - 1) head))
      else none
    | _ => none
  | .get t key =>
    match w.pc t with
    | .idle => some (w.setPc t (.getMax ⟨key, w.returned⟩))
    | _ => none
  | .malloc t node =>
    match w.pc t with
    | .newNode call => if w.allocated node then none else some (w.newNode t call node)
    | _ => none
  | .advance t => advance w t

def WaitsFor (w : World Key) (t : ThreadId) (pred : NodeId) : Prop :=
  ∃ call i prevpred, w.pc t = .lock call i prevpred ∧ call.preds i = some pred ∧
    some pred ≠ prevpred ∧ w.lock pred ≠ none

def Waits (w : World Key) (t : ThreadId) : Prop := ∃ pred, WaitsFor w t pred

structure Correct (w : World Key) : Prop where
  levels : ∃ lists, Levels w.memory head lists ∧
    (∀ level, (lists (level + 1)).Sublist (lists level)) ∧
    ∀ entry ∈ w.linked, entry.2 ∈ lists entry.1
  sameNode : ∀ first ∈ w.returned, ∀ second ∈ w.returned, first.1 = second.1 → first.2 = second.2
  finds : ∀ found ∈ w.found, ∀ entry ∈ found.get.earlier, entry.1 = found.get.key →
    found.result = some entry.2
  lockedOnce : ∀ t call i prevpred pred, w.pc t = .lock call i prevpred →
    call.preds i = some pred → some pred ≠ prevpred → w.lock pred ≠ some t
  progress : ∀ t, w.pc t ≠ .idle → ∃ u, w.pc u ≠ .idle ∧ ¬ Waits w u
  enabled : ∀ t, w.pc t ≠ .idle → (∀ call, w.pc t ≠ .newNode call) → ¬ Waits w t →
    ∃ w', advance w t = some w'

end Steps

end EunoDb.FineGrainLock
