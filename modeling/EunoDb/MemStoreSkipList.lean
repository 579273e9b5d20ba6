import EunoDb.Execution
import EunoDb.SkipInsert
import EunoDb.SkipSearch

/-! `MemStoreSkipList` used by one thread. `malloc` returns any unused memory, with whatever was
in it. Records are left out. Running out of rounds, waiting for a taken lock and reading an
unassigned element of `preds` is no result. -/

namespace EunoDb.MemStoreSkipList

open Execution SkipLevels SkipSearch Function
open SkipInsert (NodeId head)

def kMaxHeight : Nat := 16

structure State (Key : Type) where
  memory : Memory NodeId Key
  height : NodeId → Nat
  -- the word of the lock; 0 is free
  lock : NodeId → Nat
  maxHeight : Nat := 1
  dummy : Option NodeId
  allocated : NodeId → Bool

structure Input (Key : Type) where
  key : Key
  height : Nat
  node : NodeId

variable {Key : Type}

def State.newNode (s : State Key) (node : NodeId) (key : Key) (height : Nat) : State Key :=
  let memory := { s.memory with key := update s.memory.key node key }
  { s with
    memory := memory.setNext node 0 none
    height := update s.height node height
    allocated := update s.allocated node true }

def create (memory : Memory NodeId Key) (lock : NodeId → Nat) (zero : Key) (dummy : NodeId)
    (height : Nat) : State Key :=
  let s : State Key := {
    memory := {
      key := update memory.key head zero
      next := update memory.next head fun _ => none }
    height := fun _ => 0, lock := lock, dummy := some dummy, allocated := (· == head) }
  s.newNode dummy zero height

section

variable [LinearOrder Key]

/-! ### Searches -/

def find (s : State Key) (fuel : Nat) (key : Key) : Option (Found NodeId) :=
  search s.memory key fuel (s.maxHeight - 1) head {}

def findFromTop (s : State Key) (fuel : Nat) (key : Key) : Option (Found NodeId) :=
  search s.memory key fuel (kMaxHeight - 1) head {}

def findLessThan (s : State Key) (fuel : Nat) (key : Key) : Option NodeId :=
  (find s fuel key).map Found.last

def findGreaterOrEqual (s : State Key) (fuel : Nat) (key : Key) : Option (Option NodeId) :=
  (find s fuel key).map Found.next

def get (s : State Key) (fuel : Nat) (key : Key) : Option (Option NodeId) :=
  (findGreaterOrEqual s fuel key).map (hit s.memory key)

/-! ### `GetWithInsertFineGrainLock` -/

def lockLoop (memory : Memory NodeId Key) (trace : Trace NodeId) :
    Nat → Nat → Option NodeId → (NodeId → Nat) → Int → Option ((NodeId → Nat) × Bool × Int)
  | 0, _, _, lock, highest => some (lock, true, highest)
  | count + 1, i, prevpred, lock, highest => do
      let pred ← trace.preds i
      let (lock, highest) ←
        if some pred ≠ prevpred then
          if lock pred = 0 then some (update lock pred 1, (i : Int)) else none
        else some (lock, highest)
      if trace.succs i = memory.next pred i then
        lockLoop memory trace count (i + 1) (some pred) lock highest
      else return (lock, false, highest)

def unlockLoop (trace : Trace NodeId) :
    Nat → Nat → Option NodeId → (NodeId → Nat) → Option (NodeId → Nat)
  | 0, _, _, lock => some lock
  | count + 1, i, prevpred, lock => do
      let pred ← trace.preds i
      unlockLoop trace count (i + 1) (some pred)
        (if some pred ≠ prevpred then update lock pred 0 else lock)

def attempts (fuel : Nat) (input : Input Key) : Nat → Int → State Key → Option (State Key × NodeId)
  | 0, _, _ => none
  | more + 1, highest, s => do
      let found ← findFromTop s fuel input.key
      match hit s.memory input.key found.next with
      | some x => return (s, x)
      | none =>
        let (lock, valid, highest) ←
          lockLoop s.memory found.trace input.height 0 none s.lock highest
        if valid then
          let s := { s with lock := lock }.newNode input.node input.key input.height
          let memory ← linkLoop found.trace.preds input.node input.height 0 s.memory
          let lock ← unlockLoop found.trace input.height 0 none s.lock
          return ({ s with memory := memory, lock := lock }, input.node)
        else
          let lock ← unlockLoop found.trace (highest + 1).toNat 0 none lock
          attempts fuel input more highest { s with lock := lock }

def getWithInsertFineGrainLock (fuel : Nat) (s : State Key) (input : Input Key) :
    Option (State Key × NodeId) :=
  attempts fuel input fuel (-1) s

/-! ### `GetWithInsertRTM` -/

def getWithInsertRTM (fuel : Nat) (s : State Key) (input : Input Key) :
    Option (State Key × NodeId) := do
  let found ← find s fuel input.key
  match hit s.memory input.key found.next with
  | some x => return (s, x)
  | none =>
    let x ← s.dummy
    let memory := { s.memory with key := update s.memory.key x input.key }
    let height := s.height x
    let raised := s.maxHeight < height
    let preds := if raised then fillHead head found.trace.preds s.maxHeight height else found.trace.preds
    let memory ← linkLoop preds x height 0 memory
    return ({ s with
      memory := memory, dummy := none, maxHeight := if raised then height else s.maxHeight }, x)

/-! ### `GetWithInsertLockFree` -/

def getWithInsertLockFree (fuel : Nat) (s : State Key) (input : Input Key) :
    Option (State Key × NodeId) := do
  let found ← find s fuel input.key
  match hit s.memory input.key found.next with
  | some x => return (s, x)
  | none =>
    let maxh := s.maxHeight
    let preds := fillHead head found.trace.preds maxh input.height
    let s := { s with maxHeight := if maxh < input.height then input.height else maxh }.newNode
      input.node input.key input.height
    match ← casLoop fuel input.key preds input.node input.height 0 s.memory with
    | .all memory => return ({ s with memory := memory }, input.node)
    | .duplicate memory x =>
      return ({ s with
        memory := memory, allocated := update s.allocated input.node false }, x)

/-! ### `GetWithInsert` -/

inductive Procedure where
  | fineGrainLock
  | rtm
  | lockFree
  deriving DecidableEq

def Procedure.call (procedure : Procedure) (fuel : Nat) (s : State Key) (input : Input Key) :
    Option (State Key × NodeId) :=
  match procedure with
  | .fineGrainLock => getWithInsertFineGrainLock fuel s input
  | .rtm => getWithInsertRTM fuel s input
  | .lockFree => getWithInsertLockFree fuel s input

def getWithInsert (procedure : Procedure) (fuel : Nat) (s : State Key) (input : Input Key) :
    Option (State Key × NodeId) := do
  let (s, x) ← procedure.call fuel s input
  match s.dummy with
  | some _ => return (s, x)
  | none =>
    return ({ s.newNode input.node input.key input.height with dummy := some input.node }, x)

structure World (Key : Type) where
  list : State Key
  returned : List (Key × NodeId) := []

def step (procedure : Procedure) (fuel : Nat) (w : World Key) (input : Input Key) :
    Option (World Key) :=
  if (1 ≤ input.height ∧ input.height ≤ kMaxHeight) ∧ w.list.allocated input.node = false then
    (getWithInsert procedure fuel w.list input).map fun (s, x) =>
      ⟨s, w.returned ++ [(input.key, x)]⟩
  else none

end

end EunoDb.MemStoreSkipList
