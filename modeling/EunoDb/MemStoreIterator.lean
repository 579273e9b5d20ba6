import EunoDb.MemStoreProcedures
import EunoDb.ScanLoop
import EunoDb.Visibility

/-! `MemStoreSkipList::Iterator` and the iterators of `DBTX` and `DBROTX`, while nothing changes.
`CurNode` of `NULL` is neither `NULL` nor a record. Running out of rounds and following `NULL` is
no result. The read set is left out: calls return while it has fewer than `2 ^ 30` entries. -/

namespace EunoDb.MemStoreIterator

open MemStoreSkipList SkipLevels Visibility ScanLoop
open SkipInsert (NodeId head)
open Memstore (Ptr Value)

/-! ### `MemStoreSkipList::Iterator` -/

structure Cursor where
  node : Option NodeId := none
  prev : Option NodeId := none
  deriving DecidableEq, Repr

inductive MemNodePtr where
  | null
  | of (node : NodeId)
  /-- The address of `memVal` in a node at address 0. -/
  | offset
  deriving DecidableEq, Repr

def Cursor.valid (c : Cursor) : Bool := c.node.isSome

def Cursor.curNode (c : Cursor) : MemNodePtr :=
  match c.node with
  | some node => .of node
  | none => .offset

section

variable {Key : Type} (s : State Key)

def Cursor.key (c : Cursor) : Option Key := c.node.map s.memory.key

def Cursor.next (c : Cursor) : Option Cursor :=
  c.node.map fun node => ⟨s.memory.next node 0, some node⟩

def Cursor.seekToFirst : Cursor := ⟨s.memory.next head 0, some head⟩

variable [LinearOrder Key] (fuel : Nat)

def Cursor.back (c : Cursor) : Option Cursor := do
  let node ← findLessThan s fuel (← c.key s)
  return { c with node := if node = head then none else some node }

def Cursor.seek (key : Key) : Option Cursor := do
  let prev ← findLessThan s fuel key
  let node ← findGreaterOrEqual s fuel key
  return ⟨node, some prev⟩

def Cursor.seekPrev (key : Key) : Option Cursor := do
  let node ← findLessThan s fuel key
  let prev ← findLessThan s fuel (s.memory.key node)
  return ⟨some node, some prev⟩

end

/-! ### The wrappers -/

structure Table (Key : Type) [LinearOrder Key] where
  list : State Key
  lists : Nat → List NodeId
  levels : Levels list.memory head lists
  record : NodeId → Record

structure Iter (V : Type) where
  iter : Cursor := {}
  cur : MemNodePtr := .null
  val : Option V := none
  deriving DecidableEq

inductive Call (Key : Type) where
  | seekToFirst
  | seek (key : Key)
  | next
  | prev

section

variable {Key V : Type}

def Iter.valid (it : Iter V) : Bool := it.cur != .null

def Iter.entry (it : Iter V) : Option NodeId := it.iter.node

def Iter.finish : Iter V × Option V → Iter V
  | (it, some v) => { it with cur := it.iter.curNode, val := some v }
  | (it, none) => { it with cur := .null }

def Iter.finishKept : Iter V × Option V → Iter V
  | (it, some v) => { it with cur := it.iter.curNode, val := some v }
  | (it, none) => it

variable [LinearOrder Key] (t : Table Key) (fuel : Nat)

/-! ### `DBTX::Iterator` -/

namespace DBTX

def liveValue (e : NodeId) : Option Value :=
  if (live (t.record e).value).isSome then some (t.record e).value else none

def examine (e : NodeId) : Option (Option Value) := some (liveValue t e)

def moveOn (move : Cursor → Option Cursor) (e : NodeId) (it : Iter Value) : Option (Iter Value) :=
  (move it.iter).map fun iter => ⟨iter, .of e, some (t.record e).value⟩

def moveCur (e : NodeId) (it : Iter Value) : Option (Iter Value) :=
  (it.iter.next t.list).map fun iter => ⟨iter, iter.curNode, some (t.record e).value⟩

def next (it : Iter Value) : Option (Iter Value) := do
  let iter ← it.iter.next t.list
  let result ← loop Iter.entry (moveOn t (Cursor.next t.list)) (examine t) fuel { it with iter := iter }
  return Iter.finish result

def prev (it : Iter Value) : Option (Iter Value) := do
  let iter ← it.iter.back t.list fuel
  let result ← loop Iter.entry (moveOn t (Cursor.back t.list fuel)) (examine t) fuel
    { it with iter := iter }
  return Iter.finish result

def afterSeek (it : Iter Value) (iter : Cursor) : Option (Iter Value) :=
  let it := { it with iter := iter, cur := iter.curNode }
  if iter.valid then (loop Iter.entry (moveCur t) (examine t) fuel it).map Iter.finish
  else some it

def seek (it : Iter Value) (key : Key) : Option (Iter Value) := do
  afterSeek t fuel it (← Cursor.seek t.list fuel key)

def seekToFirst (it : Iter Value) : Option (Iter Value) :=
  afterSeek t fuel it (Cursor.seekToFirst t.list)

def step (it : Iter Value) : Call Key → Option (Iter Value)
  | .seekToFirst => seekToFirst t fuel it
  | .seek key => seek t fuel it key
  | .next => if it.valid then next t fuel it else none
  | .prev => if it.valid then prev t fuel it else none

end DBTX

/-! ### `DBROTX::Iterator` -/

namespace DBROTX

variable (oldsnapshot : Nat)

def getValueOnSnapshot : MemNodePtr → Option (Option Ptr)
  | .null => some (scanMemNode oldsnapshot none)
  | .of node => some (scanMemNode oldsnapshot (some (t.record node)))
  | .offset => none

def examine (e : NodeId) : Option (Option Ptr) := getValueOnSnapshot t oldsnapshot (.of e)

def moveNext (_ : NodeId) (it : Iter Ptr) : Option (Iter Ptr) :=
  (it.iter.next t.list).map fun iter => { it with iter := iter }

def next (it : Iter Ptr) : Option (Iter Ptr) := do
  let iter ← it.iter.next t.list
  let result ← loop Iter.entry (moveNext t) (examine t oldsnapshot) fuel { it with iter := iter }
  return Iter.finish result

def prevLoop : Nat → Iter Ptr → Option (Iter Ptr)
  | 0, _ => none
  | rounds + 1, it =>
    if it.iter.valid then do
      let iter ← it.iter.back t.list fuel
      match ← getValueOnSnapshot t oldsnapshot iter.curNode with
      | some v => return ⟨iter, iter.curNode, some v⟩
      | none => prevLoop rounds { it with iter := iter }
    else some { it with cur := .null }

def prev (it : Iter Ptr) : Option (Iter Ptr) := prevLoop t fuel oldsnapshot fuel it

def afterSeek (it : Iter Ptr) (iter : Cursor) : Option (Iter Ptr) :=
  (loop Iter.entry (moveNext t) (examine t oldsnapshot) fuel { it with iter := iter }).map
    Iter.finishKept

def seek (it : Iter Ptr) (key : Key) : Option (Iter Ptr) := do
  afterSeek t fuel oldsnapshot it (← Cursor.seek t.list fuel key)

def seekToFirst (it : Iter Ptr) : Option (Iter Ptr) :=
  afterSeek t fuel oldsnapshot it (Cursor.seekToFirst t.list)

def step (it : Iter Ptr) : Call Key → Option (Iter Ptr)
  | .seekToFirst => seekToFirst t fuel oldsnapshot it
  | .seek key => seek t fuel oldsnapshot it key
  | .next => if it.valid then next t fuel oldsnapshot it else none
  | .prev => if it.valid then prev t fuel oldsnapshot it else none

end DBROTX

/-! ### What the iterators are for -/

def offers (shows : NodeId → Option V) (key : Key) : Option V :=
  ((t.lists 0).find? fun node => t.list.memory.key node = key).bind shows

def Iter.observe (it : Iter V) : Option (Option (Key × V)) :=
  if it.valid then do
    let key ← it.iter.key t.list
    let v ← it.val
    return some (key, v)
  else some none

def LandsAt (shows : NodeId → Option V) (it : Iter V) (call : Call Key) (after : Iter V) : Prop :=
  ∃ seen, after.observe t = some seen ∧
    match call with
    | .seekToFirst => Lands (offers t shows) (fun _ => True) (· ≤ ·) seen
    | .seek key => Lands (offers t shows) (key ≤ ·) (· ≤ ·) seen
    | .next => ∃ previous, it.iter.key t.list = some previous ∧
        Lands (offers t shows) (previous < ·) (· ≤ ·) seen
    | .prev => ∃ previous, it.iter.key t.list = some previous ∧
        Lands (offers t shows) (· < previous) (· ≥ ·) seen

def visible (snapshot : Nat) (e : NodeId) : Option Ptr := (t.record e).visibleAt snapshot

end

end EunoDb.MemStoreIterator
