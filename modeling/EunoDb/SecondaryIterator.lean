import EunoDb.IndexRead
import EunoDb.BPlusScan
import EunoDb.ScanLoop

/-! `SecondaryIndexIterator` of `DBTX` and `DBROTX`, while nothing changes. Running out of rounds
and a dereferenced `NULL` is no result. The test of `knum` is left out, it succeeds here; so is the
read set, which has room for `2 ^ 30` entries. -/

namespace EunoDb.SecondaryIterator

open BPlusTree SecondIndex IndexRead Visibility ScanLoop

abbrev Tree := BPlusTree.State (Option NodeId)
abbrev TreeCursor := BPlusTree.Cursor (Option NodeId)

structure Table where
  index : Index
  records : Records
  represents : ∃ rows, Represents index.tree rows
  counted : Counted index
  linked : ∀ id, (records.fields id).valid = true → (records.fields id).memnode ≠ none

abbrev KeyValues := List Store

structure Iter where
  iter : TreeCursor := {}
  cur : Option NodeId := none
  val : KeyValues := []
  abort : Bool := false

def Iter.valid (it : Iter) : Bool := it.cur.isSome

def Iter.key (it : Iter) : Key := it.iter.key

inductive Call where
  | seekToFirst
  | seek (key : Key)
  | next
  | prev
  deriving DecidableEq

def curNode (tree : Tree) (iter : TreeCursor) : Option NodeId :=
  if iter.valid tree then iter.value.join else none

abbrev Entry := Key × Option NodeId

def entry (tree : Tree) (iter : TreeCursor) : Option Entry :=
  if iter.valid tree then some (iter.key, curNode tree iter) else none

section

variable (t : Table) (garbage : Key) (fuel : Nat)

def seqOf (e : Entry) : Option Nat := e.2.map fun id => (t.index.node id).seq

def examine (scan : SecondNode → Nat → Option KeyValues) (e : Entry) :
    Option (Option (NodeId × KeyValues)) := do
  let id ← e.2
  let knum := (t.index.node id).seq
  if knum = 0 then return none
  let kvs ← scan (t.index.node id) knum
  if 0 < kvs.length then return some (id, kvs) else return none

def moveNext (_ : Entry) (iter : TreeCursor) : Option TreeCursor :=
  (BPlusTree.next garbage t.index.tree iter).map Prod.fst

def movePrev (_ : Entry) (iter : TreeCursor) : Option TreeCursor :=
  (BPlusTree.prev garbage t.index.tree iter).map Prod.fst

def Iter.finish (it : Iter) : TreeCursor × Option (NodeId × KeyValues) → Iter
  | (iter, some (id, kvs)) => { it with iter := iter, cur := some id, val := kvs }
  | (iter, none) => { it with iter := iter, cur := none }

def Iter.finishKept (it : Iter) : TreeCursor × Option (NodeId × KeyValues) → Iter
  | (iter, some (id, kvs)) => { it with iter := iter, cur := some id, val := kvs }
  | (iter, none) => { it with iter := iter }

/-! ### `DBTX::SecondaryIndexIterator` -/

namespace DBTX

def scan (sn : SecondNode) (knum : Nat) : Option KeyValues := scanSecondNode t.records sn knum

def next (it : Iter) : Option Iter := do
  let (iter, _) ← BPlusTree.next garbage t.index.tree it.iter
  return it.finish (← loop (entry t.index.tree) (moveNext t garbage) (examine t (scan t)) fuel iter)

def prev (it : Iter) : Option Iter := do
  let (iter, b) ← BPlusTree.prev garbage t.index.tree it.iter
  if b then
    return it.finish (← loop (entry t.index.tree) (movePrev t garbage) (examine t (scan t)) fuel iter)
  else return { it with iter := iter, cur := none, abort := true }

def seek (it : Iter) (key : Key) : Option Iter := do
  let iter ← BPlusTree.seek garbage t.index.tree it.iter key
  let cur := curNode t.index.tree iter
  if ¬ iter.valid t.index.tree ∧ cur ≠ none then return { it with iter := iter, cur := cur }
  else
    return it.finish (← loop (entry t.index.tree) (moveNext t garbage) (examine t (scan t)) fuel iter)

def entryCur (place : TreeCursor × Option NodeId) : Option Entry :=
  if place.1.valid t.index.tree then some (place.1.key, place.2) else none

def moveCur (e : Entry) (place : TreeCursor × Option NodeId) :
    Option (TreeCursor × Option NodeId) := do
  let iter ← moveNext t garbage e place.1
  if seqOf t e = some 0 then return (iter, place.2) else return (iter, curNode t.index.tree iter)

def seekToFirst (it : Iter) : Option Iter := do
  let iter ← BPlusTree.seekToFirst garbage t.index.tree
  let (place, found) ← loop (entryCur t) (moveCur t garbage) (examine t (scan t)) fuel
    (iter, curNode t.index.tree iter)
  return it.finish (place.1, found)

def step (it : Iter) : Call → Option Iter
  | .seekToFirst => seekToFirst t garbage fuel it
  | .seek key => seek t garbage fuel it key
  | .next => if it.valid then next t garbage fuel it else none
  | .prev => if it.valid then prev t garbage fuel it else none

end DBTX

/-! ### `DBROTX::SecondaryIndexIterator` -/

namespace DBROTX

variable (oldsnapshot : Nat)

def scan (sn : SecondNode) (_ : Nat) : Option KeyValues :=
  getValueOnSnapshotByIndex t.records oldsnapshot sn

def next (it : Iter) : Option Iter := do
  let (iter, _) ← BPlusTree.next garbage t.index.tree it.iter
  return it.finish
    (← loop (entry t.index.tree) (moveNext t garbage) (examine t (scan t oldsnapshot)) fuel iter)

def moveBack (e : Entry) (iter : TreeCursor) : Option TreeCursor :=
  if seqOf t e = some 0 then moveNext t garbage e iter else movePrev t garbage e iter

def prev (it : Iter) : Option Iter := do
  let (iter, _) ← BPlusTree.prev garbage t.index.tree it.iter
  return it.finish
    (← loop (entry t.index.tree) (moveBack t garbage) (examine t (scan t oldsnapshot)) fuel iter)

def seek (it : Iter) (key : Key) : Option Iter := do
  let iter ← BPlusTree.seek garbage t.index.tree it.iter key
  return it.finishKept
    (← loop (entry t.index.tree) (moveNext t garbage) (examine t (scan t oldsnapshot)) fuel iter)

def seekToFirst (it : Iter) : Option Iter := do
  let iter ← BPlusTree.seekToFirst garbage t.index.tree
  return it.finishKept
    (← loop (entry t.index.tree) (moveNext t garbage) (examine t (scan t oldsnapshot)) fuel iter)

def step (it : Iter) : Call → Option Iter
  | .seekToFirst => seekToFirst t garbage fuel oldsnapshot it
  | .seek key => seek t garbage fuel oldsnapshot it key
  | .next => if it.valid then next t garbage fuel oldsnapshot it else none
  | .prev => if it.valid then prev t garbage fuel oldsnapshot it else none

end DBROTX

end

/-! ### What the iterators are for -/

section

variable (t : Table)

def offers (shows : MemNodeWrapper → Option Ptr) (key : Key) : Option (List (Key × Ptr)) :=
  match t.index.tree.contents.lookup key with
  | some (some id) =>
    let records := (t.index.node id).wrappers.filterMap fun mnw =>
      (shows mnw).map fun value => (mnw.key, value)
    if records = [] then none else some records
  | _ => none

def showsLive (mnw : MemNodeWrapper) : Option Ptr :=
  if (t.records.fields mnw.id).valid then
    (t.records.fields mnw.id).memnode.bind fun id => live (t.records.record id).value
  else none

def showsVisible (snapshot : Nat) (mnw : MemNodeWrapper) : Option Ptr :=
  (t.records.fields mnw.id).memnode.bind fun id => (t.records.record id).visibleAt snapshot

def Iter.observe (it : Iter) : Option (Key × List (Key × Ptr)) :=
  if it.valid then some (it.key, it.val.map fun store => (store.key, store.value)) else none

def LandsAt (shows : MemNodeWrapper → Option Ptr) (it : Iter) (call : Call) (after : Iter) : Prop :=
  match call with
  | .seekToFirst => Lands (offers t shows) (fun _ => True) (· ≤ ·) after.observe
  | .seek key => Lands (offers t shows) (key ≤ ·) (· ≤ ·) after.observe
  | .next => Lands (offers t shows) (it.key < ·) (· ≤ ·) after.observe
  | .prev => Lands (offers t shows) (· < it.key) (· ≥ ·) after.observe

end

end EunoDb.SecondaryIterator
