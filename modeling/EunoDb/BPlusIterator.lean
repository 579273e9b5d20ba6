import EunoDb.BPlusContents
import EunoDb.Execution

/-! The iterator of the index. `Link` and `Target` are left out. A slot never written reads as
`garbage`. -/

namespace EunoDb.BPlusTree

open Slots Execution

variable {Val : Type}

structure Cursor (Val : Type) where
  node : Option LeafId := none
  leafIndex : Nat := 0
  seq : Nat := 0
  key : Key := 0
  value : Option Val := none

def Cursor.valid (s : State Val) (cursor : Cursor Val) : Bool :=
  match cursor.node with
  | some id => decide (0 < (s.heap.leaf id).numKeys)
  | none => false

section

variable (garbage : Key) (s : State Val)

def load (id : LeafId) (index : Nat) : Option (Cursor Val) := do
  let leaf := s.heap.leaf id
  let key ← leaf.keys[index]?
  let value ← leaf.values[index]?
  return ⟨some id, index, leaf.seq, key.getD garbage, value⟩

def arrive (cursor : Cursor Val) (id : LeafId) (index : Nat) : Option (Cursor Val) :=
  if (s.heap.leaf id).numKeys ≤ index then
    match (s.heap.leaf id).right with
    | some right => load garbage s right 0
    | none => some { cursor with node := none, leafIndex := 0 }
  else load garbage s id index

def search (pass : Key → Bool) : Nat → LeafId → Option (LeafId × Option Nat)
  | 0, _ => none
  | n + 1, id => do
      let leaf := s.heap.leaf id
      let k ← scan leaf.keys pass 0 leaf.numKeys
      if k = leaf.numKeys then
        match leaf.right with
        | some right => search pass n right
        | none => return (id, none)
      else return (id, some k)

def next (cursor : Cursor Val) : Option (Cursor Val × Bool) := do
  let id ← cursor.node
  if (s.heap.leaf id).seq = cursor.seq then
    return (← arrive garbage s cursor id (cursor.leafIndex + 1), true)
  else
    match ← search s (fun other => other ≤ cursor.key) s.leaves.length id with
    | (id, some k) => return (← arrive garbage s cursor id k, false)
    | (_, none) => return ({ cursor with node := none }, false)

def retreat (cursor : Cursor Val) (id : LeafId) : Nat → Option (Cursor Val)
  | index + 1 => load garbage s id index
  | 0 =>
    match (s.heap.leaf id).left with
    | none => some { cursor with node := none }
    | some left =>
      match (s.heap.leaf left).numKeys with
      | last + 1 => load garbage s left last
      | 0 => none

def prev (cursor : Cursor Val) : Option (Cursor Val × Bool) := do
  let id ← cursor.node
  if (s.heap.leaf id).seq = cursor.seq then
    return (← retreat garbage s cursor id cursor.leafIndex, true)
  else
    let (id, place) ← search s (fun other => other < cursor.key) s.leaves.length id
    return (← retreat garbage s cursor id (place.getD cursor.leafIndex), false)

def seek (cursor : Cursor Val) (key : Key) : Option (Cursor Val) := do
  let id ← findLeaf key s.depth s.root
  let leaf := s.heap.leaf id
  let k ← scan leaf.keys (fun other => other < key) 0 leaf.numKeys
  arrive garbage s cursor id k

def seekToFirst : Option (Cursor Val) := do
  let id ← firstLeaf s.depth s.root
  load garbage s id 0

end

/-! ### Insertions and one iterator -/

inductive Act (Val : Type) where
  | insert (key : Key) (val : Val)
  | seek (key : Key)
  | seekToFirst
  | next
  | prev

structure World (Val : Type) where
  index : State Val := {}
  cursor : Cursor Val := {}
  inserted : List (Key × Val) := []
  changed : Bool := false
  start : Option Key := none
  present : List (Key × Val) := []
  visited : List Key := []

def World.valid (w : World Val) : Bool := w.cursor.valid w.index

def Cursor.keys (s : State Val) (cursor : Cursor Val) : Option (List Key) :=
  cursor.node.map fun id => (s.heap.leaf id).entries.map Prod.fst

def World.position (w : World Val) (cursor : Cursor Val) : World Val :=
  { w with
    cursor := cursor
    changed := false
    visited := w.visited ++ if cursor.valid w.index then [cursor.key] else [] }

def World.begin (w : World Val) (low : Key) : World Val :=
  { w with start := some low, present := w.inserted, visited := [] }

def step (garbage : Key) (w : World Val) : Act Val → Option (World Val)
  | .insert key val => do
      let (index, _) ← getSec w.index key val
      return { w with
        index := index
        inserted := w.inserted ++ [(key, val)]
        changed := w.changed || w.cursor.keys index != w.cursor.keys w.index }
  | .seek key => do
      let cursor ← seek garbage w.index w.cursor key
      return (w.begin key).position cursor
  | .seekToFirst => do
      let cursor ← seekToFirst garbage w.index
      return (w.begin 0).position cursor
  | .next =>
    if w.valid then do
      let (cursor, _) ← next garbage w.index w.cursor
      return w.position cursor
    else none
  | .prev =>
    if w.valid then do
      let (cursor, _) ← prev garbage w.index w.cursor
      return { w.position cursor with start := none }
    else none

end EunoDb.BPlusTree
