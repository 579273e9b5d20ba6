import EunoDb.Slots
import Mathlib.Logic.Function.Basic

/-! `SecondIndexUint64BPlusTree`. Leaves have addresses, inner nodes are values; the depth tells
them apart. Keys are only compared. A bad access has no result. -/

namespace EunoDb.BPlusTree

open Slots

abbrev Key := Nat
abbrev LeafId := Nat

def order : Nat := 15

def threshold : Nat := (order + 1) / 2

structure LeafNode (Val : Type) where
  numKeys : Nat := 0
  keys : List (Option Key) := List.replicate order none
  values : List (Option Val) := List.replicate order none
  left : Option LeafId := none
  right : Option LeafId := none
  seq : Nat := 0

inductive Tree where
  | leaf (id : LeafId)
  | inner (numKeys : Nat) (keys : List (Option Key)) (children : List (Option Tree))

structure Heap (Val : Type) where
  leaf : LeafId → LeafNode Val := fun _ => {}
  next : LeafId := 1

structure State (Val : Type) where
  heap : Heap Val := {}
  root : Tree := .leaf 0
  depth : Nat := 0

variable {Val : Type}

def Heap.set (heap : Heap Val) (id : LeafId) (leaf : LeafNode Val) : Heap Val :=
  { heap with leaf := Function.update heap.leaf id leaf }

def findLeaf (key : Key) : Nat → Tree → Option LeafId
  | 0, .leaf id => some id
  | d + 1, .inner numKeys keys children => do
      let k ← scan keys (fun separator => separator ≤ key) 0 numKeys
      let child ← read children k
      findLeaf key d child
  | _, _ => none

def firstLeaf : Nat → Tree → Option LeafId
  | 0, .leaf id => some id
  | d + 1, .inner _ _ children => do
      let child ← read children 0
      firstLeaf d child
  | _, _ => none

/-! ### Leaves -/

def LeafNode.put (leaf : LeafNode Val) (k : Nat) (key : Key) (val : Val) :
    Option (LeafNode Val) := do
  let keys ← insertAt leaf.keys leaf.numKeys k key
  let values ← insertAt leaf.values leaf.numKeys k val
  return { leaf with numKeys := leaf.numKeys + 1, keys := keys, values := values }

def splitLeaf (heap : Heap Val) (id : LeafId) : Option (Heap Val) := do
  let leaf := heap.leaf id
  let numKeys := leaf.numKeys - threshold
  let keys ← copy leaf.keys threshold 0 numKeys (List.replicate order none)
  let values ← copy leaf.values threshold 0 numKeys (List.replicate order none)
  let sibling : LeafNode Val :=
    { numKeys := numKeys, keys := keys, values := values, left := some id, right := leaf.right }
  let linked := match leaf.right with
    | some right => heap.set right { heap.leaf right with left := some heap.next }
    | none => heap
  return { (linked.set id { leaf with numKeys := threshold, right := some heap.next }).set
      heap.next sibling with
    next := heap.next + 1 }

def addKey (heap : Heap Val) (id : LeafId) (k : Nat) (key : Key) (val : Val) :
    Option (Heap Val × Option LeafId) := do
  if (heap.leaf id).numKeys = order then
    let split ← splitLeaf heap id
    if threshold ≤ k then
      let sibling ← (split.leaf heap.next).put (k - threshold) key val
      let leaf := split.leaf id
      return ((split.set heap.next sibling).set id { leaf with seq := leaf.seq + 1 },
        some heap.next)
    else
      let leaf ← (split.leaf id).put k key val
      return (split.set id { leaf with seq := leaf.seq + 1 }, some heap.next)
  else
    let leaf ← (heap.leaf id).put k key val
    return (heap.set id { leaf with seq := leaf.seq + 1 }, none)

def leafInsert (heap : Heap Val) (id : LeafId) (key : Key) (val : Val) :
    Option (Heap Val × Option LeafId × Val) := do
  let leaf := heap.leaf id
  let k ← scan leaf.keys (fun other => other < key) 0 leaf.numKeys
  let present ← if k < leaf.numKeys then (read leaf.keys k).map (· == key) else some false
  if present then
    let found ← read leaf.values k
    return (heap, none, found)
  else
    let (heap, sibling) ← addKey heap id k key val
    return (heap, sibling, val)

/-! ### Inner nodes -/

def putChild (numKeys : Nat) (keys : List (Option Key)) (children : List (Option Tree)) (k : Nat)
    (separator : Key) (new : Tree) : Option Tree := do
  let keys ← insertAt keys numKeys k separator
  let children ← insertAt children (numKeys + 1) (k + 1) new
  return .inner (numKeys + 1) keys children

def addChild (numKeys : Nat) (keys : List (Option Key)) (children : List (Option Tree)) (k : Nat)
    (separator : Key) (new : Tree) (toRight : Key → Bool) :
    Option (Tree × Option (Tree × Key)) := do
  if numKeys = order then
    let siblingNum := numKeys - threshold
    let siblingKeys ← copy keys threshold 0 siblingNum (List.replicate order none)
    let siblingChildren ← copy children threshold 0 siblingNum (List.replicate (order + 1) none)
    let last ← read children numKeys
    let siblingChildren ← write siblingChildren siblingNum last
    let upKey ← read keys (threshold - 1)
    let keys ← write keys (order - 1) upKey
    if toRight upKey then
      let sibling ← putChild siblingNum siblingKeys siblingChildren
        (if threshold ≤ k then k - threshold else 0) separator new
      return (.inner (threshold - 1) keys children, some (sibling, upKey))
    else
      let inner ← putChild (threshold - 1) keys children k separator new
      return (inner, some (.inner siblingNum siblingKeys siblingChildren, upKey))
  else
    let inner ← putChild numKeys keys children k separator new
    return (inner, none)

structure Inserted (Val : Type) where
  tree : Tree
  heap : Heap Val
  sibling : Option (Tree × Key)
  val : Val

def innerInsert (key : Key) (val : Val) : Nat → Heap Val → Tree → Option (Inserted Val)
  | 0, _, _ => none
  | 1, heap, .inner numKeys keys children => do
      let k ← scan keys (fun separator => separator ≤ key) 0 numKeys
      match ← read children k with
      | .leaf id =>
        let (heap, newLeaf, val) ← leafInsert heap id key val
        match newLeaf with
        | some new =>
          let separator ← read (heap.leaf new).keys 0
          let (tree, sibling) ← addChild numKeys keys children k separator (.leaf new)
            (fun upKey => upKey ≤ separator)
          return ⟨tree, heap, sibling, val⟩
        | none => return ⟨.inner numKeys keys children, heap, none, val⟩
      | .inner _ _ _ => none
  | d + 2, heap, .inner numKeys keys children => do
      let k ← scan keys (fun separator => separator ≤ key) 0 numKeys
      let child ← read children k
      let inserted ← innerInsert key val (d + 1) heap child
      -- the child was changed in place
      let children ← write children k inserted.tree
      match inserted.sibling, inserted.tree with
      | some (new, _), .inner _ childKeys _ =>
        let separator ← read childKeys (order - 1)
        let (tree, sibling) ← addChild numKeys keys children k separator new
          (fun upKey => upKey ≤ key)
        return ⟨tree, inserted.heap, sibling, inserted.val⟩
      | _, _ => return ⟨.inner numKeys keys children, inserted.heap, none, inserted.val⟩
  | _ + 1, _, .leaf _ => none

def newRoot (left : Tree) (separator : Key) (right : Tree) : Option Tree := do
  let keys ← write (List.replicate order none) 0 separator
  let children ← write (List.replicate (order + 1) none) 0 left
  let children ← write children 1 right
  return .inner 1 keys children

def getSec (s : State Val) (key : Key) (val : Val) : Option (State Val × Val) := do
  if s.depth = 0 then
    match s.root with
    | .leaf id =>
      let (heap, newLeaf, val) ← leafInsert s.heap id key val
      match newLeaf with
      | some new =>
        let separator ← read (heap.leaf new).keys 0
        let root ← newRoot s.root separator (.leaf new)
        return (⟨heap, root, s.depth + 1⟩, val)
      | none => return (⟨heap, s.root, s.depth⟩, val)
    | .inner _ _ _ => none
  else
    let inserted ← innerInsert key val s.depth s.heap s.root
    match inserted.sibling with
    | some (sibling, upKey) =>
      let root ← newRoot inserted.tree upKey sibling
      return (⟨inserted.heap, root, s.depth + 1⟩, inserted.val)
    | none => return (⟨inserted.heap, inserted.tree, s.depth⟩, inserted.val)

end EunoDb.BPlusTree
