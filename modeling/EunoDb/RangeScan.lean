import EunoDb.Execution
import EunoDb.OrderedList
import Mathlib.Order.Basic
import Mathlib.Algebra.Group.Nat.Defs

/-! Transactions that scan tables, one pointer read or critical section at a time. A table is its
level 0; a node is named by its key, as none is taken out: a `RemoveAll` that would do so has no
result. Pools, versions and secondary indexes are left out. Sequence numbers stay below `2 ^ 64` and
read and write sets below `2 ^ 30` entries, where their arrays can still be doubled. -/

namespace EunoDb.RangeScan

open Execution

abbrev Key := Nat
abbrev TableId := Nat
abbrev IterId := Nat

inductive Payload (Val : Type) where
  | logicalDelete
  | value (val : Val)
  deriving DecidableEq

variable {Val : Type}

def Payload.validate : Payload Val → Option Val
  | .value val => some val
  | _ => none

def Payload.deleted : Payload Val → Bool
  | .logicalDelete => true
  | _ => false

structure Record (Val : Type) where
  key : Key
  seq : Nat := 0
  value : Payload Val := .logicalDelete

/-! ### Tables -/

abbrev Table (Val : Type) := List (Record Val)

abbrev Link := Option Key

def after : Link → Key → Bool
  | none, _ => true
  | some key, other => decide (key < other)

def next (table : Table Val) (link : Link) : Option Key :=
  (table.find? fun record => after link record.key).map Record.key

def find (table : Table Val) (key : Key) : Option (Record Val) :=
  table.find? fun record => record.key == key

def getWithInsert (key : Key) (table : Table Val) : Table Val :=
  OrderedList.insert (· < ·) Record.key { key := key } table

def write (key : Key) (value : Payload Val) (table : Table Val) : Table Val :=
  table.map fun record =>
    if record.key = key then { record with seq := record.seq + 1, value := value } else record

abbrev Tables (Val : Type) := TableId → Table Val

def Tables.change (tables : Tables Val) (table : TableId) (f : Table Val → Table Val) : Tables Val :=
  fun other => if other = table then f (tables other) else tables other

structure Write (Val : Type) where
  table : TableId
  key : Key
  value : Payload Val

/-! ### The transaction and its iterators -/

structure SeqPair where
  table : TableId
  key : Key
  seq : Nat
  deriving DecidableEq

structure SuccPair where
  table : TableId
  link : Option Link
  target : Option Key
  deriving DecidableEq

inductive Cur where
  | null
  | wild
  | on (key : Key)
  deriving DecidableEq

structure Iter where
  table : TableId := 0
  node : Option Key := none
  previous : Option Link := none
  cur : Cur := .null
  prevLink : Option Link := none

inductive Kind where
  | next
  | prev
  | seek
  deriving DecidableEq

inductive Pc where
  | idle
  | getting (table : TableId) (key : Key)
  | less (i : IterId) (key : Key) (at_ : Link)
  | greaterOrEqual (i : IterId) (key : Key) (at_ : Link)
  | positioned (i : IterId)
  | looking (i : IterId) (kind : Kind)
  | moving (i : IterId) (kind : Kind)
  | back (i : IterId) (key : Key) (at_ : Link)

inductive Call where
  | seek (low : Key)
  | next
  deriving DecidableEq

structure World (Val : Type) where
  tables : Tables Val := fun _ => []
  iters : IterId → Iter := fun _ => {}
  pc : Pc := .idle
  abort : Bool := false
  seqs : List SeqPair := []
  nexts : List SuccPair := []
  writes : List (Write Val) := []
  buffer : TableId → Option Key := fun _ => none
  gcnum : Nat := 0
  pending : List SeqPair := []
  ended : Option Bool := none
  crossed : List SuccPair := []
  seen : List (SeqPair × Payload Val) := []
  asked : Call := .next
  answers : IterId → Option (List (Call × Option (Key × Val))) := fun _ => none

def GCThreshold : Nat := 100000
def RMThreshold : Nat := 100

def qsize : Nat := 64

def noKey : Key := 2 ^ 64 - 1

section

variable (w : World Val)

def World.setIter (i : IterId) (iter : Iter) : World Val :=
  { w with iters := Function.update w.iters i iter }

@[simp] theorem World.setIter_iters (i : IterId) (iter : Iter) :
    (w.setIter i iter).iters i = iter := Function.update_self ..

@[simp] theorem World.setIter_tables (i : IterId) (iter : Iter) :
    (w.setIter i iter).tables = w.tables := rfl

def World.respond (i : IterId) (kind : Kind) (answer : Option (Key × Val)) : World Val :=
  { w with
    pc := .idle
    answers := Function.update w.answers i (match kind with
      | .seek => some ((w.answers i).getD [] ++ [(w.asked, answer)])
      | .next => (w.answers i).map (· ++ [(.next, answer)])
      | .prev => none) }

def World.arrive (i : IterId) (iter : Iter) : World Val :=
  { w.setIter i iter with crossed := w.crossed ++ [⟨iter.table, iter.previous, iter.node⟩] }

def World.follow (i : IterId) : Option (World Val) := do
  let iter := w.iters i
  let key ← iter.node
  return w.arrive i { iter with
    previous := some (some key)
    node := next (w.tables iter.table) (some key) }

def World.visit (i : IterId) (kind : Kind) (key : Key) (record : Record Val) : World Val :=
  let iter := w.iters i
  let seqPair : SeqPair := ⟨iter.table, key, record.seq⟩
  { w.setIter i { iter with
      cur := .on key
      prevLink := if kind = .next then iter.previous else iter.prevLink } with
    -- `Next` does not record the link it has recorded last
    nexts := if kind = .next ∧ iter.prevLink = iter.previous then w.nexts
      else w.nexts ++ [⟨iter.table, iter.previous, some key⟩]
    seqs := w.seqs ++ [seqPair]
    seen := w.seen ++ [(seqPair, record.value)] }

def World.look (i : IterId) (kind : Kind) : Option (World Val) :=
  let iter := w.iters i
  match iter.node with
  | none => some ((w.setIter i { iter with cur := .null }).respond i kind none)
  | some key => do
      let record ← find (w.tables iter.table) key
      match record.value.validate with
      | some val => return (w.visit i kind key record).respond i kind (some (key, val))
      | none => return { w.visit i kind key record with pc := .moving i kind }

def stepTo (table : Table Val) (key : Key) (at_ : Link) : Option Key :=
  (next table at_).filter (· < key)

def World.tick : Option (World Val) :=
  match w.pc with
  | .idle => none
  | .getting table key => do
      let record ← find (w.tables table) key
      return { w with
        pc := .idle
        seqs := w.seqs ++ [⟨table, key, record.seq⟩]
        buffer := Function.update w.buffer table (some key) }
  | .less i key at_ =>
    let iter := w.iters i
    match stepTo (w.tables iter.table) key at_ with
    | some further => some { w with pc := .less i key (some further) }
    | none => some { w.setIter i { iter with previous := some at_ } with
        pc := .greaterOrEqual i key none }
  | .greaterOrEqual i key at_ =>
    let iter := w.iters i
    match stepTo (w.tables iter.table) key at_ with
    | some further => some { w with pc := .greaterOrEqual i key (some further) }
    | none =>
      let target := next (w.tables iter.table) at_
      some { w.arrive i { iter with
          node := target
          cur := target.elim .wild .on } with
        pc := .positioned i }
  | .positioned i =>
    let iter := w.iters i
    match iter.node with
    -- `cur_` is not `NULL` then
    | none => some (World.respond { w with
        nexts := w.nexts ++ [⟨iter.table, iter.previous, none⟩] } i .seek none)
    | some _ => w.look i .seek
  | .looking i kind => w.look i kind
  | .moving i .prev => do
      let key ← (w.iters i).node
      return { w with pc := .back i key none }
  | .moving i kind => (w.follow i).map fun w => { w with pc := .looking i kind }
  | .back i key at_ =>
    let iter := w.iters i
    match stepTo (w.tables iter.table) key at_ with
    | some further => some { w with pc := .back i key (some further) }
    | none => some { w.setIter i { iter with node := at_ } with pc := .looking i .prev }

/-! ### Calls -/

def World.begin : World Val :=
  { w with
    seqs := []
    nexts := []
    writes := []
    crossed := []
    seen := []
    answers := fun _ => none }

def World.seekToFirst (i : IterId) : World Val :=
  let iter := w.iters i
  let target := next (w.tables iter.table) none
  { w.arrive i { iter with
      previous := some none
      node := target
      cur := target.elim .wild .on } with
    pc := .positioned i
    asked := .seek 0 }

def World.get (table : TableId) (key : Key) : World Val :=
  if w.writes.any fun entry => entry.table == table && entry.key == key then w
  else { w with
    tables := w.tables.change table (getWithInsert key)
    pc := .getting table key }

def World.add (table : TableId) (key : Key) (value : Payload Val) (fills : Bool) :
    Option (World Val) :=
  if w.buffer table = none ∧ key = noKey then none
  else
    let hit := w.buffer table = some key
    some { w with
      tables := if hit then w.tables else w.tables.change table (getWithInsert key)
      buffer := if fills then Function.update w.buffer table (some key) else w.buffer
      writes := w.writes ++ [⟨table, key, value⟩] }

def World.value (i : IterId) : Option (World Val) := do
  let key ← (w.iters i).node
  return { w with buffer := Function.update w.buffer (w.iters i).table (some key) }

def validateNexts (tables : Tables Val) : List SuccPair → Option Bool
  | [] => some true
  | pair :: rest => do
      let link ← pair.link
      if next (tables pair.table) link = pair.target then validateNexts tables rest
      else return false

def currentSeq (tables : Tables Val) (pair : SeqPair) : Option Nat :=
  (find (tables pair.table) pair.key).map Record.seq

def World.validate : Option Bool :=
  if w.seqs.all fun pair => currentSeq w.tables pair == some pair.seq then
    validateNexts w.tables w.nexts
  else some false

def commitEntry (state : Tables Val × List SeqPair) (entry : Write Val) : Tables Val × List SeqPair :=
  (state.1.change entry.table (write entry.key entry.value),
    match find (state.1 entry.table) entry.key with
    | some record =>
      if entry.value.deleted && !record.value.deleted
      then state.2 ++ [⟨entry.table, entry.key, record.seq + 1⟩] else state.2
    | none => state.2)

def commit (tables : Tables Val) (writes : List (Write Val)) : Tables Val × List SeqPair :=
  writes.foldl commitEntry (tables, [])

/-- `GC` and `DelayRemove`. `RemoveAll` drops the requests that are out of date; one that is not
would take its node out. -/
def World.collect : Option (World Val) :=
  let gcnum := if w.gcnum < GCThreshold then w.gcnum else 0
  if w.pending.length < RMThreshold then some { w with gcnum := gcnum }
  else if w.pending.all fun pair => currentSeq w.tables pair != some pair.seq then
    some { w with gcnum := gcnum, pending := [] }
  else none

def World.end_ (handed : Nat) : Option (World Val) :=
  if w.abort then World.collect { w with ended := some false }
  else do
    if ← w.validate then
      let (tables, requests) := commit w.tables w.writes
      if qsize ≤ requests.length then none
      else World.collect { w with
        tables := tables
        gcnum := w.gcnum + handed
        pending := w.pending ++ requests
        ended := some true }
    else World.collect { w with ended := some false }

end

inductive Act (Val : Type) where
  | begin
  | create (i : IterId) (table : TableId)
  | seek (i : IterId) (key : Key)
  | seekToFirst (i : IterId)
  | next (i : IterId)
  | prev (i : IterId)
  | value (i : IterId)
  | get (table : TableId) (key : Key)
  | add (table : TableId) (key : Key) (value : Payload Val) (fills : Bool)
  | end_ (handed : Nat)
  | abort
  | tick
  | insert (table : TableId) (key : Key)
  | commit (writes : List (Write Val))

def call (w : World Val) : Act Val → Option (World Val)
  | .begin => some w.begin
  | .create i table => some { w.setIter i { table := table } with
      answers := Function.update w.answers i none }
  | .seek i key => some { w with pc := .less i key none, asked := .seek key }
  | .seekToFirst i => some (w.seekToFirst i)
  | .next i =>
    if (w.iters i).cur = .null then none
    else (w.follow i).map fun w => { w with pc := .looking i .next }
  | .prev i => do
      if (w.iters i).cur = .null then none
      else
        let key ← (w.iters i).node
        return { w with pc := .back i key none, answers := Function.update w.answers i none }
  | .value i => w.value i
  | .get table key => some (w.get table key)
  | .add table key value fills => w.add table key value fills
  | .end_ handed => w.end_ handed
  | .abort => some { w.begin with abort := false }
  | .tick | .insert _ _ | .commit _ => none

def step (w : World Val) : Act Val → Option (World Val)
  | .tick => w.tick
  | .insert table key => some { w with tables := w.tables.change table (getWithInsert key) }
  | .commit writes => some { w with tables := (commit w.tables writes).1 }
  | act =>
    match w.pc with
    | .idle => call w act
    | _ => none

/-! ### What `End` changes -/

section

variable {w after : World Val}

theorem collect_cases (taken : w.collect = some after) :
    ∃ gcnum pending, after = { w with gcnum := gcnum, pending := pending } := by
  simp only [World.collect] at taken
  split at taken
  · cases taken
    exact ⟨_, w.pending, rfl⟩
  · split at taken <;> cases taken
    exact ⟨_, [], rfl⟩

theorem end_cases {handed : Nat} (taken : w.end_ handed = some after) :
    ∃ tables gcnum pending ended, after = { w with
        tables := tables, gcnum := gcnum, pending := pending, ended := ended } ∧
      (tables = w.tables ∨ tables = (commit w.tables w.writes).1) ∧
      (ended = some true → w.validate = some true) := by
  unfold World.end_ at taken
  split at taken
  · obtain ⟨gcnum, pending, rfl⟩ := collect_cases taken
    exact ⟨_, gcnum, pending, some false, rfl, Or.inl rfl, nofun⟩
  obtain ⟨valid, isValid, finished⟩ := Option.bind_eq_some_iff.mp taken
  cases valid with
  | false =>
    obtain ⟨gcnum, pending, rfl⟩ := collect_cases finished
    exact ⟨_, gcnum, pending, some false, rfl, Or.inl rfl, nofun⟩
  | true =>
    simp only [if_true] at finished
    split at finished
    · cases finished
    · obtain ⟨gcnum, pending, rfl⟩ := collect_cases finished
      exact ⟨_, gcnum, pending, some true, rfl, Or.inr rfl, fun _ => isValid⟩

end

end EunoDb.RangeScan
