import EunoDb.SecondIndex
import EunoDb.Visibility

/-! Reads through the index at the nine places that size their arrays by `seq`. What
`ScanSecondNode` adds to the read set is left out. -/

namespace EunoDb.IndexRead

open BPlusTree SecondIndex Visibility Execution Function

abbrev Ptr := Memstore.Ptr
abbrev RecordId := Nat

structure Fields where
  memnode : Option RecordId := none
  valid : Bool := false
  deriving DecidableEq

structure Records where
  fields : WrapperId → Fields := fun _ => {}
  record : RecordId → Record := fun _ => {}

structure Store where
  index : Nat
  key : Key
  value : Ptr
  deriving DecidableEq

def fill (read : MemNodeWrapper → Option (Option Ptr)) :
    Nat → List MemNodeWrapper → Option (List Store)
  | _, [] => some []
  | i, mnw :: rest => do
      match ← read mnw with
      | some value => return ⟨i, mnw.key, value⟩ :: (← fill read (i + 1) rest)
      | none => fill read i rest

def readLive (r : Records) (mnw : MemNodeWrapper) : Option (Option Ptr) :=
  if (r.fields mnw.id).valid then
    (r.fields mnw.id).memnode.map fun id => live (r.record id).value
  else some none

def readSnapshot (r : Records) (oldsnapshot : Nat) (mnw : MemNodeWrapper) : Option (Option Ptr) :=
  some (scanMemNode oldsnapshot ((r.fields mnw.id).memnode.map r.record))

def scanSecondNode (r : Records) (sn : SecondNode) (knum : Nat) : Option (List Store) :=
  if knum = 0 then some [] else fill (readLive r) 0 sn.wrappers

def getValueOnSnapshotByIndex (r : Records) (oldsnapshot : Nat) (sn : SecondNode) :
    Option (List Store) :=
  fill (readSnapshot r oldsnapshot) 0 sn.wrappers

/-! ### Readers and insertions -/

abbrev ReaderId := Nat

inductive IterCall where
  | seekToFirst
  | seek
  | next
  | prev
  deriving DecidableEq

inductive Place where
  | getByIndex
  | dbtx (call : IterCall)
  | dbrotx (call : IterCall) (oldsnapshot : Nat)
  deriving DecidableEq

inductive Pc where
  | idle
  | readSeq (place : Place) (sn : NodeId)
  | allocated (place : Place) (sn : NodeId) (knum : Nat)
  deriving DecidableEq

structure Stored where
  place : Place
  knum : Nat
  store : Store
  deriving DecidableEq

structure World where
  index : Index := {}
  records : Records := {}
  reader : ReaderId → Pc := fun _ => .idle
  log : List Stored := []

inductive Act where
  | insertSec (sn : NodeId) (prikey : Key)
  | setFields (wrapper : WrapperId) (fields : Fields)
  | setRecord (id : RecordId) (record : Record)
  | call (reader : ReaderId) (place : Place) (sn : NodeId)
  | tick (reader : ReaderId)

def World.goto (w : World) (reader : ReaderId) (pc : Pc) : World :=
  { w with reader := update w.reader reader pc }

def World.scan (w : World) (reader : ReaderId) (place : Place) (knum : Nat)
    (stores : Option (List Store)) : Option World := do
  let stores ← stores
  return { w.goto reader .idle with log := w.log ++ stores.map fun store => ⟨place, knum, store⟩ }

def World.tick (w : World) (reader : ReaderId) : Option World :=
  match w.reader reader with
  | .idle => none
  | .readSeq place sn =>
    let knum := (w.index.node sn).seq
    -- an iterator goes on with another entry of the index
    if knum = 0 ∧ place ≠ .getByIndex then w.goto reader .idle
    else w.goto reader (.allocated place sn knum)
  | .allocated place sn knum =>
    let node := w.index.node sn
    match place with
    | .getByIndex =>
      if knum ≠ node.seq then w.goto reader (.readSeq .getByIndex sn)
      else w.scan reader place knum (scanSecondNode w.records node knum)
    | .dbtx _ => w.scan reader place knum (scanSecondNode w.records node knum)
    | .dbrotx _ oldsnapshot =>
      w.scan reader place knum (getValueOnSnapshotByIndex w.records oldsnapshot node)

def step (w : World) : Act → Option World
  | .insertSec sn prikey =>
    (insertSec w.index.refill (some sn) prikey).map fun (index, _) => { w with index := index }
  | .setFields wrapper fields =>
    some { w with
      records := { w.records with fields := update w.records.fields wrapper fields } }
  | .setRecord id record =>
    some { w with
      records := { w.records with record := update w.records.record id record } }
  | .call reader place sn =>
    if w.reader reader = .idle then w.goto reader (.readSeq place sn) else none
  | .tick reader => w.tick reader

def Pc.Current (index : Index) : Pc → Prop
  | .allocated (.dbtx _) sn knum => (index.node sn).seq = knum
  | .allocated (.dbrotx _ _) sn knum => (index.node sn).seq = knum
  | _ => True

instance (index : Index) : (pc : Pc) → Decidable (pc.Current index)
  | .allocated (.dbtx _) _ _ => inferInstanceAs (Decidable (_ = _))
  | .allocated (.dbrotx _ _) _ _ => inferInstanceAs (Decidable (_ = _))
  | .allocated .getByIndex _ _ => isTrue trivial
  | .idle => isTrue trivial
  | .readSeq _ _ => isTrue trivial

def Unchanged (w : World) : Act → Prop
  | .tick reader => (w.reader reader).Current w.index
  | _ => True

instance (w : World) : (act : Act) → Decidable (Unchanged w act)
  | .tick reader => inferInstanceAs (Decidable ((w.reader reader).Current w.index))
  | .insertSec .. | .setFields .. | .setRecord .. | .call .. => isTrue trivial

/-! ### No list is longer than its `seq` -/

variable {stores : List Store} {knum : Nat} {w next : World} {reader : ReaderId}

theorem fill_stores {read : MemNodeWrapper → Option (Option Ptr)} {mnws : List MemNodeWrapper}
    {i : Nat} (filled : fill read i mnws = some stores) :
    ∀ store ∈ stores, store.index < i + mnws.length := by
  induction mnws generalizing i stores with
  | nil =>
    cases filled
    simp
  | cons mnw rest ih =>
    simp only [fill, Option.bind_eq_bind, Option.bind_eq_some_iff] at filled
    obtain ⟨value, -, filled⟩ := filled
    cases value with
    | none =>
      intro store mem
      have below := ih filled store mem
      simp only [List.length_cons]
      omega
    | some value =>
      obtain ⟨later, isLater, isStores⟩ := Option.bind_eq_some_iff.mp filled
      cases isStores
      intro store mem
      rcases List.mem_cons.mp mem with rfl | mem
      · simp
      · have below := ih isLater store mem
        simp only [List.length_cons]
        omega

theorem scanSecondNode_stores {r : Records} {sn : SecondNode}
    (filled : scanSecondNode r sn knum = some stores) :
    ∀ store ∈ stores, store.index < sn.wrappers.length := by
  rw [scanSecondNode] at filled
  split at filled
  · cases filled
    nofun
  · simpa using fill_stores filled

def Counted (index : Index) : Prop :=
  ∀ id, (index.node id).wrappers.length ≤ (index.node id).seq

theorem refill_node (s : Index) : s.refill.node = s.node := by
  rw [Index.refill]
  split <;> split <;> rfl

theorem Counted.insertSec {s next : Index} {secn : Option NodeId} {prikey : Key}
    {wrapper : WrapperId} (counted : Counted s)
    (inserted : insertSec s secn prikey = some (next, wrapper)) : Counted next := by
  simp only [SecondIndex.insertSec, Option.bind_eq_bind, Option.bind_eq_some_iff] at inserted
  obtain ⟨id, rfl, inserted⟩ := inserted
  split at inserted
  · cases inserted
    exact counted
  obtain ⟨spare, -, isNext⟩ := Option.bind_eq_some_iff.mp inserted
  cases isNext
  intro other
  by_cases same : other = id
  · subst same
    have before := counted other
    simpa using before
  · simpa [update_of_ne same] using counted other

/-! ### The arrays are large enough -/

structure Safe (w : World) : Prop where
  counted : Counted w.index
  inside : ∀ stored ∈ w.log, stored.store.index < stored.knum

theorem Safe.goto (safe : Safe w) (reader : ReaderId) (pc : Pc) :
    Safe (w.goto reader pc) :=
  ⟨safe.counted, safe.inside⟩

theorem Safe.scan (safe : Safe w) {place : Place} {stores : Option (List Store)}
    (inside : ∀ filled, stores = some filled → ∀ store ∈ filled, store.index < knum)
    (taken : w.scan reader place knum stores = some next) : Safe next := by
  obtain ⟨filled, isFilled, isNext⟩ := Option.bind_eq_some_iff.mp taken
  cases isNext
  refine ⟨safe.counted, ?_⟩
  intro stored mem
  rcases List.mem_append.mp mem with earlier | new
  · exact safe.inside stored earlier
  · obtain ⟨store, isIn, rfl⟩ := List.mem_map.mp new
    exact inside filled isFilled store isIn

theorem Safe.tick (safe : Safe w) (current : (w.reader reader).Current w.index)
    (taken : w.tick reader = some next) : Safe next := by
  unfold World.tick at taken
  split at taken
  · cases taken
  · dsimp only at taken
    split at taken <;>
    · cases taken
      exact safe.goto ..
  rename_i place sn knum isPc
  rw [isPc] at current
  have counted := safe.counted sn
  cases place with
  | getByIndex =>
    dsimp only at taken
    split at taken
    · cases taken
      exact safe.goto ..
    -- the section has just compared `seq` with `knum`
    rename_i same
    refine safe.scan (fun filled isFilled store mem => ?_) taken
    have below := scanSecondNode_stores isFilled store mem
    omega
  | dbtx call =>
    have same : (w.index.node sn).seq = knum := current
    refine safe.scan (fun filled isFilled store mem => ?_) taken
    have below := scanSecondNode_stores isFilled store mem
    omega
  | dbrotx call oldsnapshot =>
    have same : (w.index.node sn).seq = knum := current
    refine safe.scan (fun filled isFilled store mem => ?_) taken
    have below := fill_stores isFilled store mem
    omega

theorem Safe.step {act : Act} (safe : Safe w) (unchanged : Unchanged w act)
    (taken : step w act = some next) : Safe next := by
  cases act with
  | insertSec sn prikey =>
    obtain ⟨⟨index, wrapper⟩, inserted, rfl⟩ := Option.map_eq_some_iff.mp taken
    have counted : Counted w.index.refill := by
      intro id
      rw [refill_node]
      exact safe.counted id
    exact ⟨counted.insertSec inserted, safe.inside⟩
  | setFields wrapper fields | setRecord id record =>
    cases taken
    exact ⟨safe.counted, safe.inside⟩
  | call reader place sn =>
    simp only [IndexRead.step, Option.ite_none_right_eq_some, Option.some.injEq] at taken
    obtain ⟨-, rfl⟩ := taken
    exact safe.goto ..
  | tick reader => exact safe.tick unchanged taken

/-- A reader whose index node is as it was read stores inside the arrays that it allocated. -/
theorem stores_inside {acts : List Act} {w : World} (unchanged : Each step Unchanged {} acts)
    (ran : run step {} acts = some w) :
    ∀ stored ∈ w.log, stored.store.index < stored.knum := by
  have initial : Safe {} := ⟨fun _ => Nat.le_refl 0, nofun⟩
  exact (run_preserves (fun _ _ _ safe good taken => safe.step good taken) initial unchanged
    ran).inside

def retriedRead : List Act :=
  [.insertSec 0 10, .setFields 0 ⟨some 0, true⟩, .setRecord 0 ⟨0, .pointer 5, []⟩,
    .call 0 .getByIndex 0, .tick 0,
    .insertSec 0 11, .setFields 1 ⟨some 1, true⟩, .setRecord 1 ⟨0, .pointer 6, []⟩,
    .tick 0, .tick 0, .tick 0,
    .call 1 (.dbtx .next) 0, .call 2 (.dbrotx .prev 0) 0, .tick 1, .tick 2,
    .insertSec 1 12, .setFields 0 ⟨some 0, false⟩, .tick 1, .tick 2]

/-- `GetByIndex` starts again; the two iterators scan a node whose `seq` has not changed, while
another node gets a wrapper and one of theirs is marked as not valid. -/
theorem stores_inside_retried : ∃ w, run step {} retriedRead = some w ∧
    w.log = [⟨.getByIndex, 2, 0, 11, 6⟩, ⟨.getByIndex, 2, 1, 10, 5⟩, ⟨.dbtx .next, 2, 0, 11, 6⟩,
      ⟨.dbrotx .prev 0, 2, 0, 11, 6⟩, ⟨.dbrotx .prev 0, 2, 1, 10, 5⟩] ∧
    ∀ stored ∈ w.log, stored.store.index < stored.knum :=
  ⟨_, rfl, rfl, @stores_inside retriedRead _ (by decide) rfl⟩

def overtakenRead (place : Place) : List Act :=
  [.insertSec 0 10, .setFields 0 ⟨some 0, true⟩, .setRecord 0 ⟨0, .pointer 5, []⟩,
    .call 0 place 0, .tick 0,
    .insertSec 0 11, .setFields 1 ⟨some 1, true⟩, .setRecord 1 ⟨0, .pointer 6, []⟩,
    .tick 0]

theorem iterators_store_outside :
    (∃ w, run step {} (overtakenRead (.dbtx .next)) = some w ∧
      w.log = [⟨.dbtx .next, 1, 0, 11, 6⟩, ⟨.dbtx .next, 1, 1, 10, 5⟩]) ∧
    ∃ w, run step {} (overtakenRead (.dbrotx .next 0)) = some w ∧
      w.log = [⟨.dbrotx .next 0, 1, 0, 11, 6⟩, ⟨.dbrotx .next 0, 1, 1, 10, 5⟩] :=
  ⟨⟨_, rfl, rfl⟩, ⟨_, rfl, rfl⟩⟩

end EunoDb.IndexRead
