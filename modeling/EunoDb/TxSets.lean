import EunoDb.Memstore
import EunoDb.History

/-! `ReadSet` and `WriteSet` of `db/dbtx.cc`, the delete set of `db/delset.cc`. Growing arrays are
lists. `Write` is the body of `End`'s section. -/

namespace EunoDb.TxSets

open Memstore Function

/-! `Link` is the type of the `next_[0]` fields that a scan records; point transactions have none. -/

structure RSSeqPair where
  seq : Nat
  seqptr : NodeId
  label : Int
  deriving DecidableEq, Repr

structure RSSuccPair (Link : Type) where
  next : Option NodeId
  nextptr : Link
  deriving DecidableEq, Repr

structure ReadSet (Link : Type) where
  seqs : List RSSeqPair := []
  nexts : List (RSSuccPair Link) := []

def noConflict : Int := -1

namespace ReadSet

variable {Link : Type}

def add (rs : ReadSet Link) (heap : Heap) (node : NodeId) (label : Int) : ReadSet Link :=
  { rs with seqs := rs.seqs ++ [⟨(heap node).seq, node, label⟩] }

def addNext (rs : ReadSet Link) (link : Link) (target : Option NodeId) : ReadSet Link :=
  { rs with nexts := rs.nexts ++ [⟨target, link⟩] }

def validate (rs : ReadSet Link) (heap : Heap) (nextOf : Link → Option NodeId) : Int :=
  match rs.seqs.find? fun pair => decide (pair.seq ≠ (heap pair.seqptr).seq) with
  | some pair => pair.label
  | none =>
    if rs.nexts.any fun pair => decide (pair.next ≠ nextOf pair.nextptr) then 0
    else noConflict

theorem validate_eq_noConflict (rs : ReadSet Link) (heap : Heap)
    (nextOf : Link → Option NodeId) (labels : ∀ pair ∈ rs.seqs, 0 ≤ pair.label) :
    rs.validate heap nextOf = noConflict ↔
      (∀ pair ∈ rs.seqs, pair.seq = (heap pair.seqptr).seq) ∧
      ∀ pair ∈ rs.nexts, pair.next = nextOf pair.nextptr := by
  unfold validate
  cases found : rs.seqs.find? fun pair => decide (pair.seq ≠ (heap pair.seqptr).seq) with
  | some pair =>
    have mem := List.mem_of_find?_eq_some found
    have changed := List.find?_some found
    have label := labels pair mem
    simp only [decide_eq_true_eq] at changed
    constructor
    · intro conflict
      simp only [noConflict] at conflict
      omega
    · rintro ⟨same, _⟩
      exact absurd (same pair mem) changed
  | none =>
    have same : ∀ pair ∈ rs.seqs, pair.seq = (heap pair.seqptr).seq := by
      intro pair mem
      simpa using List.find?_eq_none.mp found pair mem
    by_cases broken : rs.nexts.any fun pair => decide (pair.next ≠ nextOf pair.nextptr)
    · simp only [broken, if_true]
      constructor
      · intro conflict
        simp [noConflict] at conflict
      · rintro ⟨_, kept⟩
        obtain ⟨pair, mem, changed⟩ := List.any_eq_true.mp broken
        simp only [decide_eq_true_eq] at changed
        exact absurd (kept pair mem) changed
    · simp only [broken, Bool.false_eq_true, if_false, true_iff]
      refine ⟨same, ?_⟩
      intro pair mem
      simp only [List.any_eq_true, not_exists, not_and, decide_eq_true_eq, not_not] at broken
      exact broken pair mem

end ReadSet

structure WSKV where
  tableid : TableId
  key : Key
  node : NodeId
  val : Value
  commitval : Value := .logicalDelete
  commitseq : Nat := 0
  dummy : Option NodeId := none
  deriving DecidableEq, Repr

structure DELElement where
  tableid : TableId
  key : Key
  node : NodeId
  seq : Nat
  deriving DecidableEq, Repr

namespace WriteSet

def lookup (kvs : List WSKV) (tableid : TableId) (key : Key) : Option Value :=
  kvs.foldl (fun found kv =>
    if kv.tableid = tableid ∧ kv.key = key then some kv.val else found) none

def checkWriteSet (heap : Heap) (kvs : List WSKV) : Bool :=
  kvs.all fun kv => decide ((heap kv.node).value ≠ .haveRemoved)

end WriteSet

inductive WriteError where
  | delBufferOverflow
  | counterAhead
  deriving DecidableEq, Repr

def delSetSize : Nat := 64

def delSetAdd (queue : List DELElement) (kv : WSKV) (seq : Nat) :
    Except WriteError (List DELElement) :=
  if queue.length + 1 = delSetSize then .error .delBufferOverflow
  else .ok (queue ++ [⟨kv.tableid, kv.key, kv.node, seq + 1⟩])

structure WriteState where
  heap : Heap
  nextNode : NodeId
  memnodesPool : TableId → ObjPool
  deleteset : List DELElement := []
  written : List WSKV := []

def getMemNode (ws : WriteState) (tableid : TableId) : NodeId × WriteState :=
  match (ws.memnodesPool tableid).getFreeObj with
  | some (node, pool) =>
    (node, { ws with
      heap := update ws.heap node {}
      memnodesPool := update ws.memnodesPool tableid pool })
  | none =>
    (ws.nextNode, { ws with
      heap := update ws.heap ws.nextNode {}
      nextNode := ws.nextNode + 1 })

def registerDelete (queue : List DELElement) (kv : WSKV) (node : MemNode) :
    Except WriteError (List DELElement) :=
  if kv.val = .logicalDelete ∧ node.value ≠ .logicalDelete then delSetAdd queue kv node.seq
  else .ok queue

def writeInPlace (ws : WriteState) (kv : WSKV) (node : MemNode) (queue : List DELElement) :
    WriteState :=
  { ws with
    heap := update ws.heap kv.node
      { node with value := kv.val, seq := node.seq + 1 }
    deleteset := queue
    written := ws.written ++
      [{ kv with val := node.value, commitval := kv.val, commitseq := node.seq + 1 }] }

def writeNewVersion (ws : WriteState) (kv : WSKV) (gcounter : Nat)
    (queue : List DELElement) : WriteState :=
  let (dummy, ws) := getMemNode ws kv.tableid
  let current := ws.heap kv.node
  let heap := update ws.heap dummy
    { ws.heap dummy with
      value := current.value, counter := current.counter, seq := current.seq,
      oldVersions := current.oldVersions }
  let node := heap kv.node
  { ws with
    heap := update heap kv.node
      { node with
        oldVersions := some dummy, counter := gcounter, value := kv.val, seq := node.seq + 1 }
    deleteset := queue
    written := ws.written ++
      [{ kv with
         val := .logicalDelete, commitval := kv.val, commitseq := node.seq + 1,
         dummy := some dummy }] }

def stampCounter (node : MemNode) (gcounter : Nat) : MemNode :=
  if node.counter = 0 then { node with counter := gcounter } else node

def writeEntry (gcounter : Nat) (ws : WriteState) (kv : WSKV) : Except WriteError WriteState :=
  let node := stampCounter (ws.heap kv.node) gcounter
  if node.counter = gcounter then
    (registerDelete ws.deleteset kv node).map (writeInPlace ws kv node)
  else if node.counter < gcounter then
    (registerDelete ws.deleteset kv node).map (writeNewVersion ws kv gcounter)
  else .error .counterAhead

def write (gcounter : Nat) (ws : WriteState) (kvs : List WSKV) : Except WriteError WriteState :=
  kvs.foldlM (writeEntry gcounter) ws

theorem lookup_eq_latest (kvs : List WSKV) (tableid : TableId) (key : Key) :
    WriteSet.lookup kvs tableid key =
      History.latest (kvs.map fun kv => ((kv.tableid, kv.key), kv.val)) (tableid, key) := by
  simp [WriteSet.lookup, History.latest, List.foldl_map, Prod.ext_iff]

/-! ### What one entry does

`Write` is described entry by entry: which of its two branches ran, and what the
allocator gave out. Everything proved about a whole write set is an induction
over these two lemmas. -/

variable {gcounter : Nat} {ws after : WriteState} {kv : WSKV} {main : NodeId → Prop}
  {dummy : NodeId} {kvs : List WSKV}

theorem writeEntry_cases (written : writeEntry gcounter ws kv = .ok after) :
    ∃ queue, registerDelete ws.deleteset kv (stampCounter (ws.heap kv.node) gcounter) = .ok queue ∧
      (((ws.heap kv.node).counter = 0 ∨ (ws.heap kv.node).counter = gcounter) ∧
          after = writeInPlace ws kv { ws.heap kv.node with counter := gcounter } queue ∨
        (ws.heap kv.node).counter ≠ 0 ∧ (ws.heap kv.node).counter < gcounter ∧
          after = writeNewVersion ws kv gcounter queue) := by
  unfold writeEntry at written
  by_cases unset : (ws.heap kv.node).counter = 0
  · simp only [stampCounter, unset, if_true] at written ⊢
    cases registered : registerDelete ws.deleteset kv { ws.heap kv.node with counter := gcounter } with
    | error failure => simp [registered, Except.map] at written
    | ok queue =>
      simp only [registered, Except.map, Except.ok.injEq] at written
      exact ⟨queue, rfl, Or.inl ⟨Or.inl trivial, written.symm⟩⟩
  simp only [stampCounter, unset, if_false] at written ⊢
  cases registered : registerDelete ws.deleteset kv (ws.heap kv.node) with
  | error failure =>
    simp only [registered, Except.map] at written
    split at written
    · cases written
    · split at written <;> cases written
  | ok queue =>
    simp only [registered, Except.map] at written
    split at written
    · rename_i same
      cases written
      refine ⟨queue, rfl, Or.inl ⟨Or.inr same, ?_⟩⟩
      rw [← same]
    · split at written
      · rename_i older
        cases written
        exact ⟨queue, rfl, Or.inr ⟨unset, older, rfl⟩⟩
      · cases written

theorem writeEntry_counterAhead (failed : writeEntry gcounter ws kv = .error .counterAhead) :
    gcounter < (ws.heap kv.node).counter := by
  have registered : ∀ node, registerDelete ws.deleteset kv node ≠ .error .counterAhead := by
    intro node
    unfold registerDelete delSetAdd
    split
    · split <;> simp
    · simp
  have mapped : ∀ node (f : List DELElement → WriteState),
      (registerDelete ws.deleteset kv node).map f ≠ .error .counterAhead := by
    intro node f
    cases result : registerDelete ws.deleteset kv node with
    | ok queue => simp [Except.map]
    | error failure =>
      intro same
      simp only [Except.map, Except.error.injEq] at same
      exact registered node (by rw [result, same])
  unfold writeEntry at failed
  by_cases unset : (ws.heap kv.node).counter = 0
  · simp only [stampCounter, unset, if_true] at failed
    exact absurd failed (mapped _ _)
  simp only [stampCounter, unset, if_false] at failed
  split at failed
  · exact absurd failed (mapped _ _)
  · split at failed
    · exact absurd failed (mapped _ _)
    · omega

variable {element : DELElement} {tableid : TableId}

theorem registerDelete_mem {queue after : List DELElement} {node : MemNode}
    (registered : registerDelete queue kv node = .ok after) (mem : element ∈ after) :
    element ∈ queue ∨ element = ⟨kv.tableid, kv.key, kv.node, node.seq + 1⟩ := by
  unfold registerDelete delSetAdd at registered
  split at registered
  · split at registered
    · cases registered
    · cases registered
      simpa using mem
  · cases registered
    exact Or.inl mem

def Spare (main : NodeId → Prop) (nextNode : NodeId) (node : NodeId) : Prop :=
  ¬ main node ∧ node < nextNode

structure Separate (main : NodeId → Prop) (ws : WriteState) : Prop where
  bounded : ∀ node, main node → node < ws.nextNode
  pooled : ∀ tableid node,
    node ∈ (ws.memnodesPool tableid).freelist ∨ node ∈ (ws.memnodesPool tableid).retired →
      Spare main ws.nextNode node
  unused : ∀ node, ws.nextNode ≤ node → ws.heap node = {}
  dummies : ∀ kv ∈ ws.written, ∀ dummy, kv.dummy = some dummy → Spare main ws.nextNode dummy

structure Allocated (main : NodeId → Prop) (ws : WriteState) (dummy : NodeId)
    (after : WriteState) : Prop where
  spare : Spare main after.nextNode dummy
  separate : Separate main after
  heap : after.heap = update ws.heap dummy {}
  grows : ws.nextNode ≤ after.nextNode
  deleteset : after.deleteset = ws.deleteset
  written : after.written = ws.written

theorem getMemNode_allocated (separate : Separate main ws)
    (allocated : getMemNode ws tableid = (dummy, after)) : Allocated main ws dummy after := by
  unfold getMemNode at allocated
  cases taken : (ws.memnodesPool tableid).getFreeObj with
  | none =>
    simp only [taken, Prod.mk.injEq] at allocated
    obtain ⟨rfl, rfl⟩ := allocated
    have wider : ∀ node, Spare main ws.nextNode node → Spare main (ws.nextNode + 1) node :=
      fun node spare => ⟨spare.1, Nat.lt_succ_of_lt spare.2⟩
    refine ⟨⟨?_, Nat.lt_succ_self _⟩, ?_, rfl, Nat.le_succ _, rfl, rfl⟩
    · intro record
      exact absurd (separate.bounded _ record) (Nat.lt_irrefl _)
    constructor
    · exact fun node record => Nat.lt_succ_of_lt (separate.bounded node record)
    · exact fun other node mem => wider node (separate.pooled other node mem)
    · intro node above
      have different : node ≠ ws.nextNode := Nat.ne_of_gt above
      simpa [different] using separate.unused node (Nat.le_of_succ_le above)
    · exact fun kv mem free holds => wider free (separate.dummies kv mem free holds)
  | some pair =>
    obtain ⟨node, pool⟩ := pair
    simp only [taken, Prod.mk.injEq] at allocated
    obtain ⟨rfl, rfl⟩ := allocated
    obtain ⟨shape, lists⟩ := ObjPool.getFreeObj_some taken
    have spare := separate.pooled tableid node (Or.inl (by rw [shape]; exact List.mem_cons_self))
    refine ⟨spare, ?_, rfl, le_refl _, rfl, rfl⟩
    constructor
    · exact separate.bounded
    · intro other free mem
      by_cases same : other = tableid
      · subst other
        simp only [update_self, ObjPool.retired, lists] at mem
        apply separate.pooled tableid free
        rw [shape]
        exact mem.imp (List.mem_cons_of_mem _) id
      · simp only [update_of_ne same] at mem
        exact separate.pooled other free mem
    · intro free above
      have different : free ≠ node := fun same => absurd (same ▸ above) (Nat.not_le.mpr spare.2)
      simpa [different] using separate.unused free above
    · exact separate.dummies

theorem getMemNode_pools (allocated : getMemNode ws tableid = (dummy, after)) :
    (∀ other, (after.memnodesPool other).retired = (ws.memnodesPool other).retired) ∧
      ((ws.memnodesPool tableid).freelist = dummy :: (after.memnodesPool tableid).freelist ∧
          (∀ other, other ≠ tableid → after.memnodesPool other = ws.memnodesPool other) ∧
          after.nextNode = ws.nextNode ∨
        after.memnodesPool = ws.memnodesPool ∧ dummy = ws.nextNode ∧
          after.nextNode = ws.nextNode + 1) := by
  unfold getMemNode at allocated
  cases taken : (ws.memnodesPool tableid).getFreeObj with
  | none =>
    simp only [taken, Prod.mk.injEq] at allocated
    obtain ⟨rfl, rfl⟩ := allocated
    exact ⟨fun _ => rfl, Or.inr ⟨rfl, rfl, rfl⟩⟩
  | some pair =>
    obtain ⟨node, pool⟩ := pair
    simp only [taken, Prod.mk.injEq] at allocated
    obtain ⟨rfl, rfl⟩ := allocated
    obtain ⟨shape, lists⟩ := ObjPool.getFreeObj_some taken
    constructor
    · intro other
      by_cases same : other = tableid
      · subst other
        simp [ObjPool.retired, lists]
      · simp [same]
    · exact Or.inl ⟨by simpa using shape, fun other different => by simp [different], rfl⟩

structure EntryEffect (main : NodeId → Prop) (gcounter : Nat) (ws : WriteState) (kv : WSKV)
    (after : WriteState) : Prop where
  value : (after.heap kv.node).value = kv.val
  seq : main kv.node → (after.heap kv.node).seq = (ws.heap kv.node).seq + 1
  counter : (after.heap kv.node).counter = gcounter
  others : ∀ node, main node → node ≠ kv.node → after.heap node = ws.heap node
  separate : Separate main after
  grows : ws.nextNode ≤ after.nextNode

theorem writeInPlace_separate (separate : Separate main ws) (below : kv.node < ws.nextNode)
    (plain : kv.dummy = none) (node : MemNode) (queue : List DELElement) :
    Separate main (writeInPlace ws kv node queue) := by
  constructor
  · exact separate.bounded
  · exact separate.pooled
  · intro free above
    have different : free ≠ kv.node := fun same => absurd (same ▸ above) (Nat.not_le.mpr below)
    simpa [writeInPlace, different] using separate.unused free above
  intro entry mem dummy holds
  rcases List.mem_append.mp mem with earlier | last
  · exact separate.dummies entry earlier dummy holds
  · rw [List.mem_singleton.mp last] at holds
    simp [plain] at holds

theorem writeNewVersion_separate {middle : WriteState}
    (taken : getMemNode ws kv.tableid = (dummy, middle))
    (allocated : Allocated main ws dummy middle) (below : kv.node < ws.nextNode) (gcounter : Nat)
    (queue : List DELElement) : Separate main (writeNewVersion ws kv gcounter queue) := by
  have separate := allocated.separate
  simp only [writeNewVersion, taken]
  constructor
  · exact separate.bounded
  · exact separate.pooled
  · intro free above
    have first : free ≠ kv.node := fun same =>
      absurd (same ▸ above) (Nat.not_le.mpr (lt_of_lt_of_le below allocated.grows))
    have second : free ≠ dummy :=
      fun same => absurd (same ▸ above) (Nat.not_le.mpr allocated.spare.2)
    simpa [first, second] using separate.unused free above
  · intro entry mem version holds
    rcases List.mem_append.mp mem with earlier | last
    · exact separate.dummies entry earlier version holds
    · rw [List.mem_singleton.mp last] at holds
      simp only [Option.some.injEq] at holds
      exact holds ▸ allocated.spare

theorem writeEntry_effect (separate : Separate main ws) (below : kv.node < ws.nextNode)
    (plain : kv.dummy = none) (written : writeEntry gcounter ws kv = .ok after) :
    EntryEffect main gcounter ws kv after := by
  obtain ⟨queue, registered, ⟨_, rfl⟩ | ⟨_, _, rfl⟩⟩ := writeEntry_cases written
  · exact
      { value := by simp [writeInPlace]
        seq := by simp [writeInPlace]
        counter := by simp [writeInPlace]
        others := fun node _ different => by simp [writeInPlace, different]
        separate := writeInPlace_separate separate below plain _ queue
        grows := le_refl _ }
  cases taken : getMemNode ws kv.tableid with
  | mk dummy middle =>
    have allocated := getMemNode_allocated separate taken
    have kept := writeNewVersion_separate taken allocated below gcounter queue
    simp only [writeNewVersion, taken, allocated.heap] at kept ⊢
    exact
      { value := by simp
        seq := by
          intro record
          have different : kv.node ≠ dummy := fun same => allocated.spare.1 (same ▸ record)
          simp [different]
        counter := by simp
        others := by
          intro node other distinct
          have apart : node ≠ dummy := fun same => allocated.spare.1 (same ▸ other)
          simp [distinct, apart]
        separate := kept
        grows := allocated.grows }

theorem write_cons {rest : List WSKV} :
    write gcounter ws (kv :: rest) = .ok after ↔
      ∃ middle, writeEntry gcounter ws kv = .ok middle ∧ write gcounter middle rest = .ok after := by
  simp only [write, List.foldlM_cons, bind, Except.bind]
  cases writeEntry gcounter ws kv with
  | error failure | ok middle => simp

theorem write_rule {P : List WSKV → WriteState → Prop}
    (entry : ∀ kv rest ws after, P (kv :: rest) ws → writeEntry gcounter ws kv = .ok after →
      P rest after) (start : P kvs ws) (written : write gcounter ws kvs = .ok after) :
    P [] after := by
  induction kvs generalizing ws with
  | nil =>
    cases written
    exact start
  | cons kv rest ih =>
    obtain ⟨middle, first, later⟩ := write_cons.mp written
    exact ih (entry kv rest ws middle start first) later

structure WriteEffect (main : NodeId → Prop) (ws : WriteState) (kvs : List WSKV)
    (after : WriteState) : Prop where
  value : ∀ node, main node → (after.heap node).value =
    History.content (fun node => (ws.heap node).value) (kvs.map fun kv => (kv.node, kv.val)) node
  kept : ∀ node, main node → (∀ kv ∈ kvs, kv.node ≠ node) → after.heap node = ws.heap node
  moved : ∀ kv ∈ kvs, main kv.node → (ws.heap kv.node).seq < (after.heap kv.node).seq
  separate : Separate main after
  grows : ws.nextNode ≤ after.nextNode

theorem write_effect (separate : Separate main ws) (below : ∀ kv ∈ kvs, kv.node < ws.nextNode)
    (plain : ∀ kv ∈ kvs, kv.dummy = none) (written : write gcounter ws kvs = .ok after) :
    WriteEffect main ws kvs after := by
  induction kvs generalizing ws with
  | nil =>
    cases written
    exact
      { value := fun _ _ => rfl
        kept := fun _ _ _ => rfl
        moved := by simp
        separate := separate
        grows := le_refl _ }
  | cons kv rest ih =>
    obtain ⟨middle, entry, later⟩ := write_cons.mp written
    have head := writeEntry_effect separate (below kv List.mem_cons_self)
      (plain kv List.mem_cons_self) entry
    have tail := ih head.separate
      (fun other mem => lt_of_lt_of_le (below other (List.mem_cons_of_mem kv mem)) head.grows)
      (fun other mem => plain other (List.mem_cons_of_mem kv mem)) later
    have rises : ∀ node, main node → (middle.heap node).seq ≤ (after.heap node).seq := by
      intro node record
      by_cases touched : ∃ other ∈ rest, other.node = node
      · obtain ⟨other, mem, rfl⟩ := touched
        exact le_of_lt (tail.moved other mem record)
      · rw [tail.kept node record fun other mem same => touched ⟨other, mem, same⟩]
    refine
      { value := ?_
        kept := ?_
        moved := ?_
        separate := tail.separate
        grows := le_trans head.grows tail.grows }
    · intro node record
      rw [tail.value node record, List.map_cons]
      simp only [History.content, History.latest_cons]
      cases History.latest (rest.map fun kv => (kv.node, kv.val)) node with
      | some value => simp
      | none =>
        by_cases same : kv.node = node
        · subst node
          simp [head.value]
        · simp [same, head.others node record (Ne.symm same)]
    · intro node record untouched
      rw [tail.kept node record fun other mem => untouched other (List.mem_cons_of_mem kv mem)]
      exact head.others node record (Ne.symm (untouched kv List.mem_cons_self))
    · intro other mem record
      rcases List.mem_cons.mp mem with rfl | inRest
      · have rise := rises other.node record
        have step := head.seq record
        omega
      have rise := tail.moved other inRest record
      by_cases same : other.node = kv.node
      · have step := head.seq (same ▸ record)
        rw [same] at rise ⊢
        omega
      · rwa [head.others other.node record same] at rise

theorem writeEntry_deleteset (written : writeEntry gcounter ws kv = .ok after) :
    registerDelete ws.deleteset kv (stampCounter (ws.heap kv.node) gcounter) =
      .ok after.deleteset := by
  obtain ⟨queue, registered, ⟨_, rfl⟩ | ⟨_, _, rfl⟩⟩ := writeEntry_cases written
  · exact registered
  · exact registered

theorem write_registered (written : write gcounter ws kvs = .ok after)
    (mem : element ∈ after.deleteset) :
    element ∈ ws.deleteset ∨ ∃ kv ∈ kvs,
      element.tableid = kv.tableid ∧ element.key = kv.key ∧ element.node = kv.node := by
  induction kvs generalizing ws with
  | nil =>
    cases written
    exact Or.inl mem
  | cons kv rest ih =>
    obtain ⟨middle, first, later⟩ := write_cons.mp written
    rcases ih later with earlier | ⟨other, inRest, same⟩
    · rcases registerDelete_mem (writeEntry_deleteset first) earlier with old | rfl
      · exact Or.inl old
      · exact Or.inr ⟨kv, List.mem_cons_self, rfl, rfl, rfl⟩
    · exact Or.inr ⟨other, List.mem_cons_of_mem kv inRest, same⟩

end EunoDb.TxSets
