import EunoDb.Steps

/-! What a thread holds and how a step changes it, for any property of it. -/

namespace EunoDb.Machine

open Memstore TxSets Function

def Pc.inTx : Pc → Bool
  | .body | .getFind _ _ _ | .getSection _ _ _ _ | .getCheck _ _ _ | .getRead _ _ _
  | .addFind _ _ _ | .addInsert _ _ _ | .addCheck _ _ _ _ | .iterSection _ _ _ => true
  | _ => false

def Pc.target : Pc → Option (TableId × Key × NodeId)
  | .getSection tableid key _ node => some (tableid, key, node)
  | .getCheck tableid key node => some (tableid, key, node)
  | .getRead tableid key node => some (tableid, key, node)
  | .addCheck tableid key _ node => some (tableid, key, node)
  | .iterSection tableid key node => some (tableid, key, node)
  | _ => none

def Pc.queue : Pc → List DELElement
  | .endRemove queue => queue
  | _ => []

def Pc.current : Pc → Option RMObj
  | .rmRemove obj _ => some obj
  | .rmTest obj _ => some obj
  | _ => none

def Pc.holdsDeletes (pc : Pc) : Bool :=
  match pc with
  | .endCollect => true
  | other => other.inTx

variable {s next : State} {th own : Thread} {tableid : TableId} {payload : Payload} {val : Value}

section

variable (chosen : payloadValue s th tableid payload = (val, next, own))

include chosen

theorem payloadValue_shared :
    next.heap = s.heap ∧ next.log = s.log ∧ next.snapshot = s.snapshot ∧
      next.table = s.table ∧ next.nextNode = s.nextNode ∧ next.threads = s.threads := by
  cases payload with
  | given object | deleted =>
    cases chosen
    simp [acquire]
  | copied =>
    simp only [payloadValue] at chosen
    split at chosen <;> · cases chosen; simp [acquire]

theorem payloadValue_present : val ≠ .haveRemoved := by
  cases payload with
  | given object | deleted =>
    cases chosen
    simp
  | copied =>
    simp only [payloadValue] at chosen
    split at chosen <;> · cases chosen; simp

theorem payloadValue_own : ∃ valuesPool, own = { th with valuesPool := valuesPool } := by
  cases payload with
  | given object | deleted =>
    cases chosen
    exact ⟨th.valuesPool, rfl⟩
  | copied =>
    simp only [payloadValue] at chosen
    split at chosen
    · cases chosen
      exact ⟨_, rfl⟩
    · cases chosen
      exact ⟨th.valuesPool, rfl⟩

end

theorem Found.mapped {key : Key} {node : NodeId} (found : Found s tableid key node next) :
    next.table tableid key = some node := by
  cases found with
  | present mapped => exact mapped
  | inserted absent => simp [insertNode]

/-! ### Collected objects -/

def collectedNodes (kvs : List WSKV) (tableid : TableId) : List NodeId :=
  kvs.filterMap fun kv => if kv.tableid = tableid then kv.dummy else none

theorem addDeletedValue_memnodesPool (th : Thread) (tableid : TableId) (value : Value) :
    (addDeletedValue th tableid value).memnodesPool = th.memnodesPool := by
  cases value <;> rfl

theorem collectEntry_memnodesPool (heap : Heap) (th : Thread) (kv : WSKV) (tableid : TableId) :
    ((collectEntry heap th kv).memnodesPool tableid).freelist =
        (th.memnodesPool tableid).freelist ∧
      ((collectEntry heap th kv).memnodesPool tableid).retired.Perm
        (collectedNodes [kv] tableid ++ (th.memnodesPool tableid).retired) := by
  unfold collectEntry
  cases holds : kv.dummy with
  | none => simp [addDeletedValue_memnodesPool, collectedNodes, holds]
  | some dummy =>
    simp only [addDeletedValue_memnodesPool, addDeletedNode]
    by_cases same : kv.tableid = tableid
    · subst tableid
      simpa [collectedNodes, holds] using ObjPool.retired_addGCObj _ dummy 0
    · simp [collectedNodes, same, update_of_ne (Ne.symm same)]

theorem collect_memnodesPool (heap : Heap) (kvs : List WSKV) (th : Thread) (tableid : TableId) :
    ((kvs.foldl (collectEntry heap) th).memnodesPool tableid).freelist =
        (th.memnodesPool tableid).freelist ∧
      ((kvs.foldl (collectEntry heap) th).memnodesPool tableid).retired.Perm
        (collectedNodes kvs tableid ++ (th.memnodesPool tableid).retired) := by
  induction kvs generalizing th with
  | nil => exact ⟨rfl, List.Perm.refl _⟩
  | cons kv rest ih =>
    obtain ⟨free, retired⟩ := ih (collectEntry heap th kv)
    obtain ⟨headFree, headRetired⟩ := collectEntry_memnodesPool heap th kv tableid
    have split : collectedNodes (kv :: rest) tableid =
        collectedNodes [kv] tableid ++ collectedNodes rest tableid := by
      simp only [collectedNodes, List.filterMap_cons, List.filterMap_nil]
      split <;> simp
    refine ⟨free.trans headFree, retired.trans ?_⟩
    rw [split]
    refine (List.Perm.append_left _ headRetired).trans ?_
    rw [← List.append_assoc]
    exact List.Perm.append_right _ List.perm_append_comm

def pointers : Value → List Ptr
  | .pointer object => [object]
  | .logicalDelete => []
  | .haveRemoved => []

def collectedValues (heap : Heap) (kvs : List WSKV) (tableid : TableId) : List Ptr :=
  kvs.flatMap fun kv =>
    if kv.tableid = tableid then
      pointers kv.val ++ (kv.dummy.toList.flatMap fun dummy => pointers (heap dummy).value)
    else []

theorem addDeletedValue_valuesPool (th : Thread) (owner : TableId) (value : Value)
    (tableid : TableId) :
    ((addDeletedValue th owner value).valuesPool tableid).freelist =
        (th.valuesPool tableid).freelist ∧
      ((addDeletedValue th owner value).valuesPool tableid).retired.Perm
        ((if owner = tableid then pointers value else []) ++ (th.valuesPool tableid).retired) := by
  cases value with
  | logicalDelete | haveRemoved => simp [addDeletedValue, pointers]
  | pointer object =>
    simp only [addDeletedValue]
    by_cases same : owner = tableid
    · subst tableid
      simpa [pointers] using ObjPool.retired_addGCObj _ object 0
    · simp [same, update_of_ne (Ne.symm same)]

theorem collectEntry_valuesPool (heap : Heap) (th : Thread) (kv : WSKV) (tableid : TableId) :
    ((collectEntry heap th kv).valuesPool tableid).freelist =
        (th.valuesPool tableid).freelist ∧
      ((collectEntry heap th kv).valuesPool tableid).retired.Perm
        (collectedValues heap [kv] tableid ++ (th.valuesPool tableid).retired) := by
  obtain ⟨free, retired⟩ := addDeletedValue_valuesPool th kv.tableid kv.val tableid
  unfold collectEntry
  cases holds : kv.dummy with
  | none =>
    refine ⟨free, ?_⟩
    simpa [collectedValues, holds] using retired
  | some dummy =>
    obtain ⟨free', retired'⟩ := addDeletedValue_valuesPool
      (addDeletedNode (addDeletedValue th kv.tableid kv.val) kv.tableid dummy) kv.tableid
      (heap dummy).value tableid
    refine ⟨free'.trans free, retired'.trans ?_⟩
    by_cases same : kv.tableid = tableid
    · simp only [collectedValues, holds, same, if_true, List.flatMap_cons, List.flatMap_nil,
        List.append_nil, Option.toList_some] at retired ⊢
      refine (List.Perm.append_left _ retired).trans ?_
      rw [← List.append_assoc]
      exact List.Perm.append_right _ List.perm_append_comm
    · simpa [collectedValues, same, addDeletedNode] using retired

theorem collect_valuesPool (heap : Heap) (kvs : List WSKV) (th : Thread) (tableid : TableId) :
    ((kvs.foldl (collectEntry heap) th).valuesPool tableid).freelist =
        (th.valuesPool tableid).freelist ∧
      ((kvs.foldl (collectEntry heap) th).valuesPool tableid).retired.Perm
        (collectedValues heap kvs tableid ++ (th.valuesPool tableid).retired) := by
  induction kvs generalizing th with
  | nil => exact ⟨rfl, List.Perm.refl _⟩
  | cons kv rest ih =>
    obtain ⟨free, retired⟩ := ih (collectEntry heap th kv)
    obtain ⟨headFree, headRetired⟩ := collectEntry_valuesPool heap th kv tableid
    have split : collectedValues heap (kv :: rest) tableid =
        collectedValues heap [kv] tableid ++ collectedValues heap rest tableid := by
      simp [collectedValues]
    refine ⟨free.trans headFree, retired.trans ?_⟩
    rw [split]
    refine (List.Perm.append_left _ headRetired).trans ?_
    rw [← List.append_assoc]
    exact List.Perm.append_right _ List.perm_append_comm

theorem collect_fields (heap : Heap) (kvs : List WSKV) (th : Thread) :
    ∃ valuesPool memnodesPool gcnum, kvs.foldl (collectEntry heap) th =
      { th with valuesPool := valuesPool, memnodesPool := memnodesPool, gcnum := gcnum } := by
  have value : ∀ (th : Thread) (tableid : TableId) (val : Value), ∃ valuesPool gcnum,
      addDeletedValue th tableid val = { th with valuesPool := valuesPool, gcnum := gcnum } := by
    intro th tableid val
    cases val with
    | pointer object => exact ⟨_, _, rfl⟩
    | logicalDelete | haveRemoved => exact ⟨th.valuesPool, th.gcnum, rfl⟩
  induction kvs generalizing th with
  | nil => exact ⟨_, _, _, rfl⟩
  | cons kv rest ih =>
    obtain ⟨_, _, first⟩ := value th kv.tableid kv.val
    obtain ⟨_, _, _, tail⟩ := ih (collectEntry heap th kv)
    rw [List.foldl_cons, tail]
    unfold collectEntry
    rw [first]
    cases kv.dummy with
    | none => exact ⟨_, _, _, rfl⟩
    | some dummy =>
      simp only [addDeletedNode]
      obtain ⟨_, _, second⟩ := value _ kv.tableid (heap dummy).value
      rw [second]
      exact ⟨_, _, _, rfl⟩

theorem recycled_or_free {cfg : Config} {pools : TableId → ObjPool} {object : Nat}
    (mem : object ∈ (gcPool cfg pools tableid).freelist ∨
      object ∈ (gcPool cfg pools tableid).retired) :
    object ∈ (pools tableid).freelist ∨ object ∈ (pools tableid).retired := by
  unfold gcPool at mem
  split at mem
  · rcases mem with free | waiting
    · have moved := (ObjPool.freelist_gc_perm _).mem_iff.mp free
      exact (List.mem_append.mp moved).symm
    · simp at waiting
  · exact mem

/-! ### Pointers to records -/

structure TxReferences (P : TableId → Key → NodeId → Prop) (th : Thread) : Prop where
  written : th.pc.inTx = true → ∀ kv ∈ th.writeset, P kv.tableid kv.key kv.node
  deleted : th.pc.holdsDeletes = true → ∀ element ∈ th.deleteset,
    P element.tableid element.key element.node
  queue : ∀ element ∈ th.pc.queue, P element.tableid element.key element.node
  cursor : th.pc.inTx = true → ∀ tableid key node, th.cursor = some (tableid, key, node) →
    P tableid key node
  target : ∀ tableid key node, th.pc.target = some (tableid, key, node) → P tableid key node

structure KeptReferences (P : TableId → Key → NodeId → Prop) (th : Thread) : Prop where
  queued : ∀ obj ∈ th.rmlist, P obj.tableid obj.key obj.node
  current : ∀ obj, th.pc.current = some obj → P obj.tableid obj.key obj.node
  buffered : ∀ tableid node, (th.buffer tableid).node = some node →
    P tableid (th.buffer tableid).key node

structure References (P : TableId → Key → NodeId → Prop) (th : Thread) : Prop extends
  TxReferences P th, KeptReferences P th

section References

variable {P Q : TableId → Key → NodeId → Prop} {th other : Thread}

theorem TxReferences.mono (refs : TxReferences P th)
    (implies : ∀ tableid key node, P tableid key node → Q tableid key node) :
    TxReferences Q th where
  written := fun inside kv mem => implies _ _ _ (refs.written inside kv mem)
  deleted := fun holds element mem => implies _ _ _ (refs.deleted holds element mem)
  queue := fun element mem => implies _ _ _ (refs.queue element mem)
  cursor := fun inside tableid key node holds =>
    implies _ _ _ (refs.cursor inside tableid key node holds)
  target := fun tableid key node holds => implies _ _ _ (refs.target tableid key node holds)

theorem References.mono (refs : References P th)
    (implies : ∀ tableid key node, P tableid key node → Q tableid key node) : References Q th where
  toTxReferences := refs.toTxReferences.mono implies
  queued := fun obj mem => implies _ _ _ (refs.queued obj mem)
  current := fun obj holds => implies _ _ _ (refs.current obj holds)
  buffered := fun tableid node holds => implies _ _ _ (refs.buffered tableid node holds)

theorem TxReferences.move (refs : TxReferences P th) (writeset : other.writeset = th.writeset)
    (deleteset : other.deleteset = th.deleteset) (cursor : other.cursor = th.cursor)
    (inside : other.pc.inTx = true → th.pc.inTx = true) (collect : other.pc ≠ .endCollect)
    (queue : ∀ element ∈ other.pc.queue, element ∈ th.pc.queue)
    (target : ∀ tableid key node, other.pc.target = some (tableid, key, node) →
      P tableid key node) : TxReferences P other where
  written := by
    rw [writeset]
    exact fun after => refs.written (inside after)
  deleted := by
    rw [deleteset]
    intro holds
    apply refs.deleted
    -- outside `endCollect` the delete set is held only inside a transaction
    have after : other.pc.inTx = true := by
      cases pc : other.pc <;> simp_all [Pc.holdsDeletes]
    have before := inside after
    cases pc : th.pc <;> simp_all [Pc.holdsDeletes, Pc.inTx]
  queue := fun element mem => refs.queue element (queue element mem)
  cursor := by
    rw [cursor]
    exact fun after => refs.cursor (inside after)
  target := target

theorem txReferences_outside (inside : th.pc.inTx = false) (collect : th.pc.holdsDeletes = false)
    (queue : th.pc.queue = []) (target : th.pc.target = none) : TxReferences P th where
  written := by simp [inside]
  deleted := by simp [collect]
  queue := by simp [queue]
  cursor := by simp [inside]
  target := by simp [target]

variable {cfg : Config} {s middle : State} {t : ThreadId} {own : Thread}

theorem step_txReferences (refs : TxReferences P th) (taken : Step cfg s t th middle own)
    (finds : ∀ {tableid key node}, Found s tableid key node middle → P tableid key node)
    (reads : ∀ {tableid key node}, s.table tableid key = some node → P tableid key node)
    (hits : ∀ {tableid node}, (th.buffer tableid).node = some node →
      (s.heap node).value ≠ .haveRemoved → P tableid (th.buffer tableid).key node) :
    TxReferences P own := by
  cases taken with
  | begin pc =>
    constructor <;> simp [Pc.queue, Pc.target]
  | iterate pc mapped =>
    refine refs.move rfl rfl rfl (by simp [Pc.inTx, pc]) (by simp) (by simp [Pc.queue]) ?_
    rintro _ _ _ ⟨⟩
    exact reads mapped
  | iterValue pc cursor =>
    exact ⟨refs.written, refs.deleted, refs.queue, refs.cursor, refs.target⟩
  | @commit ws pc valid written =>
    have inside : th.pc.inTx = true := by rw [pc]; rfl
    refine
      { written := by simp [ended, Pc.inTx]
        deleted := ?_
        queue := by simp [ended, Pc.queue]
        cursor := by simp [ended, Pc.inTx]
        target := by simp [ended, Pc.target] }
    intro _ element mem
    rcases write_registered written mem with earlier | ⟨kv, inSet, tableid, key, node⟩
    · exact refs.deleted (by rw [pc]; rfl) element earlier
    · rw [tableid, key, node]
      exact refs.written inside kv inSet
  | getFind pc found | addInsert pc buffers found | addInsertCopied pc found =>
    refine refs.move rfl rfl rfl (by simp [Pc.inTx, pc]) (by simp) (by simp [Pc.queue]) ?_
    rintro _ _ _ ⟨⟩
    exact finds found
  | getSection pc present | getCheck pc valid =>
    refine refs.move rfl rfl rfl (by simp [Pc.inTx, pc]) (by simp) (by simp [Pc.queue]) ?_
    intro tableid key node holds
    exact refs.target tableid key node (by simpa [Pc.target, pc] using holds)
  | addHit pc same buffered present =>
    refine refs.move rfl rfl rfl (by simp [Pc.inTx, pc]) (by simp) (by simp [Pc.queue]) ?_
    rintro _ _ _ ⟨⟩
    rw [← same]
    exact hits buffered present
  | @addCheck tableid key payload node val middle own pc present chosen =>
    obtain ⟨valuesPool, rfl⟩ := payloadValue_own chosen
    have inside : th.pc.inTx = true := by rw [pc]; rfl
    refine
      { written := ?_
        deleted := fun _ => refs.deleted (by rw [pc]; rfl)
        queue := by simp [Pc.queue]
        cursor := fun _ => refs.cursor inside
        target := by simp [Pc.target] }
    intro _ kv mem
    rcases List.mem_append.mp mem with earlier | last
    · exact refs.written inside kv earlier
    · rw [List.mem_singleton.mp last]
      exact refs.target tableid key node (by rw [pc]; rfl)
  | iterSection pc =>
    have inside : th.pc.inTx = true := by rw [pc]; rfl
    refine
      { written := fun _ => refs.written inside
        deleted := fun _ => refs.deleted (by rw [pc]; rfl)
        queue := by simp [Pc.queue]
        cursor := ?_
        target := by simp [Pc.target] }
    intro _ tableid' key' node' holds
    simp only at holds
    split at holds
    · cases holds
      exact refs.target _ _ _ (by rw [pc]; rfl)
    · cases holds
  | endCollect pc =>
    obtain ⟨_, _, _, fields⟩ := collect_fields s.heap th.writeset th
    unfold collectOldVersions
    rw [fields]
    exact
      { written := by simp [Pc.inTx]
        deleted := by simp [Pc.holdsDeletes, Pc.inTx]
        queue := fun element mem => refs.deleted (by rw [pc]; rfl) element mem
        cursor := by simp [Pc.inTx]
        target := by simp [Pc.target] }
  | @endRemove element rest pc =>
    exact
      { written := by simp [Pc.inTx]
        deleted := by simp [Pc.holdsDeletes, Pc.inTx]
        queue := fun later mem => refs.queue later (by
          rw [pc]; exact List.mem_cons_of_mem element mem)
        cursor := by simp [Pc.inTx]
        target := by simp [Pc.target] }
  | getOwn pc own | getAbsent pc invalid | getRead pc =>
    refine refs.move rfl rfl rfl ?_ ?_ ?_ ?_ <;>
      simp [Pc.inTx, Pc.queue, Pc.target, finishGet, pc]
  | getCall pc bound other | addCall pc bound | getRetry pc removed | addMiss pc
  | addRetry pc removed =>
    refine refs.move rfl rfl rfl ?_ ?_ ?_ ?_ <;> simp [Pc.inTx, Pc.queue, Pc.target, pc]
  | _ => exact txReferences_outside rfl rfl rfl rfl

theorem KeptReferences.move (refs : KeptReferences P th) (rmlist : other.rmlist = th.rmlist)
    (buffer : other.buffer = th.buffer)
    (current : ∀ obj, other.pc.current = some obj → th.pc.current = some obj) :
    KeptReferences P other where
  queued := rmlist ▸ refs.queued
  current := fun obj holds => refs.current obj (current obj holds)
  buffered := buffer ▸ refs.buffered

theorem KeptReferences.setBuffer (refs : KeptReferences P th) {tableid : TableId} {key : Key}
    {node : NodeId} (holds : P tableid key node) :
    KeptReferences P (setBuffer th tableid key node) :=
  { refs with
    buffered := by
      intro owner target buffered
      by_cases same : owner = tableid
      · subst owner
        simp only [Machine.setBuffer, update_self, Option.some.injEq] at buffered ⊢
        exact buffered ▸ holds
      · simp only [Machine.setBuffer, update_of_ne same] at buffered ⊢
        exact refs.buffered owner target buffered }

theorem step_keptReferences (refs : References P th) (taken : Step cfg s t th middle own)
    (finds : ∀ {tableid key node}, Found s tableid key node middle → P tableid key node) :
    KeptReferences P own := by
  have kept := refs.toKeptReferences
  cases taken with
  | iterValue pc cursor => exact kept.setBuffer (refs.cursor (by rw [pc]; rfl) _ _ _ cursor)
  | getFind pc found | addInsert pc buffers found =>
    exact (kept.setBuffer (finds found)).move rfl rfl (by simp [Pc.current])
  | addCheck pc present chosen =>
    obtain ⟨valuesPool, rfl⟩ := payloadValue_own chosen
    exact kept.move rfl rfl (by simp [Pc.current])
  | endCollect pc =>
    obtain ⟨_, _, _, fields⟩ := collect_fields s.heap th.writeset th
    unfold collectOldVersions
    rw [fields]
    exact kept.move rfl rfl (by simp [Pc.current])
  | @endRemove element rest pc =>
    refine { kept with queued := ?_, current := by simp [Pc.current] }
    intro obj mem
    rcases List.mem_cons.mp mem with rfl | earlier
    · exact refs.queue element (by rw [pc]; exact List.mem_cons_self)
    · exact kept.queued obj earlier
  | @rmPop obj rest pc queued =>
    refine { kept with queued := ?_, current := ?_ }
    · exact fun later mem =>
        kept.queued later (by rw [queued]; exact List.mem_cons_of_mem obj mem)
    · rintro _ ⟨⟩
      exact kept.queued obj (by rw [queued]; exact List.mem_cons_self)
  | commit pc valid written => exact kept.move rfl rfl (by simp [Pc.current, ended])
  | rmStale pc | rmRemove pc => exact kept.move rfl rfl (by simp [Pc.current, pc])
  | getOwn pc own | getAbsent pc invalid | getRead pc =>
    exact kept.move rfl rfl (by simp [Pc.current, finishGet])
  | _ => exact kept.move rfl rfl (by simp [Pc.current])

theorem step_references (refs : References P th) (taken : Step cfg s t th middle own)
    (finds : ∀ {tableid key node}, Found s tableid key node middle → P tableid key node)
    (reads : ∀ {tableid key node}, s.table tableid key = some node → P tableid key node) :
    References P own where
  toTxReferences := step_txReferences refs.toTxReferences taken finds reads
    fun buffered _ => refs.buffered _ _ buffered
  toKeptReferences := step_keptReferences refs taken finds

end References

/-! ### Entries of the write set -/

structure Plain (kv : WSKV) : Prop where
  plain : kv.dummy = none
  value : kv.val ≠ .haveRemoved

variable {th : Thread} {Q : NodeId → Prop}

variable {cfg : Config} {s middle : State} {t : ThreadId} {own : Thread}

theorem step_plain (entries : th.pc.inTx = true → ∀ kv ∈ th.writeset, Plain kv)
    (taken : Step cfg s t th middle own) (inside : own.pc.inTx = true) :
    ∀ kv ∈ own.writeset, Plain kv := by
  cases taken with
  | begin pc => simp
  | iterValue pc cursor => exact entries (by rw [pc]; rfl)
  | addCheck pc present chosen =>
    have value := payloadValue_present chosen
    obtain ⟨valuesPool, rfl⟩ := payloadValue_own chosen
    intro kv mem
    rcases List.mem_append.mp mem with earlier | last
    · exact entries (by rw [pc]; rfl) kv earlier
    · rw [List.mem_singleton.mp last]
      exact ⟨rfl, value⟩
  | _ =>
    first
    | exact entries (by simp_all [Pc.inTx])
    | cases inside

/-! ### Pooled nodes -/

structure Pools (Q : NodeId → Prop) (th : Thread) : Prop where
  pooled : ∀ tableid node, node ∈ (th.memnodesPool tableid).freelist ∨
    node ∈ (th.memnodesPool tableid).retired → Q node
  dummies : th.pc = .endCollect → ∀ kv ∈ th.writeset, ∀ dummy, kv.dummy = some dummy → Q dummy

theorem Pools.mono {R : NodeId → Prop} (pools : Pools Q th) (implies : ∀ node, Q node → R node) :
    Pools R th where
  pooled := fun tableid node mem => implies node (pools.pooled tableid node mem)
  dummies := fun pc kv mem dummy holds => implies dummy (pools.dummies pc kv mem dummy holds)

theorem Pools.move {other : Thread} (pools : Pools Q th)
    (same : other.memnodesPool = th.memnodesPool) (collect : other.pc ≠ .endCollect) :
    Pools Q other where
  pooled := same ▸ pools.pooled
  dummies := fun collecting => absurd collecting collect

theorem Pools.collect (pools : Pools Q th) (pc : th.pc = .endCollect) (heap : Heap) :
    Pools Q { collectOldVersions heap th with pc := .endRemove th.deleteset } where
  pooled := by
    intro tableid node mem
    obtain ⟨free, retired⟩ := collect_memnodesPool heap th.writeset th tableid
    rcases mem with inFree | waiting
    · exact pools.pooled tableid node (Or.inl (free ▸ inFree))
    rcases List.mem_append.mp (retired.mem_iff.mp waiting) with new | earlier
    · obtain ⟨kv, inSet, holds⟩ := List.mem_filterMap.mp new
      split at holds
      · exact pools.dummies pc kv inSet node holds
      · cases holds
    · exact pools.pooled tableid node (Or.inr earlier)
  dummies := by simp

theorem step_pools (pools : Pools Q th) (taken : Step cfg s t th middle own)
    (commits : ∀ ws, th.pc = .body →
      write s.snapshot (writeState s th) th.writeset = .ok ws →
      middle = committed s t th ws → own = ended th ws → Pools Q (ended th ws))
    (hands : ∀ obj, th.pc = .rmTest obj 1 → (s.heap obj.node).value = .haveRemoved → Q obj.node) :
    Pools Q own := by
  cases taken with
  | commit pc valid written => exact commits _ pc written rfl rfl
  | addCheck pc present chosen =>
    obtain ⟨valuesPool, rfl⟩ := payloadValue_own chosen
    exact pools.move rfl (by simp)
  | endCollect pc => exact pools.collect pc s.heap
  | gcMove pc past =>
    exact ⟨fun tableid node mem => pools.pooled tableid node (recycled_or_free mem),
      by simp⟩
  | @rmHand obj pc removed =>
    refine ⟨?_, by simp⟩
    intro tableid node mem
    by_cases owner : tableid = obj.tableid
    · subst owner
      simp only [addDeletedNode, update_self, ObjPool.freelist_addGCObj] at mem
      rcases mem with free | retired
      · exact pools.pooled _ node (Or.inl free)
      · rcases List.mem_cons.mp ((ObjPool.retired_addGCObj _ _ _).mem_iff.mp retired) with
          rfl | earlier
        · exact hands obj pc removed
        · exact pools.pooled _ node (Or.inr earlier)
    · simp only [addDeletedNode, update_of_ne owner] at mem
      exact pools.pooled tableid node mem
  | iterValue pc cursor => exact pools.move rfl (by simp [setBuffer, pc])
  | getOwn pc own | getAbsent pc invalid | getRead pc => exact pools.move rfl (by simp [finishGet])
  | _ => exact pools.move rfl (by simp)

end EunoDb.Machine
