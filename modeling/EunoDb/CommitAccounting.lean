import Mathlib.Data.List.Nodup
import EunoDb.ValuePools

/-! What a commit does with the objects it replaces. -/

namespace EunoDb.CommitAccounting

open Memstore TxSets Machine History Function

/-! ### Objects in records, replaced one after the other -/

structure Balanced (main : NodeId → Prop) (value : NodeId → Value) (passed : List Ptr)
    (known : Ptr → Prop) : Prop where
  apart : ∀ object ∈ passed, ∀ node, main node → value node ≠ .pointer object
  once : passed.Nodup
  holder : ∀ {first second object}, main first → main second → value first = .pointer object →
    value second = .pointer object → first = second
  complete : ∀ object, known object ↔
    (∃ node, main node ∧ value node = .pointer object) ∨ object ∈ passed

section

variable {main : NodeId → Prop} {value : NodeId → Value} {passed : List Ptr} {known : Ptr → Prop}

theorem Balanced.congr {value' : NodeId → Value} (balanced : Balanced main value passed known)
    (same : ∀ node, main node → value' node = value node) : Balanced main value' passed known where
  apart object isPassed node record := by
    rw [same node record]
    exact balanced.apart object isPassed node record
  once := balanced.once
  holder first second isFirst isSecond :=
    balanced.holder first second (same _ first ▸ isFirst) (same _ second ▸ isSecond)
  complete object := by
    rw [balanced.complete object]
    refine or_congr_left (exists_congr fun node => and_congr_right fun record => ?_)
    rw [same node record]

theorem Balanced.replace (balanced : Balanced main value passed known) {node : NodeId}
    (record : main node) {new : Value} (fresh : ∀ object, new = .pointer object → ¬ known object) :
    Balanced main (update value node new) (passed ++ pointers (value node))
      (fun object => known object ∨ new = .pointer object) := by
  have unpassed : ∀ object, value node = .pointer object → object ∉ passed :=
    fun object holds isPassed => balanced.apart object isPassed node record holds
  have isNew : ∀ other object, main other →
      update value node new other = .pointer object →
      other = node ∧ new = .pointer object ∨ other ≠ node ∧ value other = .pointer object := by
    intro other object _ holds
    by_cases same : other = node
    · subst same
      rw [update_self] at holds
      exact .inl ⟨rfl, holds⟩
    · rw [update_of_ne same] at holds
      exact .inr ⟨same, holds⟩
  constructor
  · intro object isPassed other isRecord holds
    have wasKnown : known object := by
      rw [balanced.complete]
      rcases List.mem_append.mp isPassed with earlier | replaced
      · exact .inr earlier
      · exact .inl ⟨node, record, mem_pointers.mp replaced⟩
    rcases isNew other object isRecord holds with ⟨-, isNew⟩ | ⟨different, held⟩
    · exact fresh object isNew wasKnown
    · rcases List.mem_append.mp isPassed with earlier | replaced
      · exact balanced.apart object earlier other isRecord held
      · exact different (balanced.holder isRecord record held (mem_pointers.mp replaced))
  · refine List.nodup_append.mpr ⟨balanced.once, pointers_nodup _, ?_⟩
    rintro object isPassed other replaced rfl
    exact unpassed object (mem_pointers.mp replaced) isPassed
  · intro first second object isFirst isSecond holds again
    rcases isNew first object isFirst holds with ⟨rfl, isNew₁⟩ | ⟨different, held⟩
    · rcases isNew second object isSecond again with ⟨rfl, -⟩ | ⟨-, heldToo⟩
      · rfl
      · exact absurd ((balanced.complete object).mpr (.inl ⟨second, isSecond, heldToo⟩))
          (fresh object isNew₁)
    · rcases isNew second object isSecond again with ⟨rfl, isNew₂⟩ | ⟨-, heldToo⟩
      · exact absurd ((balanced.complete object).mpr (.inl ⟨first, isFirst, held⟩))
          (fresh object isNew₂)
      · exact balanced.holder isFirst isSecond held heldToo
  · intro object
    rw [balanced.complete, List.mem_append, mem_pointers]
    constructor
    · rintro ((⟨other, isRecord, held⟩ | isPassed) | isNew)
      · by_cases same : other = node
        · subst same
          exact .inr (.inr held)
        · exact .inl ⟨other, isRecord, by rw [update_of_ne same, held]⟩
      · exact .inr (.inl isPassed)
      · exact .inl ⟨node, record, by rw [update_self, isNew]⟩
    · rintro (⟨other, isRecord, holds⟩ | isPassed | replaced)
      · rcases isNew other object isRecord holds with ⟨-, isNew⟩ | ⟨-, held⟩
        · exact .inr isNew
        · exact .inl (.inl ⟨other, isRecord, held⟩)
      · exact .inl (.inr isPassed)
      · exact .inl (.inl ⟨node, record, replaced⟩)

end

/-! ### The calls of `CollectOldVersions` -/

inductive Call where
  | addDeletedValue (tableid : TableId) (object : Ptr)
  | addDeletedNode (tableid : TableId) (node : NodeId)

def Call.run (th : Thread) : Call → Thread
  | addDeletedValue tableid object => Machine.addDeletedValue th tableid (.pointer object)
  | addDeletedNode tableid node => Machine.addDeletedNode th tableid node

def Call.value : Call → Option Ptr
  | addDeletedValue _ object => some object
  | addDeletedNode _ _ => none

def Call.node : Call → Option NodeId
  | addDeletedValue _ _ => none
  | addDeletedNode _ node => some node

def valueCalls (tableid : TableId) (value : Value) : List Call :=
  (pointers value).map (.addDeletedValue tableid)

def entryCalls (heap : Heap) (kv : WSKV) : List Call :=
  valueCalls kv.tableid kv.val ++ match kv.dummy with
    | none => []
    | some dummy => .addDeletedNode kv.tableid dummy :: valueCalls kv.tableid (heap dummy).value

def collectCalls (heap : Heap) (kvs : List WSKV) : List Call := kvs.flatMap (entryCalls heap)

theorem foldl_valueCalls (th : Thread) (tableid : TableId) (value : Value) :
    (valueCalls tableid value).foldl Call.run th = Machine.addDeletedValue th tableid value := by
  cases value <;> rfl

theorem collectOldVersions_eq (heap : Heap) (th : Thread) :
    collectOldVersions heap th = (collectCalls heap th.writeset).foldl Call.run th := by
  have entry : ∀ th kv, collectEntry heap th kv = (entryCalls heap kv).foldl Call.run th := by
    intro th kv
    rw [entryCalls, List.foldl_append, foldl_valueCalls, collectEntry]
    cases kv.dummy with
    | none => rfl
    | some dummy =>
      rw [List.foldl_cons, foldl_valueCalls]
      rfl
  rw [collectOldVersions, collectCalls, List.foldl_flatMap]
  congr 1
  funext th kv
  exact entry th kv

def passedValues (heap : Heap) (kvs : List WSKV) : List Ptr :=
  (collectCalls heap kvs).filterMap Call.value

def passedNodes (heap : Heap) (kvs : List WSKV) : List NodeId :=
  (collectCalls heap kvs).filterMap Call.node

theorem valueCalls_value (tableid : TableId) (value : Value) :
    (valueCalls tableid value).filterMap Call.value = pointers value := by
  cases value <;> rfl

theorem valueCalls_node (tableid : TableId) (value : Value) :
    (valueCalls tableid value).filterMap Call.node = [] := by
  cases value <;> rfl

def dummies (kvs : List WSKV) : List NodeId := kvs.filterMap WSKV.dummy

theorem passedNodes_eq (heap : Heap) (kvs : List WSKV) :
    passedNodes heap kvs = dummies kvs := by
  induction kvs with
  | nil => rfl
  | cons kv rest ih =>
    rw [passedNodes, collectCalls] at ih
    rw [passedNodes, collectCalls, List.flatMap_cons, List.filterMap_append, ih, entryCalls,
      List.filterMap_append, valueCalls_node]
    cases isDummy : kv.dummy with
    | none => simp [dummies, isDummy]
    | some dummy => simp [dummies, isDummy, valueCalls_node, Call.node]

def givenUp (heap : Heap) (kv : WSKV) : List Ptr :=
  pointers kv.val ++ (kv.dummy.toList.flatMap fun dummy => pointers (heap dummy).value)

theorem passedValues_eq (heap : Heap) (kvs : List WSKV) :
    passedValues heap kvs = kvs.flatMap (givenUp heap) := by
  have entry : ∀ kv, (entryCalls heap kv).filterMap Call.value = givenUp heap kv := by
    intro kv
    rw [entryCalls, List.filterMap_append, valueCalls_value, givenUp]
    cases kv.dummy with
    | none => rfl
    | some dummy =>
      change _ ++ (valueCalls kv.tableid (heap dummy).value).filterMap Call.value = _
      rw [valueCalls_value]
      simp
  rw [passedValues, collectCalls, List.filterMap_flatMap]
  simp only [entry]

theorem passedValues_congr {heap after : Heap} {kvs : List WSKV}
    (same : ∀ node ∈ kvs.filterMap WSKV.dummy, after node = heap node) :
    passedValues after kvs = passedValues heap kvs := by
  rw [passedValues_eq, passedValues_eq]
  refine List.flatMap_congr fun kv mem => ?_
  rw [givenUp, givenUp]
  cases isDummy : kv.dummy with
  | none => rfl
  | some dummy =>
    have kept := same dummy (List.mem_filterMap.mpr ⟨kv, mem, isDummy⟩)
    simp [kept]

/-! ### Write sets -/

structure Fresh (main : NodeId → Prop) (ws : WriteState) : Prop where
  records : ∀ node, main node → node < ws.nextNode
  pooled : ∀ tableid, ∀ node ∈ (ws.memnodesPool tableid).freelist, ¬ main node
  distinct : Distinct (fun tableid => (ws.memnodesPool tableid).freelist) ws.nextNode

structure Takes (main : NodeId → Prop) (ws : WriteState) (dummy : NodeId)
    (after : WriteState) : Prop where
  spare : ¬ main dummy
  heap : after.heap = update ws.heap dummy {}
  written : after.written = ws.written
  origin : ws.nextNode ≤ dummy ∨ ∃ tableid, dummy ∈ (ws.memnodesPool tableid).freelist
  pools : ∀ tableid node, node ∈ (after.memnodesPool tableid).freelist ↔
    node ∈ (ws.memnodesPool tableid).freelist ∧ node ≠ dummy
  numbers : ∀ node, node < after.nextNode ↔ node < ws.nextNode ∨ node = dummy
  fresh : Fresh main after

section

variable {main : NodeId → Prop} {ws after : WriteState}

theorem Fresh.shrink (fresh : Fresh main ws) (grows : ws.nextNode ≤ after.nextNode)
    (shorter : ∀ tableid, ((after.memnodesPool tableid).freelist).Sublist
      (ws.memnodesPool tableid).freelist) : Fresh main after where
  records node record := lt_of_lt_of_le (fresh.records node record) grows
  pooled tableid node mem := fresh.pooled tableid node ((shorter tableid).subset mem)
  distinct :=
    { nodup := fun tableid => (fresh.distinct.nodup tableid).sublist (shorter tableid)
      apart := fun first second =>
        fresh.distinct.apart ((shorter _).subset first) ((shorter _).subset second)
      below := fun mem =>
        lt_of_lt_of_le (fresh.distinct.below ((shorter _).subset mem)) grows }

theorem Fresh.takes {tableid : TableId} {dummy : NodeId} (fresh : Fresh main ws)
    (taken : getMemNode ws tableid = (dummy, after)) : Takes main ws dummy after := by
  have effect : after.heap = update ws.heap dummy {} ∧ after.written = ws.written := by
    unfold getMemNode at taken
    split at taken <;> · cases taken; exact ⟨rfl, rfl⟩
  obtain ⟨-, ⟨front, others, same⟩ | ⟨pools, rfl, next⟩⟩ := getMemNode_pools taken
  · have mem : dummy ∈ (ws.memnodesPool tableid).freelist := front ▸ List.mem_cons_self
    have once := fresh.distinct.nodup tableid
    rw [front, List.nodup_cons] at once
    constructor
    · exact fresh.pooled tableid dummy mem
    · exact effect.1
    · exact effect.2
    · exact .inr ⟨tableid, mem⟩
    · intro other node
      by_cases here : other = tableid
      · subst here
        rw [front, List.mem_cons]
        constructor
        · intro later
          exact ⟨.inr later, fun same => once.1 (same ▸ later)⟩
        · rintro ⟨rfl | later, different⟩
          · exact absurd rfl different
          · exact later
      · rw [others other here]
        refine ⟨fun later => ⟨later, ?_⟩, And.left⟩
        rintro rfl
        exact here (fresh.distinct.apart later mem)
    · intro node
      rw [same]
      refine ⟨.inl, ?_⟩
      rintro (below | rfl)
      · exact below
      · exact fresh.distinct.below mem
    · refine fresh.shrink (le_of_eq same.symm) fun other => ?_
      by_cases here : other = tableid
      · rw [here, front]
        exact List.sublist_cons_self _ _
      · rw [others other here]
  · constructor
    · exact fun record => Nat.lt_irrefl _ (fresh.records _ record)
    · exact effect.1
    · exact effect.2
    · exact .inl (Nat.le_refl _)
    · intro other node
      rw [pools]
      refine ⟨fun later => ⟨later, ?_⟩, And.left⟩
      exact Nat.ne_of_lt (fresh.distinct.below later)
    · intro node
      rw [next]
      exact Nat.lt_succ_iff_lt_or_eq
    · refine fresh.shrink (by rw [next]; exact Nat.le_succ _) fun other => ?_
      rw [pools]

end

def Created (before after : WriteState) (node : NodeId) : Prop :=
  (∃ tableid, node ∈ (before.memnodesPool tableid).freelist ∧
    node ∉ (after.memnodesPool tableid).freelist) ∨
  before.nextNode ≤ node ∧ node < after.nextNode

def Known (main : NodeId → Prop) (heap : Heap) (kvs : List WSKV) (object : Ptr) : Prop :=
  (∃ node, main node ∧ (heap node).value = .pointer object) ∨ ∃ kv ∈ kvs, kv.val = .pointer object

structure Different (main : NodeId → Prop) (heap : Heap) (kvs : List WSKV) : Prop where
  stored : ∀ {first second object}, main first → main second →
    (heap first).value = .pointer object → (heap second).value = .pointer object → first = second
  written : (kvs.flatMap fun kv => pointers kv.val).Nodup
  apart : ∀ kv ∈ kvs, ∀ node, main node → ∀ object, kv.val = .pointer object →
    (heap node).value ≠ .pointer object

structure Accounted (main : NodeId → Prop) (before : WriteState) (kvs : List WSKV)
    (after : WriteState) : Prop where
  value : ∀ node, main node → (after.heap node).value =
    content (fun node => (before.heap node).value) (kvs.map fun kv => (kv.node, kv.val)) node
  seq : ∀ node, main node → (after.heap node).seq =
    (before.heap node).seq + kvs.countP fun kv => kv.node = node
  values : ∀ object, Known main before.heap kvs object →
    ((∃! node, main node ∧ (after.heap node).value = .pointer object) ∧
        (passedValues after.heap after.written).count object = 0) ∨
      (∀ node, main node → (after.heap node).value ≠ .pointer object) ∧
        (passedValues after.heap after.written).count object = 1
  nodes : ∀ node, Created before after node →
    (passedNodes after.heap after.written).count node = 1

/-! ### One entry -/

structure Replaced (main : NodeId → Prop) (gcounter : Nat) (ws : WriteState) (kv : WSKV)
    (after : WriteState) (entry : WSKV) : Prop where
  fresh : Fresh main after
  value : ∀ node, main node → (after.heap node).value =
    update (fun node => (ws.heap node).value) kv.node kv.val node
  seq : ∀ node, main node → (after.heap node).seq =
    (ws.heap node).seq + if kv.node = node then 1 else 0
  counter : ∀ node, main node →
    (after.heap node).counter = gcounter ∨ after.heap node = ws.heap node
  written : after.written = ws.written ++ [entry]
  givenUp : givenUp after.heap entry = pointers (ws.heap kv.node).value
  kept : ∀ node, ¬ main node → entry.dummy ≠ some node → after.heap node = ws.heap node
  dummy : entry.dummy = none ∧ after.memnodesPool = ws.memnodesPool ∧
      after.nextNode = ws.nextNode ∨
    ∃ dummy middle, entry.dummy = some dummy ∧ Takes main ws dummy middle ∧
      after.memnodesPool = middle.memnodesPool ∧ after.nextNode = middle.nextNode

section

variable {main : NodeId → Prop} {gcounter : Nat} {ws after : WriteState} {kv : WSKV}

section

variable (fresh : Fresh main ws) (record : main kv.node)

include fresh record

theorem writeInPlace_replaced (plain : kv.dummy = none) (queue : List DELElement) :
    ∃ entry, Replaced main gcounter ws kv
      (writeInPlace ws kv { ws.heap kv.node with counter := gcounter } queue) entry := by
  refine ⟨_, ?_, ?_, ?_, ?_, rfl, ?_, ?_, ?_⟩
  · exact ⟨fresh.records, fresh.pooled, fresh.distinct⟩
  · intro node _
    by_cases same : node = kv.node
    · subst same
      simp [writeInPlace]
    · simp [writeInPlace, same]
  · intro node _
    by_cases same : node = kv.node
    · subst same
      simp [writeInPlace]
    · simp [writeInPlace, same, Ne.symm same]
  · intro node _
    by_cases same : node = kv.node
    · subst same
      simp [writeInPlace]
    · simp [writeInPlace, same]
  · simp [givenUp, plain]
  · intro node other _
    have different : node ≠ kv.node := fun same => other (same ▸ record)
    simp [writeInPlace, different]
  · exact .inl ⟨plain, rfl, rfl⟩

theorem writeNewVersion_replaced (queue : List DELElement) :
    ∃ entry, Replaced main gcounter ws kv (writeNewVersion ws kv gcounter queue) entry := by
  cases taken : getMemNode ws kv.tableid with
  | mk dummy middle =>
    have takes := fresh.takes taken
    have different : kv.node ≠ dummy := fun same => takes.spare (same ▸ record)
    have other : ∀ node, main node → node ≠ dummy :=
      fun node isRecord same => takes.spare (same ▸ isRecord)
    simp only [writeNewVersion, taken, takes.heap, takes.written]
    refine ⟨_, ?_, ?_, ?_, ?_, rfl, ?_, ?_, ?_⟩
    · exact ⟨takes.fresh.records, takes.fresh.pooled, takes.fresh.distinct⟩
    · intro node isRecord
      by_cases same : node = kv.node
      · subst same
        simp
      · simp [same, other node isRecord]
    · intro node isRecord
      by_cases same : node = kv.node
      · subst same
        simp [different]
      · simp [same, Ne.symm same, other node isRecord]
    · intro node isRecord
      by_cases same : node = kv.node
      · subst same
        simp
      · simp [same, other node isRecord]
    · simp [givenUp, pointers, Ne.symm different, different]
    · intro node isNone apart
      have notRecord : node ≠ kv.node := fun same => isNone (same ▸ record)
      have notDummy : node ≠ dummy := fun same => apart (by simp [same])
      simp [notRecord, notDummy]
    · exact .inr ⟨dummy, middle, rfl, takes, rfl, rfl⟩

theorem writeEntry_replaced (plain : kv.dummy = none)
    (written : writeEntry gcounter ws kv = .ok after) :
    ∃ entry, Replaced main gcounter ws kv after entry := by
  obtain ⟨queue, -, ⟨-, rfl⟩ | ⟨-, -, rfl⟩⟩ := writeEntry_cases written
  · exact writeInPlace_replaced fresh record plain queue
  · exact writeNewVersion_replaced fresh record queue

end

def deletions (kvs : List WSKV) : Nat := kvs.countP fun kv => kv.val = .logicalDelete

theorem registerDelete_returns {queue : List DELElement}
    (room : queue.length + deletions [kv] < delSetSize) (node : MemNode) :
    ∃ longer, registerDelete queue kv node = .ok longer := by
  unfold registerDelete
  split
  · rename_i deletes
    have one : deletions [kv] = 1 := by simp [deletions, deletes.1]
    rw [one] at room
    exact ⟨_, if_neg (Nat.ne_of_lt room)⟩
  · exact ⟨queue, rfl⟩

theorem registerDelete_length {queue longer : List DELElement} {node : MemNode}
    (registered : registerDelete queue kv node = .ok longer) :
    longer.length ≤ queue.length + deletions [kv] := by
  unfold registerDelete delSetAdd at registered
  split at registered
  · rename_i deletes
    have one : deletions [kv] = 1 := by simp [deletions, deletes.1]
    split at registered
    · cases registered
    · cases registered
      simp [one]
  · cases registered
    exact Nat.le_add_right _ _

theorem writeEntry_returns (room : ws.deleteset.length + deletions [kv] < delSetSize)
    (counter : (ws.heap kv.node).counter ≤ gcounter) :
    ∃ after, writeEntry gcounter ws kv = .ok after ∧
      after.deleteset.length ≤ ws.deleteset.length + deletions [kv] := by
  have returns : ∃ after, writeEntry gcounter ws kv = .ok after := by
    obtain ⟨queue, registered⟩ :=
      registerDelete_returns room (stampCounter (ws.heap kv.node) gcounter)
    have below : (stampCounter (ws.heap kv.node) gcounter).counter ≤ gcounter := by
      unfold stampCounter
      split
      · exact Nat.le_refl _
      · exact counter
    unfold writeEntry
    simp only [registered]
    split
    · exact ⟨_, rfl⟩
    · rename_i different
      rw [if_pos (lt_of_le_of_ne below different)]
      exact ⟨_, rfl⟩
  obtain ⟨after, written⟩ := returns
  refine ⟨after, written, ?_⟩
  obtain ⟨queue, registered, ⟨-, rfl⟩ | ⟨-, -, rfl⟩⟩ := writeEntry_cases written
  · exact registerDelete_length registered
  · exact registerDelete_length registered

end

/-! ### The whole write set -/

structure Accounts (main : NodeId → Prop) (gcounter : Nat) (before : WriteState)
    (done : List WSKV) (ws : WriteState) : Prop where
  fresh : Fresh main ws
  value : ∀ node, main node → (ws.heap node).value =
    content (fun node => (before.heap node).value) (done.map fun kv => (kv.node, kv.val)) node
  seq : ∀ node, main node → (ws.heap node).seq =
    (before.heap node).seq + done.countP fun kv => kv.node = node
  counter : ∀ node, main node → (ws.heap node).counter ≤ gcounter
  spare : ∀ node ∈ dummies ws.written, ¬ main node ∧ node < ws.nextNode ∧
    ∀ tableid, node ∉ (ws.memnodesPool tableid).freelist
  once : (dummies ws.written).Nodup
  created : ∀ node, Created before ws node → node ∈ dummies ws.written
  balanced : Balanced main (fun node => (ws.heap node).value) (passedValues ws.heap ws.written)
    (Known main before.heap done)
  deleteset : ws.deleteset.length ≤ before.deleteset.length + deletions done

section

variable {main : NodeId → Prop} {gcounter : Nat} {before ws after : WriteState}
  {done : List WSKV} {kv entry : WSKV}

theorem Accounts.passed (accounts : Accounts main gcounter before done ws)
    (replaced : Replaced main gcounter ws kv after entry) :
    passedValues after.heap after.written =
      passedValues ws.heap ws.written ++ pointers (ws.heap kv.node).value := by
  have same : passedValues after.heap ws.written = passedValues ws.heap ws.written := by
    refine passedValues_congr fun node mem => ?_
    obtain ⟨notRecord, below, unpooled⟩ := accounts.spare node mem
    refine replaced.kept node notRecord fun again => ?_
    rcases replaced.dummy with ⟨none_, -, -⟩ | ⟨dummy, middle, isDummy, takes, -, -⟩
    · simp [none_] at again
    · obtain rfl := Option.some.inj (isDummy.symm.trans again)
      rcases takes.origin with new | ⟨tableid, pooled⟩
      · exact absurd below (Nat.not_lt.mpr new)
      · exact unpooled tableid pooled
  rw [← same, passedValues_eq, passedValues_eq, replaced.written, List.flatMap_append,
    ← replaced.givenUp]
  simp

theorem Accounts.versions (accounts : Accounts main gcounter before done ws)
    (replaced : Replaced main gcounter ws kv after entry) :
    (∀ node ∈ dummies after.written, ¬ main node ∧ node < after.nextNode ∧
        ∀ tableid, node ∉ (after.memnodesPool tableid).freelist) ∧
      (dummies after.written).Nodup ∧
      ∀ node, Created before after node → node ∈ dummies after.written := by
  have shape : dummies after.written = dummies ws.written ++ entry.dummy.toList := by
    rw [dummies, replaced.written, List.filterMap_append]
    cases isDummy : entry.dummy <;> simp [dummies, isDummy]
  rw [shape]
  rcases replaced.dummy with ⟨isNone, pools, next⟩ | ⟨dummy, middle, isDummy, takes, pools, next⟩
  · have none_ : entry.dummy.toList = [] := by rw [isNone]; rfl
    rw [none_, List.append_nil]
    simp only [Created, pools, next]
    exact ⟨accounts.spare, accounts.once, accounts.created⟩
  have some_ : entry.dummy.toList = [dummy] := by rw [isDummy]; rfl
  rw [some_]
  simp only [Created, pools, next]
  refine ⟨?_, ?_, ?_⟩
  · intro node mem
    simp only [takes.pools, takes.numbers]
    rcases List.mem_append.mp mem with earlier | last
    · obtain ⟨notRecord, below, unpooled⟩ := accounts.spare node earlier
      exact ⟨notRecord, .inl below, fun tableid pooled => unpooled tableid pooled.1⟩
    · obtain rfl := List.mem_singleton.mp last
      exact ⟨takes.spare, .inr rfl, fun tableid pooled => pooled.2 rfl⟩
  · refine List.nodup_append.mpr ⟨accounts.once, by simp, ?_⟩
    rintro node earlier last isLast rfl
    obtain rfl := List.mem_singleton.mp isLast
    obtain ⟨-, below, unpooled⟩ := accounts.spare node earlier
    rcases takes.origin with new | ⟨tableid, pooled⟩
    · exact absurd below (Nat.not_lt.mpr new)
    · exact unpooled tableid pooled
  · intro node created
    simp only [takes.pools, takes.numbers] at created
    by_cases same : node = dummy
    · exact List.mem_append_right _ (List.mem_singleton.mpr same)
    refine List.mem_append_left _ (accounts.created node ?_)
    rcases created with ⟨tableid, was, gone⟩ | ⟨new, below | same'⟩
    · exact .inl ⟨tableid, was, fun still => gone ⟨still, same⟩⟩
    · exact .inr ⟨new, below⟩
    · exact absurd same' same

theorem known_concat (heap : Heap) (object : Ptr) :
    Known main heap (done ++ [kv]) object ↔
      Known main heap done object ∨ kv.val = .pointer object := by
  simp only [Known, List.mem_append, List.mem_singleton, or_and_right, exists_or, exists_eq_left,
    or_assoc]

theorem Accounts.step (accounts : Accounts main gcounter before done ws) (record : main kv.node)
    (plain : kv.dummy = none)
    (new : ∀ object, kv.val = .pointer object → ¬ Known main before.heap done object)
    (room : before.deleteset.length + deletions (done ++ [kv]) < delSetSize) :
    ∃ after, writeEntry gcounter ws kv = .ok after ∧
      Accounts main gcounter before (done ++ [kv]) after := by
  have split : deletions (done ++ [kv]) = deletions done + deletions [kv] := by
    simp only [deletions, List.countP_append]
  have deleteset := accounts.deleteset
  have fits : ws.deleteset.length + deletions [kv] < delSetSize := by omega
  obtain ⟨after, written, shorter⟩ := writeEntry_returns fits (accounts.counter kv.node record)
  obtain ⟨entry, replaced⟩ := writeEntry_replaced accounts.fresh record plain written
  obtain ⟨spare, once, created⟩ := accounts.versions replaced
  refine ⟨after, written, replaced.fresh, ?_, ?_, ?_, spare, once, created, ?_, by omega⟩
  · intro node isRecord
    rw [replaced.value node isRecord, List.map_append, List.map_singleton, content_concat]
    by_cases same : node = kv.node
    · rw [same, update_self, update_self]
    · rw [update_of_ne same, update_of_ne same, accounts.value node isRecord]
  · intro node isRecord
    rw [replaced.seq node isRecord, accounts.seq node isRecord, List.countP_append, Nat.add_assoc]
    simp [List.countP_singleton]
  · intro node isRecord
    rcases replaced.counter node isRecord with isNew | kept
    · exact Nat.le_of_eq isNew
    · rw [kept]
      exact accounts.counter node isRecord
  · have known : Known main before.heap (done ++ [kv]) =
        fun object => Known main before.heap done object ∨ kv.val = .pointer object :=
      funext fun object => propext (known_concat before.heap object)
    rw [accounts.passed replaced, known]
    exact (accounts.balanced.replace record new).congr replaced.value

theorem Accounts.write {rest : List WSKV} (accounts : Accounts main gcounter before done ws)
    (records : ∀ kv ∈ rest, main kv.node) (plain : ∀ kv ∈ rest, kv.dummy = none)
    (different : Different main before.heap (done ++ rest))
    (room : before.deleteset.length + deletions (done ++ rest) < delSetSize) :
    ∃ after, TxSets.write gcounter ws rest = .ok after ∧
      Accounts main gcounter before (done ++ rest) after := by
  induction rest generalizing done ws with
  | nil => exact ⟨ws, rfl, by rwa [List.append_nil]⟩
  | cons kv rest ih =>
    have shape : done ++ kv :: rest = (done ++ [kv]) ++ rest := by simp
    rw [shape] at different room ⊢
    have fewer : deletions (done ++ [kv]) ≤ deletions ((done ++ [kv]) ++ rest) := by
      exact (List.sublist_append_left _ _).countP_le
    -- An earlier entry or a record with the same pointer would be a second one.
    have new : ∀ object, kv.val = .pointer object → ¬ Known main before.heap done object := by
      rintro object isNew (⟨node, isRecord, holds⟩ | ⟨earlier, mem, same⟩)
      · exact different.apart kv (by simp) node isRecord object isNew holds
      have once := different.written
      simp only [List.append_assoc, List.flatMap_append, List.nodup_append] at once
      refine once.2.2 object (List.mem_flatMap.mpr ⟨earlier, mem, mem_pointers.mpr same⟩)
        object ?_ rfl
      simp [pointers, isNew]
    obtain ⟨middle, first, accounts'⟩ := accounts.step (records kv List.mem_cons_self)
      (plain kv List.mem_cons_self) new (by omega)
    obtain ⟨after, later, final⟩ := ih accounts'
      (fun other mem => records other (List.mem_cons_of_mem kv mem))
      (fun other mem => plain other (List.mem_cons_of_mem kv mem)) different room
    exact ⟨after, write_cons.mpr ⟨middle, first, later⟩, final⟩

theorem Accounts.init (fresh : Fresh main ws) (empty : ws.written = [])
    (counter : ∀ node, main node → (ws.heap node).counter ≤ gcounter)
    (stored : ∀ {first second object}, main first → main second →
      (ws.heap first).value = .pointer object → (ws.heap second).value = .pointer object →
      first = second) : Accounts main gcounter ws [] ws := by
  refine ⟨fresh, fun _ _ => rfl, fun _ _ => rfl, counter, ?_, ?_, ?_, ?_, Nat.le_refl _⟩
  · simp [empty, dummies]
  · simp [empty, dummies]
  · rintro node (⟨tableid, pooled, gone⟩ | ⟨above, below⟩)
    · exact absurd pooled gone
    · exact absurd below (Nat.not_lt.mpr above)
  rw [empty]
  refine ⟨?_, List.nodup_nil, stored, ?_⟩
  · exact fun object mem => absurd mem List.not_mem_nil
  · intro object
    simp [Known, passedValues, collectCalls]

theorem Accounts.accounted (accounts : Accounts main gcounter before done after) :
    Accounted main before done after := by
  refine ⟨accounts.value, accounts.seq, ?_, ?_⟩
  · intro object known
    rcases (accounts.balanced.complete object).mp known with ⟨node, record, holds⟩ | isPassed
    · refine .inl ⟨⟨node, ⟨record, holds⟩, ?_⟩, ?_⟩
      · rintro other ⟨isRecord, again⟩
        exact accounts.balanced.holder isRecord record again holds
      · rw [List.count_eq_zero]
        exact fun isPassed => accounts.balanced.apart object isPassed node record holds
    · refine .inr ⟨accounts.balanced.apart object isPassed, ?_⟩
      exact List.count_eq_one_of_mem accounts.balanced.once isPassed
  · intro node created
    rw [passedNodes_eq]
    exact List.count_eq_one_of_mem accounts.once (accounts.created node created)

end

/-- After `Write` every object is in one record or is passed to a pool, once; so is every new node. -/
theorem commit_accounts (main : NodeId → Prop) (gcounter : Nat) (ws : WriteState)
    (kvs : List WSKV) (empty : ws.written = []) (fresh : Fresh main ws)
    (counter : ∀ node, main node → (ws.heap node).counter ≤ gcounter)
    (records : ∀ kv ∈ kvs, main kv.node) (plain : ∀ kv ∈ kvs, kv.dummy = none)
    (different : Different main ws.heap kvs)
    (room : ws.deleteset.length + deletions kvs < delSetSize) :
    ∃ after, write gcounter ws kvs = .ok after ∧ Accounted main ws kvs after ∧
      ∀ th : Thread, th.writeset = after.written →
        collectOldVersions after.heap th =
          (collectCalls after.heap after.written).foldl Call.run th := by
  have start : Accounts main gcounter ws [] ws := .init fresh empty counter different.stored
  obtain ⟨after, written, accounts⟩ := start.write records plain different room
  rw [List.nil_append] at accounts
  refine ⟨after, written, accounts.accounted, ?_⟩
  intro th same
  rw [collectOldVersions_eq, same]

def twoRecords : WriteState where
  heap := fun node => { counter := if node = 0 then 1 else 0, value := .pointer (10 + node) }
  nextNode := 6
  memnodesPool := fun tableid => if tableid = 0 then { freelist := [5], freenum := 1 } else {}

def mixedWrites : List WSKV :=
  [⟨0, 7, 0, .pointer 20, .logicalDelete, 0, none⟩, ⟨0, 7, 0, .logicalDelete, .logicalDelete, 0, none⟩,
    ⟨0, 7, 0, .pointer 21, .logicalDelete, 0, none⟩, ⟨0, 8, 1, .logicalDelete, .logicalDelete, 0, none⟩]

theorem twoRecords_fresh : Fresh (· < 2) twoRecords where
  records node record := lt_trans record (by decide)
  pooled tableid node mem record := by
    simp only [twoRecords] at mem
    split at mem
    · simp_all
    · simp at mem
  distinct :=
    { nodup := fun tableid => by
        simp only [twoRecords]
        split <;> simp
      apart := fun {first second node} inFirst inSecond => by
        simp only [twoRecords] at inFirst inSecond
        split at inFirst
        · split at inSecond
          · simp_all
          · simp at inSecond
        · simp at inFirst
      below := fun {tableid node} mem => by
        simp only [twoRecords] at mem ⊢
        split at mem
        · simp_all
        · simp at mem }

theorem commit_accounts_mixed :
    ∃ after, write 3 twoRecords mixedWrites = .ok after ∧
      Accounted (· < 2) twoRecords mixedWrites after ∧
      ∀ th : Thread, th.writeset = after.written →
        collectOldVersions after.heap th =
          (collectCalls after.heap after.written).foldl Call.run th := by
  refine commit_accounts (· < 2) 3 twoRecords mixedWrites rfl twoRecords_fresh ?_ (by decide)
    (by decide) ⟨?_, by decide, ?_⟩ (by decide)
  · intro node _
    simp only [twoRecords]
    split <;> decide
  · intro first second object _ _ holds again
    have same := holds.trans again.symm
    simp only [twoRecords, Value.pointer.injEq] at same
    exact Nat.add_left_cancel same
  · intro kv member node record object isNew holds
    simp only [twoRecords, Value.pointer.injEq] at holds
    have high : 20 ≤ object := by
      revert object
      revert kv
      simp [mixedWrites]
    have low : 10 + node < 20 :=
      Nat.lt_of_lt_of_le (Nat.add_lt_add_left record 10) (by decide)
    exact Nat.not_le.mpr (holds ▸ low) high

end EunoDb.CommitAccounting
