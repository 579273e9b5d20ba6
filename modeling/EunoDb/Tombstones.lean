import EunoDb.Births

/-! Tombstones and their removal requests. -/

namespace EunoDb.Machine

open Memstore TxSets Function Execution

def request (element : DELElement) : RMObj :=
  ⟨element.tableid, element.key, element.node, element.seq⟩

def pendingRequests (th : Thread) : List RMObj :=
  (match th.pc with
    | .endCollect => th.deleteset.map request
    | .endRemove queue => queue.map request
    | .rmRemove obj _ => [obj]
    | _ => []) ++ th.rmlist

def deletesAgain (value : NodeId → Value) (held : NodeId → Bool) : List WSKV → Bool
  | [] => false
  | kv :: rest =>
    (decide (kv.val = .logicalDelete) && decide (value kv.node = .logicalDelete) &&
        held kv.node) ||
      deletesAgain (update value kv.node kv.val)
        (update held kv.node (held kv.node || validateValue kv.val)) rest

def redeletes (s : State) (act : ThreadId × Act) : Prop :=
  act.2 = .call .finish ∧ endValid s (s.threads act.1) = true ∧
    deletesAgain (fun node => (s.heap node).value) s.held (s.threads act.1).writeset = true

instance (s : State) (act : ThreadId × Act) : Decidable (redeletes s act) :=
  inferInstanceAs (Decidable (_ ∧ _))

structure Tombstones (s : State) : Prop where
  births : ∃ birth, Births s birth
  fresh : ∀ node, s.nextNode ≤ node → s.held node = false
  requested : ∀ {tableid key node}, s.table tableid key = some node →
    (s.heap node).value = .logicalDelete → s.held node = true →
      ∃ u, ⟨tableid, key, node, (s.heap node).seq⟩ ∈ pendingRequests (s.threads u)

/-! ### Requests on their way -/

variable {cfg : Config} {s middle next : State} {t : ThreadId} {own : Thread} {kv : WSKV}
  {birth : NodeId → Option (TableId × Key)}

variable {th : Thread} {queue after : List DELElement} {node : MemNode} {ws : WriteState}
  {act : Act} {tableid : TableId} {key : Key}

theorem step_pendingRequests (taken : Step cfg s t th middle own) {obj : RMObj}
    (mem : obj ∈ pendingRequests th) :
    obj ∈ pendingRequests own ∨ ∃ ref, th.pc = .rmRemove obj ref ∧
      ((s.heap obj.node).seq ≠ obj.seq ∨ ∃ node, middle = unmapped s obj node ∧
        s.table obj.tableid obj.key = some node) := by
  cases taken with
  | commit pc valid written =>
    left
    simp only [pendingRequests, pc, List.nil_append] at mem
    exact List.mem_append_right _ mem
  | endCollect pc =>
    left
    obtain ⟨_, _, _, fields⟩ := collect_fields s.heap th.writeset th
    unfold collectOldVersions
    rw [fields]
    simpa only [pendingRequests, pc] using mem
  | @endRemove element rest pc =>
    left
    simp only [pendingRequests, pc, List.map_cons, List.cons_append, List.mem_cons,
      List.mem_append, addRMObj] at mem ⊢
    -- the head of the queue goes to the front of the pool
    rcases mem with rfl | later | pooled
    · exact Or.inr (Or.inl rfl)
    · exact Or.inl later
    · exact Or.inr (Or.inr pooled)
  | rmPop pc queued =>
    left
    simp only [pendingRequests, pc, queued, List.nil_append] at mem ⊢
    exact mem
  | rmStale pc stale =>
    simp only [pendingRequests, pc, List.singleton_append, List.mem_cons] at mem
    rcases mem with rfl | pooled
    · exact Or.inr ⟨_, pc, Or.inl stale⟩
    · exact Or.inl (by simpa [pendingRequests] using pooled)
  | rmRemove pc current mapped =>
    simp only [pendingRequests, pc, List.singleton_append, List.mem_cons] at mem
    rcases mem with rfl | pooled
    · exact Or.inr ⟨_, pc, Or.inr ⟨_, rfl, mapped⟩⟩
    · exact Or.inl (by simpa [pendingRequests] using pooled)
  | addCheck pc present chosen =>
    left
    obtain ⟨_, rfl⟩ := payloadValue_own chosen
    simpa [pendingRequests, pc] using mem
  | iterValue pc cursor => exact Or.inl mem
  | getOwn pc | getAbsent pc | getRead pc =>
    left
    simpa [pendingRequests, pc, finishGet, returned] using mem
  | _ => simp_all [pendingRequests, setBuffer, gcPools, addDeletedNode, returned]

/-! ### Commits -/

theorem registerDelete_grows (registered : registerDelete queue kv node = .ok after)
    {element : DELElement} (mem : element ∈ queue) : element ∈ after := by
  unfold registerDelete delSetAdd at registered
  split at registered
  · split at registered
    · cases registered
    · cases registered
      exact List.mem_append_left _ mem
  · cases registered
    exact mem

theorem registerDelete_new (registered : registerDelete queue kv node = .ok after)
    (deletes : kv.val = .logicalDelete) (live : node.value ≠ .logicalDelete) :
    ⟨kv.tableid, kv.key, kv.node, node.seq + 1⟩ ∈ after := by
  unfold registerDelete delSetAdd at registered
  rw [if_pos ⟨deletes, live⟩] at registered
  split at registered
  · cases registered
  · cases registered
    exact List.mem_append_right _ List.mem_cons_self

theorem stampCounter_fields (node : MemNode) (gcounter : Nat) :
    (stampCounter node gcounter).value = node.value ∧
      (stampCounter node gcounter).seq = node.seq := by
  unfold stampCounter
  split <;> exact ⟨rfl, rfl⟩

structure Marking (s : State) (birth : NodeId → Option (TableId × Key)) (target : NodeId → Bool)
    (value : NodeId → Value) (held : NodeId → Bool) (rest : List WSKV) (ws : WriteState) :
    Prop where
  separate : Separate s.main ws
  entries : ∀ kv ∈ rest, Plain kv ∧ birth kv.node = some (kv.tableid, kv.key) ∧
    kv.node < ws.nextNode
  values : ∀ {node}, s.main node → (ws.heap node).value = value node
  target : ∀ node, target node =
    (held node || rest.any fun kv => decide (kv.node = node) && validateValue kv.val)
  good : deletesAgain value held rest = false
  requested : ∀ {tableid key node}, s.table tableid key = some node →
    value node = .logicalDelete → held node = true →
      ⟨tableid, key, node, (ws.heap node).seq⟩ ∈ ws.deleteset ∨
        ∃ u, ⟨tableid, key, node, (ws.heap node).seq⟩ ∈ pendingRequests (s.threads u)

theorem Marking.entry {target : NodeId → Bool} {value : NodeId → Value} {held : NodeId → Bool}
    {rest : List WSKV} {after : WriteState}
    (marking : Marking s birth target value held (kv :: rest) ws) (births : Births s birth)
    (written : writeEntry s.snapshot ws kv = .ok after) :
    Marking s birth target (update value kv.node kv.val)
      (update held kv.node (held kv.node || validateValue kv.val)) rest after := by
  obtain ⟨plain, born, below⟩ := marking.entries kv List.mem_cons_self
  have effect := writeEntry_effect marking.separate below plain.plain written
  have registered := writeEntry_deleteset written
  obtain ⟨sameValue, sameSeq⟩ := stampCounter_fields (ws.heap kv.node) s.snapshot
  obtain ⟨firstGood, restGood⟩ := Bool.or_eq_false_iff.mp marking.good
  constructor
  case separate => exact effect.separate
  case entries =>
    intro other mem
    obtain ⟨first, second, third⟩ := marking.entries other (List.mem_cons_of_mem kv mem)
    exact ⟨first, second, lt_of_lt_of_le third effect.grows⟩
  case values =>
    intro node record
    by_cases same : node = kv.node
    · subst same
      rw [effect.value, update_self]
    · rw [effect.others node record same, update_of_ne same]
      exact marking.values record
  case target =>
    intro node
    rw [marking.target node, List.any_cons]
    by_cases same : node = kv.node
    · subst same
      simp [Bool.or_assoc]
    · rw [update_of_ne same]
      simp [Ne.symm same]
  case good => exact restGood
  case requested =>
    intro tableid key node mapped tombstone wasHeld
    by_cases same : node = kv.node
    · subst same
      have record : s.main kv.node := ⟨tableid, key, mapped⟩
      rw [update_self] at tombstone wasHeld
      rw [tombstone] at wasHeld
      simp only [validateValue, Bool.or_false] at wasHeld
      -- the record was no tombstone before, so this delete is registered
      have live : (ws.heap kv.node).value ≠ .logicalDelete := by
        intro already
        rw [marking.values record] at already
        simp [tombstone, already, wasHeld] at firstGood
      obtain ⟨rfl, rfl⟩ : tableid = kv.tableid ∧ key = kv.key := by
        have here := births.mapped mapped
        rw [born] at here
        cases here
        exact ⟨rfl, rfl⟩
      left
      rw [effect.seq record]
      have mem := registerDelete_new registered tombstone (by rwa [sameValue])
      rwa [sameSeq] at mem
    · rw [update_of_ne same] at tombstone wasHeld
      rw [effect.others node ⟨tableid, key, mapped⟩ same]
      exact (marking.requested mapped tombstone wasHeld).imp_left (registerDelete_grows registered)

theorem commit_tombstones (tombstones : Tombstones s) (births : Births s birth)
    (pc : (s.threads t).pc = .body)
    (written : write s.snapshot (writeState s (s.threads t)) (s.threads t).writeset = .ok ws)
    (good : deletesAgain (fun node => (s.heap node).value) s.held (s.threads t).writeset = false)
    (after : ∃ birth,
      Births (finished s (committed s t (s.threads t) ws) t (ended (s.threads t) ws)) birth) :
    Tombstones (finished s (committed s t (s.threads t) ws) t (ended (s.threads t) ws)) := by
  have inside : (s.threads t).pc.inTx = true := by rw [pc]; rfl
  have effect := births.commit_effect pc written
  have below : ∀ kv ∈ (s.threads t).writeset, kv.node < s.nextNode :=
    fun kv mem => births.bounded ((births.refs t).written inside kv mem)
  have start : Marking s birth (committed s t (s.threads t) ws).held
      (fun node => (s.heap node).value) s.held (s.threads t).writeset
      (writeState s (s.threads t)) :=
    { separate := births.separate t
      entries := fun kv mem =>
        ⟨births.plain t inside kv mem, (births.refs t).written inside kv mem,
          below kv mem⟩
      values := fun _ => rfl
      target := fun _ => rfl
      good := good
      requested := fun mapped value held => Or.inr (tombstones.requested mapped value held) }
  obtain ⟨value, held, done⟩ := write_rule
    (P := fun rest state => ∃ value held,
      Marking s birth (committed s t (s.threads t) ws).held value held rest state)
    (fun _ _ _ _ ⟨_, _, marking⟩ entry => ⟨_, _, marking.entry births entry⟩)
    ⟨_, _, start⟩ written
  constructor
  case births => exact after
  case fresh =>
    intro node above
    have old := tombstones.fresh node (le_trans effect.grows above)
    have unwritten : ((s.threads t).writeset.any fun kv =>
        decide (kv.node = node) && validateValue kv.val) = false := by
      rw [List.any_eq_false]
      intro kv mem same
      have here : kv.node = node := by simp_all
      exact absurd (here ▸ below kv mem) (Nat.not_lt.mpr (le_trans effect.grows above))
    exact Bool.or_eq_false_iff.mpr ⟨old, unwritten⟩
  case requested =>
    intro tableid key node mapped tombstone wasHeld
    have current : value node = .logicalDelete :=
      (done.values ⟨tableid, key, mapped⟩).symm.trans tombstone
    have isHeld : held node = true := by
      have final := done.target node
      rw [List.any_nil, Bool.or_false] at final
      exact final.symm.trans wasHeld
    rcases done.requested mapped current isHeld with registered | ⟨u, pending⟩
    · refine ⟨t, ?_⟩
      rw [finished_self]
      exact List.mem_append_left _ (List.mem_map.mpr ⟨_, registered, rfl⟩)
    refine ⟨u, ?_⟩
    by_cases same : u = t
    · subst same
      rw [finished_self]
      simp only [pendingRequests, pc, List.nil_append] at pending
      exact List.mem_append_right _ pending
    · rwa [finished_other (by rfl) same]

/-! ### Steps -/

theorem step_held (taken : Step cfg s t th middle own) (other : own.pc ≠ .endCollect) :
    middle.held = s.held := by
  cases taken with
  | commit pc valid written => exact absurd rfl other
  | getFind pc found | addInsert pc buffers found | addInsertCopied pc found =>
    cases found <;> rfl
  | @addCheck tableid key payload node val middle own pc present chosen =>
    cases payload with
    | given object | deleted =>
      cases chosen
      rfl
    | copied =>
      simp only [payloadValue] at chosen
      split at chosen <;> · cases chosen; rfl
  | _ => rfl

theorem step_finish (taken : step cfg s (t, act) = some next) (body : (s.threads t).pc = .body)
    (collects : (next.threads t).pc = .endCollect) : act = .call .finish := by
  obtain ⟨op, rfl, entered⟩ := step_body taken body
  rw [collects] at entered
  cases op with
  | finish => rfl
  | _ => simp [Op.entered] at entered

theorem tombstone_before (births : Births s birth)
    (fresh : ∀ node, s.nextNode ≤ node → s.held node = false)
    (taken : Step cfg s t (s.threads t) middle own) (other : own.pc ≠ .endCollect) {node : NodeId}
    (mapped : middle.table tableid key = some node) (held : s.held node = true) :
    s.table tableid key = some node ∧ SameRecord (s.heap node) (middle.heap node) := by
  rcases step_outcome births.unused taken with
    quiet | ⟨_, _, _, _, _, rfl⟩ | ⟨obj, ref, removed, pc, _, here, rfl, rfl⟩
  · rcases quiet.tables.origin mapped with before | ⟨_, rfl, _⟩
    · exact ⟨before, quiet.record node⟩
    · -- a node inserted now held nothing
      simp [fresh _ (le_refl _)] at held
  · exact absurd rfl other
  · obtain ⟨before, first, second⟩ := births.unmapped_main pc here mapped
    exact ⟨before, unmapped_record s obj removed first second ▸ SameRecord.refl _⟩

theorem step_tombstones (tombstones : Tombstones s) (admitted : ¬ redeletes s (t, act))
    (taken : step cfg s (t, act) = some next) : Tombstones next := by
  obtain ⟨birth, births⟩ := tombstones.births
  have after := step_births births taken
  obtain ⟨_, middle, own, outcome, rfl⟩ := step_cases taken
  by_cases collects : own.pc = .endCollect
  · obtain ⟨ws, pc, valid, written, rfl, rfl⟩ := step_collects outcome collects
    have finish := step_finish taken pc (by rw [finished_self]; rfl)
    apply commit_tombstones tombstones births pc written _ after
    by_contra again
    exact admitted ⟨finish, valid, by simpa using again⟩
  have held := step_held outcome collects
  constructor
  case births => exact after
  case fresh =>
    intro node above
    have grows : s.nextNode ≤ middle.nextNode := by
      rcases step_outcome births.unused outcome with
        quiet | ⟨_, _, _, _, _, rfl⟩ | ⟨_, _, _, _, _, _, rfl, _⟩
      · exact quiet.tables.nextNode_le
      · exact absurd rfl collects
      · exact le_refl _
    exact (congrFun held node).trans (tombstones.fresh node (le_trans grows above))
  case requested =>
    intro tableid key node mapped tombstone wasHeld
    obtain ⟨before, same⟩ := tombstone_before births tombstones.fresh outcome collects mapped
      ((congrFun held node).symm.trans wasHeld)
    obtain ⟨u, pending⟩ := tombstones.requested before (same.value.symm.trans tombstone)
      ((congrFun held node).symm.trans wasHeld)
    refine ⟨u, ?_⟩
    show ⟨tableid, key, node, (middle.heap node).seq⟩ ∈
      pendingRequests ((finished s middle t own).threads u)
    rw [same.seq]
    by_cases self : u = t
    · subst self
      rw [finished_self]
      rcases step_pendingRequests outcome pending with
        kept | ⟨ref, pc, stale | ⟨removed, rfl, here⟩⟩
      · exact kept
      · exact absurd rfl stale
      · exact absurd rfl (births.unmapped_main pc here mapped).2.1
    · rwa [finished_other (step_threads outcome) self]

theorem Found.held {node : NodeId} (found : Found s tableid key node next) :
    next.held = s.held := by
  cases found <;> rfl

theorem loaded_held (records : List (TableId × Key × Ptr)) (node : NodeId)
    (held : (loaded records).held node = true) :
    node < (loaded records).nextNode ∧ ((loaded records).heap node).value ≠ .logicalDelete := by
  induction records using List.reverseRecOn with
  | nil => simp [loaded] at held
  | append_singleton rest record ih =>
    rw [loaded, List.foldl_append] at held ⊢
    change (put (loaded rest) record.1 record.2.1 record.2.2).held node = true at held
    show node < (put (loaded rest) record.1 record.2.1 record.2.2).nextNode ∧
      ((put (loaded rest) record.1 record.2.1 record.2.2).heap node).value ≠ .logicalDelete
    have shared := put_shared (loaded_shared rest) record.1 record.2.1 record.2.2
    have found := getWithInsert_found (acquire (loaded rest) record.2.2) record.1 record.2.1
    have unused : ∀ node, (acquire (loaded rest) record.2.2).nextNode ≤ node →
        (acquire (loaded rest) record.2.2).heap node = {} := (loaded_shared rest).unused
    have quiet := quiet_found unused found
    by_cases here : node = (getWithInsert (acquire (loaded rest) record.2.2) record.1 record.2.1).1
    · subst here
      exact ⟨shared.bounded found.mapped, by simp [put]⟩
    have before : (loaded rest).held node = true := by
      simp only [put, update_of_ne here, found.held] at held
      exact held
    obtain ⟨below, value⟩ := ih before
    constructor
    · exact lt_of_lt_of_le below quiet.tables.nextNode_le
    · simp only [put, update_of_ne here, (quiet.record node).value]
      exact value

theorem loaded_tombstones (records : List (TableId × Key × Ptr)) : Tombstones (loaded records) where
  births := (loaded_layout records).births
  fresh := by
    intro node above
    by_contra held
    have below := (loaded_held records node (by simpa using held)).1
    exact absurd below (Nat.not_lt.mpr above)
  requested := by
    intro tableid key node mapped tombstone held
    exact absurd tombstone (loaded_held records node held).2

/-! ### Main result -/

/-- In every run whose commits delete no tombstone again, every tombstone in its
table that held a value has a pending removal request with its sequence number. -/
theorem tombstone_requested (cfg : Config) (records : List (TableId × Key × Ptr))
    (acts : List (ThreadId × Act)) (final : State)
    (admitted : Execution.Each (step cfg) (fun s act => ¬ redeletes s act) (loaded records) acts)
    (reached : Execution.run (step cfg) (loaded records) acts = some final) (tableid : TableId)
    (key : Key) (node : NodeId) (mapped : final.table tableid key = some node)
    (tombstone : (final.heap node).value = .logicalDelete) (held : final.held node = true) :
    ∃ u, ⟨tableid, key, node, (final.heap node).seq⟩ ∈ pendingRequests (final.threads u) :=
  (Execution.run_preserves (fun _ _ _ before allowed taken => step_tombstones before allowed taken)
    (loaded_tombstones records) admitted reached).requested mapped tombstone held

def writeKey (payload : Payload) (buffered : Bool) : List (ThreadId × Act) :=
  [(0, .call .begin), (0, .call (.add 0 7 payload)), (0, .tick), (0, .tick)] ++
    (if buffered then [] else [(0, .tick)]) ++
    [(0, .call .finish), (0, .tick), (0, .tick), (0, .tick), (0, .tick)] ++
    (if payload = .deleted then [(0, .tick)] else [])

def deleteTwice : List (ThreadId × Act) :=
  writeKey (.given 10) false ++ writeKey .deleted true ++ writeKey (.given 11) true ++
    writeKey .deleted true

theorem tombstone_requested_deleteTwice : ∃ final,
    Execution.run (step ⟨1, 1, 100000, 100⟩) (loaded []) deleteTwice = some final ∧
      final.table 0 7 = some 0 ∧ (final.heap 0).value = .logicalDelete ∧ (final.heap 0).seq = 4 ∧
      ∃ u, ⟨0, 7, 0, 4⟩ ∈ pendingRequests (final.threads u) :=
  ⟨_, rfl, rfl, rfl, rfl,
    tombstone_requested ⟨1, 1, 100000, 100⟩ [] deleteTwice _ (by decide +kernel) rfl 0 7 0 rfl rfl
      rfl⟩

def deleteTombstone : List (ThreadId × Act) :=
  writeKey (.given 10) false ++ writeKey .deleted true ++ (writeKey .deleted true).take 9

theorem tombstone_unrequested : ∃ final,
    Execution.run (step ⟨1, 1, 100000, 100⟩) (loaded []) deleteTombstone = some final ∧
      final.table 0 7 = some 0 ∧ (final.heap 0).value = .logicalDelete ∧ final.held 0 = true ∧
      ∀ u, ⟨0, 7, 0, (final.heap 0).seq⟩ ∉ pendingRequests (final.threads u) := by
  obtain ⟨final, reached, mapped, tombstone, held, requests⟩ : ∃ final,
      Execution.run (step ⟨1, 1, 100000, 100⟩) (loaded []) deleteTombstone = some final ∧
        final.table 0 7 = some 0 ∧ (final.heap 0).value = .logicalDelete ∧ final.held 0 = true ∧
        ⟨0, 7, 0, (final.heap 0).seq⟩ ∉ pendingRequests (final.threads 0) :=
    ⟨_, rfl, rfl, rfl, rfl, by decide +kernel⟩
  refine ⟨final, reached, mapped, tombstone, held, ?_⟩
  intro u
  by_cases zero : u = 0
  · exact zero ▸ requests
  · rw [run_outside reached (Nat.one_le_iff_ne_zero.mpr zero)]
    simp [pendingRequests]

end EunoDb.Machine
