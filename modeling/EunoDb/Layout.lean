import EunoDb.References

/-! The records of the tables when nothing is physically removed. -/

namespace EunoDb.Machine

open Memstore TxSets Function

def State.main (s : State) (node : NodeId) : Prop :=
  ∃ tableid key, s.table tableid key = some node

def removes (s : State) (t : ThreadId) : Prop :=
  match (s.threads t).pc with
  | .rmRemove obj _ => (s.heap obj.node).seq = obj.seq
  | _ => False

instance (s : State) (t : ThreadId) : Decidable (removes s t) := by
  unfold removes
  cases (s.threads t).pc <;> infer_instance

structure SameRecord (node other : MemNode) : Prop where
  value : other.value = node.value
  seq : other.seq = node.seq
  counter : other.counter = node.counter
  oldVersions : other.oldVersions = node.oldVersions

theorem SameRecord.refl (node : MemNode) : SameRecord node node := ⟨rfl, rfl, rfl, rfl⟩

theorem sameRecord_gcRef (heap : Heap) (target node : NodeId) (ref : Int) :
    SameRecord (heap node)
      (update heap target { heap target with gcRef := ref } node) := by
  by_cases same : node = target
  · subst node
    simp only [update_self]
    exact ⟨rfl, rfl, rfl, rfl⟩
  · simp only [update_of_ne same]
    exact SameRecord.refl _

inductive Tables (s : State) : (TableId → Key → Option NodeId) → NodeId → Prop where
  | same : Tables s s.table s.nextNode
  | inserted (tableid : TableId) (key : Key) (absent : s.table tableid key = none) :
      Tables s (insertNode s tableid key).table (s.nextNode + 1)

structure Quiet (s next : State) : Prop where
  record : ∀ node, SameRecord (s.heap node) (next.heap node)
  log : next.log = s.log
  snapshot : s.snapshot ≤ next.snapshot
  tables : Tables s next.table next.nextNode

theorem quiet_refl (s : State) : Quiet s s where
  record := fun _ => SameRecord.refl _
  log := rfl
  snapshot := le_refl _
  tables := .same

variable {s next middle : State} {tableid : TableId} {key : Key} {node nextNode : NodeId}
  {cfg : Config} {t : ThreadId} {th own : Thread} {table : TableId → Key → Option NodeId}
  {ws : WriteState}

theorem quiet_local (heap : next.heap = s.heap) (log : next.log = s.log)
    (snapshot : next.snapshot = s.snapshot) (table : next.table = s.table)
    (nextNode : next.nextNode = s.nextNode) : Quiet s next where
  record := fun _ => heap ▸ SameRecord.refl _
  log := log
  snapshot := le_of_eq snapshot.symm
  tables := by rw [table, nextNode]; exact .same

theorem quiet_found (unused : ∀ node, s.nextNode ≤ node → s.heap node = {})
    (found : Found s tableid key node next) : Quiet s next := by
  cases found with
  | present mapped => exact quiet_refl s
  | inserted absent =>
    refine ⟨?_, rfl, le_refl _, .inserted tableid key absent⟩
    intro node
    by_cases same : node = s.nextNode
    · subst node
      simp only [insertNode, update_self, unused _ (le_refl _)]
      exact SameRecord.refl _
    · simp only [insertNode, update_of_ne same]
      exact SameRecord.refl _

theorem found_unused (unused : ∀ node, s.nextNode ≤ node → s.heap node = {})
    (found : Found s tableid key node next) :
    ∀ node, next.nextNode ≤ node → next.heap node = {} := by
  cases found with
  | present mapped => exact unused
  | inserted absent =>
    intro node above
    have different : node ≠ s.nextNode := Nat.ne_of_gt above
    simp only [insertNode, update_of_ne different]
    exact unused node (Nat.le_of_succ_le above)

def Commits (s : State) (t : ThreadId) (th : Thread) (middle : State) (own : Thread) : Prop :=
  ∃ ws, th.pc = .body ∧ endValid s th = true ∧
    write s.snapshot (writeState s th) th.writeset = .ok ws ∧
    middle = committed s t th ws ∧ own = ended th ws

theorem step_outcome (unused : ∀ node, s.nextNode ≤ node → s.heap node = {})
    (taken : Step cfg s t th middle own) :
    Quiet s middle ∨ Commits s t th middle own ∨
      ∃ obj ref node, th.pc = .rmRemove obj ref ∧ (s.heap obj.node).seq = obj.seq ∧
        s.table obj.tableid obj.key = some node ∧ middle = unmapped s obj node ∧
        own = { th with pc := .rmTest obj ref } := by
  cases taken with
  | commit pc valid written => exact Or.inr (Or.inl ⟨_, pc, valid, written, rfl, rfl⟩)
  | getFind pc found | addInsert pc buffers found | addInsertCopied pc found =>
    exact Or.inl (quiet_found unused found)
  | addCheck pc present chosen =>
    obtain ⟨heap, log, snapshot, table, nextNode, _⟩ := payloadValue_shared chosen
    exact Or.inl (quiet_local heap log snapshot table nextNode)
  | endRemove pc | rmPop pc queued =>
    exact Or.inl ⟨fun node => sameRecord_gcRef s.heap _ node _, rfl, le_refl _, .same⟩
  | rmRemove pc current mapped =>
    exact Or.inr (Or.inr ⟨_, _, _, pc, current, mapped, rfl, rfl⟩)
  | roSnapshot pc =>
    exact Or.inl ⟨fun _ => SameRecord.refl _, rfl, Nat.le_succ _, .same⟩
  | _ => exact Or.inl (quiet_local rfl rfl rfl rfl rfl)

theorem step_quiet (unused : ∀ node, s.nextNode ≤ node → s.heap node = {})
    (admitted : ¬ removes s t) (taken : Step cfg s t (s.threads t) middle own) :
    Quiet s middle ∨ Commits s t (s.threads t) middle own := by
  rcases step_outcome unused taken with quiet | commits | ⟨obj, ref, _, pc, current, _⟩
  · exact Or.inl quiet
  · exact Or.inr commits
  · exact absurd (by simpa only [removes, pc] using current) admitted

theorem step_collects (taken : Step cfg s t th middle own) (collects : own.pc = .endCollect) :
    Commits s t th middle own := by
  cases taken with
  | commit pc valid written => exact ⟨_, pc, valid, written, rfl, rfl⟩
  | iterValue pc cursor => simp [setBuffer, pc] at collects
  | getOwn pc own | getAbsent pc invalid | getRead pc => simp [finishGet] at collects
  | _ => cases collects

theorem step_threads (taken : Step cfg s t th middle own) : middle.threads = s.threads := by
  cases taken with
  | getFind pc found | addInsert pc buffers found | addInsertCopied pc found =>
    cases found <;> rfl
  | addCheck pc present chosen => exact (payloadValue_shared chosen).2.2.2.2.2
  | _ => rfl

/-! ### Growth of the tables -/

structure Grows (s next : State) : Prop where
  table : ∀ {tableid key node}, s.table tableid key = some node →
    next.table tableid key = some node
  nextNode : s.nextNode ≤ next.nextNode
  old : ∀ {node}, node < s.nextNode → next.main node → s.main node
  seq : ∀ {node}, s.main node → (s.heap node).seq ≤ (next.heap node).seq
  value : ∀ {node}, s.main node → (next.heap node).seq = (s.heap node).seq →
    (next.heap node).value = (s.heap node).value

structure Shared (s : State) : Prop where
  bounded : ∀ {tableid key node}, s.table tableid key = some node → node < s.nextNode
  injective : ∀ {tableid key tableid' key' node}, s.table tableid key = some node →
    s.table tableid' key' = some node → tableid = tableid' ∧ key = key'
  unused : ∀ node, s.nextNode ≤ node → s.heap node = {}
  present : ∀ {node}, s.main node → (s.heap node).value ≠ .haveRemoved

theorem Shared.main_lt (shared : Shared s) (record : s.main node) : node < s.nextNode := by
  obtain ⟨tableid, key, mapped⟩ := record
  exact shared.bounded mapped

theorem Grows.main (grows : Grows s next) (record : s.main node) : next.main node := by
  obtain ⟨tableid, key, mapped⟩ := record
  exact ⟨tableid, key, grows.table mapped⟩

theorem Grows.spare (grows : Grows s next) (spare : Spare s.main s.nextNode node) :
    Spare next.main next.nextNode node :=
  ⟨fun record => spare.1 (grows.old spare.2 record), lt_of_lt_of_le spare.2 grows.nextNode⟩

theorem insertNode_table (other : TableId) (query : Key) :
    (insertNode s tableid key).table other query =
      if other = tableid ∧ query = key then some s.nextNode else s.table other query := by
  simp only [insertNode]
  by_cases sameTable : other = tableid
  · subst other
    by_cases sameKey : query = key
    · subst query
      simp
    · simp [sameKey]
  · simp [sameTable]

theorem Tables.keeps (tables : Tables s table nextNode) (mapped : s.table tableid key = some node) :
    table tableid key = some node := by
  cases tables with
  | same => exact mapped
  | inserted other query absent =>
    rw [insertNode_table]
    split
    · rename_i same
      rw [same.1, same.2, absent] at mapped
      cases mapped
    · exact mapped

theorem Tables.origin (tables : Tables s table nextNode) (mapped : table tableid key = some node) :
    s.table tableid key = some node ∨
      s.table tableid key = none ∧ node = s.nextNode ∧ nextNode = s.nextNode + 1 ∧
        table = (insertNode s tableid key).table := by
  cases tables with
  | same => exact Or.inl mapped
  | inserted other query absent =>
    rw [insertNode_table] at mapped
    split at mapped
    · rename_i same
      cases mapped
      rw [same.1, same.2]
      exact Or.inr ⟨absent, rfl, rfl, rfl⟩
    · exact Or.inl mapped

theorem Tables.nextNode_le (tables : Tables s table nextNode) : s.nextNode ≤ nextNode := by
  cases tables with
  | same => exact le_refl _
  | inserted => exact Nat.le_succ _

theorem Quiet.grows (quiet : Quiet s next) : Grows s next where
  table := quiet.tables.keeps
  nextNode := quiet.tables.nextNode_le
  old := by
    rintro node below ⟨tableid, key, mapped⟩
    rcases quiet.tables.origin mapped with earlier | ⟨_, rfl, _, _⟩
    · exact ⟨tableid, key, earlier⟩
    · exact absurd below (Nat.lt_irrefl _)
  seq := fun _ => le_of_eq (quiet.record _).seq.symm
  value := fun _ _ => (quiet.record _).value

theorem Quiet.shared (quiet : Quiet s next) (shared : Shared s)
    (unused : ∀ node, next.nextNode ≤ node → next.heap node = {}) : Shared next where
  bounded := by
    intro tableid key node mapped
    rcases quiet.tables.origin mapped with earlier | ⟨_, rfl, above, _⟩
    · exact lt_of_lt_of_le (shared.bounded earlier) quiet.tables.nextNode_le
    · rw [above]
      exact Nat.lt_succ_self _
  injective := by
    intro tableid key tableid' key' node first second
    -- a node is new at most once, and a new node is above every earlier one
    rcases quiet.tables.origin first with earlier | ⟨absent, rfl, _, inserted⟩
    · rcases quiet.tables.origin second with earlier' | ⟨_, rfl, _, _⟩
      · exact shared.injective earlier earlier'
      · exact absurd (shared.bounded earlier) (Nat.lt_irrefl _)
    rw [inserted, insertNode_table] at second
    split at second
    · rename_i same
      exact ⟨same.1.symm, same.2.symm⟩
    · exact absurd (shared.bounded second) (Nat.lt_irrefl _)
  unused := unused
  present := by
    rintro node ⟨tableid, key, mapped⟩
    rw [(quiet.record node).value]
    rcases quiet.tables.origin mapped with earlier | ⟨_, rfl, _, _⟩
    · exact shared.present ⟨tableid, key, earlier⟩
    · simp [shared.unused _ (le_refl _)]

/-! ### What a thread holds -/

abbrev State.maps (s : State) (tableid : TableId) (key : Key) (node : NodeId) : Prop :=
  s.table tableid key = some node

structure Pending (s : State) (kv : WSKV) : Prop extends Plain kv where
  mapped : s.table kv.tableid kv.key = some kv.node

structure Tidy (s : State) (th : Thread) : Prop extends
    References s.maps th, Pools (Spare s.main s.nextNode) th where
  plain : th.pc.inTx = true → ∀ kv ∈ th.writeset, Plain kv

theorem Tidy.entries (tidy : Tidy s th) (inside : th.pc.inTx = true) (kv : WSKV)
    (mem : kv ∈ th.writeset) : Pending s kv :=
  { tidy.plain inside kv mem with mapped := tidy.written inside kv mem }

theorem Tidy.mono (tidy : Tidy s th) (grows : Grows s next) :
    Tidy next th where
  toReferences := tidy.toReferences.mono fun _ _ _ => grows.table
  toPools := tidy.toPools.mono fun _ => grows.spare
  plain := tidy.plain

theorem Tidy.separate (tidy : Tidy s th) (shared : Shared s) :
    Separate s.main (writeState s th) where
  bounded := fun _ record => shared.main_lt record
  pooled := tidy.pooled
  unused := shared.unused
  dummies := by simp [writeState]

theorem commit_effect (shared : Shared s) (tidy : Tidy s th) (pc : th.pc = .body)
    (written : write s.snapshot (writeState s th) th.writeset = .ok ws) :
    WriteEffect s.main (writeState s th) th.writeset ws :=
  write_effect (tidy.separate shared)
    (fun kv mem => shared.bounded (tidy.entries (by rw [pc]; rfl) kv mem).mapped)
    (fun kv mem => (tidy.entries (by rw [pc]; rfl) kv mem).plain) written

theorem commit_grows (effect : WriteEffect s.main (writeState s th) th.writeset ws)
    (table : next.table = s.table) (heap : next.heap = ws.heap)
    (nextNode : next.nextNode = ws.nextNode) : Grows s next where
  table := by
    rw [table]
    exact id
  nextNode := nextNode ▸ effect.grows
  old := by
    rintro node _ ⟨tableid, key, mapped⟩
    exact ⟨tableid, key, table ▸ mapped⟩
  seq := by
    intro node record
    rw [heap]
    by_cases touched : ∃ kv ∈ th.writeset, kv.node = node
    · obtain ⟨kv, mem, rfl⟩ := touched
      exact le_of_lt (effect.moved kv mem record)
    · exact le_of_eq (congrArg MemNode.seq
        (effect.kept node record fun kv mem same => touched ⟨kv, mem, same⟩)).symm
  value := by
    intro node record same
    rw [heap] at same ⊢
    by_cases touched : ∃ kv ∈ th.writeset, kv.node = node
    · obtain ⟨kv, mem, rfl⟩ := touched
      exact absurd same (Nat.ne_of_gt (effect.moved kv mem record))
    · exact congrArg MemNode.value
        (effect.kept node record fun kv mem same => touched ⟨kv, mem, same⟩)

/-! ### Steps keep the layout -/

theorem step_tidy (shared : Shared s) (tidy : Tidy s th) (grows : Grows s middle)
    (taken : Step cfg s t th middle own) : Tidy middle own where
  toReferences := step_references (tidy.mono grows).toReferences taken Found.mapped grows.table
  toPools := by
    apply step_pools (tidy.mono grows).toPools taken
    · rintro ws pc written rfl _
      have effect := commit_effect shared tidy pc written
      exact ⟨effect.separate.pooled, fun _ => effect.separate.dummies⟩
    · intro obj pc removed
      have mapped := tidy.current obj (by rw [pc]; rfl)
      exact absurd removed (shared.present ⟨obj.tableid, obj.key, mapped⟩)
  plain := step_plain tidy.plain taken

theorem step_unused (shared : Shared s) (tidy : Tidy s (s.threads t)) (admitted : ¬ removes s t)
    (taken : Step cfg s t (s.threads t) middle own) :
    ∀ node, middle.nextNode ≤ node → middle.heap node = {} := by
  have counted : ∀ target, s.main target → ∀ (record : MemNode) node, s.nextNode ≤ node →
      update s.heap target record node = {} := by
    intro target main record node above
    have different : node ≠ target :=
      fun same => absurd (same ▸ above) (Nat.not_le.mpr (shared.main_lt main))
    rw [update_of_ne different]
    exact shared.unused node above
  cases taken with
  | commit pc valid written => exact (commit_effect shared tidy pc written).separate.unused
  | getFind pc found | addInsert pc buffers found | addInsertCopied pc found =>
    exact found_unused shared.unused found
  | addCheck pc present chosen =>
    obtain ⟨heap, _, _, _, nextNode, _⟩ := payloadValue_shared chosen
    rw [heap, nextNode]
    exact shared.unused
  | endRemove pc =>
    exact counted _ ⟨_, _, tidy.queue _ (by rw [pc]; exact List.mem_cons_self)⟩ _
  | rmPop pc queued =>
    exact counted _ ⟨_, _, tidy.queued _ (by rw [queued]; exact List.mem_cons_self)⟩ _
  | rmRemove pc current mapped =>
    exact absurd (by simpa only [removes, pc] using current) admitted
  | _ => exact shared.unused

structure Layout (s : State) : Prop where
  shared : Shared s
  tidy : ∀ u, Tidy s (s.threads u)

theorem committed_shared (shared : Shared s)
    (effect : WriteEffect s.main (writeState s th) th.writeset ws)
    (values : ∀ kv ∈ th.writeset, kv.val ≠ .haveRemoved) : Shared (committed s t th ws) where
  bounded := fun mapped => lt_of_lt_of_le (shared.bounded mapped) effect.grows
  injective := shared.injective
  unused := effect.separate.unused
  present := by
    intro node record
    show (ws.heap node).value ≠ .haveRemoved
    rw [effect.value node record, History.content]
    cases last : History.latest (th.writeset.map fun kv => (kv.node, kv.val)) node with
    | none => exact shared.present record
    | some value =>
      obtain ⟨kv, mem, same⟩ := List.mem_map.mp (History.latest_mem last)
      cases same
      exact values kv mem

theorem step_grows (layout : Layout s) (admitted : ¬ removes s t)
    (taken : Step cfg s t (s.threads t) middle own) : Grows s middle := by
  rcases step_quiet layout.shared.unused admitted taken with quiet | ⟨ws, pc, _, written, rfl, _⟩
  · exact quiet.grows
  · exact commit_grows (commit_effect layout.shared (layout.tidy t) pc written) rfl rfl rfl

theorem step_shared (layout : Layout s) (admitted : ¬ removes s t)
    (taken : Step cfg s t (s.threads t) middle own) : Shared middle := by
  have unused := step_unused layout.shared (layout.tidy t) admitted taken
  rcases step_quiet layout.shared.unused admitted taken with quiet | ⟨ws, pc, _, written, rfl, _⟩
  · exact quiet.shared layout.shared unused
  · exact committed_shared layout.shared (commit_effect layout.shared (layout.tidy t) pc written)
      fun kv mem => ((layout.tidy t).entries (by rw [pc]; rfl) kv mem).value

theorem quiet_finished (s middle : State) (t : ThreadId) (own : Thread) :
    Quiet middle (finished s middle t own) :=
  quiet_local rfl rfl rfl rfl rfl

theorem finished_self (s middle : State) (t : ThreadId) (own : Thread) :
    (finished s middle t own).threads t = own := by
  simp [finished, State.setThread]

theorem finished_other {u : ThreadId} (threads : middle.threads = s.threads) (different : u ≠ t) :
    (finished s middle t own).threads u = s.threads u := by
  simp [finished, State.setThread, different, threads]

theorem all_threads {P : ThreadId → Thread → Prop} (threads : middle.threads = s.threads)
    (self : P t own) (others : ∀ u, u ≠ t → P u (s.threads u)) (u : ThreadId) :
    P u ((finished s middle t own).threads u) := by
  by_cases same : u = t
  · subst u
    rwa [finished_self]
  · rw [finished_other threads same]
    exact others u same

theorem step_layout {act : Act} (layout : Layout s) (admitted : ¬ removes s t)
    (taken : step cfg s (t, act) = some next) : Layout next := by
  obtain ⟨_, middle, own, outcome, rfl⟩ := step_cases taken
  have grows := step_grows layout admitted outcome
  have finish := quiet_finished s middle t own
  constructor
  · have shared := step_shared layout admitted outcome
    exact finish.shared shared shared.unused
  · apply all_threads (P := fun _ => Tidy (finished s middle t own)) (step_threads outcome)
    · exact (step_tidy layout.shared (layout.tidy t) grows outcome).mono finish.grows
    · exact fun u _ => ((layout.tidy u).mono grows).mono finish.grows

/-! ### The loaded state -/

theorem tidy_initial (fresh : th = {}) : Tidy s th := by
  subst fresh
  refine
    { toReferences := ⟨txReferences_outside rfl rfl rfl rfl, ?_⟩, toPools := ?_, plain := by simp }
  · constructor <;> simp [Pc.current]
  · constructor <;> simp [ObjPool.retired]

theorem put_shared (shared : Shared s) (tableid : TableId) (key : Key) (object : Ptr) :
    Shared (put s tableid key object) := by
  have start : Shared (acquire s object) :=
    ⟨shared.bounded, shared.injective, shared.unused, shared.present⟩
  have found := getWithInsert_found (acquire s object) tableid key
  have middle : Shared (getWithInsert (acquire s object) tableid key).2 :=
    (quiet_found start.unused found).shared start (found_unused start.unused found)
  have below := middle.bounded found.mapped
  constructor
  · exact middle.bounded
  · exact middle.injective
  · intro node above
    have different : node ≠ (getWithInsert (acquire s object) tableid key).1 :=
      fun same => absurd (same ▸ above) (Nat.not_le.mpr below)
    simpa [put, different] using middle.unused node above
  · intro node record
    by_cases same : node = (getWithInsert (acquire s object) tableid key).1
    · simp [put, same]
    · simpa [put, same] using middle.present record

section

variable (records : List (TableId × Key × Ptr))

include records

theorem loaded_fields :
    ∃ heap nextNode nextValue table held known, loaded records =
      { heap := heap, nextNode := nextNode, nextValue := nextValue, table := table,
        held := held, known := known } := by
  induction records using List.reverseRecOn with
  | nil => exact ⟨_, _, _, _, _, _, rfl⟩
  | append_singleton rest record ih =>
    obtain ⟨heap, nextNode, nextValue, table, held, known, fields⟩ := ih
    rw [loaded, List.foldl_append]
    show ∃ _ _ _ _ _ _, put (loaded rest) record.1 record.2.1 record.2.2 = _
    rw [fields]
    unfold put getWithInsert acquire
    dsimp only
    cases table record.1 record.2.1 with
    | some node | none => exact ⟨_, _, _, _, _, _, rfl⟩

theorem loaded_threads (u : ThreadId) : (loaded records).threads u = {} := by
  obtain ⟨_, _, _, _, _, _, fields⟩ := loaded_fields records
  rw [fields]

theorem loaded_shared : Shared (loaded records) := by
  induction records using List.reverseRecOn with
  | nil => exact ⟨by simp [loaded], by simp [loaded], by simp [loaded], by simp [loaded, State.main]⟩
  | append_singleton rest record ih =>
    rw [loaded, List.foldl_append]
    exact put_shared ih _ _ _

theorem loaded_layout : Layout (loaded records) :=
  ⟨loaded_shared records, fun u => tidy_initial (loaded_threads records u)⟩

end

end EunoDb.Machine
