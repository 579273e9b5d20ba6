import EunoDb.Layout

/-! A node becomes a record once and never again after it is unmapped. -/

namespace EunoDb.Machine

open Memstore TxSets Function Execution

structure Births (s : State) (birth : NodeId → Option (TableId × Key)) : Prop where
  mapped : ∀ {tableid key node}, s.table tableid key = some node →
    birth node = some (tableid, key)
  refs : ∀ u, References (fun tableid key node => birth node = some (tableid, key)) (s.threads u)
  bounded : ∀ {node entry}, birth node = some entry → node < s.nextNode
  unused : ∀ node, s.nextNode ≤ node → s.heap node = {}
  present : ∀ {node}, s.main node → (s.heap node).value ≠ .haveRemoved
  pools : ∀ u, Pools (Spare s.main s.nextNode) (s.threads u)
  plain : ∀ u, (s.threads u).pc.inTx = true → ∀ kv ∈ (s.threads u).writeset, Plain kv

section Births

variable {cfg : Config} {s middle : State} {t : ThreadId} {own : Thread}
  {birth : NodeId → Option (TableId × Key)}

variable {node other : NodeId} {ws : WriteState} {obj : RMObj} {ref : Int}

theorem Births.main_lt (births : Births s birth) (record : s.main node) : node < s.nextNode := by
  obtain ⟨_, _, mapped⟩ := record
  exact births.bounded (births.mapped mapped)

theorem Births.separate (births : Births s birth) (t : ThreadId) :
    Separate s.main (writeState s (s.threads t)) where
  bounded := fun _ record => births.main_lt record
  pooled := (births.pools t).pooled
  unused := births.unused
  dummies := by simp [writeState]

theorem Births.commit_effect (births : Births s birth) (pc : (s.threads t).pc = .body)
    (written : write s.snapshot (writeState s (s.threads t)) (s.threads t).writeset = .ok ws) :
    WriteEffect s.main (writeState s (s.threads t)) (s.threads t).writeset ws := by
  have inside : (s.threads t).pc.inTx = true := by rw [pc]; rfl
  exact write_effect (births.separate t)
    (fun kv mem => births.bounded ((births.refs t).written inside kv mem))
    (fun kv mem => (births.plain t inside kv mem).plain) written

theorem unmapped_table (s : State) (obj : RMObj) (node : NodeId) (tableid : TableId) (key : Key) :
    (unmapped s obj node).table tableid key =
      if tableid = obj.tableid ∧ key = obj.key then none else s.table tableid key := by
  by_cases owner : tableid = obj.tableid
  · subst owner
    by_cases same : key = obj.key
    · simp [unmapped, same]
    · simp [unmapped, same]
  · simp [unmapped, owner]

theorem Births.unmapped_main (births : Births s birth) (pc : (s.threads t).pc = .rmRemove obj ref)
    (mapped : s.table obj.tableid obj.key = some node) {tableid : TableId} {key : Key}
    (remains : (unmapped s obj node).table tableid key = some other) :
    s.table tableid key = some other ∧ other ≠ obj.node ∧ other ≠ node := by
  have request := (births.refs t).current obj (by rw [pc]; rfl)
  rw [unmapped_table] at remains
  split at remains
  · cases remains
  rename_i different
  have born := births.mapped remains
  refine ⟨remains, ?_, ?_⟩
  · rintro rfl
    rw [request] at born
    cases born
    exact different ⟨rfl, rfl⟩
  · rintro rfl
    rw [births.mapped mapped] at born
    cases born
    exact different ⟨rfl, rfl⟩

theorem unmapped_record (s : State) (obj : RMObj) (node : NodeId) (first : other ≠ obj.node)
    (second : other ≠ node) : (unmapped s obj node).heap other = s.heap other := by
  simp [unmapped, first, second]

/-! ### Steps -/

theorem Births.commit (births : Births s birth) (pc : (s.threads t).pc = .body)
    (written : write s.snapshot (writeState s (s.threads t)) (s.threads t).writeset = .ok ws)
    (taken : Step cfg s t (s.threads t) (committed s t (s.threads t) ws) (ended (s.threads t) ws)) :
    Births (finished s (committed s t (s.threads t) ws) t (ended (s.threads t) ws)) birth := by
  have effect := births.commit_effect pc written
  have inside : (s.threads t).pc.inTx = true := by rw [pc]; rfl
  constructor
  case mapped => exact births.mapped
  case refs =>
    apply all_threads (P := fun _ th =>
      References (fun tableid key node => birth node = some (tableid, key)) th) rfl
    · apply step_references (births.refs t) taken
      · rintro tableid key node found
        exact births.mapped found.mapped
      · exact births.mapped
    · exact fun u _ => births.refs u
  case bounded => exact fun born => lt_of_lt_of_le (births.bounded born) effect.grows
  case unused => exact effect.separate.unused
  case present =>
    intro node record
    show (ws.heap node).value ≠ .haveRemoved
    rw [effect.value node record, History.content]
    cases last : History.latest
        ((s.threads t).writeset.map fun kv => (kv.node, kv.val)) node with
    | none => exact births.present record
    | some value =>
      obtain ⟨kv, mem, same⟩ := List.mem_map.mp (History.latest_mem last)
      cases same
      exact (births.plain t inside kv mem).value
  case pools =>
    apply all_threads (P := fun _ th => Pools (Spare s.main ws.nextNode) th) rfl
    · exact ⟨effect.separate.pooled, fun _ => effect.separate.dummies⟩
    · intro u _
      exact (births.pools u).mono fun _ spare => ⟨spare.1, lt_of_lt_of_le spare.2 effect.grows⟩
  case plain =>
    apply all_threads (P := fun _ th => th.pc.inTx = true → ∀ kv ∈ th.writeset, Plain kv) rfl
    · simp [ended, Pc.inTx]
    · exact fun u _ => births.plain u

theorem Births.remove (births : Births s birth) (pc : (s.threads t).pc = .rmRemove obj ref)
    (mapped : s.table obj.tableid obj.key = some node)
    (taken : Step cfg s t (s.threads t) (unmapped s obj node)
      { s.threads t with pc := .rmTest obj ref }) :
    Births (finished s (unmapped s obj node) t { s.threads t with pc := .rmTest obj ref })
      birth := by
  have request := (births.refs t).current obj (by rw [pc]; rfl)
  have remains : ∀ {other}, (unmapped s obj node).main other →
      s.main other ∧ other ≠ obj.node ∧ other ≠ node := by
    rintro other ⟨tableid, key, after⟩
    obtain ⟨before, first, second⟩ := births.unmapped_main pc mapped after
    exact ⟨⟨tableid, key, before⟩, first, second⟩
  constructor
  case mapped => exact fun after => births.mapped (births.unmapped_main pc mapped after).1
  case refs =>
    apply all_threads (P := fun _ th =>
      References (fun tableid key node => birth node = some (tableid, key)) th) rfl
    · apply step_references (births.refs t) taken
      · rintro tableid key other found
        exact births.mapped (births.unmapped_main pc mapped found.mapped).1
      · exact births.mapped
    · exact fun u _ => births.refs u
  case bounded => exact births.bounded
  case unused =>
    intro other above
    have first : other ≠ obj.node := fun same =>
      absurd (same ▸ above) (Nat.not_le.mpr (births.bounded request))
    have second : other ≠ node := fun same =>
      absurd (same ▸ above) (Nat.not_le.mpr (births.bounded (births.mapped mapped)))
    exact (unmapped_record s obj node first second).trans (births.unused other above)
  case present =>
    intro other record
    obtain ⟨before, first, second⟩ := remains record
    show ((unmapped s obj node).heap other).value ≠ .haveRemoved
    rw [unmapped_record s obj node first second]
    exact births.present before
  case pools =>
    have shrinks : ∀ other, Spare s.main s.nextNode other →
        Spare (unmapped s obj node).main s.nextNode other :=
      fun other spare => ⟨fun record => spare.1 (remains record).1, spare.2⟩
    apply all_threads (P := fun _ th => Pools (Spare (unmapped s obj node).main s.nextNode) th) rfl
    · exact ((births.pools t).mono shrinks).move rfl (by simp)
    · exact fun u _ => (births.pools u).mono shrinks
  case plain =>
    apply all_threads (P := fun _ th => th.pc.inTx = true → ∀ kv ∈ th.writeset, Plain kv) rfl
    · simp [Pc.inTx]
    · exact fun u _ => births.plain u

theorem Births.quiet_unused (births : Births s birth) (quiet : Quiet s middle)
    (taken : Step cfg s t (s.threads t) middle own) :
    ∀ node, middle.nextNode ≤ node → middle.heap node = {} := by
  have counted : ∀ {target entry}, birth target = some entry → ∀ (record : MemNode) node,
      s.nextNode ≤ node → update s.heap target record node = {} := by
    intro target entry born record node above
    have different : node ≠ target :=
      fun same => absurd (same ▸ above) (Nat.not_le.mpr (births.bounded born))
    rw [update_of_ne different]
    exact births.unused node above
  cases taken with
  | commit pc valid written => exact (births.commit_effect pc written).separate.unused
  | getFind pc found | addInsert pc buffers found | addInsertCopied pc found =>
    exact found_unused births.unused found
  | addCheck pc present chosen =>
    obtain ⟨heap, _, _, _, nextNode, _⟩ := payloadValue_shared chosen
    rw [heap, nextNode]
    exact births.unused
  | endRemove pc =>
    exact counted ((births.refs t).queue _ (by rw [pc]; exact List.mem_cons_self)) _
  | rmPop pc queued =>
    exact counted ((births.refs t).queued _ (by rw [queued]; exact List.mem_cons_self)) _
  | @rmRemove obj ref node pc current mapped =>
    intro other above
    have request := (births.refs t).current obj (by rw [pc]; rfl)
    have first : other ≠ obj.node := fun same =>
      absurd (same ▸ above) (Nat.not_le.mpr (births.bounded request))
    have second : other ≠ node := fun same =>
      absurd (same ▸ above) (Nat.not_le.mpr (births.bounded (births.mapped mapped)))
    exact (unmapped_record s obj node first second).trans (births.unused other above)
  | _ => exact births.unused

theorem Tables.births {table : TableId → Key → Option NodeId} {nextNode : NodeId}
    (tables : Tables s table nextNode) (births : Births s birth) :
    ∃ after : NodeId → Option (TableId × Key),
      (∀ node entry, birth node = some entry → after node = some entry) ∧
      (∀ {tableid key node}, table tableid key = some node → after node = some (tableid, key)) ∧
      ∀ {node entry}, after node = some entry → node < nextNode := by
  cases tables with
  | same => exact ⟨birth, fun _ _ => id, births.mapped, births.bounded⟩
  | inserted tableid key absent =>
    have old : ∀ node entry, birth node = some entry →
        update birth s.nextNode (some (tableid, key)) node = some entry := by
      intro node entry born
      rw [update_of_ne (Nat.ne_of_lt (births.bounded born)), born]
    refine ⟨update birth s.nextNode (some (tableid, key)), old, ?_, ?_⟩
    · intro owner query node here
      rw [insertNode_table] at here
      split at here
      · rename_i same
        obtain ⟨rfl, rfl⟩ := same
        cases here
        simp
      · exact old _ _ (births.mapped here)
    · intro node entry born
      by_cases new : node = s.nextNode
      · exact new ▸ Nat.lt_succ_self _
      · rw [update_of_ne new] at born
        exact Nat.lt_succ_of_lt (births.bounded born)

theorem Births.quiet (births : Births s birth) (quiet : Quiet s middle)
    (taken : Step cfg s t (s.threads t) middle own) (other : own.pc ≠ .endCollect) :
    ∃ after, Births (finished s middle t own) after := by
  have unused := births.quiet_unused quiet taken
  have spare : ∀ node, Spare s.main s.nextNode node → Spare middle.main middle.nextNode node :=
    fun _ => quiet.grows.spare
  obtain ⟨after, keeps, mapped, bounded⟩ := quiet.tables.births births
  refine ⟨after, ?_⟩
  constructor
  case mapped => exact mapped
  case refs =>
    apply all_threads (P := fun _ th =>
      References (fun tableid key node => after node = some (tableid, key)) th) (step_threads taken)
    · apply step_references ((births.refs t).mono fun _ _ _ => keeps _ _) taken
      · exact fun found => mapped found.mapped
      · exact fun before => keeps _ _ (births.mapped before)
    · exact fun u _ => (births.refs u).mono fun _ _ _ => keeps _ _
  case bounded => exact bounded
  case unused => exact unused
  case present =>
    rintro node ⟨tableid, key, here⟩
    show (middle.heap node).value ≠ .haveRemoved
    rw [(quiet.record node).value]
    rcases quiet.tables.origin here with before | ⟨_, rfl, _, _⟩
    · exact births.present ⟨tableid, key, before⟩
    · simp [births.unused _ (le_refl _)]
  case pools =>
    apply all_threads (P := fun _ th => Pools (Spare middle.main middle.nextNode) th)
      (step_threads taken)
    · apply step_pools ((births.pools t).mono spare) taken
      · rintro ws pc written _ rfl
        exact absurd rfl other
      · intro obj pc removed
        have born := (births.refs t).current obj (by rw [pc]; rfl)
        exact spare _ ⟨fun record => births.present record removed, births.bounded born⟩
    · exact fun u _ => (births.pools u).mono spare
  case plain =>
    apply all_threads (P := fun _ th => th.pc.inTx = true → ∀ kv ∈ th.writeset, Plain kv)
      (step_threads taken)
    · exact step_plain (births.plain t) taken
    · exact fun u _ => births.plain u

end Births

variable {cfg : Config} {s final : State} {records : List (TableId × Key × Ptr)}
  {acts : List (ThreadId × Act)}

theorem step_births {next : State} {t : ThreadId} {act : Act}
    {birth : NodeId → Option (TableId × Key)} (births : Births s birth)
    (taken : step cfg s (t, act) = some next) : ∃ after, Births next after := by
  obtain ⟨_, middle, own, outcome, rfl⟩ := step_cases taken
  by_cases collects : own.pc = .endCollect
  · obtain ⟨ws, pc, _, written, rfl, rfl⟩ := step_collects outcome collects
    exact ⟨birth, births.commit pc written outcome⟩
  rcases step_outcome births.unused outcome with
    quiet | ⟨ws, _, _, _, rfl, rfl⟩ | ⟨obj, ref, node, pc, _, mapped, rfl, rfl⟩
  · exact births.quiet quiet outcome collects
  · exact absurd rfl collects
  · exact ⟨birth, births.remove pc mapped outcome⟩

theorem Layout.births (layout : Layout s) : ∃ birth, Births s birth := by
  classical
  let birth : NodeId → Option (TableId × Key) := fun node =>
    if record : s.main node then some (record.choose, record.choose_spec.choose) else none
  have mapped : ∀ {tableid key node}, s.table tableid key = some node →
      birth node = some (tableid, key) := by
    intro tableid key node here
    have record : s.main node := ⟨tableid, key, here⟩
    obtain ⟨first, second⟩ :=
      layout.shared.injective record.choose_spec.choose_spec here
    simp only [birth, dif_pos record]
    exact congrArg some (Prod.ext first second)
  refine ⟨birth, ?_⟩
  constructor
  case mapped => exact mapped
  case refs => exact fun u => (layout.tidy u).toReferences.mono fun _ _ _ => mapped
  case bounded =>
    intro node entry born
    by_cases record : s.main node
    · exact layout.shared.main_lt record
    · simp [birth, record] at born
  case unused => exact layout.shared.unused
  case present => exact layout.shared.present
  case pools => exact fun u => (layout.tidy u).toPools
  case plain => exact fun u => (layout.tidy u).plain

theorem run_outside (reached : run (step cfg) (loaded records) acts = some final)
    {u : ThreadId} (outside : cfg.thrs ≤ u) : final.threads u = {} := by
  have every : Each (step cfg) (fun _ _ => True) (loaded records) acts :=
    each_of_forall fun _ _ => trivial
  have preserved : ∀ (s : State) (act : ThreadId × Act) (next : State),
      s.threads u = {} → True → step cfg s act = some next → next.threads u = {} := by
    intro s act next idle _ taken
    obtain ⟨inRange, middle, own, outcome, rfl⟩ := step_cases taken
    rw [finished_other (step_threads outcome) (Nat.ne_of_gt (lt_of_lt_of_le inRange outside))]
    exact idle
  exact run_preserves preserved (loaded_threads records u) every reached

end EunoDb.Machine
