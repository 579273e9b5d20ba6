import EunoDb.Threshold

/-! What a running transaction points to is neither freed nor reused. -/

namespace EunoDb.Machine

open Memstore TxSets History Execution

def Safe (s : State) (th : Thread) (object : Ptr) : Prop :=
  th.began < s.valueRetired object ∨
    (∃ node, s.main node ∧ (s.heap node).value = .pointer object) ∨ object ∈ heldValues th

structure Recycling (cfg : Config) (base : Entry → Value) (s : State) : Prop where
  versions : Versions cfg base s
  homes : ∃ home, Homes s home
  graced : ∀ u, Graced s (s.threads u).pc (s.threads u).valuesPool s.valueRetired
  linked : ∀ node, s.nodeRetired node ≠ 0 → Spare s.main s.nextNode node
  moved : ∀ node, s.nodeRecycled node ≠ 0 → Spare s.main s.nextNode node
  paired : ∀ node object, (s.heap node).value = .pointer object →
    s.nodeRetired node ≤ s.valueRetired object
  recycled : ∀ u, (s.threads u).pc.active = true → ∀ node,
    (s.threads u).began < s.nodeRetired node → s.nodeRecycled node ≤ s.nodeRetired node
  reads : ∀ u, (s.threads u).pc.active = true → ∀ object time,
    (object, time) ∈ (s.threads u).reads →
      Safe s (s.threads u) object ∧ s.valueRecycled object < time

/-! ### What steps do to the history -/

inductive Gets (s : State) (th : Thread) (object : Ptr) : Prop where
  | own {tableid : TableId} {key : Key} (pc : th.pc = .body)
      (found : WriteSet.lookup th.writeset tableid key = some (.pointer object))
  | record {tableid : TableId} {key : Key} {node : NodeId}
      (pc : th.pc = .getRead tableid key node) (holds : (s.heap node).value = .pointer object)
  | version {tableid : TableId} {key : Key} {node : Option NodeId}
      (pc : th.pc = .roScan tableid key node)
      (found : scanMemNode s.heap th.oldsnapshot (s.snapshot + 1) node = some (some object))

variable {cfg : Config} {s middle : State} {t : ThreadId} {th own : Thread} {object : Ptr}
  {ws : WriteState}

theorem step_reads (taken : Step cfg s t th middle own) :
    own.reads = [] ∨ own.began = th.began ∧ (own.reads = th.reads ∨
      ∃ object, own.reads = th.reads ++ [(object, s.clock)] ∧ Gets s th object) := by
  cases taken with
  | begin pc | roBegin pc => exact Or.inl rfl
  | @getOwn tableid key val pc own =>
    refine Or.inr ⟨rfl, ?_⟩
    cases val with
    | pointer object => exact Or.inr ⟨object, rfl, .own pc own⟩
    | logicalDelete | haveRemoved => exact Or.inl rfl
  | @getRead tableid key node pc =>
    refine Or.inr ⟨rfl, ?_⟩
    cases holds : (s.heap node).value with
    | pointer object => exact Or.inr ⟨object, rfl, .record pc holds⟩
    | logicalDelete | haveRemoved => exact Or.inl rfl
  | @roScan tableid key node result pc scanned =>
    refine Or.inr ⟨rfl, ?_⟩
    cases result with
    | some object => exact Or.inr ⟨object, rfl, .version pc scanned⟩
    | none => exact Or.inl rfl
  | addCheck pc present chosen =>
    obtain ⟨_, rfl⟩ := payloadValue_own chosen
    exact Or.inr ⟨rfl, Or.inl rfl⟩
  | endCollect pc =>
    obtain ⟨_, _, _, fields⟩ := collect_fields s.heap th.writeset th
    unfold collectOldVersions
    rw [fields]
    exact Or.inr ⟨rfl, Or.inl rfl⟩
  | _ => exact Or.inr ⟨rfl, Or.inl rfl⟩

theorem mem_of_recycles {pools : TableId → ObjPool} {object : Nat}
    (moved : recycles cfg pools object = true) : ∃ tableid, object ∈ (pools tableid).retired := by
  obtain ⟨tableid, _, mem⟩ := List.any_eq_true.mp moved
  exact ⟨tableid, of_decide_eq_true mem⟩

theorem step_valueRecycled (taken : Step cfg s t th middle own) (object : Ptr) :
    middle.valueRecycled object = s.valueRecycled object ∨
      (∃ tableid, object ∈ (th.valuesPool tableid).freelist) ∨
      ∃ tableid waited, object ∈ (th.valuesPool tableid).retired ∧ th.pc = .gcWait waited ∧
        waitOver cfg s waited = true := by
  cases taken with
  | gcMove pc past =>
    by_cases moved : recycles cfg th.valuesPool object = true
    · obtain ⟨tableid, mem⟩ := mem_of_recycles moved
      exact Or.inr (Or.inr ⟨tableid, _, mem, pc, past⟩)
    · exact Or.inl (if_neg moved)
  | @addCheck tableid key payload node val middle own pc present chosen =>
    cases payload with
    | given given | deleted =>
      cases chosen
      exact Or.inl rfl
    | copied =>
      simp only [payloadValue] at chosen
      split at chosen
      · rename_i reused pool popped
        cases chosen
        by_cases same : object = reused
        · subst same
          refine Or.inr (Or.inl ⟨tableid, ?_⟩)
          rw [(ObjPool.getFreeObj_some popped).1]
          exact List.mem_cons_self
        · exact Or.inl (Function.update_of_ne same _ _)
      · cases chosen
        exact Or.inl rfl
  | getFind pc found | addInsert pc buffers found | addInsertCopied pc found =>
    cases found <;> exact Or.inl rfl
  | _ => exact Or.inl rfl

theorem step_nodeRecycled (taken : Step cfg s t th middle own) (other : own.pc ≠ .endCollect)
    (node : NodeId) :
    middle.nodeRecycled node = s.nodeRecycled node ∨
      ∃ tableid waited, node ∈ (th.memnodesPool tableid).retired ∧ th.pc = .gcWait waited ∧
        waitOver cfg s waited = true := by
  cases taken with
  | commit pc valid written => exact absurd rfl other
  | gcMove pc past =>
    by_cases moved : recycles cfg th.memnodesPool node = true
    · obtain ⟨tableid, mem⟩ := mem_of_recycles moved
      exact Or.inr ⟨tableid, _, mem, pc, past⟩
    · exact Or.inl (if_neg moved)
  | @addCheck tableid key payload node val middle own pc present chosen =>
    cases payload with
    | given given | deleted =>
      cases chosen
      exact Or.inl rfl
    | copied =>
      simp only [payloadValue] at chosen
      split at chosen <;> · cases chosen; exact Or.inl rfl
  | getFind pc found | addInsert pc buffers found | addInsertCopied pc found =>
    cases found <;> exact Or.inl rfl
  | _ => exact Or.inl rfl

theorem mem_heldValues (mem : object ∈ heldValues th) (writeset : own.writeset = th.writeset)
    (pc : own.pc.holdsWrites = th.pc.holdsWrites) :
    object ∈ heldValues own :=
  heldValues_same writeset pc ▸ mem

theorem step_heldValues (taken : Step cfg s t th middle own) (other : own.pc ≠ .endCollect)
    (active : own.pc.active = true) (mem : object ∈ heldValues th) :
    object ∈ heldValues own := by
  cases taken with
  | commit pc valid written => exact absurd rfl other
  | begin pc | roBegin pc | endCollect pc =>
    rw [heldValues_outside (by rw [pc]; rfl)] at mem
    cases mem
  | abort pc | endAbort pc => cases active
  | iterValue pc cursor => exact mem
  | addCheck pc present chosen =>
    obtain ⟨_, rfl⟩ := payloadValue_own chosen
    rw [heldValues, if_pos (by rw [pc]; rfl)] at mem
    simp only [heldValues, Pc.holdsWrites, Pc.inTx, if_true, entryValues, List.flatMap_append]
    exact List.mem_append_left _ mem
  | getOwn pc own | getAbsent pc invalid | getRead pc =>
    exact mem_heldValues mem rfl (by simp [finishGet, pc, Pc.holdsWrites, Pc.inTx])
  | _ => exact mem_heldValues mem rfl (by simp_all [Pc.holdsWrites, Pc.inTx])

/-! ### Commits -/

theorem retires_iff {heap : Heap} {kvs : List WSKV} :
    (kvs.any fun kv => retires heap kv object) = true ↔
      ∃ tableid, object ∈ collectedValues heap kvs tableid := by
  have entry : ∀ kv : WSKV, retires heap kv object = true ↔
      object ∈ pointers kv.val ++ kv.dummy.toList.flatMap fun dummy => pointers (heap dummy).value := by
    intro kv
    cases linked : kv.dummy <;> simp [retires, linked, mem_pointers]
  simp only [List.any_eq_true, collectedValues, List.mem_flatMap]
  constructor
  · rintro ⟨kv, mem, retired⟩
    exact ⟨kv.tableid, kv, mem, by rw [if_pos rfl]; exact (entry kv).mp retired⟩
  · rintro ⟨tableid, kv, mem, retired⟩
    split at retired
    · exact ⟨kv, mem, (entry kv).mpr retired⟩
    · cases retired

theorem committed_valueRetired
    (kept : ∀ tableid, object ∉ collectedValues ws.heap ws.written tableid) :
    (committed s t th ws).valueRetired object = s.valueRetired object :=
  if_neg fun retired => not_exists.mpr kept (retires_iff.mp retired)

theorem collected_valueRetired {tableid : TableId}
    (retired : object ∈ collectedValues ws.heap ws.written tableid) :
    (committed s t th ws).valueRetired object = s.clock :=
  if_pos (retires_iff.mpr ⟨tableid, retired⟩)

def Tracked (s : State) (object : Ptr) (rest : List WSKV) (ws : WriteState) : Prop :=
  object ∈ entryValues rest ∨
    (∃ node, s.main node ∧ (ws.heap node).value = .pointer object) ∨
    ∃ tableid, object ∈ collectedValues ws.heap ws.written tableid

variable {home : Ptr → Option Place}

theorem Tracked.entry {rest : List WSKV} {after : WriteState} {kv : WSKV}
    (tracked : Tracked s object (kv :: rest) ws) (moving : Moving s t home (kv :: rest) ws)
    (written : writeEntry s.snapshot ws kv = .ok after) : Tracked s object rest after := by
  have pending := moving.entries kv List.mem_cons_self
  have main : s.main kv.node := ⟨kv.tableid, kv.key, pending.mapped⟩
  have effect := writeEntry_effect moving.separate (moving.separate.bounded _ main) pending.plain written
  have collected := writeEntry_collected moving pending written
  rcases tracked with mem | ⟨node, record, holds⟩ | ⟨tableid, mem⟩
  · rcases List.mem_append.mp mem with here | later
    · exact Or.inr (Or.inl ⟨kv.node, main, by rw [effect.value, mem_pointers.mp here]⟩)
    · exact Or.inl later
  · by_cases same : node = kv.node
    · subst same
      refine Or.inr (Or.inr ⟨kv.tableid, ?_⟩)
      rw [collected, if_pos rfl]
      exact List.mem_append_right _ (mem_pointers.mpr holds)
    · exact Or.inr (Or.inl ⟨node, record, by rw [effect.others node record same, holds]⟩)
  · refine Or.inr (Or.inr ⟨tableid, ?_⟩)
    rw [collected]
    exact List.mem_append_left _ mem

theorem commit_tracked (homes : Homes s home) (layout : Layout s) (pools : NodePools cfg s)
    (pc : (s.threads t).pc = .body)
    (written : write s.snapshot (writeState s (s.threads t)) (s.threads t).writeset = .ok ws)
    (before : object ∈ heldValues (s.threads t) ∨
      ∃ node, s.main node ∧ (s.heap node).value = .pointer object) :
    (∃ node, s.main node ∧ (ws.heap node).value = .pointer object) ∨
      ∃ tableid, object ∈ collectedValues ws.heap ws.written tableid := by
  have start : Tracked s object (s.threads t).writeset (writeState s (s.threads t)) := by
    rcases before with mem | current
    · rw [heldValues, if_pos (by rw [pc]; rfl)] at mem
      exact Or.inl mem
    · exact Or.inr (Or.inl current)
  have done := write_rule
    (P := fun rest state => (∃ home, Moving s t home rest state) ∧ Tracked s object rest state)
    (fun kv _ state _ holds entry => by
      obtain ⟨⟨home, moving⟩, tracked⟩ := holds
      exact ⟨⟨rehome home t kv (state.heap kv.node).value, moving.entry entry⟩,
        tracked.entry moving entry⟩)
    ⟨⟨home, moving_start homes layout pools pc⟩, start⟩ written
  exact done.2.resolve_left (by simp [entryValues])

/-! ### Safe objects -/

section SafeObjects

variable {cfg : Config} {base : Entry → Value} {s middle : State} {t u : ThreadId} {own : Thread}
  {object : Ptr}

variable {tableid : TableId}

theorem Safe.pooled {home : Ptr → Option Place} (safe : Safe s (s.threads u) object)
    (homes : Homes s home) (mem : object ∈ valueHolding s.heap (s.threads t) tableid) :
    (s.threads u).began < s.valueRetired object := by
  have place := homes.pooled t tableid object mem
  rcases safe with retired | ⟨node, main, holds⟩ | held
  · exact retired
  · simp [homes.current main holds] at place
  · simp [homes.held u object held] at place

variable {heap : Heap} {ws : WriteState}

theorem mem_valueHolding {th : Thread} (mem : object ∈ (th.valuesPool tableid).freelist ∨
      object ∈ (th.valuesPool tableid).retired) : object ∈ valueHolding heap th tableid :=
  List.mem_append_left _ (List.mem_append.mpr mem)

section

variable (safe : Safe s (s.threads u) object) (recycling : Recycling cfg base s)

include safe recycling

theorem Safe.not_free (active : (s.threads u).pc.active = true) (t : ThreadId) (tableid : TableId) :
    object ∉ ((s.threads t).valuesPool tableid).freelist := by
  intro mem
  obtain ⟨home, homes⟩ := recycling.homes
  have retired := safe.pooled homes (mem_valueHolding (Or.inl mem))
  exact absurd ((recycling.graced t).free tableid object mem u active) (not_le.mpr retired)

theorem Safe.not_recycled (active : (s.threads u).pc.active = true)
    (taken : Step cfg s t (s.threads t) middle own) :
    middle.valueRecycled object = s.valueRecycled object := by
  rcases step_valueRecycled taken object with
    same | ⟨tableid, free⟩ | ⟨tableid, waited, retired, waits, past⟩
  · exact same
  · exact absurd free (safe.not_free recycling active t tableid)
  · obtain ⟨home, homes⟩ := recycling.homes
    have later := safe.pooled homes (mem_valueHolding (Or.inr retired))
    have old := (recycling.graced t).over recycling.versions.pools.clocks waits past retired
    exact absurd (old u active) (not_le.mpr later)

theorem Safe.step {after : Thread} (admitted : ¬ removes s t)
    (taken : Step cfg s t (s.threads t) middle own) (began : after.began = (s.threads u).began)
    (held : object ∈ heldValues (s.threads u) →
      object ∈ heldValues after ∨ u = t ∧ own.pc = .endCollect) :
    Safe (finished s middle t own) after object := by
  have clocks := recycling.versions.pools.clocks
  have layout := recycling.versions.serial.layout
  -- a commit leaves the object in a record or retires it now
  have commits : own.pc = .endCollect → (object ∈ heldValues (s.threads t) ∨
      ∃ node, s.main node ∧ (s.heap node).value = .pointer object) →
      Safe (finished s middle t own) after object := by
    intro collects before
    obtain ⟨ws, pc, _, written, rfl, rfl⟩ := step_collects taken collects
    obtain ⟨home, homes⟩ := recycling.homes
    rcases commit_tracked homes layout recycling.versions.pools pc written before with
      current | ⟨tableid, retired⟩
    · exact Or.inr (Or.inl current)
    · left
      show after.began < (committed s t (s.threads t) ws).valueRetired object
      rw [collected_valueRetired retired, began]
      exact clocks.began u
  rcases safe with retired | ⟨node, main, holds⟩ | mem
  · left
    show after.began < middle.valueRetired object
    rw [began]
    rcases (step_stamps taken).valueRetired object with same | now
    · rwa [same]
    · exact now ▸ clocks.began u
  · by_cases collects : own.pc = .endCollect
    · exact commits collects (Or.inr ⟨node, main, holds⟩)
    · rcases step_quiet layout.shared.unused admitted taken with quiet | ⟨ws, _, _, _, rfl, rfl⟩
      · exact Or.inr (Or.inl ⟨node, quiet.grows.main main, (quiet.record node).value.trans holds⟩)
      · exact absurd rfl collects
  · rcases held mem with kept | ⟨rfl, collects⟩
    · exact Or.inr (Or.inr kept)
    · exact commits collects (Or.inl mem)

end

theorem Gets.safe (gets : Gets s (s.threads t) object) (recycling : Recycling cfg base s) :
    Safe s (s.threads t) object := by
  have layout := recycling.versions.serial.layout
  cases gets with
  | own pc found =>
    rw [lookup_eq_latest] at found
    obtain ⟨kv, mem, entry⟩ := List.mem_map.mp (latest_mem found)
    right; right
    rw [heldValues, if_pos (by rw [pc]; rfl)]
    exact List.mem_flatMap.mpr ⟨kv, mem, mem_pointers.mpr (Prod.mk.inj entry).2⟩
  | @record tableid key node pc holds =>
    have mapped := (layout.tidy t).target tableid key node (by rw [pc]; rfl)
    exact Or.inr (Or.inl ⟨node, ⟨tableid, key, mapped⟩, holds⟩)
  | @version tableid key node pc found =>
    have reader := recycling.versions.readers t (by rw [pc]; rfl)
    cases node with
    | none => cases found
    | some node =>
      have mapped : s.table tableid key = some node := reader.scans pc
      obtain ⟨path, stop, visits, kept, _⟩ := reader.sees mapped
      have bounded := (recycling.versions.chained mapped).bounded
      rw [scan_of_walk visits (by omega)] at found
      cases stop with
      | none => cases found
      | some version =>
        have holds : (s.heap version).value = .pointer object := by
          cases value : (s.heap version).value <;>
            simp_all [stopValue, visible]
        -- the scan stopped at the record or at a version behind it
        rcases visits.found_cases with ⟨_, _, same⟩ | ⟨_, behind⟩
        · cases same
          exact Or.inr (Or.inl ⟨node, ⟨tableid, key, mapped⟩, holds⟩)
        · left
          exact lt_of_lt_of_le (kept version (behind version rfl)).2
            (recycling.paired version object holds)

/-! ### Steps keep the invariant -/

theorem step_gracedValues (recycling : Recycling cfg base s)
    (taken : Step cfg s t (s.threads t) middle own) (u : ThreadId) :
    Graced (finished s middle t own) ((finished s middle t own).threads u).pc
      ((finished s middle t own).threads u).valuesPool middle.valueRetired := by
  have clocks := recycling.versions.pools.clocks
  have layout := recycling.versions.serial.layout
  -- a commit retires no object that is already with a pool
  have kept : ∀ v tableid object, object ∈ ((s.threads v).valuesPool tableid).freelist ∨
      object ∈ ((s.threads v).valuesPool tableid).retired →
      middle.valueRetired object = s.valueRetired object := by
    intro v tableid object mem
    by_cases collects : own.pc = .endCollect
    · obtain ⟨ws, pc, _, written, rfl, rfl⟩ := step_collects taken collects
      obtain ⟨home, homes⟩ := recycling.homes
      obtain ⟨after, _, moving⟩ := commit_homes homes layout recycling.versions.pools pc written
      apply committed_valueRetired
      intro owner retired
      have here := moving.pooled owner object (List.mem_append_right _ retired)
      by_cases self : v = t
      · subst self
        have there := moving.pooled tableid object
          (List.mem_append_left _ (List.mem_append.mpr mem))
        have same : owner = tableid := by simpa [here] using there
        subst same
        exact (List.nodup_append.mp (moving.pooledOnce owner)).2.2 object
          (List.mem_append.mpr mem) object retired rfl
      · have there := moving.pooledOthers v self tableid object (mem_valueHolding mem)
        simp [here] at there
        exact self there.1.symm
    · exact congrFun (step_retired taken collects).2 object
  apply all_threads (P := fun _ th =>
    Graced (finished s middle t own) th.pc th.valuesPool middle.valueRetired) (step_threads taken)
  · apply (recycling.graced t).own clocks clocks.valueRetired (step_valuesPool taken) _ _ taken
    · intro tableid object mem
      rcases (step_valuesPool taken).free tableid object mem with before | ⟨before, _⟩
      · exact kept t tableid object (Or.inl before)
      · exact kept t tableid object (Or.inr before)
    · intro waited waits
      exact (step_retired taken (by simp [waits])).2
  · intro v _
    exact (recycling.graced v).others clocks.valueRetired (kept v) taken

theorem mem_collectedValues_of_linked {kvs : List WSKV} {node : NodeId}
    (linked : node ∈ collectedNodes kvs tableid) (holds : (heap node).value = .pointer object) :
    object ∈ collectedValues heap kvs tableid := by
  obtain ⟨kv, mem, dummy⟩ := List.mem_filterMap.mp linked
  split at dummy
  · rename_i owner
    refine List.mem_flatMap.mpr ⟨kv, mem, ?_⟩
    rw [if_pos owner, dummy]
    exact List.mem_append_right _ (by simp [mem_pointers, holds])
  · cases dummy

section

variable (recycling : Recycling cfg base s)

include recycling

theorem commit_linked (pc : (s.threads t).pc = .body)
    (written : write s.snapshot (writeState s (s.threads t)) (s.threads t).writeset = .ok ws)
    (node : NodeId) (retired : (committed s t (s.threads t) ws).nodeRetired node ≠ 0) :
    Spare s.main ws.nextNode node := by
  have layout := recycling.versions.serial.layout
  have effect := commit_effect layout.shared (layout.tidy t) pc written
  by_cases linked : ∃ tableid, node ∈ collectedNodes ws.written tableid
  · obtain ⟨kv, mem, dummy⟩ := List.any_eq_true.mp (linked_iff.mpr linked)
    exact effect.separate.dummies kv mem node (of_decide_eq_true dummy)
  · rw [committed_nodeRetired (not_exists.mp linked)] at retired
    exact ⟨(recycling.linked node retired).1,
      lt_of_lt_of_le (recycling.linked node retired).2 effect.grows⟩

theorem commit_paired (pc : (s.threads t).pc = .body)
    (written : write s.snapshot (writeState s (s.threads t)) (s.threads t).writeset = .ok ws)
    (taken : Step cfg s t (s.threads t) (committed s t (s.threads t) ws) (ended (s.threads t) ws))
    (node : NodeId) (object : Ptr) (holds : (ws.heap node).value = .pointer object) :
    (committed s t (s.threads t) ws).nodeRetired node ≤
      (committed s t (s.threads t) ws).valueRetired object := by
  have layout := recycling.versions.serial.layout
  have clocks := recycling.versions.pools.clocks
  have stamps := step_stamps taken
  by_cases linked : ∃ tableid, node ∈ collectedNodes ws.written tableid
  · obtain ⟨tableid, mem⟩ := linked
    rw [collected_valueRetired (mem_collectedValues_of_linked mem holds)]
    rcases stamps.nodeRetired node with same | now
    · exact same ▸ le_of_lt (clocks.nodeRetired node)
    · exact le_of_eq now
  by_cases zero : (committed s t (s.threads t) ws).nodeRetired node = 0
  · exact zero ▸ Nat.zero_le _
  -- the node is an old version that this commit does not touch
  have spare := commit_linked recycling pc written node zero
  have entries := (layout.tidy t).entries (by rw [pc]; rfl)
  have same := write_others ((layout.tidy t).separate layout.shared)
    (fun kv mem => ⟨kv.tableid, kv.key, (entries kv mem).mapped⟩)
    (fun kv mem => (entries kv mem).plain) written spare.1 (not_exists.mp linked)
  rw [committed_nodeRetired (not_exists.mp linked)]
  have before := recycling.paired node object (by rw [same] at holds; exact holds)
  rcases stamps.valueRetired object with kept | now
  · rwa [kept]
  · exact now ▸ le_of_lt (clocks.nodeRetired node)

theorem step_retirement (admitted : ¬ removes s t) (taken : Step cfg s t (s.threads t) middle own) :
    (∀ node, middle.nodeRetired node ≠ 0 → Spare middle.main middle.nextNode node) ∧
      ∀ node object, (middle.heap node).value = .pointer object →
        middle.nodeRetired node ≤ middle.valueRetired object := by
  have layout := recycling.versions.serial.layout
  by_cases collects : own.pc = .endCollect
  · obtain ⟨ws, pc, _, written, rfl, rfl⟩ := step_collects taken collects
    exact ⟨commit_linked recycling pc written, commit_paired recycling pc written taken⟩
  rcases step_quiet layout.shared.unused admitted taken with quiet | ⟨ws, _, _, _, rfl, rfl⟩
  · obtain ⟨nodeRetired, valueRetired⟩ := step_retired taken collects
    rw [nodeRetired, valueRetired]
    constructor
    · exact fun node retired => quiet.grows.spare (recycling.linked node retired)
    · exact fun node object holds =>
        recycling.paired node object ((quiet.record node).value.symm.trans holds)
  · exact absurd rfl collects

theorem step_moved (admitted : ¬ removes s t) (taken : Step cfg s t (s.threads t) middle own)
    (node : NodeId) (recycled : middle.nodeRecycled node ≠ 0) :
    Spare middle.main middle.nextNode node := by
  have layout := recycling.versions.serial.layout
  have grows := step_grows layout admitted taken
  by_cases collects : own.pc = .endCollect
  · obtain ⟨ws, pc, _, written, rfl, rfl⟩ := step_collects taken collects
    by_cases linked : (ws.written.any fun kv => decide (kv.dummy = some node)) = true
    · apply commit_linked recycling pc written node
      rw [show (committed s t (s.threads t) ws).nodeRetired node = s.clock from if_pos linked]
      exact Nat.ne_of_gt (Nat.zero_lt_of_lt (recycling.versions.pools.clocks.began t))
    · rw [show (committed s t (s.threads t) ws).nodeRecycled node = s.nodeRecycled node from
        if_neg fun both => linked (Bool.and_eq_true_iff.mp both).1] at recycled
      exact grows.spare (recycling.moved node recycled)
  · rcases step_nodeRecycled taken collects node with same | ⟨tableid, _, mem, _⟩
    · exact grows.spare (recycling.moved node (same ▸ recycled))
    · exact grows.spare ((layout.tidy t).pooled tableid node (Or.inr mem))

theorem step_unrecycled (taken : Step cfg s t (s.threads t) middle own)
    (active : (s.threads u).pc.active = true) (node : NodeId)
    (retired : (s.threads u).began < middle.nodeRetired node) :
    middle.nodeRecycled node ≤ middle.nodeRetired node := by
  have clocks := recycling.versions.pools.clocks
  by_cases collects : own.pc = .endCollect
  · obtain ⟨ws, pc, _, written, rfl, rfl⟩ := step_collects taken collects
    by_cases linked : (ws.written.any fun kv => decide (kv.dummy = some node)) = true
    · have now : (committed s t (s.threads t) ws).nodeRetired node = s.clock := if_pos linked
      rw [now]
      rcases (step_stamps taken).nodeRecycled node with same | reused
      · exact same ▸ le_of_lt (clocks.nodeRecycled node)
      · exact le_of_eq reused
    have sameRetired : (committed s t (s.threads t) ws).nodeRetired node = s.nodeRetired node :=
      if_neg linked
    have sameRecycled :
        (committed s t (s.threads t) ws).nodeRecycled node = s.nodeRecycled node :=
      if_neg fun both => linked (Bool.and_eq_true_iff.mp both).1
    rw [sameRetired] at retired ⊢
    rw [sameRecycled]
    exact recycling.recycled u active node retired
  · rw [(step_retired taken collects).1] at retired ⊢
    rcases step_nodeRecycled taken collects node with same | ⟨tableid, waited, mem, waits, past⟩
    · exact same ▸ recycling.recycled u active node retired
    · have old := (recycling.versions.pools.graced t).over clocks waits past mem
      exact absurd (old u active) (not_le.mpr retired)

theorem step_safeReads (admitted : ¬ removes s t) (taken : Step cfg s t (s.threads t) middle own)
    (u : ThreadId) :
    ((finished s middle t own).threads u).pc.active = true → ∀ object time,
      (object, time) ∈ ((finished s middle t own).threads u).reads →
        Safe (finished s middle t own) ((finished s middle t own).threads u) object ∧
          middle.valueRecycled object < time := by
  have clocks := recycling.versions.pools.clocks
  apply all_threads (P := fun _ th => th.pc.active = true → ∀ object time,
    (object, time) ∈ th.reads →
      Safe (finished s middle t own) th object ∧ middle.valueRecycled object < time)
    (step_threads taken)
  · intro active object time mem
    rcases step_reads taken with none | ⟨began, reads⟩
    · simp [none] at mem
    have before : (s.threads t).pc.active = true := by
      rcases step_active taken active with ⟨same, _⟩ | now
      · exact same
      · exact absurd (began.symm.trans now) (ne_of_lt (clocks.began t))
    have held : object ∈ heldValues (s.threads t) →
        object ∈ heldValues own ∨ t = t ∧ own.pc = .endCollect := by
      intro held
      by_cases collects : own.pc = .endCollect
      · exact Or.inr ⟨rfl, collects⟩
      · exact Or.inl (step_heldValues taken collects active held)
    -- old pointers were safe before; a new one is safe where the step found it
    have earlier : Safe s (s.threads t) object ∧ s.valueRecycled object < time := by
      rcases reads with same | ⟨new, appended, gets⟩
      · exact recycling.reads t before object time (same ▸ mem)
      rw [appended] at mem
      rcases List.mem_append.mp mem with old | here
      · exact recycling.reads t before object time old
      · obtain ⟨rfl, rfl⟩ : object = new ∧ time = s.clock := by simpa using here
        exact ⟨gets.safe recycling, clocks.valueRecycled object⟩
    rw [earlier.1.not_recycled recycling before taken]
    exact ⟨earlier.1.step recycling admitted taken began held, earlier.2⟩
  · intro v _ active object time mem
    obtain ⟨safe, recent⟩ := recycling.reads v active object time mem
    rw [safe.not_recycled recycling active taken]
    exact ⟨safe.step recycling admitted taken rfl Or.inl, recent⟩

end

end SafeObjects

variable {s : State}

variable {cfg : Config} {base : Entry → Value} {t : ThreadId} {heap : Heap} {oldsnapshot fuel : Nat}
  {node : NodeId} {path : List NodeId} {found : Option NodeId}

theorem step_recycling {next : State} {act : Act} (recycling : Recycling cfg base s)
    (admitted : ¬ removes s t) (gives : givesNew s t) (taken : step cfg s (t, act) = some next) :
    Recycling cfg base next := by
  have versions := step_versions recycling.versions admitted taken
  obtain ⟨_, middle, own, outcome, rfl⟩ := step_cases taken
  obtain ⟨home, homes⟩ := recycling.homes
  obtain ⟨linked, paired⟩ := step_retirement recycling admitted outcome
  have moved := step_moved recycling admitted outcome
  refine
    { versions := versions
      homes := step_homes homes recycling.versions.serial.layout recycling.versions.pools admitted
        gives outcome
      graced := step_gracedValues recycling outcome
      linked := linked
      moved := moved
      paired := paired
      recycled := ?_
      reads := step_safeReads recycling admitted outcome }
  apply all_threads (P := fun _ th => th.pc.active = true → ∀ node,
    th.began < middle.nodeRetired node → middle.nodeRecycled node ≤ middle.nodeRetired node)
    (step_threads outcome)
  · intro active node retired
    rcases step_active outcome active with ⟨before, began, _⟩ | now
    · exact step_unrecycled recycling outcome before node (began ▸ retired)
    -- nothing is retired after the present
    have clocks := recycling.versions.pools.clocks
    rcases (step_stamps outcome).nodeRetired node with same | present
    · have := clocks.nodeRetired node
      omega
    · omega
  · exact fun u _ active node retired => step_unrecycled recycling outcome active node retired

theorem loaded_recycling (cfg : Config) (records : List (TableId × Key × Ptr))
    (distinct : (records.map fun record => record.2.2).Nodup) :
    Recycling cfg (loaded records).contents (loaded records) := by
  obtain ⟨_, _, _, _, _, _, fields⟩ := loaded_fields records
  have idle := loaded_threads records
  refine
    { versions := loaded_versions cfg records
      homes := loaded_homes records distinct
      graced := ?_
      linked := by simp [fields]
      moved := by simp [fields]
      paired := by simp [fields]
      recycled := by simp [fields]
      reads := by simp [idle] }
  intro u
  rw [idle]
  constructor
  · simp
  · rintro waited ⟨⟩

/-! ### Main result -/

def loopVisits (heap : Heap) (oldsnapshot : Nat) : Nat → Option NodeId → List NodeId
  | _, none => []
  | 0, some _ => []
  | fuel + 1, some node =>
    node :: if oldsnapshot < (heap node).counter then
      loopVisits heap oldsnapshot fuel (heap node).oldVersions
    else []

def scanVisits (heap : Heap) (oldsnapshot fuel : Nat) : Option NodeId → List NodeId
  | none => []
  | some node =>
    node :: if (heap node).counter ≤ oldsnapshot then []
    else loopVisits heap oldsnapshot fuel (heap node).oldVersions

theorem loopVisits_of_walk (visits : walk heap oldsnapshot node path found)
    (enough : path.length < fuel) :
    loopVisits heap oldsnapshot fuel (some node) = node :: path := by
  induction visits generalizing fuel with
  | stop low =>
    obtain ⟨fuel, rfl⟩ := Nat.exists_eq_succ_of_ne_zero (Nat.ne_of_gt enough)
    simp [loopVisits, not_lt.mpr low]
  | last high ends =>
    obtain ⟨fuel, rfl⟩ := Nat.exists_eq_succ_of_ne_zero (Nat.ne_of_gt enough)
    simp [loopVisits, high, ends]
  | hop high link falls rest ih =>
    obtain ⟨fuel, rfl⟩ := Nat.exists_eq_succ_of_ne_zero (Nat.ne_of_gt (Nat.zero_lt_of_lt enough))
    simp only [loopVisits, high, if_true, link]
    rw [ih (by simpa using enough)]

theorem scanVisits_of_walk (visits : walk heap oldsnapshot node path found)
    (enough : (heap node).counter ≤ fuel) :
    scanVisits heap oldsnapshot fuel (some node) = node :: path := by
  have short := le_trans visits.length_le enough
  cases visits with
  | stop low => simp [scanVisits, low]
  | last high ends => simp [scanVisits, Nat.not_le.mpr high, ends, loopVisits]
  | hop high link falls rest =>
    simp only [scanVisits, Nat.not_le.mpr high, if_false, link,
      loopVisits_of_walk rest (Nat.lt_of_succ_le short)]

theorem Recycling.scanVisits {tableid : TableId} {key : Key} {node : Option NodeId}
    {version : NodeId} (recycling : Recycling cfg base s)
    (pc : (s.threads t).pc = .roScan tableid key node)
    (visited : version ∈ scanVisits s.heap (s.threads t).oldsnapshot (s.snapshot + 1) node) :
    s.table tableid key = some version ∨ Kept s (s.threads t) version := by
  have reader := recycling.versions.readers t (by rw [pc]; rfl)
  cases node with
  | none => cases visited
  | some node =>
    have mapped : s.table tableid key = some node := reader.scans pc
    obtain ⟨path, stop, visits, kept, _⟩ := reader.sees mapped
    have bounded := (recycling.versions.chained mapped).bounded
    rw [scanVisits_of_walk visits (by omega)] at visited
    rcases List.mem_cons.mp visited with rfl | behind
    · exact Or.inl mapped
    · exact Or.inr (kept version behind)

/-- In every run without physical removals in which callers hand over objects
that the store does not hold: a pointer that a running transaction got is on no
free list and has not been moved to one or reused since the `Get` returned it;
and a node that a running scan visits is on no free list and is either the record
itself, never recycled, or a version that was linked after the transaction began
and has not been moved or reused since it was linked. -/
theorem recycling_safe (cfg : Config) (records : List (TableId × Key × Ptr))
    (acts : List (ThreadId × Act)) (final : State)
    (distinct : (records.map fun record => record.2.2).Nodup)
    (admitted : Execution.Each (step cfg) (fun s act => ¬ removes s act.1 ∧ givesNew s act.1)
      (loaded records) acts)
    (reached : Execution.run (step cfg) (loaded records) acts = some final) (t : ThreadId)
    (active : (final.threads t).pc.active = true) :
    (∀ object time, (object, time) ∈ (final.threads t).reads →
      (∀ u tableid, object ∉ ((final.threads u).valuesPool tableid).freelist) ∧
        final.valueRecycled object < time) ∧
    ∀ tableid key node, (final.threads t).pc = .roScan tableid key node →
      ∀ version ∈ scanVisits final.heap (final.threads t).oldsnapshot (final.snapshot + 1) node,
        (∀ u tableid, version ∉ ((final.threads u).memnodesPool tableid).freelist) ∧
          (final.table tableid key = some version ∧ final.nodeRecycled version = 0 ∨
            (final.threads t).began < final.nodeRetired version ∧
              final.nodeRecycled version ≤ final.nodeRetired version) := by
  have recycling : Recycling cfg (loaded records).contents final :=
    Execution.run_preserves
      (fun _ _ _ before allowed taken => step_recycling before allowed.1 allowed.2 taken)
      (loaded_recycling cfg records distinct) admitted reached
  have layout := recycling.versions.serial.layout
  constructor
  · intro object time member
    obtain ⟨safe, recent⟩ := recycling.reads t active object time member
    exact ⟨safe.not_free recycling active, recent⟩
  · intro tableid key node pc version visited
    rcases recycling.scanVisits pc visited with mapped | ⟨spare, retired⟩
    · have main : final.main version := ⟨tableid, key, mapped⟩
      constructor
      · intro u owner member
        exact ((layout.tidy u).pooled owner version (Or.inl member)).1 main
      · left
        refine ⟨mapped, ?_⟩
        by_contra recycled
        exact (recycling.moved version recycled).1 main
    · constructor
      · intro u owner member
        have old := (recycling.versions.pools.graced u).free owner version member
        exact absurd (old t active) (not_le.mpr retired)
      · exact Or.inr ⟨retired, recycling.recycled t active version retired⟩

structure Reused (s : State) (object : Ptr) : Prop where
  pc : (s.threads 1).pc = .body
  writeset : (s.threads 1).writeset = []
  table : s.table 0 7 = some 0
  value : (s.heap 0).value = .pointer object
  later : (s.threads 1).began < s.valueRecycled object

theorem collected_reuses {start : State} (ready : Overwritable start)
    (collected : Collected start s) :
    ∃ next, checkedRun (step shipped) Unremoved s
        ((1, .call .begin) :: overwriting.take 6) = some next ∧ ∃ object, Reused next object := by
  obtain ⟨replaced, value⟩ := collected.value
  have idle : (s.threads 1).pc = .idle := by rw [collected.others 1 (by decide), ready.other]
  have started : s.snapshot ≠ 0 := collected.snapshot ▸ ready.started
  have table : s.table 0 7 = some 0 := collected.table ▸ ready.table
  obtain ⟨object, pool, popped⟩ := collected.popped
  simp [overwriting, shipped, Unremoved, removes, givesNew, checkedRun, step,
    perform, call, tick, collected.pc, idle, Op.inBounds, State.setThread, collected.buffer,
    getWithInsert, table, value, payloadValue, popped, endSection, endValid,
    ReadSet.validate, WriteSet.checkWriteSet, noConflict, write, writeEntry, stampCounter,
    collected.counter, started, registerDelete, Except.map, writeInPlace, writeState,
    recordCommit, bind, Except.bind, pure, Except.pure]
  refine ⟨object, ?_⟩
  constructor <;> simp [table]
  omega

theorem reused_read {object : Ptr} (reused : Reused s object) :
    ∃ next, checkedRun (step shipped) Unremoved s
        [(1, .call (.get 0 7 0)), (1, .tick), (1, .tick), (1, .tick), (1, .tick)] = some next ∧
      (next.threads 1).pc = .body ∧ ∃ object time, (object, time) ∈ (next.threads 1).reads ∧
        (next.threads 1).began < next.valueRecycled object := by
  simp [shipped, Unremoved, removes, givesNew, checkedRun, step, perform, call, tick,
    reused.pc, reused.writeset, Op.inBounds, State.setThread, getWithInsert, reused.table,
    reused.value, setBuffer, WriteSet.lookup, validateValue, finishGet, returned, visible]
  exact ⟨object, ⟨_, Or.inr ⟨rfl, rfl⟩⟩, reused.later⟩

theorem insertion_overwritable : ∃ s,
    checkedRun (step shipped) Unremoved (loaded []) insertion = some s ∧
      Overwritable s ∧ (s.threads 0).gcnum = 0 :=
  ⟨_, rfl, ⟨rfl, by decide, by decide, rfl, rfl, ⟨_, rfl⟩, rfl, by decide, rfl⟩, rfl⟩

theorem reused_reachable : ∃ acts final,
    Each (step shipped) (fun s act => ¬ removes s act.1 ∧ givesNew s act.1) (loaded []) acts ∧
      run (step shipped) (loaded []) acts = some final ∧ (final.threads 1).pc.active = true ∧
      ∃ object time, (object, time) ∈ (final.threads 1).reads ∧
        (final.threads 1).began < final.valueRecycled object := by
  obtain ⟨s, inserted, ready, gcnum⟩ := insertion_overwritable
  obtain ⟨acts, full, filled, collected⟩ := collection_reachable ready (by omega)
  obtain ⟨written, wrote, object, reused⟩ := collected_reuses ready collected
  obtain ⟨final, read, pc, result⟩ := reused_read reused
  obtain ⟨ran, each⟩ := checkedRun_iff.mp
    (show checkedRun (step shipped) Unremoved (loaded [])
        (insertion ++ (acts ++ (((1, .call .begin) :: overwriting.take 6) ++
          [(1, .call (.get 0 7 0)), (1, .tick), (1, .tick), (1, .tick), (1, .tick)]))) =
        some final by
      rw [checkedRun_append inserted, checkedRun_append filled, checkedRun_append wrote, read])
  exact ⟨_, final, each, ran, by rw [pc]; rfl, result⟩

/-- A scan over versions, and a `Get` of an object that came out of a free list after a collection
of 100000 objects. -/
theorem recycling_safe_versionedUpdate : (∃ final,
    run (step shipped) (loaded []) versionedUpdate = some final ∧
      (final.threads 1).pc = .roScan 0 7 (some 0) ∧
      scanVisits final.heap (final.threads 1).oldsnapshot (final.snapshot + 1) (some 0) = [0, 1] ∧
      ∀ version ∈
        scanVisits final.heap (final.threads 1).oldsnapshot (final.snapshot + 1) (some 0),
        (∀ u tableid, version ∉ ((final.threads u).memnodesPool tableid).freelist) ∧
          (final.table 0 7 = some version ∧ final.nodeRecycled version = 0 ∨
            (final.threads 1).began < final.nodeRetired version ∧
              final.nodeRecycled version ≤ final.nodeRetired version)) ∧
    ∃ acts final object time, run (step shipped) (loaded []) acts = some final ∧
      (object, time) ∈ (final.threads 1).reads ∧
      (final.threads 1).began < final.valueRecycled object ∧
      (∀ u tableid, object ∉ ((final.threads u).valuesPool tableid).freelist) ∧
      final.valueRecycled object < time := by
  refine ⟨⟨_, rfl, rfl, rfl,
    (recycling_safe shipped [] versionedUpdate _ List.nodup_nil (by decide +kernel) rfl 1 rfl).2
      0 7 (some 0) rfl⟩, ?_⟩
  obtain ⟨acts, final, admitted, reached, active, object, time, read, recycled⟩ := reused_reachable
  exact ⟨acts, final, object, time, reached, read, recycled,
    (recycling_safe shipped [] acts final List.nodup_nil admitted reached 1 active).1 object time read⟩

/-- One object is handed to two keys; the first is overwritten, and the threshold is one object. -/
def givenTwice : List (ThreadId × Act) :=
  let call (t : ThreadId) (op : Op) (ticks : Nat) : List (ThreadId × Act) :=
    (t, .call op) :: List.replicate ticks (t, .tick)
  call 0 .begin 0 ++ call 0 (.add 0 7 (.given 20)) 3 ++ call 0 (.add 0 8 (.given 20)) 3 ++
    call 0 .finish 4 ++ call 0 .begin 0 ++ call 0 (.add 0 7 .copied) 3 ++ call 0 .finish 5 ++
    call 1 .begin 0 ++ call 1 (.get 0 8 0) 4

/-- An object may be reused after a transaction began and before the transaction
reads it: then it was a free object while the transaction was already running. And an object that
a caller hands to two keys is read while it is on a free list. -/
theorem reused_since_begin : (∃ acts final,
    Each (step shipped) (fun s act => ¬ removes s act.1 ∧ givesNew s act.1) (loaded []) acts ∧
      run (step shipped) (loaded []) acts = some final ∧ (final.threads 1).pc.active = true ∧
      ∃ object time, (object, time) ∈ (final.threads 1).reads ∧
        (final.threads 1).began < final.valueRecycled object) ∧
    ∃ final, Each (step ⟨2, 1, 1, 100⟩) (fun s act => ¬ removes s act.1) (loaded []) givenTwice ∧
      run (step ⟨2, 1, 1, 100⟩) (loaded []) givenTwice = some final ∧
      (final.threads 1).pc.active = true ∧
      ∃ object time, (object, time) ∈ (final.threads 1).reads ∧
        object ∈ ((final.threads 0).valuesPool 0).freelist :=
  ⟨reused_reachable, _, by decide +kernel, rfl, rfl, 20, 31, by decide +kernel, by decide +kernel⟩

end EunoDb.Machine
