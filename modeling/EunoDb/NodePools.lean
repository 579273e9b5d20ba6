import EunoDb.Grace

/-! A version node is in one place of one thread's pool. -/

namespace EunoDb.Machine

open Memstore TxSets Function

def Thread.collecting (th : Thread) : List WSKV :=
  match th.pc with
  | .endCollect => th.writeset
  | _ => []

def holding (th : Thread) (tableid : TableId) : List NodeId :=
  (th.memnodesPool tableid).freelist ++ (th.memnodesPool tableid).retired ++
    collectedNodes th.collecting tableid

def wsHolding (ws : WriteState) (tableid : TableId) : List NodeId :=
  (ws.memnodesPool tableid).freelist ++ (ws.memnodesPool tableid).retired ++
    collectedNodes ws.written tableid

structure Distinct (lists : TableId → List NodeId) (bound : NodeId) : Prop where
  nodup : ∀ tableid, (lists tableid).Nodup
  apart : ∀ {first second node}, node ∈ lists first → node ∈ lists second → first = second
  below : ∀ {tableid node}, node ∈ lists tableid → node < bound

variable {lists after before : TableId → List NodeId} {bound low : NodeId}

theorem Distinct.perm {high : NodeId} (distinct : Distinct lists bound) (above : bound ≤ high)
    (same : ∀ tableid, (after tableid).Perm (lists tableid)) : Distinct after high where
  nodup := fun tableid => (same tableid).nodup_iff.mpr (distinct.nodup tableid)
  apart := fun first second =>
    distinct.apart ((same _).mem_iff.mp first) ((same _).mem_iff.mp second)
  below := fun mem => lt_of_lt_of_le (distinct.below ((same _).mem_iff.mp mem)) above

theorem Distinct.insert {owner : TableId} (distinct : Distinct lists bound)
    (here : (after owner).Perm (bound :: lists owner))
    (others : ∀ tableid, tableid ≠ owner → after tableid = lists tableid) :
    Distinct after (bound + 1) := by
  have origin : ∀ {tableid node}, node ∈ after tableid →
      node ∈ lists tableid ∨ tableid = owner ∧ node = bound := by
    intro tableid node mem
    by_cases same : tableid = owner
    · subst tableid
      rcases List.mem_cons.mp (here.mem_iff.mp mem) with rfl | earlier
      · exact Or.inr ⟨rfl, rfl⟩
      · exact Or.inl earlier
    · exact Or.inl (others tableid same ▸ mem)
  constructor
  · intro tableid
    by_cases same : tableid = owner
    · subst tableid
      rw [here.nodup_iff, List.nodup_cons]
      exact ⟨fun mem => absurd (distinct.below mem) (Nat.lt_irrefl _), distinct.nodup _⟩
    · rw [others tableid same]
      exact distinct.nodup tableid
  · intro first second node inFirst inSecond
    rcases origin inFirst with old | ⟨rfl, rfl⟩ <;> rcases origin inSecond with old' | ⟨rfl, new⟩
    · exact distinct.apart old old'
    · exact absurd (distinct.below (new ▸ old)) (Nat.lt_irrefl _)
    · exact absurd (distinct.below old') (Nat.lt_irrefl _)
    · rfl
  · intro tableid node mem
    rcases origin mem with old | ⟨_, rfl⟩
    · exact Nat.lt_succ_of_lt (distinct.below old)
    · exact Nat.lt_succ_self _

theorem collectedNodes_concat (kvs : List WSKV) (kv : WSKV) (tableid : TableId) :
    collectedNodes (kvs ++ [kv]) tableid =
      collectedNodes kvs tableid ++ collectedNodes [kv] tableid := by
  simp [collectedNodes, List.filterMap_append]

variable {gcounter : Nat} {ws after : WriteState} {kv : WSKV} {main : NodeId → Prop}
  {kvs : List WSKV} {node : NodeId} {th own : Thread} {cfg : Config} {s middle : State}
  {t : ThreadId}

theorem writeEntry_holding (plain : kv.dummy = none)
    (written : writeEntry gcounter ws kv = .ok after) :
    (∀ tableid, (wsHolding after tableid).Perm (wsHolding ws tableid)) ∧
        after.nextNode = ws.nextNode ∨
      (wsHolding after kv.tableid).Perm (ws.nextNode :: wsHolding ws kv.tableid) ∧
        (∀ tableid, tableid ≠ kv.tableid → wsHolding after tableid = wsHolding ws tableid) ∧
        after.nextNode = ws.nextNode + 1 := by
  obtain ⟨queue, _, ⟨_, rfl⟩ | ⟨_, _, rfl⟩⟩ := writeEntry_cases written
  · left
    refine ⟨fun tableid => ?_, rfl⟩
    simp only [wsHolding, writeInPlace, collectedNodes_concat]
    simp [collectedNodes, plain]
  cases taken : getMemNode ws kv.tableid with
  | mk dummy middle =>
    obtain ⟨retired, source⟩ := getMemNode_pools taken
    have entries : middle.written = ws.written := by
      unfold getMemNode at taken
      split at taken <;> · cases taken; rfl
    have new : ∀ tableid, wsHolding (writeNewVersion ws kv gcounter queue) tableid =
        (middle.memnodesPool tableid).freelist ++ (ws.memnodesPool tableid).retired ++
          (collectedNodes ws.written tableid ++
            if kv.tableid = tableid then [dummy] else []) := by
      intro tableid
      simp only [wsHolding, writeNewVersion, taken, collectedNodes_concat, retired, entries]
      by_cases same : kv.tableid = tableid <;> simp [collectedNodes, same]
    have elsewhere : ∀ tableid, tableid ≠ kv.tableid →
        middle.memnodesPool tableid = ws.memnodesPool tableid →
        wsHolding (writeNewVersion ws kv gcounter queue) tableid = wsHolding ws tableid := by
      intro tableid different same
      rw [new, same]
      simp [wsHolding, Ne.symm different]
    have grown : ∀ free : List NodeId, (free ++ (ws.memnodesPool kv.tableid).retired ++
        (collectedNodes ws.written kv.tableid ++ [dummy])).Perm
          (dummy :: (free ++ (ws.memnodesPool kv.tableid).retired ++
            collectedNodes ws.written kv.tableid)) := by
      intro free
      rw [← List.append_assoc]
      exact List.perm_append_singleton dummy _
    have counter : (writeNewVersion ws kv gcounter queue).nextNode = middle.nextNode := by
      simp [writeNewVersion, taken]
    rcases source with ⟨popped, others, bound⟩ | ⟨same, rfl, bound⟩
    · left
      refine ⟨fun tableid => ?_, counter.trans bound⟩
      by_cases here : tableid = kv.tableid
      · subst here
        rw [new, if_pos rfl]
        refine (grown _).trans ?_
        rw [wsHolding, popped]
        exact List.Perm.refl _
      · rw [elsewhere tableid here (others tableid here)]
    · right
      refine ⟨?_, fun tableid different => elsewhere tableid different (by rw [same]),
        counter.trans bound⟩
      rw [new, if_pos rfl, same]
      exact grown _

/-! The two completing branches of `Write`, as seen by a reader of the chains. -/

structure InPlace (gcounter : Nat) (ws : WriteState) (kv : WSKV) (after : WriteState) : Prop where
  stamped : (ws.heap kv.node).counter = 0 ∨ (ws.heap kv.node).counter = gcounter
  value : (after.heap kv.node).value = kv.val
  counter : (after.heap kv.node).counter = gcounter
  oldVersions : (after.heap kv.node).oldVersions = (ws.heap kv.node).oldVersions
  others : ∀ node, node ≠ kv.node → after.heap node = ws.heap node
  written : after.written = ws.written ++
    [{ kv with
       val := (ws.heap kv.node).value, commitval := kv.val,
       commitseq := (ws.heap kv.node).seq + 1 }]
  nextNode : after.nextNode = ws.nextNode

structure Pushed (gcounter : Nat) (ws : WriteState) (kv : WSKV) (dummy : NodeId)
    (after : WriteState) : Prop where
  written : after.written = ws.written ++
    [{ kv with
       val := .logicalDelete, commitval := kv.val, commitseq := (ws.heap kv.node).seq + 1,
       dummy := some dummy }]
  stamped : (ws.heap kv.node).counter ≠ 0
  older : (ws.heap kv.node).counter < gcounter
  value : (after.heap kv.node).value = kv.val
  counter : (after.heap kv.node).counter = gcounter
  link : (after.heap kv.node).oldVersions = some dummy
  copy : SameRecord (ws.heap kv.node) (after.heap dummy)
  others : ∀ node, node ≠ kv.node → node ≠ dummy → after.heap node = ws.heap node
  source : dummy ∈ (ws.memnodesPool kv.tableid).freelist ∨ dummy = ws.nextNode
  nextNode : ws.nextNode ≤ after.nextNode
  below : dummy < after.nextNode

theorem writeEntry_versions (separate : Separate main ws) (record : main kv.node)
    (written : writeEntry gcounter ws kv = .ok after) :
    InPlace gcounter ws kv after ∨ ∃ dummy, ¬ main dummy ∧ Pushed gcounter ws kv dummy after := by
  obtain ⟨queue, _, ⟨stamped, rfl⟩ | ⟨stamped, older, rfl⟩⟩ := writeEntry_cases written
  · left
    exact
      { stamped := stamped
        value := by simp [writeInPlace]
        counter := by simp [writeInPlace]
        oldVersions := by simp [writeInPlace]
        others := fun node different => by simp [writeInPlace, different]
        written := rfl
        nextNode := rfl }
  right
  cases taken : getMemNode ws kv.tableid with
  | mk dummy middle =>
    have allocated := getMemNode_allocated separate taken
    have different : kv.node ≠ dummy := fun same => allocated.spare.1 (same ▸ record)
    refine ⟨dummy, allocated.spare.1, ?_⟩
    simp only [writeNewVersion, taken, allocated.heap]
    exact
      { written := by simp [allocated.written, different]
        stamped := stamped
        older := older
        value := by simp
        counter := by simp
        link := by simp
        copy := by constructor <;> simp [different, Ne.symm different]
        others := fun node first second => by simp [first, second]
        source := by
          rcases (getMemNode_pools taken).2 with ⟨popped, _, _⟩ | ⟨_, new, _⟩
          · exact Or.inl (by rw [popped]; exact List.mem_cons_self)
          · exact Or.inr new
        nextNode := allocated.grows
        below := allocated.spare.2 }

theorem write_others (separate : Separate main ws) (records : ∀ kv ∈ kvs, main kv.node)
    (plain : ∀ kv ∈ kvs, kv.dummy = none) (written : write gcounter ws kvs = .ok after)
    (spare : ¬ main node) (unlinked : ∀ tableid, node ∉ collectedNodes after.written tableid) :
    after.heap node = ws.heap node := by
  have result := write_rule
    (P := fun rest state => Separate main state ∧ (∀ kv ∈ rest, main kv.node ∧ kv.dummy = none) ∧
      ((∀ tableid, node ∉ collectedNodes state.written tableid) →
        state.heap node = ws.heap node))
    (by
      rintro kv rest state later ⟨apart, entries, kept⟩ entry
      obtain ⟨record, isPlain⟩ := entries kv List.mem_cons_self
      have different : node ≠ kv.node := fun same => spare (same ▸ record)
      refine ⟨(writeEntry_effect apart (apart.bounded _ record) isPlain entry).separate,
        fun other mem => entries other (List.mem_cons_of_mem kv mem), ?_⟩
      intro untouched
      rcases writeEntry_versions apart record entry with place | ⟨dummy, _, place⟩
      · rw [place.others node different]
        apply kept
        intro tableid mem
        apply untouched tableid
        rw [place.written, collectedNodes_concat]
        exact List.mem_append_left _ mem
      have other : node ≠ dummy := by
        rintro rfl
        apply untouched kv.tableid
        rw [place.written, collectedNodes_concat]
        exact List.mem_append_right _ (by simp [collectedNodes])
      rw [place.others node different other]
      apply kept
      intro tableid mem
      apply untouched tableid
      rw [place.written, collectedNodes_concat]
      exact List.mem_append_left _ mem)
    ⟨separate, fun kv mem => ⟨records kv mem, plain kv mem⟩, fun _ => rfl⟩ written
  exact result.2.2 unlinked

theorem write_linked (separate : Separate main ws) (records : ∀ kv ∈ kvs, main kv.node)
    (plain : ∀ kv ∈ kvs, kv.dummy = none) (start : ws.written = [])
    (written : write gcounter ws kvs = .ok after) (mem : kv ∈ after.written)
    (linked : kv.dummy = some node) :
    (∃ tableid, node ∈ (ws.memnodesPool tableid).freelist) ∨ ws.nextNode ≤ node := by
  have result := write_rule
    (P := fun rest state => Separate main state ∧ (∀ kv ∈ rest, main kv.node ∧ kv.dummy = none) ∧
      (∀ tableid, ∀ node ∈ (state.memnodesPool tableid).freelist,
        node ∈ (ws.memnodesPool tableid).freelist) ∧ ws.nextNode ≤ state.nextNode ∧
      ∀ kv ∈ state.written, ∀ node, kv.dummy = some node →
        (∃ tableid, node ∈ (ws.memnodesPool tableid).freelist) ∨ ws.nextNode ≤ node)
    (by
      rintro kv rest state later ⟨apart, entries, frees, grows, sources⟩ entry
      obtain ⟨record, isPlain⟩ := entries kv List.mem_cons_self
      have effect := writeEntry_effect apart (apart.bounded _ record) isPlain entry
      refine ⟨effect.separate, fun other mem => entries other (List.mem_cons_of_mem kv mem),
        fun tableid node mem => frees tableid node (writeEntry_freelist entry tableid mem),
        le_trans grows effect.grows, ?_⟩
      intro other mem node linked
      rcases writeEntry_versions apart record entry with place | ⟨dummy, _, place⟩
      · rw [place.written, List.mem_append, List.mem_singleton] at mem
        rcases mem with before | rfl
        · exact sources other before node linked
        · exact absurd (isPlain.symm.trans linked) (by simp)
      rw [place.written, List.mem_append, List.mem_singleton] at mem
      rcases mem with before | rfl
      · exact sources other before node linked
      · cases linked
        rcases place.source with free | new
        · exact Or.inl ⟨kv.tableid, frees _ _ free⟩
        · exact Or.inr (new ▸ grows))
    ⟨separate, fun kv mem => ⟨records kv mem, plain kv mem⟩, fun _ _ => id, le_refl _,
      by simp [start]⟩ written
  exact result.2.2.2.2 kv mem node linked

structure HoldingEffect (before : TableId → List NodeId) (low : NodeId) (after : WriteState) :
    Prop where
  distinct : Distinct (wsHolding after) after.nextNode
  origin : ∀ {tableid node}, node ∈ wsHolding after tableid →
    node ∈ before tableid ∨ low ≤ node
  grows : low ≤ after.nextNode

theorem HoldingEffect.entry (effect : HoldingEffect before low ws) (plain : kv.dummy = none)
    (written : writeEntry gcounter ws kv = .ok after) : HoldingEffect before low after := by
  rcases writeEntry_holding plain written with ⟨same, bound⟩ | ⟨here, others, bound⟩
  · exact
      { distinct := effect.distinct.perm (le_of_eq bound.symm) same
        origin := fun mem => effect.origin ((same _).mem_iff.mp mem)
        grows := bound ▸ effect.grows }
  refine
    { distinct := bound ▸ effect.distinct.insert here others
      origin := ?_
      grows := bound ▸ Nat.le_succ_of_le effect.grows }
  intro tableid node mem
  by_cases same : tableid = kv.tableid
  · subst same
    rcases List.mem_cons.mp (here.mem_iff.mp mem) with rfl | earlier
    · exact Or.inr effect.grows
    · exact effect.origin earlier
  · exact effect.origin (others tableid same ▸ mem)

theorem HoldingEffect.unlinked {dummy : NodeId} (effect : HoldingEffect before low ws)
    (place : Pushed gcounter ws kv dummy after) (tableid : TableId) :
    dummy ∉ collectedNodes ws.written tableid := by
  intro collected
  have linked : dummy ∈ wsHolding ws tableid := List.mem_append_right _ collected
  rcases place.source with free | new
  · have inFree : dummy ∈ wsHolding ws kv.tableid :=
      List.mem_append_left _ (List.mem_append_left _ free)
    have same := effect.distinct.apart inFree linked
    subst tableid
    have nodup := effect.distinct.nodup kv.tableid
    rw [wsHolding, List.append_assoc] at nodup
    exact (List.nodup_append.mp nodup).2.2 dummy free dummy (List.mem_append_right _ collected) rfl
  · exact absurd (effect.distinct.below linked) (new ▸ Nat.lt_irrefl _)

theorem write_holding (distinct : Distinct (wsHolding ws) ws.nextNode)
    (plain : ∀ kv ∈ kvs, kv.dummy = none) (written : write gcounter ws kvs = .ok after) :
    HoldingEffect (wsHolding ws) ws.nextNode after := by
  have result := write_rule
    (P := fun rest state => HoldingEffect (wsHolding ws) ws.nextNode state ∧
      ∀ kv ∈ rest, kv.dummy = none)
    (fun kv rest state later before entry =>
      ⟨before.1.entry (before.2 kv List.mem_cons_self) entry,
        fun other mem => before.2 other (List.mem_cons_of_mem kv mem)⟩)
    ⟨⟨distinct, Or.inl, le_refl _⟩, plain⟩ written
  exact result.1

theorem gcPool_perm (cfg : Config) (pools : TableId → ObjPool) (tableid : TableId) :
    ((gcPool cfg pools tableid).freelist ++ (gcPool cfg pools tableid).retired).Perm
      ((pools tableid).freelist ++ (pools tableid).retired) := by
  unfold gcPool
  split
  · rw [ObjPool.retired_gc, List.append_nil]
    exact (ObjPool.freelist_gc_perm _).trans List.perm_append_comm
  · exact List.Perm.refl _

theorem holding_same (pools : own.memnodesPool = th.memnodesPool) (before : th.pc ≠ .endCollect)
    (after : own.pc ≠ .endCollect) (tableid : TableId) :
    (holding own tableid).Perm (holding th tableid) := by
  have nothing : ∀ {th : Thread}, th.pc ≠ .endCollect → th.collecting = [] := by
    intro th pc
    unfold Thread.collecting
    split
    · exact absurd ‹_› pc
    · rfl
  rw [holding, holding, pools, nothing before, nothing after]

theorem step_holding (shared : Shared s) (tidy : Tidy s th) (taken : Step cfg s t th middle own)
    (other : own.pc ≠ .endCollect) (tableid : TableId) :
    (holding own tableid).Perm (holding th tableid) := by
  cases taken with
  | commit pc valid written => exact absurd rfl other
  | addCheck pc present chosen =>
    obtain ⟨_, rfl⟩ := payloadValue_own chosen
    exact holding_same (by rfl) (by simp [pc]) (by simp) tableid
  | endCollect pc =>
    have pools := collect_memnodesPool s.heap th.writeset th tableid
    obtain ⟨_, memnodesPool, _, fields⟩ := collect_fields s.heap th.writeset th
    unfold collectOldVersions
    rw [fields] at pools ⊢
    obtain ⟨free, retired⟩ := pools
    simp only at free retired
    simp only [holding, Thread.collecting, pc, free, collectedNodes, List.filterMap_nil,
      List.append_nil]
    rw [List.append_assoc]
    exact List.Perm.append_left _ (retired.trans List.perm_append_comm)
  | gcMove pc past =>
    simp only [holding, Thread.collecting, pc, gcPools]
    exact List.Perm.append_right _ (gcPool_perm cfg th.memnodesPool tableid)
  | rmHand pc removed =>
    have record : s.main _ := ⟨_, _, tidy.current _ (by rw [pc]; rfl)⟩
    exact absurd removed (shared.present record)
  | iterValue pc cursor => exact holding_same (by rfl) (by simp [pc]) (by simp [setBuffer, pc]) tableid
  | getOwn pc own | getAbsent pc invalid | getRead pc =>
    exact holding_same (by rfl) (by simp [pc]) (by simp [finishGet]) tableid
  | _ => exact holding_same (by rfl) (by simp_all) (by simp) tableid

structure NodePools (cfg : Config) (s : State) : Prop where
  clocks : Clocks cfg s
  distinct : ∀ u, Distinct (holding (s.threads u)) s.nextNode
  apart : ∀ {u v first second node}, node ∈ holding (s.threads u) first →
    node ∈ holding (s.threads v) second → u = v
  graced : ∀ u, Graced s (s.threads u).pc (s.threads u).memnodesPool s.nodeRetired

theorem step_retired (taken : Step cfg s t th middle own) (other : own.pc ≠ .endCollect) :
    middle.nodeRetired = s.nodeRetired ∧ middle.valueRetired = s.valueRetired := by
  cases taken with
  | commit pc valid written => exact absurd rfl other
  | getFind pc found | addInsert pc buffers found | addInsertCopied pc found =>
    cases found <;> exact ⟨rfl, rfl⟩
  | @addCheck tableid key payload node val middle own pc present chosen =>
    cases payload with
    | given object | deleted =>
      cases chosen
      exact ⟨rfl, rfl⟩
    | copied =>
      simp only [payloadValue] at chosen
      split at chosen <;> · cases chosen; exact ⟨rfl, rfl⟩
  | _ => exact ⟨rfl, rfl⟩

theorem step_nodePools_other (layout : Layout s) (admitted : ¬ removes s t)
    (pools : NodePools cfg s) (inRange : t < cfg.thrs)
    (taken : Step cfg s t (s.threads t) middle own) (other : own.pc ≠ .endCollect) :
    NodePools cfg (finished s middle t own) := by
  have threads := step_threads taken
  have grows := (step_grows layout admitted taken).nextNode
  have same := step_holding layout.shared (layout.tidy t) taken other
  have retired := (step_retired taken other).1
  have past := pools.clocks.nodeRetired
  have back : ∀ u tableid node, node ∈ holding ((finished s middle t own).threads u) tableid →
      node ∈ holding (s.threads u) tableid := by
    intro u tableid node
    apply all_threads (P := fun u th => node ∈ holding th tableid →
      node ∈ holding (s.threads u) tableid) threads
    · exact (same tableid).mem_iff.mp
    · exact fun _ _ mem => mem
  constructor
  · exact step_clocks pools.clocks inRange taken
  · apply all_threads (P := fun _ th => Distinct (holding th) middle.nextNode) threads
    · exact (pools.distinct t).perm grows same
    · exact fun u _ => (pools.distinct u).perm grows fun _ => List.Perm.refl _
  · exact fun first second => pools.apart (back _ _ _ first) (back _ _ _ second)
  apply all_threads (P := fun _ th =>
    Graced (finished s middle t own) th.pc th.memnodesPool middle.nodeRetired) threads
  · exact (pools.graced t).own pools.clocks past (step_memnodesPool taken)
      (fun _ _ _ => by rw [retired]) (fun _ _ => retired) taken
  · exact fun u _ => (pools.graced u).others past (fun _ _ _ => by rw [retired]) taken

theorem mem_holding_of_pool {tableid : TableId}
    (mem : node ∈ (th.memnodesPool tableid).freelist ∨
      node ∈ (th.memnodesPool tableid).retired) : node ∈ holding th tableid :=
  List.mem_append_left _ (List.mem_append.mpr mem)

theorem linked_iff :
    (kvs.any fun kv => decide (kv.dummy = some node)) = true ↔
      ∃ tableid, node ∈ collectedNodes kvs tableid := by
  simp only [List.any_eq_true, decide_eq_true_eq, collectedNodes, List.mem_filterMap]
  constructor
  · rintro ⟨kv, mem, linked⟩
    exact ⟨kv.tableid, kv, mem, by rw [if_pos rfl, linked]⟩
  · rintro ⟨tableid, kv, mem, linked⟩
    split at linked
    · exact ⟨kv, mem, linked⟩
    · cases linked

theorem committed_nodeRetired (unlinked : ∀ tableid, node ∉ collectedNodes ws.written tableid) :
    (committed s t th ws).nodeRetired node = s.nodeRetired node :=
  if_neg fun linked => not_exists.mpr unlinked (linked_iff.mp linked)

theorem commit_nodePools (layout : Layout s) (pools : NodePools cfg s) (inRange : t < cfg.thrs)
    (pc : (s.threads t).pc = .body)
    (written : write s.snapshot (writeState s (s.threads t)) (s.threads t).writeset = .ok ws)
    (taken : Step cfg s t (s.threads t) (committed s t (s.threads t) ws) (ended (s.threads t) ws)) :
    NodePools cfg (finished s (committed s t (s.threads t) ws) t (ended (s.threads t) ws)) := by
  have start : ∀ tableid,
      wsHolding (writeState s (s.threads t)) tableid = holding (s.threads t) tableid := by
    intro tableid
    simp [wsHolding, holding, writeState, Thread.collecting, pc]
  have finish : ∀ tableid, holding (ended (s.threads t) ws) tableid = wsHolding ws tableid :=
    fun _ => rfl
  have effect : HoldingEffect (wsHolding (writeState s (s.threads t))) s.nextNode ws :=
    write_holding ((pools.distinct t).perm (le_refl _) fun tableid => by rw [start])
      (fun kv mem => ((layout.tidy t).entries (by rw [pc]; rfl) kv mem).plain) written
  have past := pools.clocks.nodeRetired
  -- another thread's node is neither among this thread's old ones nor new
  have foreign : ∀ u, u ≠ t → ∀ {first second node}, node ∈ holding (s.threads u) first →
      node ∉ wsHolding ws second := by
    intro u different first second node theirs ours
    rcases effect.origin ours with old | new
    · rw [start] at old
      exact different (pools.apart theirs old)
    · exact absurd ((pools.distinct u).below theirs) (Nat.not_lt.mpr new)
  have linked : ∀ {tableid node}, node ∈ collectedNodes ws.written tableid →
      node ∈ wsHolding ws tableid := fun mem => List.mem_append_right _ mem
  constructor
  · exact step_clocks pools.clocks inRange taken
  · apply all_threads (P := fun _ th => Distinct (holding th) ws.nextNode) rfl
    · exact effect.distinct
    · exact fun u _ => (pools.distinct u).perm effect.grows fun _ => List.Perm.refl _
  · intro u v first second node inFirst inSecond
    by_cases atU : u = t <;> by_cases atV : v = t
    · rw [atU, atV]
    · subst u
      simp only [finished, State.setThread, update_self,
        update_of_ne atV] at inFirst inSecond
      exact absurd inFirst (foreign v atV inSecond)
    · subst v
      simp only [finished, State.setThread, update_self,
        update_of_ne atU] at inFirst inSecond
      exact absurd inSecond (foreign u atU inFirst)
    · simp only [finished, State.setThread, update_of_ne atU,
        update_of_ne atV] at inFirst inSecond
      exact pools.apart inFirst inSecond
  apply all_threads (P := fun _ th => Graced _ th.pc th.memnodesPool
    (committed s t (s.threads t) ws).nodeRetired) rfl
  · refine (pools.graced t).own pools.clocks past (step_memnodesPool taken) ?_ (by simp [ended])
      taken
    intro tableid node mem
    apply committed_nodeRetired
    intro other collected
    have free : node ∈ wsHolding ws tableid :=
      List.mem_append_left _ (List.mem_append_left _ mem)
    have same := effect.distinct.apart free (linked collected)
    subst other
    have nodup := effect.distinct.nodup tableid
    rw [wsHolding, List.append_assoc] at nodup
    exact (List.nodup_append.mp nodup).2.2 node mem node
      (List.mem_append_right _ collected) rfl
  · intro u different
    refine (pools.graced u).others past ?_ taken
    intro tableid node mem
    apply committed_nodeRetired
    exact fun other collected => foreign u different (mem_holding_of_pool mem)
      (linked collected)

theorem step_nodePools (layout : Layout s) (admitted : ¬ removes s t) (pools : NodePools cfg s)
    (inRange : t < cfg.thrs) (taken : Step cfg s t (s.threads t) middle own) :
    NodePools cfg (finished s middle t own) := by
  by_cases collects : own.pc = .endCollect
  · obtain ⟨ws, pc, valid, written, rfl, rfl⟩ := step_collects taken collects
    exact commit_nodePools layout pools inRange pc written taken
  · exact step_nodePools_other layout admitted pools inRange taken collects

theorem loaded_clocks (cfg : Config) (records : List (TableId × Key × Ptr)) :
    Clocks cfg (loaded records) := by
  obtain ⟨_, _, _, _, _, _, fields⟩ := loaded_fields records
  rw [fields]
  constructor <;> simp

theorem loaded_nodePools (cfg : Config) (records : List (TableId × Key × Ptr)) :
    NodePools cfg (loaded records) := by
  have empty : ∀ u tableid, holding ((loaded records).threads u) tableid = [] := by
    intro u tableid
    rw [loaded_threads]
    rfl
  constructor
  · exact loaded_clocks cfg records
  · intro u
    constructor <;> simp [empty]
  · simp [empty]
  · intro u
    rw [loaded_threads]
    constructor <;> simp

end EunoDb.Machine
