import EunoDb.NodePools
import EunoDb.Tombstones

/-! Pointers to removed records, when `GetMemNode` takes no node still pointed to. -/

namespace EunoDb.Machine

open Memstore TxSets

def reused (s : State) (t : ThreadId) : List NodeId :=
  match write s.snapshot (writeState s (s.threads t)) (s.threads t).writeset with
  | .ok ws => (ws.written.filterMap WSKV.dummy).filter fun node => decide (node < s.nextNode)
  | .error _ => []

def inBuffer (th : Thread) (node : NodeId) : Prop :=
  ∃ tableid, (th.buffer tableid).node = some node

def inRequest (th : Thread) (node : NodeId) : Prop :=
  (∃ obj ∈ th.rmlist, obj.node = node) ∨ ∃ obj, th.pc.current = some obj ∧ obj.node = node

def Current (s : State) (tableid : TableId) (key : Key) (node : NodeId) : Prop :=
  s.table tableid key = some node ∨ (s.heap node).value = .haveRemoved

def Dated (s : State) (obj : RMObj) : Prop :=
  obj.seq ≤ (s.heap obj.node).seq ∧
    ((s.heap obj.node).value = .haveRemoved → obj.seq < (s.heap obj.node).seq)

structure Guarded (cfg : Config) (s : State) : Prop where
  births : ∃ birth, Births s birth
  outside : ∀ u, cfg.thrs ≤ u → s.threads u = {}
  blank : ∀ u, (s.threads u).pc.inTx = true → (s.threads u).deleteset = []
  agrees : ∀ u, References (Current s) (s.threads u)
  dated : ∀ u, ∀ obj ∈ pendingRequests (s.threads u), Dated s obj
  free : ∀ u v tableid, TxReferences
    (fun _ _ node => node ∉ ((s.threads u).memnodesPool tableid).freelist) (s.threads v)
  waiting : ∀ u waited, (s.threads u).pc = .gcWait waited → ∀ v tableid, TxReferences
    (fun _ _ node => node ∈ ((s.threads u).memnodesPool tableid).retired →
      waited v = some (s.threads v).epoch) (s.threads v)

/-! ### Transactions hold no pooled node -/

variable {th : Thread}

variable {P : TableId → Key → NodeId → Prop}

theorem TxReferences.and {Q : TableId → Key → NodeId → Prop} (first : TxReferences P th)
    (second : TxReferences Q th) :
    TxReferences (fun tableid key node => P tableid key node ∧ Q tableid key node) th where
  written := fun inside kv mem =>
    ⟨first.written inside kv mem, second.written inside kv mem⟩
  deleted := fun holds element mem =>
    ⟨first.deleted holds element mem, second.deleted holds element mem⟩
  queue := fun element mem => ⟨first.queue element mem, second.queue element mem⟩
  cursor := fun inside tableid key node holds =>
    ⟨first.cursor inside tableid key node holds, second.cursor inside tableid key node holds⟩
  target := fun tableid key node holds =>
    ⟨first.target tableid key node holds, second.target tableid key node holds⟩

theorem TxReferences.all {ι : Type} {P : ι → TableId → Key → NodeId → Prop}
    (each : ∀ i, TxReferences (P i) th) :
    TxReferences (fun tableid key node => ∀ i, P i tableid key node) th where
  written := fun inside kv mem i => (each i).written inside kv mem
  deleted := fun holds element mem i => (each i).deleted holds element mem
  queue := fun element mem i => (each i).queue element mem
  cursor := fun inside tableid key node holds i => (each i).cursor inside tableid key node holds
  target := fun tableid key node holds i => (each i).target tableid key node holds

theorem txReferences_of_active (refs : th.pc.active = true → TxReferences P th) :
    TxReferences P th := by
  by_cases active : th.pc.active = true
  · exact refs active
  · apply txReferences_outside <;>
      cases pc : th.pc <;>
        simp_all [Pc.active, Pc.inTx, Pc.holdsDeletes, Pc.queue, Pc.target]

section Pointers

variable {cfg : Config} {s middle : State} {t u v : ThreadId} {own : Thread}
  {birth : NodeId → Option (TableId × Key)}

theorem step_epoch (taken : Step cfg s t (s.threads t) middle own) :
    own.epoch = (s.threads t).epoch ∨ ∀ P, TxReferences P own := by
  cases taken with
  | begin pc =>
    right
    intro P
    constructor <;> simp [Pc.queue, Pc.target]
  | roBegin pc => exact Or.inr fun P => txReferences_outside rfl rfl rfl rfl
  | addCheck pc present chosen =>
    obtain ⟨_, rfl⟩ := payloadValue_own chosen
    exact Or.inl rfl
  | endCollect pc =>
    obtain ⟨_, _, _, fields⟩ := collect_fields s.heap (s.threads t).writeset (s.threads t)
    unfold collectOldVersions
    rw [fields]
    exact Or.inl rfl
  | _ => exact Or.inl rfl

variable {P : TableId → Key → NodeId → Prop} {waited : ThreadId → Option Nat}

theorem Guarded.step_tx (guarded : Guarded cfg s) (refs : TxReferences P (s.threads t))
    (taken : Step cfg s t (s.threads t) middle own)
    (records : ∀ {tableid key node}, ¬ Spare s.main s.nextNode node → P tableid key node) :
    TxReferences P own := by
  obtain ⟨birth, births⟩ := guarded.births
  have mapped : ∀ {tableid key node}, s.table tableid key = some node → P tableid key node :=
    fun here => records fun spare => spare.1 ⟨_, _, here⟩
  apply step_txReferences refs taken
  · intro tableid key node found
    cases found with
    | present here => exact mapped here
    | inserted absent => exact records fun spare => absurd spare.2 (Nat.lt_irrefl _)
  · exact mapped
  · intro tableid node buffered present
    exact mapped (((guarded.agrees t).buffered tableid node buffered).resolve_right present)

theorem Guarded.active_lt (guarded : Guarded cfg s) (active : (s.threads v).pc.active = true) :
    v < cfg.thrs := by
  by_contra above
  rw [guarded.outside v (Nat.le_of_not_lt above)] at active
  cases active

theorem Guarded.wait_over (guarded : Guarded cfg s) (past : waitOver cfg s waited = true)
    (active : (s.threads v).pc.active = true) : waited v ≠ some (s.threads v).epoch := by
  intro running
  have ended := List.all_eq_true.mp past v (List.mem_range.mpr (guarded.active_lt active))
  simp [active, running] at ended

theorem step_gcWait (taken : Step cfg s t (s.threads t) middle own)
    (waits : (s.threads t).pc = .gcWait waited) : own.pc = .delayCheck := by
  cases taken <;> simp_all

theorem Guarded.free_step (guarded : Guarded cfg s)
    (taken : Step cfg s t (s.threads t) middle own) (u v : ThreadId) (tableid : TableId) :
    TxReferences (fun _ _ node =>
        node ∉ (((finished s middle t own).threads u).memnodesPool tableid).freelist)
      ((finished s middle t own).threads v) := by
  obtain ⟨birth, births⟩ := guarded.births
  have apart : ∀ w {node}, ¬ Spare s.main s.nextNode node →
      node ∉ ((s.threads w).memnodesPool tableid).freelist :=
    fun w _ record mem => record ((births.pools w).pooled tableid _ (Or.inl mem))
  by_cases collector : u = t
  · subst collector
    rw [finished_self]
    -- what the thread frees now waited for every transaction that could hold it
    have freed : ∀ {node}, node ∈ (own.memnodesPool tableid).freelist →
        node ∈ ((s.threads u).memnodesPool tableid).freelist ∨
          node ∈ ((s.threads u).memnodesPool tableid).retired ∧
            ∃ waited, (s.threads u).pc = .gcWait waited ∧ waitOver cfg s waited = true :=
      fun mem => (step_memnodesPool taken).free tableid _ mem
    by_cases self : v = u
    · subst self
      rw [finished_self]
      by_cases waits : ∃ waited, (s.threads v).pc = .gcWait waited
      · obtain ⟨waited, pc⟩ := waits
        have after := step_gcWait taken pc
        apply txReferences_outside <;> simp [after, Pc.inTx, Pc.holdsDeletes, Pc.queue, Pc.target]
      apply (guarded.step_tx (guarded.free v v tableid) taken (apart v)).mono
      intro _ _ node outside mem
      rcases freed mem with before | ⟨_, waited, pc, _⟩
      · exact outside before
      · exact waits ⟨waited, pc⟩
    · rw [finished_other (step_threads taken) self]
      apply txReferences_of_active
      intro active
      by_cases waits : ∃ waited, (s.threads u).pc = .gcWait waited ∧ waitOver cfg s waited = true
      · obtain ⟨waited, pc, past⟩ := waits
        have gone := guarded.wait_over past active
        apply ((guarded.free u v tableid).and (guarded.waiting u waited pc v tableid)).mono
        rintro _ _ node ⟨outside, waited⟩ mem
        rcases freed mem with before | ⟨retired, _⟩
        · exact outside before
        · exact gone (waited retired)
      · apply (guarded.free u v tableid).mono
        intro _ _ node outside mem
        rcases freed mem with before | ⟨_, waited, pc, past⟩
        · exact outside before
        · exact waits ⟨waited, pc, past⟩
  · rw [finished_other (step_threads taken) collector]
    by_cases self : v = t
    · subst self
      rw [finished_self]
      exact guarded.step_tx (guarded.free u v tableid) taken (apart u)
    · rw [finished_other (step_threads taken) self]
      exact guarded.free u v tableid

theorem Guarded.waiting_step (guarded : Guarded cfg s)
    (taken : Step cfg s t (s.threads t) middle own) (u : ThreadId)
    (waited : ThreadId → Option Nat)
    (waits : ((finished s middle t own).threads u).pc = .gcWait waited) (v : ThreadId)
    (tableid : TableId) :
    TxReferences (fun _ _ node =>
        node ∈ (((finished s middle t own).threads u).memnodesPool tableid).retired →
          waited v = some ((finished s middle t own).threads v).epoch)
      ((finished s middle t own).threads v) := by
  obtain ⟨birth, births⟩ := guarded.births
  by_cases collector : u = t
  · subst collector
    rw [finished_self] at waits ⊢
    obtain ⟨rfl, _⟩ := (step_memnodesPool taken).waiting waited waits
    by_cases self : v = u
    · subst self
      rw [finished_self]
      apply txReferences_outside <;> simp [waits, Pc.inTx, Pc.holdsDeletes, Pc.queue, Pc.target]
    rw [finished_other (step_threads taken) self]
    apply txReferences_of_active
    intro active
    -- the wait that starts now is for every running transaction
    have running : runningNow cfg s u v = some (s.threads v).epoch := by
      simp [runningNow, self, active, guarded.active_lt active]
    constructor <;> intros <;> exact running
  · rw [finished_other (step_threads taken) collector] at waits ⊢
    by_cases self : v = t
    · subst self
      rw [finished_self]
      rcases step_epoch taken with same | fresh
      · rw [same]
        apply guarded.step_tx (guarded.waiting u waited waits v tableid) taken
        intro _ _ node record retired
        exact absurd ((births.pools u).pooled tableid node (Or.inr retired)) record
      · exact fresh _
    · rw [finished_other (step_threads taken) self]
      exact guarded.waiting u waited waits v tableid

/-! ### Pointers across a step -/

structure Carries (s middle : State) : Prop where
  records : ∀ {tableid key node}, s.table tableid key = some node →
    Current middle tableid key node
  agrees : ∀ v, References (Current middle) (s.threads v)
  dated : ∀ v, ∀ obj ∈ pendingRequests (s.threads v), Dated middle obj
  grows : ∀ v, ∀ obj ∈ pendingRequests (s.threads v),
    (s.heap obj.node).seq ≤ (middle.heap obj.node).seq

variable {th : Thread} {obj : RMObj} {node : NodeId} {ws : WriteState}

theorem pending_reference (refs : References P th) (mem : obj ∈ pendingRequests th) :
    P obj.tableid obj.key obj.node := by
  rcases List.mem_append.mp mem with moving | pooled
  · split at moving
    · rename_i pc
      obtain ⟨element, inSet, rfl⟩ := List.mem_map.mp moving
      exact refs.deleted (by rw [pc]; rfl) element inSet
    · rename_i queue pc
      obtain ⟨element, inQueue, rfl⟩ := List.mem_map.mp moving
      exact refs.queue element (by rw [pc]; exact inQueue)
    · rename_i current ref pc
      obtain rfl := List.mem_singleton.mp moving
      exact refs.current obj (by rw [pc]; rfl)
    · cases moving
  · exact refs.queued obj pooled

theorem Guarded.carries_quiet (guarded : Guarded cfg s) (quiet : Quiet s middle) :
    Carries s middle where
  records := fun here => Or.inl (quiet.tables.keeps here)
  agrees := fun v => (guarded.agrees v).mono fun _ _ node current =>
    current.imp quiet.tables.keeps fun removed => (quiet.record node).value.trans removed
  dated := by
    intro v obj mem
    unfold Dated
    rw [(quiet.record obj.node).seq, (quiet.record obj.node).value]
    exact guarded.dated v obj mem
  grows := fun _ obj _ => le_of_eq (quiet.record obj.node).seq.symm

theorem Guarded.carries_remove (guarded : Guarded cfg s) {ref : Int}
    (pc : (s.threads t).pc = .rmRemove obj ref) (current : (s.heap obj.node).seq = obj.seq)
    (mapped : s.table obj.tableid obj.key = some node) :
    node = obj.node ∧ Carries s (unmapped s obj node) := by
  have pending : obj ∈ pendingRequests (s.threads t) := by simp [pendingRequests, pc]
  obtain rfl : node = obj.node := by
    rcases (guarded.agrees t).current obj (by rw [pc]; rfl) with here | removed
    · exact Option.some.inj (mapped.symm.trans here)
    · have later := (guarded.dated t obj pending).2 removed
      exact absurd current (Nat.ne_of_gt later)
  have keeps : ∀ {tableid key other}, Current s tableid key other →
      Current (unmapped s obj obj.node) tableid key other := by
    intro tableid key other before
    by_cases same : other = obj.node
    · right
      subst same
      simp [unmapped]
    rcases before with here | removed
    · left
      rw [unmapped_table, if_neg, here]
      rintro ⟨rfl, rfl⟩
      exact same (Option.some.inj (here.symm.trans mapped))
    · right
      rwa [unmapped_record s obj obj.node same same]
  have seq : ∀ other, other = obj.node ∧
      ((unmapped s obj obj.node).heap other).seq = (s.heap other).seq + 1 ∨
      (unmapped s obj obj.node).heap other = s.heap other := by
    intro other
    by_cases same : other = obj.node
    · left
      subst same
      simp [unmapped]
    · exact Or.inr (unmapped_record s obj obj.node same same)
  refine ⟨rfl, fun here => keeps (Or.inl here),
    fun v => (guarded.agrees v).mono fun _ _ _ => keeps, ?_, ?_⟩
  · intro v other mem
    have before := guarded.dated v other mem
    unfold Dated
    rcases seq other.node with ⟨_, later⟩ | same
    · rw [later]
      exact ⟨Nat.le_succ_of_le before.1, fun _ => Nat.lt_succ_of_le before.1⟩
    · rw [same]
      exact before
  · intro v other _
    rcases seq other.node with ⟨_, later⟩ | same
    · exact later ▸ Nat.le_succ _
    · exact le_of_eq (congrArg MemNode.seq same.symm)

theorem Guarded.commit_entries (guarded : Guarded cfg s) (pc : (s.threads t).pc = .body)
    (valid : endValid s (s.threads t) = true) :
    ∀ kv ∈ (s.threads t).writeset, Pending s kv := by
  obtain ⟨birth, births⟩ := guarded.births
  have inside : (s.threads t).pc.inTx = true := by rw [pc]; rfl
  intro kv mem
  have checked := List.all_eq_true.mp (Bool.and_eq_true_iff.mp valid).2 kv mem
  have present : (s.heap kv.node).value ≠ .haveRemoved := by simpa using checked
  exact
    { births.plain t inside kv mem with
      mapped := ((guarded.agrees t).written inside kv mem).resolve_right present }

theorem mem_reused {kv : WSKV}
    (written : write s.snapshot (writeState s (s.threads t)) (s.threads t).writeset = .ok ws)
    (mem : kv ∈ ws.written) (linked : kv.dummy = some node) (old : node < s.nextNode) :
    node ∈ reused s t := by
  rw [reused, written]
  exact List.mem_filter.mpr ⟨List.mem_filterMap.mpr ⟨kv, mem, linked⟩, by simpa using old⟩

section

variable (guarded : Guarded cfg s) (pc : (s.threads t).pc = .body)
  (valid : endValid s (s.threads t) = true)

include guarded pc valid

theorem Guarded.reused_free (mem : node ∈ reused s t) :
    ∃ tableid, node ∈ ((s.threads t).memnodesPool tableid).freelist := by
  obtain ⟨birth, births⟩ := guarded.births
  have entries := guarded.commit_entries pc valid
  unfold reused at mem
  split at mem
  · rename_i ws written
    obtain ⟨linked, old⟩ := List.mem_filter.mp mem
    obtain ⟨kv, inSet, dummy⟩ := List.mem_filterMap.mp linked
    have source := write_linked (births.separate t)
      (fun kv inSet => ⟨_, _, (entries kv inSet).mapped⟩)
      (fun kv inSet => (entries kv inSet).plain) rfl written inSet dummy
    exact source.resolve_right (Nat.not_le.mpr (of_decide_eq_true old))
  · cases mem

theorem Guarded.unreused (apart : ∀ node ∈ reused s t, ∀ u,
      ¬ inBuffer (s.threads u) node ∧ ¬ inRequest (s.threads u) node) (v : ThreadId) :
    References (fun tableid key node => Current s tableid key node ∧ node ∉ reused s t)
      (s.threads v) := by
  have tx : TxReferences (fun _ _ node => node ∉ reused s t) (s.threads v) := by
    apply (TxReferences.all (guarded.free t v)).mono
    intro _ _ node outside taken
    obtain ⟨tableid, pooled⟩ := guarded.reused_free pc valid taken
    exact outside tableid pooled
  exact
    { toTxReferences := (guarded.agrees v).toTxReferences.and tx
      queued := fun obj mem => ⟨(guarded.agrees v).queued obj mem,
        fun taken => (apart _ taken v).2 (Or.inl ⟨obj, mem, rfl⟩)⟩
      current := fun obj holds => ⟨(guarded.agrees v).current obj holds,
        fun taken => (apart _ taken v).2 (Or.inr ⟨obj, holds, rfl⟩)⟩
      buffered := fun tableid node holds => ⟨(guarded.agrees v).buffered tableid node holds,
        fun taken => (apart _ taken v).1 ⟨tableid, holds⟩⟩ }

theorem Guarded.registered
    (written : write s.snapshot (writeState s (s.threads t)) (s.threads t).writeset = .ok ws) :
    ∀ element ∈ ws.deleteset, s.main element.node ∧
      element.seq ≤ (ws.heap element.node).seq := by
  obtain ⟨birth, births⟩ := guarded.births
  have entries := guarded.commit_entries pc valid
  have result := write_rule
    (P := fun rest state => Separate s.main state ∧ (∀ kv ∈ rest, Pending s kv) ∧
      ∀ element ∈ state.deleteset, s.main element.node ∧
        element.seq ≤ (state.heap element.node).seq)
    (by
      rintro kv rest state later ⟨separate, entries, dated⟩ entry
      have pending := entries kv List.mem_cons_self
      have record : s.main kv.node := ⟨_, _, pending.mapped⟩
      have effect := writeEntry_effect separate (separate.bounded _ record) pending.plain entry
      refine ⟨effect.separate, fun other mem => entries other (List.mem_cons_of_mem kv mem),
        ?_⟩
      intro element mem
      rcases registerDelete_mem (writeEntry_deleteset entry) mem with before | rfl
      · obtain ⟨main, reached⟩ := dated element before
        refine ⟨main, le_trans reached ?_⟩
        by_cases same : element.node = kv.node
        · rw [same, effect.seq record]
          exact Nat.le_succ _
        · rw [effect.others _ main same]
      · refine ⟨record, ?_⟩
        rw [effect.seq record, (stampCounter_fields _ _).2])
    ⟨births.separate t, entries, by
      simp [writeState, guarded.blank t (by rw [pc]; rfl)]⟩ written
  exact result.2.2

theorem Guarded.commit_kept
    (written : write s.snapshot (writeState s (s.threads t)) (s.threads t).writeset = .ok ws)
    (removed : (s.heap node).value = .haveRemoved) (unused : node ∉ reused s t) :
    ws.heap node = s.heap node := by
  obtain ⟨birth, births⟩ := guarded.births
  have entries := guarded.commit_entries pc valid
  apply write_others (births.separate t) (fun kv mem => ⟨_, _, (entries kv mem).mapped⟩)
    (fun kv mem => (entries kv mem).plain) written
  · exact fun record => births.present record removed
  intro tableid linked
  obtain ⟨kv, mem, dummy⟩ := List.mem_filterMap.mp linked
  split at dummy
  · apply unused (mem_reused written mem dummy _)
    by_contra above
    rw [births.unused node (Nat.le_of_not_lt above)] at removed
    cases removed
  · cases dummy

theorem Guarded.carries_commit
    (written : write s.snapshot (writeState s (s.threads t)) (s.threads t).writeset = .ok ws)
    (apart : ∀ node ∈ reused s t, ∀ u,
      ¬ inBuffer (s.threads u) node ∧ ¬ inRequest (s.threads u) node) :
    Carries s (committed s t (s.threads t) ws) := by
  obtain ⟨birth, births⟩ := guarded.births
  have effect := births.commit_effect pc written
  have grows : Grows s (committed s t (s.threads t) ws) := commit_grows effect rfl rfl rfl
  have taken : Step cfg s t (s.threads t) (committed s t (s.threads t) ws)
      (ended (s.threads t) ws) := .commit pc valid written
  have after := births.commit pc written taken
  have kept : ∀ {node}, (s.heap node).value = .haveRemoved → node ∉ reused s t →
      ws.heap node = s.heap node := guarded.commit_kept pc valid written
  constructor
  case records => exact Or.inl
  case agrees =>
    intro v
    apply (guarded.unreused pc valid apart v).mono
    rintro tableid key node ⟨here | removed, unused⟩
    · exact Or.inl here
    · right
      show (ws.heap node).value = .haveRemoved
      rw [kept removed unused, removed]
  case dated =>
    intro v obj mem
    have before := guarded.dated v obj mem
    obtain ⟨here | removed, unused⟩ := pending_reference (guarded.unreused pc valid apart v) mem
    · have record : s.main obj.node := ⟨_, _, here⟩
      exact ⟨le_trans before.1 (grows.seq record), fun removed => absurd removed (after.present record)⟩
    · show obj.seq ≤ (ws.heap obj.node).seq ∧
        ((ws.heap obj.node).value = .haveRemoved → obj.seq < (ws.heap obj.node).seq)
      rw [kept removed unused]
      exact before
  case grows =>
    intro v obj mem
    obtain ⟨here | removed, unused⟩ := pending_reference (guarded.unreused pc valid apart v) mem
    · exact grows.seq ⟨_, _, here⟩
    · exact le_of_eq (congrArg MemNode.seq (kept removed unused).symm)

end

/-! ### Steps -/

theorem step_requests (taken : Step cfg s t th middle own) (mem : obj ∈ pendingRequests own) :
    obj ∈ pendingRequests th ∨
      Commits s t th middle own ∧ ∃ element ∈ own.deleteset, obj = request element := by
  cases taken with
  | @commit ws pc valid written =>
    rcases List.mem_append.mp mem with new | pooled
    · obtain ⟨element, inSet, rfl⟩ := List.mem_map.mp new
      exact Or.inr ⟨⟨ws, pc, valid, written, rfl, rfl⟩, element, inSet, rfl⟩
    · exact Or.inl (List.mem_append_right _ pooled)
  | endCollect pc =>
    left
    obtain ⟨_, _, _, fields⟩ := collect_fields s.heap th.writeset th
    unfold collectOldVersions at mem
    rw [fields] at mem
    simpa only [pendingRequests, pc] using mem
  | @endRemove element rest pc =>
    left
    simp only [pendingRequests, pc, List.map_cons, List.cons_append, List.mem_cons,
      List.mem_append, addRMObj] at mem ⊢
    rcases mem with later | rfl | pooled
    · exact Or.inr (Or.inl later)
    · exact Or.inl rfl
    · exact Or.inr (Or.inr pooled)
  | rmPop pc queued =>
    left
    simp only [pendingRequests, pc, queued, List.nil_append] at mem ⊢
    exact mem
  | addCheck pc present chosen =>
    left
    obtain ⟨_, rfl⟩ := payloadValue_own chosen
    exact List.mem_append_right _ mem
  | iterValue pc cursor => exact Or.inl mem
  | endReturn pc | _ => exact Or.inl (List.mem_append_right _ mem)

theorem step_blank (blank : th.pc.inTx = true → th.deleteset = [])
    (taken : Step cfg s t th middle own) (inside : own.pc.inTx = true) : own.deleteset = [] := by
  cases taken with
  | begin pc => rfl
  | addCheck pc present chosen =>
    obtain ⟨_, rfl⟩ := payloadValue_own chosen
    exact blank (by rw [pc]; rfl)
  | iterValue pc cursor => exact blank inside
  | _ =>
    first
    | exact blank (by simp_all [Pc.inTx])
    | cases inside

end Pointers

def reusesPointed (s : State) (act : ThreadId × Act) : Prop :=
  act.2 = .call .finish ∧ endValid s (s.threads act.1) = true ∧
    ∃ node ∈ reused s act.1, ∃ u, inBuffer (s.threads u) node ∨ inRequest (s.threads u) node

variable {cfg : Config} {s : State} {t : ThreadId} {act : Act}

theorem Guarded.carries {middle : State} {own : Thread} (guarded : Guarded cfg s)
    (admitted : ¬ reusesPointed s (t, act))
    (taken : step cfg s (t, act) = some (finished s middle t own))
    (outcome : Step cfg s t (s.threads t) middle own) : Carries s middle := by
  obtain ⟨birth, births⟩ := guarded.births
  rcases step_outcome births.unused outcome with
    quiet | ⟨ws, pc, valid, written, rfl, rfl⟩ | ⟨obj, ref, node, pc, current, mapped, rfl, rfl⟩
  · exact guarded.carries_quiet quiet
  · have finish := step_finish taken pc (by rw [finished_self]; rfl)
    apply guarded.carries_commit pc valid written
    intro node mem u
    constructor <;> intro points
    · exact admitted ⟨finish, valid, node, mem, u, Or.inl points⟩
    · exact admitted ⟨finish, valid, node, mem, u, Or.inr points⟩
  · exact (guarded.carries_remove pc current mapped).2

theorem step_guarded {next : State} (guarded : Guarded cfg s)
    (admitted : ¬ reusesPointed s (t, act)) (taken : step cfg s (t, act) = some next) :
    Guarded cfg next := by
  obtain ⟨birth, births⟩ := guarded.births
  have after := step_births births taken
  obtain ⟨inRange, middle, own, outcome, rfl⟩ := step_cases taken
  have carries := guarded.carries admitted taken outcome
  have threads := step_threads outcome
  constructor
  case births => exact after
  case outside =>
    intro u above
    rw [finished_other threads (Nat.ne_of_gt (lt_of_lt_of_le inRange above))]
    exact guarded.outside u above
  case blank =>
    apply all_threads (P := fun _ th => th.pc.inTx = true → th.deleteset = []) threads
    · exact step_blank (guarded.blank t) outcome
    · exact fun u _ => guarded.blank u
  case agrees =>
    apply all_threads (P := fun _ th => References (Current middle) th) threads
    · apply step_references (carries.agrees t) outcome
      · exact fun found => Or.inl found.mapped
      · exact carries.records
    · exact fun u _ => carries.agrees u
  case dated =>
    apply all_threads (P := fun _ th => ∀ obj ∈ pendingRequests th, Dated middle obj) threads
    · intro obj mem
      rcases step_requests outcome mem with before | ⟨commits, element, registered, rfl⟩
      · exact carries.dated t obj before
      · obtain ⟨ws, pc, valid, written, rfl, rfl⟩ := commits
        obtain ⟨record, reached⟩ := guarded.registered pc valid written element registered
        obtain ⟨_, births⟩ := after
        exact ⟨reached, fun removed => absurd removed (births.present record)⟩
    · exact fun u _ => carries.dated u
  case free => exact guarded.free_step outcome
  case waiting => exact guarded.waiting_step outcome

theorem loaded_guarded (cfg : Config) (records : List (TableId × Key × Ptr)) :
    Guarded cfg (loaded records) := by
  have fresh := loaded_threads records
  constructor
  case births => exact (loaded_layout records).births
  case outside => exact fun u _ => fresh u
  case blank => simp [fresh]
  case agrees => exact fun u => (tidy_initial (fresh u)).toReferences.mono fun _ _ _ => Or.inl
  case dated => simp [fresh, pendingRequests]
  case free =>
    intro u v tableid
    rw [fresh v]
    exact txReferences_outside rfl rfl rfl rfl
  case waiting => simp [fresh]

end EunoDb.Machine
