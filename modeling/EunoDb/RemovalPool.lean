import Mathlib.Algebra.BigOperators.Group.Finset.Basic
import EunoDb.StalePointers

/-! Removal requests and their counts in `gcRef`. -/

namespace EunoDb.Machine

open Memstore TxSets

def uncounted (th : Thread) : List DELElement :=
  match th.pc with
  | .endCollect => th.deleteset
  | .endRemove queue => queue
  | _ => []

def due (th : Thread) : List RMObj :=
  match th.pc with
  | .rmLoop => th.rmlist
  | .rmRemove obj _ => obj :: th.rmlist
  | .rmTest _ _ => th.rmlist
  | _ => []

def requestsFor (th : Thread) (node : NodeId) : Nat :=
  th.rmlist.countP fun obj => decide (obj.node = node)

def counted (cfg : Config) (s : State) (node : NodeId) : Nat :=
  ∑ u ∈ Finset.range cfg.thrs, requestsFor (s.threads u) node

def Settled (s : State) (node : NodeId) : Prop :=
  ∀ v, ∀ element ∈ uncounted (s.threads v), element.node ≠ node

/-! ### Counting -/

theorem sum_range_change {f g : Nat → Nat} {n t : Nat} (inRange : t < n)
    (others : ∀ u, u ≠ t → g u = f u) :
    ∑ u ∈ Finset.range n, g u + f t = ∑ u ∈ Finset.range n, f u + g t := by
  have mem : t ∈ Finset.range n := Finset.mem_range.mpr inRange
  have same : ∑ u ∈ (Finset.range n).erase t, g u = ∑ u ∈ (Finset.range n).erase t, f u :=
    Finset.sum_congr rfl fun u inside => others u (Finset.ne_of_mem_erase inside)
  have after := Finset.add_sum_erase _ g mem
  have before := Finset.add_sum_erase _ f mem
  omega

section Counting

variable {cfg : Config} {s middle : State} {t : ThreadId} {own : Thread}

theorem counted_finished (own : Thread) (inRange : t < cfg.thrs) (threads : middle.threads = s.threads)
    (node : NodeId) :
    counted cfg (finished s middle t own) node + requestsFor (s.threads t) node =
      counted cfg s node + requestsFor own node := by
  have changed := sum_range_change (f := fun u => requestsFor (s.threads u) node)
    (g := fun u => requestsFor ((finished s middle t own).threads u) node) inRange
    fun u other => by rw [finished_other threads other]
  simp only [finished_self] at changed
  exact changed

variable {node : NodeId}

theorem counted_eq_zero (absent : ∀ u, ∀ obj ∈ (s.threads u).rmlist, obj.node ≠ node) :
    counted cfg s node = 0 := by
  apply Finset.sum_eq_zero
  intro u _
  rw [requestsFor, List.countP_eq_zero]
  intro obj mem
  simpa using absent u obj mem

theorem absent_of_counted_zero (outside : ∀ u, cfg.thrs ≤ u → s.threads u = {})
    (zero : counted cfg s node = 0) (u : ThreadId) :
    ∀ obj ∈ (s.threads u).rmlist, obj.node ≠ node := by
  by_cases inRange : u < cfg.thrs
  · have each := Finset.sum_eq_zero_iff.mp zero u (Finset.mem_range.mpr inRange)
    rw [requestsFor, List.countP_eq_zero] at each
    exact fun obj mem => by simpa using each obj mem
  · simp [outside u (Nat.le_of_not_lt inRange)]

theorem exists_of_counted_pos (positive : 0 < counted cfg s node) :
    ∃ u, ∃ obj ∈ (s.threads u).rmlist, obj.node = node := by
  by_contra absent
  push Not at absent
  exact absurd (counted_eq_zero absent) (Nat.ne_of_gt positive)

end Counting

/-! ### What a step does to requests -/

structure Work (cfg : Config) (s : State) (t : ThreadId) (th : Thread) (middle : State)
    (own : Thread) : Prop where
  counts : ∀ node, (middle.heap node).gcRef + requestsFor th node =
    (s.heap node).gcRef + requestsFor own node
  fixed : ∀ node, Settled s node → (∀ obj ref, own.pc = .rmRemove obj ref → obj.node ≠ node) →
    (middle.heap node).gcRef = (s.heap node).gcRef
  registered : ∀ element ∈ uncounted own, element ∈ uncounted th ∨
    s.main element.node ∧ (s.heap element.node).seq < (middle.heap element.node).seq
  epoch : own.epoch = th.epoch ∨ uncounted own = []
  queued : ∀ obj ∈ own.rmlist, obj ∈ th.rmlist ∨ ∃ element ∈ uncounted th, obj = request element
  dropped : ∀ obj ∈ th.rmlist, obj ∈ own.rmlist ∨
    own.pc = .rmRemove obj ((middle.heap obj.node).gcRef + 1)
  popped : ∀ obj ref, own.pc = .rmRemove obj ref → obj ∈ th.rmlist ∧
    ref = (middle.heap obj.node).gcRef + 1 ∧ ∀ u, u ≠ t → ∀ other,
      (s.threads u).pc.current = some other → other.node ≠ obj.node
  testing : ∀ obj ref, own.pc = .rmTest obj ref → th.pc = .rmRemove obj ref
  waiting : ∀ waited, own.pc = .delayWait waited → waited = runningNow cfg s t
  due : ∀ obj ∈ due own, obj ∈ EunoDb.Machine.due th ∨
    obj ∈ th.rmlist ∧ ∃ waited, th.pc = .delayWait waited ∧ waitOver cfg s waited = true
  removed : ∀ node, (middle.heap node).value = .haveRemoved →
    (s.heap node).value = .haveRemoved ∨ ∃ obj ref, th.pc = .rmRemove obj ref ∧
      own.pc = .rmTest obj ref ∧ obj.node = node ∧ (s.heap node).seq = obj.seq
  last : ∀ obj, th.pc = .rmRemove obj 1 ∨ th.pc = .rmTest obj 1 →
    (s.heap obj.node).value = .haveRemoved → own.pc = .rmTest obj 1 ∨ obj.node ∈ middle.handed
  handed : middle.handed = s.handed ∨ ∃ obj, th.pc = .rmTest obj 1 ∧ own.pc = .rmLoop ∧
    (s.heap obj.node).value = .haveRemoved ∧ middle.handed = s.handed ++ [obj.node]

variable {cfg : Config} {s middle next : State} {t : ThreadId} {th own : Thread} {tableid : TableId}
  {obj : RMObj} {main : NodeId → Prop} {gcounter : Nat} {ws after : WriteState}

theorem work_outside (gcRef : ∀ node, (middle.heap node).gcRef = (s.heap node).gcRef)
    (value : ∀ node, (middle.heap node).value = (s.heap node).value)
    (handed : middle.handed = s.handed) (rmlist : own.rmlist = th.rmlist)
    (same : uncounted own = uncounted th) (epoch : own.epoch = th.epoch ∨ uncounted own = [])
    (before : th.pc.current = none) (after : own.pc.current = none)
    (waits : ∀ waited, own.pc = .delayWait waited → waited = runningNow cfg s t)
    (loops : own.pc = .rmLoop →
      ∃ waited, th.pc = .delayWait waited ∧ waitOver cfg s waited = true) :
    Work cfg s t th middle own := by
  have notRemoving : ∀ obj ref, own.pc ≠ .rmRemove obj ref := by
    intro obj ref here
    rw [here] at after
    cases after
  have notTesting : ∀ obj ref, own.pc ≠ .rmTest obj ref := by
    intro obj ref here
    rw [here] at after
    cases after
  constructor
  case counts => simp [gcRef, requestsFor, rmlist]
  case fixed => exact fun node _ _ => gcRef node
  case registered => exact fun element mem => Or.inl (same ▸ mem)
  case epoch => exact epoch
  case queued => exact fun obj mem => Or.inl (rmlist ▸ mem)
  case dropped => exact fun obj mem => Or.inl (rmlist ▸ mem)
  case popped => exact fun obj ref here => absurd here (notRemoving obj ref)
  case testing => exact fun obj ref here => absurd here (notTesting obj ref)
  case waiting => exact waits
  case due =>
    intro obj mem
    unfold due at mem
    split at mem
    · rename_i here
      exact Or.inr ⟨rmlist ▸ mem, loops here⟩
    · exact absurd ‹_› (notRemoving _ _)
    · exact absurd ‹_› (notTesting _ _)
    · cases mem
  case removed => exact fun node removed => Or.inl (value node ▸ removed)
  case last =>
    rintro obj (here | here)
    · rw [here] at before
      cases before
    · rw [here] at before
      cases before
  case handed => exact Or.inl handed

variable {key : Key} {node : NodeId} {ref : Int} {kv : WSKV} {kvs : List WSKV}
  {birth : NodeId → Option (TableId × Key)}

theorem Found.gcRef (unused : ∀ node, s.nextNode ≤ node → s.heap node = {})
    (found : Found s tableid key node next) (other : NodeId) :
    (next.heap other).gcRef = (s.heap other).gcRef := by
  cases found with
  | present mapped => rfl
  | inserted absent =>
    by_cases new : other = s.nextNode
    · subst new
      simp [insertNode, unused _ (le_refl _)]
    · simp [insertNode, new]

theorem Found.handed (found : Found s tableid key node next) : next.handed = s.handed := by
  cases found <;> rfl

theorem payloadValue_handed {payload : Payload} {val : Value}
    (chosen : payloadValue s th tableid payload = (val, next, own)) : next.handed = s.handed := by
  unfold payloadValue at chosen
  split at chosen
  · cases chosen
    rfl
  · cases chosen
    rfl
  · split at chosen <;>
      · cases chosen
        rfl

theorem work_count {element : DELElement} {rest : List DELElement}
    (pc : (s.threads t).pc = .endRemove (element :: rest)) :
    Work cfg s t (s.threads t) { s with heap := (addRMObj s.heap (s.threads t) element).1 }
      { (addRMObj s.heap (s.threads t) element).2 with pc := .endRemove rest } := by
  constructor
  case counts =>
    intro node
    by_cases same : node = element.node
    · simp [addRMObj, requestsFor, same]
      omega
    · simp [addRMObj, requestsFor, same, Ne.symm same]
  case fixed =>
    intro node settled _
    have different : node ≠ element.node :=
      fun same => settled t element (by simp [uncounted, pc]) same.symm
    simp [addRMObj, different]
  case registered => simp +contextual [uncounted, pc]
  case epoch => exact Or.inl rfl
  case queued =>
    intro obj mem
    rcases List.mem_cons.mp mem with rfl | old
    · exact Or.inr ⟨element, by simp [uncounted, pc], rfl⟩
    · exact Or.inl old
  case dropped => exact fun obj mem => Or.inl (List.mem_cons_of_mem _ mem)
  case popped => simp
  case testing => simp
  case waiting => simp
  case due => simp [due]
  case removed =>
    intro node removed
    left
    by_cases same : node = element.node
    · subst same
      simpa [addRMObj] using removed
    · simpa [addRMObj, same] using removed
  case last => simp [pc]
  case handed => exact Or.inl rfl

theorem work_pop {rest : List RMObj} (pc : (s.threads t).pc = .rmLoop)
    (queued : (s.threads t).rmlist = obj :: rest)
    (alone : ∀ u, u ≠ t → ∀ other, (s.threads u).pc.current = some other → other.node ≠ obj.node) :
    Work cfg s t (s.threads t)
      { s with
        heap := Function.update s.heap obj.node
          { s.heap obj.node with gcRef := (s.heap obj.node).gcRef - 1 } }
      { s.threads t with pc := .rmRemove obj (s.heap obj.node).gcRef, rmlist := rest } := by
  constructor
  case counts =>
    intro node
    by_cases same : node = obj.node
    · simp [requestsFor, queued, same]
    · simp [requestsFor, queued, same, Ne.symm same]
  case fixed =>
    intro node _ different
    have other : node ≠ obj.node := fun same => different obj _ rfl same.symm
    simp [other]
  case registered => simp [uncounted]
  case epoch => exact Or.inl rfl
  case queued => exact fun other mem => Or.inl (queued ▸ List.mem_cons_of_mem _ mem)
  case dropped =>
    intro other mem
    rw [queued] at mem
    rcases List.mem_cons.mp mem with rfl | later
    · right
      simp
    · exact Or.inl later
  case popped =>
    rintro other ref here
    cases here
    exact ⟨by simp [queued], by simp, alone⟩
  case testing => simp
  case waiting => simp
  case due =>
    intro other mem
    left
    simpa [due, pc, queued] using mem
  case removed =>
    intro node removed
    left
    by_cases same : node = obj.node
    · subst same
      simpa using removed
    · simpa [same] using removed
  case last => simp [pc]
  case handed => exact Or.inl rfl

theorem work_section (pc : th.pc = .rmRemove obj ref)
    (gcRef : ∀ node, (middle.heap node).gcRef = (s.heap node).gcRef)
    (handed : middle.handed = s.handed) (removed : ∀ node, (middle.heap node).value = .haveRemoved →
      (s.heap node).value = .haveRemoved ∨ obj.node = node ∧ (s.heap node).seq = obj.seq) :
    Work cfg s t th middle { th with pc := .rmTest obj ref } := by
  constructor
  case counts => simp [gcRef, requestsFor]
  case fixed => exact fun node _ _ => gcRef node
  case registered => simp [uncounted]
  case epoch => exact Or.inl rfl
  case queued => exact fun _ mem => Or.inl mem
  case dropped => exact fun _ mem => Or.inl mem
  case popped => simp
  case testing =>
    intro other count here
    cases here
    exact pc
  case waiting => simp
  case due =>
    intro other mem
    left
    simpa [due, pc] using Or.inr mem
  case removed =>
    intro node after
    rcases removed node after with before | ⟨same, current⟩
    · exact Or.inl before
    · exact Or.inr ⟨obj, ref, pc, rfl, same, current⟩
  case last => simp +contextual [pc]
  case handed => exact Or.inl handed

theorem work_test (pc : th.pc = .rmTest obj ref) (heap : middle.heap = s.heap)
    (ownPc : own.pc = .rmLoop) (rmlist : own.rmlist = th.rmlist) (epoch : own.epoch = th.epoch)
    (handed : middle.handed = s.handed ∧ ¬ ((s.heap obj.node).value = .haveRemoved ∧ ref = 1) ∨
      ref = 1 ∧ (s.heap obj.node).value = .haveRemoved ∧
        middle.handed = s.handed ++ [obj.node]) : Work cfg s t th middle own := by
  constructor
  case counts => simp [heap, requestsFor, rmlist]
  case fixed => simp [heap]
  case registered => simp [uncounted, ownPc]
  case epoch => exact Or.inl epoch
  case queued => exact fun _ mem => Or.inl (rmlist ▸ mem)
  case dropped => exact fun _ mem => Or.inl (rmlist ▸ mem)
  case popped => simp [ownPc]
  case testing => simp [ownPc]
  case waiting => simp [ownPc]
  case due =>
    intro other mem
    left
    simpa [due, pc, ownPc, rmlist] using mem
  case removed => exact fun node after => Or.inl (heap ▸ after)
  case last =>
    rintro other (here | here) removed
    · simp [pc] at here
    rw [pc] at here
    cases here
    rcases handed with ⟨_, kept⟩ | ⟨_, _, grown⟩
    · exact absurd ⟨removed, rfl⟩ kept
    · right
      simp [grown]
  case handed =>
    rcases handed with ⟨same, _⟩ | ⟨rfl, removed, grown⟩
    · exact Or.inl same
    · exact Or.inr ⟨obj, pc, ownPc, removed, grown⟩

/-! ### Commits -/

theorem writeEntry_counts (separate : Separate main ws) (record : main kv.node) (plain : Plain kv)
    (present : (ws.heap kv.node).value ≠ .haveRemoved)
    (written : writeEntry gcounter ws kv = .ok after) (node : NodeId) :
    ((after.heap node).gcRef = (ws.heap node).gcRef ∨
      (after.heap node).gcRef = 0 ∧ ∃ kv ∈ after.written, kv.dummy = some node) ∧
    ((after.heap node).value = .haveRemoved → (ws.heap node).value = .haveRemoved) := by
  obtain ⟨queue, _, ⟨_, rfl⟩ | ⟨_, _, rfl⟩⟩ := writeEntry_cases written
  · by_cases same : node = kv.node
    · subst same
      simp [writeInPlace, plain.value]
    · simp [writeInPlace, same]
  cases taken : getMemNode ws kv.tableid with
  | mk dummy middle =>
    have allocated := getMemNode_allocated separate taken
    have different : kv.node ≠ dummy := fun same => allocated.spare.1 (same ▸ record)
    simp only [writeNewVersion, taken, allocated.heap]
    by_cases same : node = kv.node
    · subst same
      simp [different, plain.value]
    · by_cases linked : node = dummy
      · subst linked
        simp [same, different, present]
      · simp [same, linked]

theorem writeEntry_written (separate : Separate main ws) (record : main kv.node)
    (written : writeEntry gcounter ws kv = .ok after) {other : WSKV} (mem : other ∈ ws.written) :
    other ∈ after.written := by
  rcases writeEntry_versions separate record written with place | ⟨dummy, _, place⟩
  · rw [place.written]
    exact List.mem_append_left _ mem
  · rw [place.written]
    exact List.mem_append_left _ mem

theorem write_counts (separate : Separate main ws) (records : ∀ kv ∈ kvs, main kv.node)
    (plain : ∀ kv ∈ kvs, Plain kv)
    (present : ∀ node, main node → (ws.heap node).value ≠ .haveRemoved)
    (written : write gcounter ws kvs = .ok after) (node : NodeId) :
    ((after.heap node).gcRef = (ws.heap node).gcRef ∨
      (after.heap node).gcRef = 0 ∧ ∃ kv ∈ after.written, kv.dummy = some node) ∧
    ((after.heap node).value = .haveRemoved → (ws.heap node).value = .haveRemoved) := by
  have result := write_rule
    (P := fun rest state => Separate main state ∧ (∀ kv ∈ rest, main kv.node ∧ Plain kv) ∧
      ∀ node, ((state.heap node).gcRef = (ws.heap node).gcRef ∨
          (state.heap node).gcRef = 0 ∧ ∃ kv ∈ state.written, kv.dummy = some node) ∧
        ((state.heap node).value = .haveRemoved → (ws.heap node).value = .haveRemoved))
    (by
      rintro kv rest state later ⟨apart, entries, marks⟩ entry
      obtain ⟨record, isPlain⟩ := entries kv List.mem_cons_self
      have live : (state.heap kv.node).value ≠ .haveRemoved :=
        fun removed => present _ record ((marks kv.node).2 removed)
      refine ⟨(writeEntry_effect apart (apart.bounded _ record) isPlain.plain entry).separate,
        fun other mem => entries other (List.mem_cons_of_mem kv mem), ?_⟩
      intro node
      obtain ⟨count, mark⟩ := writeEntry_counts apart record isPlain live entry node
      refine ⟨?_, fun removed => (marks node).2 (mark removed)⟩
      rcases count with same | fresh
      · rw [same]
        rcases (marks node).1 with before | ⟨zero, other, mem, linked⟩
        · exact Or.inl before
        · exact Or.inr ⟨zero, other, writeEntry_written apart record entry mem, linked⟩
      · exact Or.inr fresh)
    ⟨separate, fun kv mem => ⟨records kv mem, plain kv mem⟩,
      fun _ => ⟨Or.inl rfl, id⟩⟩ written
  exact result.2.2 node

theorem write_pooled (written : write gcounter ws kvs = .ok after) (tableid : TableId)
    (node : NodeId) (mem : node ∈ (after.memnodesPool tableid).freelist ∨
      node ∈ (after.memnodesPool tableid).retired) :
    node ∈ (ws.memnodesPool tableid).freelist ∨ node ∈ (ws.memnodesPool tableid).retired := by
  have result := write_rule
    (P := fun _ state => (∀ node ∈ (state.memnodesPool tableid).freelist,
        node ∈ (ws.memnodesPool tableid).freelist) ∧
      (state.memnodesPool tableid).retired = (ws.memnodesPool tableid).retired)
    (by
      rintro kv rest state later ⟨free, retired⟩ entry
      refine ⟨fun node mem => free node (writeEntry_freelist entry tableid mem), ?_⟩
      rw [← retired]
      obtain ⟨queue, _, ⟨_, rfl⟩ | ⟨_, _, rfl⟩⟩ := writeEntry_cases entry
      · rfl
      · cases taken : getMemNode state kv.tableid with
        | mk dummy middle =>
          simp only [writeNewVersion, taken]
          exact (getMemNode_pools taken).1 tableid)
    ⟨fun _ => id, rfl⟩ written
  rcases mem with free | retired
  · exact Or.inl (result.1 node free)
  · exact Or.inr (result.2 ▸ retired)

theorem work_commit (births : Births s birth) (guarded : Guarded cfg s)
    (counts : ∀ node, (s.heap node).gcRef = counted cfg s node) (pc : (s.threads t).pc = .body)
    (valid : endValid s (s.threads t) = true)
    (written : write s.snapshot (writeState s (s.threads t)) (s.threads t).writeset = .ok ws)
    (apart : ∀ node ∈ reused s t, ∀ u, ¬ inRequest (s.threads u) node) :
    Work cfg s t (s.threads t) (committed s t (s.threads t) ws) (ended (s.threads t) ws) := by
  have entries := guarded.commit_entries pc valid
  have effect := births.commit_effect pc written
  have marks := write_counts (births.separate t)
    (fun kv mem => ⟨_, _, (entries kv mem).mapped⟩)
    (fun kv mem => (entries kv mem).toPlain) (fun _ => births.present) written
  -- a linked node has no request, so its count was 0 before
  have gcRef : ∀ node, (ws.heap node).gcRef = (s.heap node).gcRef := by
    intro node
    rcases (marks node).1 with same | ⟨zero, kv, mem, linked⟩
    · exact same
    have absent : ∀ u, ∀ obj ∈ (s.threads u).rmlist, obj.node ≠ node := by
      rintro u obj queued rfl
      have born := births.bounded ((births.refs u).queued obj queued)
      exact apart _ (mem_reused written mem linked born) u (Or.inl ⟨obj, queued, rfl⟩)
    rw [zero, counts node, counted_eq_zero absent]
    rfl
  constructor
  case counts => exact fun node => by simp [committed, recordCommit, ended, requestsFor, gcRef]
  case fixed => exact fun node _ _ => gcRef node
  case registered =>
    intro element mem
    right
    obtain ⟨record, _⟩ := guarded.registered pc valid written element mem
    refine ⟨record, ?_⟩
    rcases write_registered written mem with old | ⟨kv, inSet, _, _, same⟩
    · have none := guarded.blank t (by rw [pc]; rfl)
      simp [writeState, none] at old
    · rw [same] at record ⊢
      exact effect.moved kv inSet record
  case epoch => exact Or.inl rfl
  case queued => exact fun _ mem => Or.inl mem
  case dropped => exact fun _ mem => Or.inl mem
  case popped => simp [ended]
  case testing => simp [ended]
  case waiting => simp [ended]
  case due => simp [due, ended]
  case removed => exact fun node removed => Or.inl ((marks node).2 removed)
  case last => simp [pc]
  case handed => exact Or.inl rfl

/-! ### Steps -/

theorem step_work (births : Births s birth) (guarded : Guarded cfg s)
    (counts : ∀ node, (s.heap node).gcRef = counted cfg s node)
    (taken : Step cfg s t (s.threads t) middle own)
    (apart : own.pc = .endCollect → ∀ node ∈ reused s t, ∀ u, ¬ inRequest (s.threads u) node)
    (alone : ∀ obj rest, (s.threads t).pc = .rmLoop → (s.threads t).rmlist = obj :: rest →
      ∀ u, u ≠ t → ∀ other, (s.threads u).pc.current = some other → other.node ≠ obj.node) :
    Work cfg s t (s.threads t) middle own := by
  have unused := births.unused
  cases taken with
  | commit pc valid written => exact work_commit births guarded counts pc valid written (apart rfl)
  | endRemove pc => exact work_count pc
  | rmPop pc queued => exact work_pop pc queued (alone _ _ pc queued)
  | rmStale pc stale => exact work_section pc (fun _ => rfl) rfl fun _ => Or.inl
  | @rmRemove obj ref node pc current mapped =>
    obtain ⟨rfl, _⟩ := guarded.carries_remove pc current mapped
    apply work_section pc
    · intro node
      by_cases same : node = obj.node
      · subst same
        simp [unmapped]
      · rw [unmapped_record s obj obj.node same same]
    · rfl
    · intro node removed
      by_cases same : node = obj.node
      · exact Or.inr ⟨same.symm, same ▸ current⟩
      · left
        rwa [unmapped_record s obj obj.node same same] at removed
  | rmHand pc removed => exact work_test pc rfl rfl rfl rfl (Or.inr ⟨rfl, removed, rfl⟩)
  | rmKeep pc kept => exact work_test pc rfl rfl rfl rfl (Or.inl ⟨rfl, kept⟩)
  | begin pc | roBegin pc =>
    exact work_outside (fun _ => rfl) (fun _ => rfl) rfl rfl (by simp [uncounted, pc])
      (Or.inr (by simp [uncounted])) (by rw [pc]; rfl) rfl (by simp) (by simp)
  | getFind pc found | addInsert pc copied found | addInsertCopied pc found =>
    exact work_outside (found.gcRef unused) (fun node => ((quiet_found unused found).record node).value)
      found.handed rfl (by simp [uncounted, pc]) (Or.inl rfl) (by rw [pc]; rfl) rfl (by simp)
      (by simp)
  | addCheck pc present chosen =>
    obtain ⟨heap, _⟩ := payloadValue_shared chosen
    have handed := payloadValue_handed chosen
    obtain ⟨_, rfl⟩ := payloadValue_own chosen
    exact work_outside (fun _ => by rw [heap]) (fun _ => by rw [heap]) handed rfl
      (by simp [uncounted, pc]) (Or.inl rfl) (by rw [pc]; rfl) rfl (by simp) (by simp)
  | iterValue pc cursor =>
    exact work_outside (fun _ => rfl) (fun _ => rfl) rfl rfl rfl (Or.inl rfl) (by rw [pc]; rfl)
      (by simp [setBuffer, pc, Pc.current]) (by simp [setBuffer, pc]) (by simp [setBuffer, pc])
  | endCollect pc =>
    obtain ⟨_, _, _, fields⟩ := collect_fields s.heap (s.threads t).writeset (s.threads t)
    unfold collectOldVersions
    rw [fields]
    exact work_outside (fun _ => rfl) (fun _ => rfl) rfl rfl (by simp [uncounted, pc])
      (Or.inl rfl) (by rw [pc]; rfl) rfl (by simp) (by simp)
  | delayStart pc many =>
    exact work_outside (fun _ => rfl) (fun _ => rfl) rfl rfl (by simp [uncounted, pc])
      (Or.inl rfl) (by rw [pc]; rfl) rfl (fun _ here => (Pc.delayWait.inj here).symm) (by simp)
  | @delayOver waited pc past =>
    exact work_outside (fun _ => rfl) (fun _ => rfl) rfl rfl (by simp [uncounted, pc])
      (Or.inl rfl) (by rw [pc]; rfl) rfl (by simp) (fun _ => ⟨waited, pc, past⟩)
  | _ =>
    exact work_outside (fun _ => rfl) (fun _ => rfl) rfl rfl (by simp_all [uncounted, finishGet])
      (Or.inl rfl) (by simp_all [Pc.current]) rfl (by simp [finishGet]) (by simp [finishGet])

end EunoDb.Machine
