import EunoDb.RemovalPool
import EunoDb.Threshold

/-! The hand-off of removed nodes, one thread at a time for each node. -/

namespace EunoDb.Machine

open Memstore TxSets Execution

def overlaps (cfg : Config) (s : State) (act : ThreadId × Act) : Prop :=
  match (s.threads act.1).pc, (s.threads act.1).rmlist with
  | .rmLoop, obj :: _ => ∃ u < cfg.thrs, u ≠ act.1 ∧
      (s.threads u).pc.current.map RMObj.node = some obj.node
  | _, _ => False

instance (cfg : Config) (s : State) (act : ThreadId × Act) : Decidable (overlaps cfg s act) := by
  unfold overlaps
  split <;> infer_instance

structure Handoff (cfg : Config) (s : State) : Prop where
  guarded : Guarded cfg s
  pooled : ∀ u, Pools (fun node => (s.heap node).value = .haveRemoved → node ∈ s.handed)
    (s.threads u)
  counts : ∀ node, (s.heap node).gcRef = counted cfg s node
  alone : ∀ u v obj other, (s.threads u).pc.current = some obj →
    (s.threads v).pc.current = some other → obj.node = other.node → u = v
  taken : ∀ u obj ref, (s.threads u).pc = .rmRemove obj ref → (s.heap obj.node).seq = obj.seq →
    ref = (s.heap obj.node).gcRef + 1
  tested : ∀ u obj ref, (s.threads u).pc = .rmRemove obj ref ∨ (s.threads u).pc = .rmTest obj ref →
    (s.heap obj.node).value = .haveRemoved → ref = (s.heap obj.node).gcRef + 1
  settled : ∀ node, (s.heap node).value = .haveRemoved → Settled s node
  waiting : ∀ u waited, (s.threads u).pc = .delayWait waited → ∀ obj ∈ (s.threads u).rmlist,
    (s.heap obj.node).seq = obj.seq → ∀ v, ∀ element ∈ uncounted (s.threads v),
      element.node = obj.node → waited v = some (s.threads v).epoch
  passed : ∀ u, ∀ obj ∈ due (s.threads u), (s.heap obj.node).seq = obj.seq → Settled s obj.node
  once : s.handed.Nodup
  final : ∀ node ∈ s.handed, Spare s.main s.nextNode node ∧ Settled s node ∧
    ∀ u, ¬ inRequest (s.threads u) node
  kept : ∀ node, (s.heap node).value = .haveRemoved → node ∈ s.handed ∨
    (∃ u, ∃ obj ∈ (s.threads u).rmlist, obj.node = node) ∨
    ∃ u obj, obj.node = node ∧
      ((s.threads u).pc = .rmRemove obj 1 ∨ (s.threads u).pc = .rmTest obj 1)

theorem uncounted_active {th : Thread} {element : DELElement} (mem : element ∈ uncounted th) :
    th.pc.active = true := by
  unfold uncounted at mem
  split at mem
  · rename_i pc
    rw [pc]
    rfl
  · rename_i pc
    rw [pc]
    rfl
  · cases mem

section Steps

variable {cfg : Config} {s middle : State} {t : ThreadId} {own : Thread}

variable {node : NodeId} {obj : RMObj} {birth : NodeId → Option (TableId × Key)}

theorem Settled.step (settled : Settled s node) (threads : middle.threads = s.threads)
    (self : ∀ element ∈ uncounted own, element.node ≠ node) :
    Settled (finished s middle t own) node :=
  all_threads (P := fun _ th => ∀ element ∈ uncounted th, element.node ≠ node) threads self
    fun u _ => settled u

theorem Work.settles (work : Work cfg s t (s.threads t) middle own)
    (threads : middle.threads = s.threads) (settled : Settled s node)
    (unmoved : s.main node → ¬ (s.heap node).seq < (middle.heap node).seq) :
    Settled (finished s middle t own) node := by
  apply settled.step threads
  rintro element mem rfl
  rcases work.registered element mem with before | ⟨record, moved⟩
  · exact settled t element before rfl
  · exact unmoved record moved

variable {u : ThreadId}

theorem Work.apart (work : Work cfg s t (s.threads t) middle own) (handoff : Handoff cfg s)
    (different : u ≠ t) {other : RMObj} (holds : own.pc.current = some obj)
    (theirs : (s.threads u).pc.current = some other) : other.node ≠ obj.node := by
  cases here : own.pc with
  | rmRemove popped ref =>
    rw [here] at holds
    cases holds
    exact (work.popped _ _ here).2.2 u different other theirs
  | rmTest tested ref =>
    rw [here] at holds
    cases holds
    intro same
    have before : (s.threads t).pc.current = some obj := by rw [work.testing _ _ here]; rfl
    exact different (handoff.alone u t other obj theirs before same)
  | _ => simp [here, Pc.current] at holds

theorem due_pending {th : Thread} (mem : obj ∈ due th) : obj ∈ pendingRequests th := by
  unfold due at mem
  split at mem
  · exact List.mem_append_right _ mem
  · rename_i pc
    simpa [pendingRequests, pc] using mem
  · exact List.mem_append_right _ mem
  · cases mem

theorem Carries.current {v : ThreadId} (carries : Carries s middle) (guarded : Guarded cfg s)
    (mem : obj ∈ pendingRequests (s.threads v)) (current : (middle.heap obj.node).seq = obj.seq) :
    (s.heap obj.node).seq = obj.seq :=
  le_antisymm (current ▸ carries.grows v obj mem) (guarded.dated v obj mem).1

theorem Handoff.waiting_step (handoff : Handoff cfg s) (carries : Carries s middle)
    (threads : middle.threads = s.threads) (work : Work cfg s t (s.threads t) middle own)
    (u : ThreadId) (waited : ThreadId → Option Nat)
    (waits : ((finished s middle t own).threads u).pc = .delayWait waited) (obj : RMObj)
    (mem : obj ∈ ((finished s middle t own).threads u).rmlist)
    (current : (middle.heap obj.node).seq = obj.seq) (v : ThreadId) (element : DELElement)
    (registered : element ∈ uncounted ((finished s middle t own).threads v))
    (same : element.node = obj.node) :
    waited v = some ((finished s middle t own).threads v).epoch := by
  by_cases waiter : u = t
  · subst waiter
    rw [finished_self] at waits
    by_cases self : v = u
    · subst self
      rw [finished_self] at registered
      simp [uncounted, waits] at registered
    -- the wait starts now, and the other transaction is running
    rw [finished_other threads self] at registered ⊢
    have active := uncounted_active registered
    rw [work.waiting waited waits]
    simp [runningNow, self, active, handoff.guarded.active_lt active]
  · rw [finished_other threads waiter] at waits mem
    have pending : obj ∈ pendingRequests (s.threads u) := List.mem_append_right _ mem
    have before := carries.current handoff.guarded pending current
    by_cases self : v = t
    · subst self
      rw [finished_self] at registered ⊢
      rcases work.registered element registered with old | ⟨_, moved⟩
      · rcases work.epoch with epoch | empty
        · rw [epoch]
          exact handoff.waiting u waited waits obj mem before v element old same
        · rw [empty] at registered
          cases registered
      · rw [same, before, current] at moved
        exact absurd moved (Nat.lt_irrefl _)
    · rw [finished_other threads self] at registered ⊢
      exact handoff.waiting u waited waits obj mem before v element registered same

theorem Handoff.passed_step (handoff : Handoff cfg s) (carries : Carries s middle)
    (threads : middle.threads = s.threads) (work : Work cfg s t (s.threads t) middle own)
    (u : ThreadId) :
    ∀ obj ∈ due ((finished s middle t own).threads u), (middle.heap obj.node).seq = obj.seq →
      Settled (finished s middle t own) obj.node := by
  have settles : ∀ {v obj}, obj ∈ pendingRequests (s.threads v) →
      (middle.heap obj.node).seq = obj.seq → Settled s obj.node →
        Settled (finished s middle t own) obj.node := by
    intro v obj pending current settled
    apply work.settles threads settled
    intro _ moved
    have before := carries.current handoff.guarded pending current
    rw [before, current] at moved
    exact Nat.lt_irrefl _ moved
  revert u
  apply all_threads (P := fun _ th => ∀ obj ∈ due th, (middle.heap obj.node).seq = obj.seq →
    Settled (finished s middle t own) obj.node) threads
  · intro obj mem current
    rcases work.due obj mem with old | ⟨queued, waited, waits, past⟩
    · have pending := due_pending old
      have before := carries.current handoff.guarded pending current
      exact settles pending current (handoff.passed t obj old before)
    have pending : obj ∈ pendingRequests (s.threads t) := List.mem_append_right _ queued
    have before := carries.current handoff.guarded pending current
    apply settles pending current
    -- every delete registered before the wait has been counted during it
    intro v element registered same
    exact handoff.guarded.wait_over past (uncounted_active registered)
      (handoff.waiting t waited waits obj queued before v element registered same)
  · intro u _ obj mem current
    have pending := due_pending mem
    have before := carries.current handoff.guarded pending current
    exact settles pending current (handoff.passed u obj mem before)

theorem Work.gcRef_other (work : Work cfg s t (s.threads t) middle own) (different : u ≠ t)
    (theirs : (s.threads u).pc.current = some obj) (settled : Settled s obj.node) :
    (middle.heap obj.node).gcRef = (s.heap obj.node).gcRef :=
  work.fixed obj.node settled fun popped ref here same =>
    (work.popped popped ref here).2.2 u different obj theirs same.symm

theorem Work.gcRef_tested (work : Work cfg s t (s.threads t) middle own) {ref : Int}
    (here : own.pc = .rmTest obj ref) (settled : Settled s obj.node) :
    (middle.heap obj.node).gcRef = (s.heap obj.node).gcRef :=
  work.fixed obj.node settled fun popped count removing => by simp [here] at removing

section

variable (handoff : Handoff cfg s)

include handoff

theorem Handoff.taken_step (carries : Carries s middle) (threads : middle.threads = s.threads)
    (work : Work cfg s t (s.threads t) middle own) (u : ThreadId) :
    ∀ obj ref, ((finished s middle t own).threads u).pc = .rmRemove obj ref →
      (middle.heap obj.node).seq = obj.seq → ref = (middle.heap obj.node).gcRef + 1 := by
  revert u
  apply all_threads (P := fun _ th => ∀ obj ref, th.pc = .rmRemove obj ref →
    (middle.heap obj.node).seq = obj.seq → ref = (middle.heap obj.node).gcRef + 1) threads
  · exact fun obj ref here _ => (work.popped obj ref here).2.1
  intro u different obj ref here current
  have inDue : obj ∈ due (s.threads u) := by simp [due, here]
  have before := carries.current handoff.guarded (due_pending inDue) current
  rw [work.gcRef_other different (by rw [here]; rfl) (handoff.passed u obj inDue before)]
  exact handoff.taken u obj ref here before

theorem Handoff.tested_step (threads : middle.threads = s.threads)
    (work : Work cfg s t (s.threads t) middle own) (u : ThreadId) :
    ∀ obj ref, ((finished s middle t own).threads u).pc = .rmRemove obj ref ∨
        ((finished s middle t own).threads u).pc = .rmTest obj ref →
      (middle.heap obj.node).value = .haveRemoved → ref = (middle.heap obj.node).gcRef + 1 := by
  revert u
  apply all_threads (P := fun _ th => ∀ obj ref, th.pc = .rmRemove obj ref ∨
    th.pc = .rmTest obj ref → (middle.heap obj.node).value = .haveRemoved →
      ref = (middle.heap obj.node).gcRef + 1) threads
  · rintro obj ref (removing | testing) removed
    · exact (work.popped obj ref removing).2.1
    have before := work.testing obj ref testing
    rcases work.removed obj.node removed with old | ⟨other, count, here, after, _, current⟩
    · rw [work.gcRef_tested testing (handoff.settled _ old)]
      exact handoff.tested t obj ref (Or.inl before) old
    · rw [before] at here
      cases here
      rw [work.gcRef_tested testing (handoff.passed t obj (by simp [due, before]) current)]
      exact handoff.taken t obj ref before current
  · intro u different obj ref here removed
    have holds : (s.threads u).pc.current = some obj := by
      rcases here with removing | testing
      · rw [removing]; rfl
      · rw [testing]; rfl
    rcases work.removed obj.node removed with old | ⟨other, count, mine, _, same, _⟩
    · rw [work.gcRef_other different holds (handoff.settled _ old)]
      exact handoff.tested u obj ref here old
    · -- the stepping thread removes the node, so no other thread works on it
      have current : (s.threads t).pc.current = some other := by rw [mine]; rfl
      exact absurd (handoff.alone u t obj other holds current same.symm) different

theorem Handoff.settled_step (births : Births s birth) (threads : middle.threads = s.threads)
    (work : Work cfg s t (s.threads t) middle own) (node : NodeId)
    (removed : (middle.heap node).value = .haveRemoved) :
    Settled (finished s middle t own) node := by
  rcases work.removed node removed with old | ⟨obj, ref, here, after, rfl, current⟩
  · exact work.settles threads (handoff.settled node old)
      fun record _ => births.present record old
  · apply (handoff.passed t obj (by simp [due, here]) current).step threads
    simp [uncounted, after]

theorem Handoff.unrequested_step (threads : middle.threads = s.threads)
    (work : Work cfg s t (s.threads t) middle own) (mem : node ∈ s.handed) (u : ThreadId) :
    ¬ inRequest ((finished s middle t own).threads u) node := by
  obtain ⟨_, settled, unrequested⟩ := handoff.final node mem
  revert u
  apply all_threads (P := fun _ th => ¬ inRequest th node) threads
  · rintro (⟨obj, queued, rfl⟩ | ⟨obj, holds, rfl⟩)
    · rcases work.queued obj queued with old | ⟨element, inQueue, rfl⟩
      · exact unrequested t (Or.inl ⟨obj, old, rfl⟩)
      · exact settled t element inQueue rfl
    cases here : own.pc with
    | rmRemove popped ref =>
      rw [here] at holds
      cases holds
      exact unrequested t (Or.inl ⟨obj, (work.popped _ _ here).1, rfl⟩)
    | rmTest tested ref =>
      rw [here] at holds
      cases holds
      exact unrequested t (Or.inr ⟨obj, by rw [work.testing _ _ here]; rfl, rfl⟩)
    | _ => simp [here, Pc.current] at holds
  · exact fun u _ => unrequested u

theorem Handoff.unrequested_last (threads : middle.threads = s.threads)
    (work : Work cfg s t (s.threads t) middle own) (here : (s.threads t).pc = .rmTest obj 1)
    (after : own.pc = .rmLoop) (removed : (s.heap obj.node).value = .haveRemoved) (u : ThreadId) :
    ¬ inRequest ((finished s middle t own).threads u) obj.node := by
  have count := handoff.tested t obj 1 (Or.inr here) removed
  have zero : counted cfg s obj.node = 0 := by
    have counts := handoff.counts obj.node
    omega
  have absent := absent_of_counted_zero handoff.guarded.outside zero
  revert u
  apply all_threads (P := fun _ th => ¬ inRequest th obj.node) threads
  · rintro (⟨other, queued, same⟩ | ⟨other, holds, _⟩)
    · rcases work.queued other queued with old | ⟨element, inQueue, rfl⟩
      · exact absent t other old same
      · simp [uncounted, here] at inQueue
    · simp [after, Pc.current] at holds
  · rintro u different (⟨other, queued, same⟩ | ⟨other, holds, same⟩)
    · exact absent u other queued same
    · have mine : (s.threads t).pc.current = some obj := by rw [here]; rfl
      exact different (handoff.alone u t other obj holds mine same)

theorem Handoff.final_step (births : Births s birth) (threads : middle.threads = s.threads)
    (spares : ∀ {node}, Spare s.main s.nextNode node → Spare middle.main middle.nextNode node)
    (work : Work cfg s t (s.threads t) middle own) (node : NodeId) (mem : node ∈ middle.handed) :
    Spare middle.main middle.nextNode node ∧ Settled (finished s middle t own) node ∧
      ∀ u, ¬ inRequest ((finished s middle t own).threads u) node := by
  have old : node ∈ s.handed → Spare middle.main middle.nextNode node ∧
      Settled (finished s middle t own) node ∧
        ∀ u, ¬ inRequest ((finished s middle t own).threads u) node := by
    intro before
    obtain ⟨spare, settled, _⟩ := handoff.final node before
    exact ⟨spares spare, work.settles threads settled fun record _ => spare.1 record,
      handoff.unrequested_step threads work before⟩
  rcases work.handed with same | ⟨obj, here, after, removed, grown⟩
  · exact old (same ▸ mem)
  rw [grown, List.mem_append, List.mem_singleton] at mem
  rcases mem with before | rfl
  · exact old before
  have live : ¬ s.main obj.node := fun record => births.present record removed
  have born := births.bounded ((births.refs t).current obj (by rw [here]; rfl))
  exact ⟨spares ⟨live, born⟩,
    work.settles threads (handoff.settled _ removed) fun record _ => live record,
    handoff.unrequested_last threads work here after removed⟩

theorem Handoff.once_step (work : Work cfg s t (s.threads t) middle own) : middle.handed.Nodup := by
  rcases work.handed with same | ⟨obj, here, _, _, grown⟩
  · rw [same]
    exact handoff.once
  rw [grown, List.nodup_append]
  refine ⟨handoff.once, List.nodup_singleton _, ?_⟩
  rintro node mem _ new rfl
  rw [List.mem_singleton] at new
  subst new
  exact (handoff.final _ mem).2.2 t (Or.inr ⟨obj, by rw [here]; rfl, rfl⟩)

theorem Handoff.kept_step (threads : middle.threads = s.threads)
    (work : Work cfg s t (s.threads t) middle own)
    (counts : ∀ node, (middle.heap node).gcRef = counted cfg (finished s middle t own) node)
    (node : NodeId) (removed : (middle.heap node).value = .haveRemoved) :
    node ∈ middle.handed ∨
      (∃ u, ∃ obj ∈ ((finished s middle t own).threads u).rmlist, obj.node = node) ∨
      ∃ u obj, obj.node = node ∧ (((finished s middle t own).threads u).pc = .rmRemove obj 1 ∨
        ((finished s middle t own).threads u).pc = .rmTest obj 1) := by
  -- a thread that took the count has the last request, or more are queued
  have lastOrMore : ∀ {obj : RMObj} {ref : Int}, obj.node = node →
      ref = (middle.heap node).gcRef + 1 → (own.pc = .rmRemove obj ref ∨ own.pc = .rmTest obj ref) →
      (∃ u, ∃ obj ∈ ((finished s middle t own).threads u).rmlist, obj.node = node) ∨
      ∃ u obj, obj.node = node ∧ (((finished s middle t own).threads u).pc = .rmRemove obj 1 ∨
        ((finished s middle t own).threads u).pc = .rmTest obj 1) := by
    intro obj ref same count here
    rcases Nat.eq_zero_or_pos (counted cfg (finished s middle t own) node) with zero | more
    · right
      have one : ref = 1 := by
        have total := counts node
        omega
      refine ⟨t, obj, same, ?_⟩
      rw [finished_self]
      exact one ▸ here
    · exact Or.inl (exists_of_counted_pos more)
  rcases work.removed node removed with old | ⟨obj, ref, here, after, same, current⟩
  · rcases handoff.kept node old with handed | ⟨u, obj, mem, same⟩ | ⟨u, obj, same, here⟩
    · left
      rcases work.handed with unchanged | ⟨_, _, _, _, grown⟩
      · exact unchanged ▸ handed
      · exact grown ▸ List.mem_append_left _ handed
    · right
      by_cases self : u = t
      · subst self
        rcases work.dropped obj mem with stays | popped
        · exact Or.inl ⟨u, obj, by rwa [finished_self], same⟩
        · exact lastOrMore same (same ▸ rfl) (Or.inl popped)
      · exact Or.inl ⟨u, obj, by rwa [finished_other threads self], same⟩
    · by_cases self : u = t
      · subst self
        rcases work.last obj here (same ▸ old) with tests | handed
        · exact Or.inr (Or.inr ⟨u, obj, same, by rw [finished_self]; exact Or.inr tests⟩)
        · exact Or.inl (same ▸ handed)
      · exact Or.inr (Or.inr ⟨u, obj, same, by rwa [finished_other threads self]⟩)
  · right
    apply lastOrMore same _ (Or.inr after)
    subst same
    rw [work.gcRef_tested after (handoff.passed t obj (by simp [due, here]) current)]
    exact handoff.taken t obj ref here current

theorem Handoff.pooled_step (births : Births s birth)
    (taken : Step cfg s t (s.threads t) middle own) (work : Work cfg s t (s.threads t) middle own)
    (u : ThreadId) :
    Pools (fun node => (middle.heap node).value = .haveRemoved → node ∈ middle.handed)
      ((finished s middle t own).threads u) := by
  have grows : ∀ {node}, node ∈ s.handed → node ∈ middle.handed := by
    intro node mem
    rcases work.handed with same | ⟨_, _, _, _, grown⟩
    · exact same ▸ mem
    · exact grown ▸ List.mem_append_left _ mem
  have keeps : ∀ {node}, Spare s.main s.nextNode node →
      ((s.heap node).value = .haveRemoved → node ∈ s.handed) →
      (middle.heap node).value = .haveRemoved → node ∈ middle.handed := by
    intro node spare before removed
    rcases work.removed node removed with old | ⟨obj, ref, here, _, rfl, current⟩
    · exact grows (before old)
    · -- what is removed now was a record
      rcases (handoff.guarded.agrees t).current obj (by rw [here]; rfl) with mapped | gone
      · exact absurd ⟨_, _, mapped⟩ spare.1
      · exact grows (before gone)
  have pools : ∀ v, Pools (fun node => (middle.heap node).value = .haveRemoved →
      node ∈ middle.handed) (s.threads v) := fun v =>
    { pooled := fun tableid node mem => keeps ((births.pools v).pooled tableid node mem)
        ((handoff.pooled v).pooled tableid node mem)
      dummies := fun pc kv mem dummy linked =>
        keeps ((births.pools v).dummies pc kv mem dummy linked)
          ((handoff.pooled v).dummies pc kv mem dummy linked) }
  revert u
  apply all_threads (P := fun _ th => Pools (fun node => (middle.heap node).value = .haveRemoved →
    node ∈ middle.handed) th) (step_threads taken)
  · apply step_pools (pools t) taken
    · intro ws pc written shared owned
      obtain ⟨_, _, valid, _⟩ := step_collects taken (by rw [owned]; rfl)
      have entries := handoff.guarded.commit_entries pc valid
      constructor
      case pooled =>
        exact fun tableid node mem =>
          (pools t).pooled tableid node (write_pooled written tableid node mem)
      case dummies =>
        intro _ kv mem dummy linked
        rcases write_linked (births.separate t) (fun kv inSet => ⟨_, _, (entries kv inSet).mapped⟩)
          (fun kv inSet => (entries kv inSet).plain) rfl written mem linked with
          ⟨tableid, free⟩ | new
        · exact (pools t).pooled tableid dummy (Or.inl free)
        intro removed
        rcases work.removed dummy removed with old | ⟨obj, ref, here, _⟩
        · rw [births.unused dummy new] at old
          cases old
        · simp [pc] at here
    · intro obj pc removed _
      rcases work.last obj (Or.inr pc) removed with tests | handed
      · have before := work.testing obj 1 tests
        simp [pc] at before
      · exact handed
  · exact fun v _ => pools v

theorem Handoff.reused_unrequested (pc : (s.threads t).pc = .body)
    (valid : endValid s (s.threads t) = true) (node : NodeId) (mem : node ∈ reused s t)
    (u : ThreadId) : ¬ inRequest (s.threads u) node := by
  obtain ⟨birth, births⟩ := handoff.guarded.births
  obtain ⟨tableid, free⟩ := handoff.guarded.reused_free pc valid mem
  have spare := (births.pools t).pooled tableid node (Or.inl free)
  intro requested
  have current : ∃ tableid key, Current s tableid key node := by
    rcases requested with ⟨obj, queued, rfl⟩ | ⟨obj, holds, rfl⟩
    · exact ⟨_, _, (handoff.guarded.agrees u).queued obj queued⟩
    · exact ⟨_, _, (handoff.guarded.agrees u).current obj holds⟩
  obtain ⟨owner, key, mapped | removed⟩ := current
  · exact spare.1 ⟨owner, key, mapped⟩
  · have handed := (handoff.pooled t).pooled tableid node (Or.inl free) removed
    exact (handoff.final node handed).2.2 u requested

end

theorem step_spare (births : Births s birth) (taken : Step cfg s t (s.threads t) middle own)
    (spare : Spare s.main s.nextNode node) : Spare middle.main middle.nextNode node := by
  rcases step_outcome births.unused taken with
    quiet | ⟨ws, pc, _, written, rfl, rfl⟩ | ⟨obj, ref, gone, pc, _, mapped, rfl, rfl⟩
  · exact quiet.grows.spare spare
  · exact ⟨spare.1, lt_of_lt_of_le spare.2 (births.commit_effect pc written).grows⟩
  · refine ⟨?_, spare.2⟩
    rintro ⟨tableid, key, here⟩
    exact spare.1 ⟨tableid, key, (births.unmapped_main pc mapped here).1⟩

end Steps

def reusesBuffered (s : State) (act : ThreadId × Act) : Prop :=
  act.2 = .call .finish ∧ endValid s (s.threads act.1) = true ∧
    ∃ node ∈ reused s act.1, ∃ u, inBuffer (s.threads u) node

variable {cfg : Config} {s next : State} {t : ThreadId} {act : Act} {node : NodeId}

theorem finish_body (taken : step cfg s (t, .call .finish) = some next) :
    (s.threads t).pc = .body := by
  unfold step at taken
  split at taken
  · obtain ⟨_, performed, _⟩ := Option.map_eq_some_iff.mp taken
    simp only [perform, Op.inBounds, if_true, call] at performed
    split at performed
    · assumption
    · cases performed
  · cases taken

theorem Handoff.unpointed (handoff : Handoff cfg s) (unused : ¬ reusesBuffered s (t, act))
    (taken : step cfg s (t, act) = some next) : ¬ reusesPointed s (t, act) := by
  rintro ⟨rfl, valid, node, mem, u, buffered | requested⟩
  · exact unused ⟨rfl, valid, node, mem, u, buffered⟩
  · exact handoff.reused_unrequested (finish_body taken) valid node mem u requested

variable {middle : State} {own : Thread}

theorem Handoff.work (handoff : Handoff cfg s) (single : ¬ overlaps cfg s (t, act))
    (outcome : Step cfg s t (s.threads t) middle own) : Work cfg s t (s.threads t) middle own := by
  obtain ⟨birth, births⟩ := handoff.guarded.births
  apply step_work births handoff.guarded handoff.counts outcome
  · intro collects
    obtain ⟨_, pc, valid, _⟩ := step_collects outcome collects
    exact handoff.reused_unrequested pc valid
  intro obj rest pc queued u different other holds same
  have inside : u < cfg.thrs := by
    by_contra above
    rw [handoff.guarded.outside u (Nat.le_of_not_lt above)] at holds
    cases holds
  apply single
  simp only [overlaps, pc, queued]
  exact ⟨u, inside, different, by rw [holds, Option.map_some, same]⟩

theorem step_handoff (handoff : Handoff cfg s) (unused : ¬ reusesBuffered s (t, act))
    (single : ¬ overlaps cfg s (t, act)) (taken : step cfg s (t, act) = some next) :
    Handoff cfg next := by
  have admitted := handoff.unpointed unused taken
  have guarded := step_guarded handoff.guarded admitted taken
  obtain ⟨birth, births⟩ := handoff.guarded.births
  obtain ⟨inRange, middle, own, outcome, rfl⟩ := step_cases taken
  have threads := step_threads outcome
  have carries := handoff.guarded.carries admitted taken outcome
  have work := handoff.work single outcome
  have counts : ∀ node,
      (middle.heap node).gcRef = counted cfg (finished s middle t own) node := by
    intro node
    have total := counted_finished own inRange threads node
    have before := handoff.counts node
    have change := work.counts node
    omega
  have once := handoff.once_step work
  exact
    { guarded := guarded
      pooled := handoff.pooled_step births outcome work
      counts := counts
      alone := by
        intro u v obj other first second same
        by_contra different
        by_cases self : u = t
        · subst self
          have others : v ≠ u := fun here => different here.symm
          rw [finished_self] at first
          rw [finished_other threads others] at second
          exact work.apart handoff others first second same.symm
        · rw [finished_other threads self] at first
          by_cases also : v = t
          · subst also
            rw [finished_self] at second
            exact work.apart handoff self second first same
          · rw [finished_other threads also] at second
            exact different (handoff.alone u v obj other first second same)
      taken := handoff.taken_step carries threads work
      tested := handoff.tested_step threads work
      settled := handoff.settled_step births threads work
      waiting := handoff.waiting_step carries threads work
      passed := handoff.passed_step carries threads work
      once := once
      final := handoff.final_step births threads (step_spare births outcome) work
      kept := handoff.kept_step threads work counts }

/-! ### Main result -/

theorem Found.marks {tableid : TableId} {key : Key} (found : Found s tableid key node next)
    (fresh : ∀ other, (s.heap other).gcRef = 0 ∧ (s.heap other).value ≠ .haveRemoved)
    (other : NodeId) : (next.heap other).gcRef = 0 ∧ (next.heap other).value ≠ .haveRemoved := by
  cases found with
  | present mapped => exact fresh other
  | inserted absent =>
    by_cases new : other = s.nextNode
    · subst new
      simp [insertNode]
    · simp only [insertNode, Function.update_of_ne new]
      exact fresh other

theorem loaded_marks (records : List (TableId × Key × Ptr)) (node : NodeId) :
    ((loaded records).heap node).gcRef = 0 ∧
      ((loaded records).heap node).value ≠ .haveRemoved := by
  induction records using List.reverseRecOn generalizing node with
  | nil => simp [loaded]
  | append_singleton rest record ih =>
    rw [loaded, List.foldl_append]
    show ((put (loaded rest) record.1 record.2.1 record.2.2).heap node).gcRef = 0 ∧
      ((put (loaded rest) record.1 record.2.1 record.2.2).heap node).value ≠ .haveRemoved
    have found := getWithInsert_found (acquire (loaded rest) record.2.2) record.1 record.2.1
    have fresh := found.marks ih
    by_cases here : node = (getWithInsert (acquire (loaded rest) record.2.2) record.1 record.2.1).1
    · subst here
      simp only [put, Function.update_self]
      exact ⟨(fresh _).1, by simp⟩
    · simp only [put, Function.update_of_ne here]
      exact fresh node

theorem loaded_handoff (cfg : Config) (records : List (TableId × Key × Ptr)) :
    Handoff cfg (loaded records) := by
  have fresh := loaded_threads records
  have present := fun node => (loaded_marks records node).2
  have handed : (loaded records).handed = [] := by
    obtain ⟨_, _, _, _, _, _, fields⟩ := loaded_fields records
    rw [fields]
  constructor
  case guarded => exact loaded_guarded cfg records
  case pooled =>
    intro u
    exact ⟨fun _ node _ removed => absurd removed (present node),
      fun _ _ _ node _ removed => absurd removed (present node)⟩
  case counts =>
    intro node
    rw [(loaded_marks records node).1, counted_eq_zero (by simp [fresh])]
    rfl
  case alone => simp [fresh, Pc.current]
  case taken => simp [fresh]
  case tested => simp [fresh]
  case settled => exact fun node removed => absurd removed (present node)
  case waiting => simp [fresh]
  case passed => simp [fresh, due]
  case once => simp [handed]
  case final => simp [handed]
  case kept => exact fun node removed => absurd removed (present node)

theorem Handoff.removed_step (handoff : Handoff cfg s)
    (taken : Step cfg s t (s.threads t) middle own) (work : Work cfg s t (s.threads t) middle own)
    (gone : node ∈ s.handed ∨ (s.heap node).value = .haveRemoved) :
    node ∈ middle.handed ∨ (middle.heap node).value = .haveRemoved := by
  obtain ⟨birth, births⟩ := handoff.guarded.births
  rcases gone with handed | removed
  · left
    rcases work.handed with same | ⟨_, _, _, _, grown⟩
    · exact same ▸ handed
    · exact grown ▸ List.mem_append_left _ handed
  rcases step_outcome births.unused taken with
    quiet | ⟨ws, pc, valid, written, rfl, rfl⟩ | ⟨obj, ref, mapped, pc, current, here, rfl, rfl⟩
  · exact Or.inr ((quiet.record node).value.trans removed)
  · by_cases taken : node ∈ reused s t
    · left
      obtain ⟨tableid, free⟩ := handoff.guarded.reused_free pc valid taken
      exact (handoff.pooled t).pooled tableid node (Or.inl free) removed
    · right
      show (ws.heap node).value = .haveRemoved
      rw [handoff.guarded.commit_kept pc valid written removed taken, removed]
  · right
    obtain ⟨rfl, _⟩ := handoff.guarded.carries_remove pc current here
    by_cases same : node = obj.node
    · subst same
      simp [unmapped]
    · rwa [unmapped_record s obj obj.node same same]

/-- In every run in which no commit reuses a node that a buffer points to, and no
thread takes the count of a node that another thread is processing: no node is
handed over twice, and a node that was marked as removed has been handed over
exactly once when no request for it is left. -/
theorem handed_once (cfg : Config) (records : List (TableId × Key × Ptr))
    (first second : List (ThreadId × Act)) (middle final : State)
    (admitted : Execution.Each (step cfg)
      (fun s act => ¬ reusesBuffered s act ∧ ¬ overlaps cfg s act) (loaded records)
      (first ++ second))
    (marked : Execution.run (step cfg) (loaded records) first = some middle)
    (reached : Execution.run (step cfg) middle second = some final) (node : NodeId) :
    final.handed.count node ≤ 1 ∧
      ((middle.heap node).value = .haveRemoved → (∀ u, ¬ inRequest (final.threads u) node) →
        final.handed.count node = 1) := by
  obtain ⟨before, after⟩ := (Execution.each_append marked).mp admitted
  have start : Handoff cfg middle := Execution.run_preserves
    (fun _ _ _ handoff allowed taken => step_handoff handoff allowed.1 allowed.2 taken)
    (loaded_handoff cfg records) before marked
  have preserved : ∀ (s : State) (act : ThreadId × Act) (next : State),
      Handoff cfg s ∧ ((middle.heap node).value = .haveRemoved →
        node ∈ s.handed ∨ (s.heap node).value = .haveRemoved) →
      (¬ reusesBuffered s act ∧ ¬ overlaps cfg s act) → step cfg s act = some next →
      Handoff cfg next ∧ ((middle.heap node).value = .haveRemoved →
        node ∈ next.handed ∨ (next.heap node).value = .haveRemoved) := by
    rintro s ⟨t, act⟩ next ⟨handoff, gone⟩ ⟨unused, single⟩ taken
    refine ⟨step_handoff handoff unused single taken, ?_⟩
    intro removed
    obtain ⟨_, _, _, outcome, rfl⟩ := step_cases taken
    have still := handoff.removed_step outcome (handoff.work single outcome) (gone removed)
    exact still
  obtain ⟨handoff, gone⟩ := Execution.run_preserves preserved ⟨start, Or.inr⟩ after reached
  refine ⟨List.nodup_iff_count_le_one.mp handoff.once node, ?_⟩
  intro removed unrequested
  apply List.count_eq_one_of_mem handoff.once
  rcases gone removed with handed | marked
  · exact handed
  · rcases handoff.kept node marked with handed | ⟨u, obj, queued, same⟩ | ⟨u, obj, same, here⟩
    · exact handed
    · exact absurd (Or.inl ⟨obj, queued, same⟩) (unrequested u)
    · refine absurd (Or.inr ⟨obj, ?_, same⟩) (unrequested u)
      rcases here with removing | testing
      · rw [removing]; rfl
      · rw [testing]; rfl

def clearOf (th : Thread) (node : NodeId) : Bool :=
  (th.rmlist.all fun obj => decide (obj.node ≠ node)) && th.pc.current.isNone &&
    (uncounted th).isEmpty

theorem clearOf_requests {th : Thread} (clear : clearOf th node = true) :
    ¬ inRequest th node ∧ uncounted th = [] := by
  simp only [clearOf, Bool.and_eq_true, List.all_eq_true, decide_eq_true_eq,
    Option.isNone_iff_eq_none, List.isEmpty_iff] at clear
  obtain ⟨⟨queued, current⟩, registered⟩ := clear
  refine ⟨?_, registered⟩
  rintro (⟨obj, mem, same⟩ | ⟨obj, holds, _⟩)
  · exact queued obj mem same
  · rw [current] at holds
    cases holds

theorem clear_all {records : List (TableId × Key × Ptr)} {acts : List (ThreadId × Act)}
    {final : State} (reached : run (step shipped) (loaded records) acts = some final)
    (first : clearOf (final.threads 0) node = true) (second : clearOf (final.threads 1) node = true)
    (u : ThreadId) : ¬ inRequest (final.threads u) node ∧ uncounted (final.threads u) = [] := by
  match u with
  | 0 => exact clearOf_requests first
  | 1 => exact clearOf_requests second
  | n + 2 =>
    rw [run_outside reached (Nat.le_add_left 2 n)]
    simp [inRequest, Pc.current, uncounted]

def undisturbed (s : State) (act : ThreadId × Act) : Prop :=
  (act.2 = .call .finish → reused s act.1 = []) ∧ ¬ overlaps shipped s act

instance (s : State) (act : ThreadId × Act) : Decidable (undisturbed s act) :=
  inferInstanceAs (Decidable (_ ∧ _))

theorem undisturbed_admitted (s : State) (act : ThreadId × Act) (holds : undisturbed s act) :
    ¬ reusesBuffered s act ∧ ¬ overlaps shipped s act := by
  refine ⟨?_, holds.2⟩
  rintro ⟨finish, _, node, mem, _⟩
  rw [holds.1 finish] at mem
  cases mem

def removing : List (ThreadId × Act) :=
  transaction 0 (adding 0 5 (.given 10) 3) 0 ++ transaction 0 (churn 0 5 50) 50 ++
    transaction 0 (churn 0 5 50) 50 ++ ticks 0 4

theorem handed_once_removing : ∃ middle final,
    Execution.run (step shipped) (loaded []) removing = some middle ∧
      Execution.run (step shipped) middle (ticks 0 298) = some final ∧
      (middle.heap 0).value = .haveRemoved ∧ (∀ u, ¬ inRequest (final.threads u) 0) ∧
      final.handed.count 0 = 1 := by
  have seen : (Execution.checkedRun (step shipped) undisturbed (loaded []) removing).bind (fun middle =>
      (Execution.checkedRun (step shipped) undisturbed middle (ticks 0 298)).map fun final => decide
        ((middle.heap 0).value = .haveRemoved ∧ clearOf (final.threads 0) 0 = true ∧
          clearOf (final.threads 1) 0 = true)) = some true := by
    decide +kernel
  obtain ⟨middle, first, rest⟩ := Option.bind_eq_some_iff.mp seen
  obtain ⟨final, second, holds⟩ := Option.map_eq_some_iff.mp rest
  obtain ⟨removed, zero, one⟩ := of_decide_eq_true holds
  obtain ⟨marked, before⟩ := Execution.checkedRun_iff.mp first
  obtain ⟨reached, after⟩ := Execution.checkedRun_iff.mp second
  have whole : Execution.run (step shipped) (loaded []) (removing ++ ticks 0 298) = some final := by
    rw [Execution.run_append, marked, Option.bind_some, reached]
  have unrequested := fun u => (clear_all whole zero one u).1
  refine ⟨middle, final, marked, reached, removed, unrequested, ?_⟩
  exact (handed_once shipped [] removing (ticks 0 298) middle final
    (Execution.each_mono undisturbed_admitted ((Execution.each_append marked).mpr ⟨before, after⟩))
    marked reached 0).2 removed unrequested

/-! ### Two threads at one node -/

def crowded : List (ThreadId × Act) :=
  transaction 0 (adding 0 5 (.given 10) 3) 0 ++ transaction 0 (churn 0 5 50) 50 ++
    transaction 0 (churn 0 5 50 ++ adding 0 5 .copied 2) 50 ++ ticks 0 298 ++
    transaction 1 (adding 1 8 (.given 11) 3) 0 ++ transaction 1 (churn 1 8 50) 50 ++
    transaction 1 (churn 1 8 49) 49

def twice : List (ThreadId × Act) :=
  ticks 0 1 ++ transaction 1 (adding 1 5 .deleted 3) 1 ++ ticks 1 4 ++ ticks 0 2

def never : List (ThreadId × Act) :=
  transaction 1 (adding 1 5 .deleted 3) 1 ++ ticks 1 2 ++ ticks 0 3 ++ ticks 1 2

theorem handed_twice_or_never :
    (∃ acts final, Execution.run (step shipped) (loaded []) acts = some final ∧
      final.handed.count 0 = 2) ∧
    ∃ acts final, Execution.run (step shipped) (loaded []) acts = some final ∧
      (final.heap 0).value = .haveRemoved ∧ 0 ∉ final.handed ∧
      ∀ u, ¬ inRequest (final.threads u) 0 ∧ uncounted (final.threads u) = [] := by
  have seen : (Execution.run (step shipped) (loaded []) crowded).bind (fun s =>
      (Execution.run (step shipped) s twice).bind fun double =>
        (Execution.run (step shipped) s never).map fun leak => decide
          (double.handed.count 0 = 2 ∧ (leak.heap 0).value = .haveRemoved ∧ 0 ∉ leak.handed ∧
            clearOf (leak.threads 0) 0 = true ∧ clearOf (leak.threads 1) 0 = true)) =
      some true := by
    decide +kernel
  obtain ⟨s, prepared, rest⟩ := Option.bind_eq_some_iff.mp seen
  obtain ⟨double, handedTwice, last⟩ := Option.bind_eq_some_iff.mp rest
  obtain ⟨leak, leaked, holds⟩ := Option.map_eq_some_iff.mp last
  obtain ⟨count, removed, kept, zero, one⟩ := of_decide_eq_true holds
  have first : Execution.run (step shipped) (loaded []) (crowded ++ twice) = some double := by
    rw [Execution.run_append, prepared, Option.bind_some, handedTwice]
  have second : Execution.run (step shipped) (loaded []) (crowded ++ never) = some leak := by
    rw [Execution.run_append, prepared, Option.bind_some, leaked]
  exact ⟨⟨_, double, first, count⟩, _, leak, second, removed, kept, clear_all second zero one⟩

end EunoDb.Machine
