import EunoDb.Layout

/-! A collection moves only objects retired before every running transaction began. -/

namespace EunoDb.Machine

open Memstore TxSets

def Old (s : State) (stamp : Nat) : Prop :=
  ∀ v, (s.threads v).pc.active = true → stamp ≤ (s.threads v).began

/-! ### Times -/

structure Clocks (cfg : Config) (s : State) : Prop where
  idle : ∀ u, cfg.thrs ≤ u → (s.threads u).pc = .idle
  began : ∀ u, (s.threads u).began < s.clock
  nodeRetired : ∀ node, s.nodeRetired node < s.clock
  nodeRecycled : ∀ node, s.nodeRecycled node < s.clock
  valueRetired : ∀ object, s.valueRetired object < s.clock
  valueRecycled : ∀ object, s.valueRecycled object < s.clock

structure Stamps (s middle : State) : Prop where
  nodeRetired : ∀ node,
    middle.nodeRetired node = s.nodeRetired node ∨ middle.nodeRetired node = s.clock
  nodeRecycled : ∀ node,
    middle.nodeRecycled node = s.nodeRecycled node ∨ middle.nodeRecycled node = s.clock
  valueRetired : ∀ object,
    middle.valueRetired object = s.valueRetired object ∨ middle.valueRetired object = s.clock
  valueRecycled : ∀ object,
    middle.valueRecycled object = s.valueRecycled object ∨ middle.valueRecycled object = s.clock

variable {s middle : State} {th : Thread} {tableid : TableId} {cfg : Config} {t : ThreadId}
  {pools : TableId → ObjPool} {stamp : Nat → Nat}

theorem stamps_same (nodeRetired : middle.nodeRetired = s.nodeRetired)
    (nodeRecycled : middle.nodeRecycled = s.nodeRecycled)
    (valueRetired : middle.valueRetired = s.valueRetired)
    (valueRecycled : middle.valueRecycled = s.valueRecycled) : Stamps s middle where
  nodeRetired := fun node => Or.inl (congrFun nodeRetired node)
  nodeRecycled := fun node => Or.inl (congrFun nodeRecycled node)
  valueRetired := fun object => Or.inl (congrFun valueRetired object)
  valueRecycled := fun object => Or.inl (congrFun valueRecycled object)

theorem ite_stamp {c : Prop} [Decidable c] (now before : Nat) :
    (if c then now else before) = before ∨ (if c then now else before) = now := by
  by_cases holds : c <;> simp [holds]

variable {next : State} {payload : Payload} {val : Value} {after : TableId → ObjPool}
  {waited : ThreadId → Option Nat} {gcounter : Nat} {ws : WriteState} {node : NodeId} {pc : Pc}

theorem payloadValue_stamps {own : Thread}
    (chosen : payloadValue s th tableid payload = (val, next, own)) : Stamps s next := by
  cases payload with
  | given object | deleted =>
    cases chosen
    exact stamps_same rfl rfl rfl rfl
  | copied =>
    simp only [payloadValue] at chosen
    split at chosen
    · rename_i reused pool _
      cases chosen
      refine ⟨fun _ => Or.inl rfl, fun _ => Or.inl rfl, fun _ => Or.inl rfl, ?_⟩
      intro object
      by_cases same : object = reused
      · exact Or.inr (by simp [same])
      · exact Or.inl (by simp [same])
    · cases chosen
      exact stamps_same rfl rfl rfl rfl

theorem step_stamps {own : Thread} (taken : Step cfg s t th middle own) : Stamps s middle := by
  cases taken with
  | commit pc valid written =>
    exact ⟨fun _ => ite_stamp _ _, fun _ => ite_stamp _ _, fun _ => ite_stamp _ _,
      fun _ => Or.inl rfl⟩
  | getFind pc found | addInsert pc buffers found | addInsertCopied pc found =>
    cases found <;> exact stamps_same rfl rfl rfl rfl
  | addCheck pc present chosen => exact payloadValue_stamps chosen
  | gcMove pc past =>
    exact ⟨fun _ => Or.inl rfl, fun _ => ite_stamp _ _, fun _ => Or.inl rfl,
      fun _ => ite_stamp _ _⟩
  | _ => exact stamps_same rfl rfl rfl rfl

theorem step_active {own : Thread} (taken : Step cfg s t th middle own)
    (active : own.pc.active = true) :
    th.pc.active = true ∧ own.began = th.began ∧ own.epoch = th.epoch ∨ own.began = s.clock := by
  cases taken with
  | begin pc | roBegin pc => exact Or.inr rfl
  | addCheck pc present chosen =>
    obtain ⟨_, rfl⟩ := payloadValue_own chosen
    exact Or.inl ⟨by rw [pc]; rfl, rfl, rfl⟩
  | endCollect pc =>
    obtain ⟨_, _, _, fields⟩ := collect_fields s.heap th.writeset th
    unfold collectOldVersions
    rw [fields]
    exact Or.inl ⟨by rw [pc]; rfl, rfl, rfl⟩
  | _ => exact Or.inl ⟨by simp_all [Pc.active], rfl, rfl⟩

theorem step_began {own : Thread} (taken : Step cfg s t th middle own) :
    own.began = th.began ∨ own.began = s.clock := by
  cases taken with
  | begin pc | roBegin pc => exact Or.inr rfl
  | addCheck pc present chosen =>
    obtain ⟨_, rfl⟩ := payloadValue_own chosen
    exact Or.inl rfl
  | endCollect pc =>
    obtain ⟨_, _, _, fields⟩ := collect_fields s.heap th.writeset th
    unfold collectOldVersions
    rw [fields]
    exact Or.inl rfl
  | _ => exact Or.inl rfl

theorem step_clocks {own : Thread} (clocks : Clocks cfg s) (inRange : t < cfg.thrs)
    (taken : Step cfg s t (s.threads t) middle own) : Clocks cfg (finished s middle t own) := by
  have stamps := step_stamps taken
  have threads := step_threads taken
  have bump : ∀ {before after : Nat}, before < s.clock → after = before ∨ after = s.clock →
      after < s.clock + 1 := by
    intro before after below outcome
    omega
  constructor
  · intro u outside
    have different : u ≠ t := Nat.ne_of_gt (lt_of_lt_of_le inRange outside)
    simp only [finished, State.setThread, Function.update_of_ne different, threads]
    exact clocks.idle u outside
  · apply all_threads (P := fun _ th => th.began < s.clock + 1) threads
    · exact bump (clocks.began t) (step_began taken)
    · exact fun u _ => Nat.lt_succ_of_lt (clocks.began u)
  · exact fun node => bump (clocks.nodeRetired node) (stamps.nodeRetired node)
  · exact fun node => bump (clocks.nodeRecycled node) (stamps.nodeRecycled node)
  · exact fun object => bump (clocks.valueRetired object) (stamps.valueRetired object)
  · exact fun object => bump (clocks.valueRecycled object) (stamps.valueRecycled object)

theorem Old.step {own : Thread} {stamp : Nat} (old : Old s stamp) (past : stamp ≤ s.clock)
    (taken : Step cfg s t (s.threads t) middle own) : Old (finished s middle t own) stamp := by
  apply all_threads (P := fun _ th => th.pc.active = true → stamp ≤ th.began) (step_threads taken)
  · intro active
    rcases step_active taken active with ⟨before, same, _⟩ | now
    · exact same ▸ old t before
    · exact now ▸ past
  · exact fun u _ => old u

/-! ### Pools -/

structure Graced (s : State) (pc : Pc) (pools : TableId → ObjPool) (stamp : Nat → Nat) :
    Prop where
  free : ∀ tableid, ∀ object ∈ (pools tableid).freelist, Old s (stamp object)
  waiting : ∀ waited, pc = .gcWait waited → ∀ tableid, ∀ object ∈ (pools tableid).retired,
    ∀ v, (s.threads v).pc.active = true →
      stamp object ≤ (s.threads v).began ∨ waited v = some (s.threads v).epoch

structure PoolStep (cfg : Config) (s : State) (t : ThreadId) (th own : Thread)
    (pools after : TableId → ObjPool) : Prop where
  free : ∀ tableid, ∀ object ∈ (after tableid).freelist, object ∈ (pools tableid).freelist ∨
    object ∈ (pools tableid).retired ∧
      ∃ waited, th.pc = .gcWait waited ∧ waitOver cfg s waited = true
  waiting : ∀ waited, own.pc = .gcWait waited → waited = runningNow cfg s t ∧ after = pools

theorem poolStep_same {own : Thread} (same : after = pools)
    (start : ∀ waited, own.pc = .gcWait waited → waited = runningNow cfg s t) :
    PoolStep cfg s t th own pools after where
  free := fun _ _ mem => Or.inl (same ▸ mem)
  waiting := fun waited pc => ⟨start waited pc, same⟩

theorem poolStep_gc {own : Thread} (pc : th.pc = .gcWait waited)
    (past : waitOver cfg s waited = true) (left : ∀ waited, own.pc ≠ .gcWait waited) :
    PoolStep cfg s t th own pools (gcPool cfg pools) where
  free := fun _ _ mem =>
    (recycled_or_free (Or.inl mem)).imp_right fun retired => ⟨retired, waited, pc, past⟩
  waiting := fun waited waits => absurd waits (left waited)

theorem writeEntry_freelist {after : WriteState} {kv : WSKV}
    (written : writeEntry gcounter ws kv = .ok after) (tableid : TableId)
    (mem : node ∈ (after.memnodesPool tableid).freelist) :
    node ∈ (ws.memnodesPool tableid).freelist := by
  obtain ⟨queue, _, ⟨_, rfl⟩ | ⟨_, _, rfl⟩⟩ := writeEntry_cases written
  · exact mem
  cases taken : getMemNode ws kv.tableid with
  | mk dummy middle =>
    simp only [writeNewVersion, taken] at mem
    rcases (getMemNode_pools taken).2 with ⟨popped, others, _⟩ | ⟨same, _, _⟩
    · by_cases here : tableid = kv.tableid
      · rw [here] at mem ⊢
        rw [popped]
        exact List.mem_cons_of_mem dummy mem
      · rwa [others tableid here] at mem
    · rwa [same] at mem

theorem write_freelist {after : WriteState} {kvs : List WSKV}
    (written : write gcounter ws kvs = .ok after) (tableid : TableId)
    (mem : node ∈ (after.memnodesPool tableid).freelist) :
    node ∈ (ws.memnodesPool tableid).freelist := by
  have kept := write_rule
    (P := fun _ state => ∀ node, node ∈ (state.memnodesPool tableid).freelist →
      node ∈ (ws.memnodesPool tableid).freelist)
    (fun kv rest state later before entry node mem =>
      before node (writeEntry_freelist entry tableid mem))
    (fun _ mem => mem) written
  exact kept node mem

theorem step_memnodesPool {own : Thread} (taken : Step cfg s t th middle own) :
    PoolStep cfg s t th own th.memnodesPool own.memnodesPool := by
  cases taken with
  | commit pc valid written =>
    exact ⟨fun tableid object mem => Or.inl (write_freelist written tableid mem),
      by simp [ended]⟩
  | addCheck pc present chosen =>
    obtain ⟨_, rfl⟩ := payloadValue_own chosen
    exact poolStep_same rfl (by simp)
  | endCollect pc =>
    refine ⟨fun tableid object mem => Or.inl ?_, by simp⟩
    exact (collect_memnodesPool s.heap th.writeset th tableid).1 ▸ mem
  | gcMove pc past => exact poolStep_gc pc past (by simp)
  | gcStart pc many => exact poolStep_same rfl (by simp [eq_comm])
  | @rmHand obj pc removed =>
    refine ⟨fun tableid object mem => Or.inl ?_, by simp⟩
    by_cases same : tableid = obj.tableid
    · rw [same] at mem ⊢
      simpa [addDeletedNode] using mem
    · simpa [addDeletedNode, same] using mem
  | iterValue pc cursor => exact poolStep_same rfl (by simp [setBuffer, pc])
  | getOwn pc own | getAbsent pc invalid | getRead pc =>
    exact poolStep_same rfl (by simp [finishGet])
  | _ => exact poolStep_same rfl (by simp)

theorem payloadValue_freelist {own : Thread}
    (chosen : payloadValue s th tableid payload = (val, next, own)) (other : TableId) {object : Ptr}
    (mem : object ∈ (own.valuesPool other).freelist) :
    object ∈ (th.valuesPool other).freelist := by
  cases payload with
  | given object | deleted =>
    cases chosen
    exact mem
  | copied =>
    simp only [payloadValue] at chosen
    split at chosen
    · rename_i popped
      cases chosen
      by_cases same : other = tableid
      · subst other
        simp only [Function.update_self] at mem
        rw [(ObjPool.getFreeObj_some popped).1]
        exact List.mem_cons_of_mem _ mem
      · simpa only [Function.update_of_ne same] using mem
    · cases chosen
      exact mem

theorem step_valuesPool {own : Thread} (taken : Step cfg s t th middle own) :
    PoolStep cfg s t th own th.valuesPool own.valuesPool := by
  cases taken with
  | addCheck pc present chosen =>
    exact ⟨fun other object mem => Or.inl (payloadValue_freelist chosen other mem),
      by simp⟩
  | endCollect pc =>
    refine ⟨fun tableid object mem => Or.inl ?_, by simp⟩
    exact (collect_valuesPool s.heap th.writeset th tableid).1 ▸ mem
  | gcMove pc past => exact poolStep_gc pc past (by simp)
  | gcStart pc many => exact poolStep_same rfl (by simp [eq_comm])
  | commit pc valid written => exact poolStep_same rfl (by simp [ended])
  | iterValue pc cursor => exact poolStep_same rfl (by simp [setBuffer, pc])
  | getOwn pc own | getAbsent pc invalid | getRead pc =>
    exact poolStep_same rfl (by simp [finishGet])
  | _ => exact poolStep_same rfl (by simp)

theorem Graced.others {own : Thread} {after : Nat → Nat} (graced : Graced s pc pools stamp)
    (past : ∀ object, stamp object < s.clock)
    (kept : ∀ tableid object, object ∈ (pools tableid).freelist ∨
      object ∈ (pools tableid).retired → after object = stamp object)
    (taken : Step cfg s t (s.threads t) middle own) :
    Graced (finished s middle t own) pc pools after where
  free := by
    intro tableid object mem
    rw [kept tableid object (Or.inl mem)]
    exact (graced.free tableid object mem).step (le_of_lt (past object)) taken
  waiting := by
    intro waited waits tableid object mem
    rw [kept tableid object (Or.inr mem)]
    have before := graced.waiting waited waits tableid object mem
    apply all_threads (P := fun v th => th.pc.active = true →
      stamp object ≤ th.began ∨ waited v = some th.epoch) (step_threads taken)
    · intro active
      rcases step_active taken active with ⟨earlier, began, epoch⟩ | now
      · rw [began, epoch]
        exact before t earlier
      · exact Or.inl (now ▸ le_of_lt (past object))
    · exact fun u _ => before u

theorem Graced.over {object : Nat} (graced : Graced s pc pools stamp) (clocks : Clocks cfg s)
    (waits : pc = .gcWait waited) (past : waitOver cfg s waited = true)
    (retired : object ∈ (pools tableid).retired) : Old s (stamp object) := by
  intro v active
  rcases graced.waiting waited waits tableid object retired v active with old | running
  · exact old
  by_cases inRange : v < cfg.thrs
  · have ended := List.all_eq_true.mp past v (List.mem_range.mpr inRange)
    simp [active, running] at ended
  · rw [clocks.idle v (Nat.le_of_not_lt inRange)] at active
    cases active

theorem Graced.own {own : Thread} {later : Nat → Nat}
    (graced : Graced s (s.threads t).pc pools stamp) (clocks : Clocks cfg s)
    (past : ∀ object, stamp object < s.clock)
    (change : PoolStep cfg s t (s.threads t) own pools after)
    (kept : ∀ tableid, ∀ object ∈ (after tableid).freelist, later object = stamp object)
    (waitKept : ∀ waited, own.pc = .gcWait waited → later = stamp)
    (taken : Step cfg s t (s.threads t) middle own) :
    Graced (finished s middle t own) own.pc after later where
  free := by
    intro tableid object mem
    rw [kept tableid object mem]
    refine Old.step ?_ (le_of_lt (past object)) taken
    rcases change.free tableid object mem with before | ⟨retired, waited, waits, past⟩
    · exact graced.free tableid object before
    · exact graced.over clocks waits past retired
  waiting := by
    intro waited waits tableid object mem
    obtain ⟨rfl, same⟩ := change.waiting waited waits
    rw [waitKept _ waits]
    apply all_threads (P := fun v th => th.pc.active = true →
      stamp object ≤ th.began ∨ runningNow cfg s t v = some th.epoch) (step_threads taken)
    · intro active
      rw [waits] at active
      cases active
    intro u other active
    by_cases inRange : u < cfg.thrs
    · exact Or.inr (by simp [runningNow, other, inRange, active])
    · rw [clocks.idle u (Nat.le_of_not_lt inRange)] at active
      cases active

end EunoDb.Machine
