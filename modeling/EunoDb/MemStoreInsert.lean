import EunoDb.MemStoreSkipList

/-! `GetWithInsert` by one thread returns and keeps the levels in order. -/

namespace EunoDb.MemStoreSkipList

open Execution LinkedList SkipLevels SkipSearch
open SkipInsert (NodeId head)

variable {Key : Type} [LinearOrder Key]

omit [LinearOrder Key] in
theorem newNode_aside (s : State Key) (node : NodeId) (key : Key) (height : Nat) :
    Aside s.memory (s.newNode node key height).memory node key where
  isKey := by simp [State.newNode]
  key other different := by simp [State.newNode, different]
  next other different := by simp [State.newNode, setNext_node _ _ _ _ different]

/-! ### Locks -/

section Locks

variable {memory : Memory NodeId Key} {lists : Nat → List NodeId} {key : Key} {trace : Trace NodeId}

variable {low high middle top i count : Nat} {pred : NodeId} {lock : NodeId → Nat}

theorem stops_closer (levels : Levels memory head lists) (le : low ≤ high) {lower upper : NodeId}
    (first : Stops memory head lists key low lower)
    (second : Stops memory head lists key high upper) :
    upper = head ∨ lower ∈ lists low ∧ memory.key upper ≤ memory.key lower := by
  rcases second.on with isHead | mem
  · exact .inl isHead
  · rcases second.before with isHead | less
    · exact .inl isHead
    · exact .inr (first.passed levels (mem_lower levels le mem) less)

theorem stops_between (levels : Levels memory head lists) (first : low ≤ middle)
    (second : middle ≤ high) {between : NodeId} (atLow : Stops memory head lists key low pred)
    (atMiddle : Stops memory head lists key middle between)
    (atHigh : Stops memory head lists key high pred) : between = pred := by
  rcases stops_closer levels first atLow atMiddle with rfl | ⟨inLow, le⟩
  · -- the head on the middle level is the head above it
    rcases stops_closer levels second atMiddle atHigh with rfl | ⟨inMiddle, -⟩
    · rfl
    · exact absurd inMiddle (levels.head middle)
  · rcases stops_closer levels second atMiddle atHigh with rfl | ⟨inMiddle, ge⟩
    · exact absurd inLow (levels.head low)
    · exact levels.unique_key (mem_lower levels first inMiddle) inLow (le_antisymm le ge)

theorem traced_between (traced : Traced memory head lists key trace top)
    (levels : Levels memory head lists) (first : low ≤ middle) (second : middle ≤ high)
    (inside : high ≤ top) (atLow : trace.preds low = some pred)
    (atHigh : trace.preds high = some pred) : trace.preds middle = some pred := by
  obtain ⟨lower, isLower, -, stopsLow⟩ := traced low (by omega)
  obtain ⟨between, isBetween, -, stopsMiddle⟩ := traced middle (by omega)
  obtain ⟨upper, isUpper, -, stopsHigh⟩ := traced high inside
  obtain rfl := Option.some.inj (isLower.symm.trans atLow)
  obtain rfl := Option.some.inj (isUpper.symm.trans atHigh)
  rw [isBetween, stops_between levels first second stopsLow stopsMiddle stopsHigh]

def taken (preds : Nat → Option NodeId) (lock : NodeId → Nat) (i : Nat) (node : NodeId) : Nat :=
  if ∃ j < i, preds j = some node then 1 else lock node

def below (preds : Nat → Option NodeId) : Nat → Option NodeId
  | 0 => none
  | i + 1 => preds i

theorem taken_succ (preds : Nat → Option NodeId) (lock : NodeId → Nat)
    (isPred : preds i = some pred) :
    taken preds lock (i + 1) = Function.update (taken preds lock i) pred 1 := by
  funext node
  by_cases same : node = pred
  · subst same
    rw [Function.update_self, taken, if_pos ⟨i, Nat.lt_succ_self i, isPred⟩]
  rw [Function.update_of_ne same, taken, taken]
  refine if_congr ⟨?_, ?_⟩ rfl rfl
  · rintro ⟨j, inside, isNode⟩
    rcases Nat.lt_succ_iff_lt_or_eq.mp inside with earlier | rfl
    · exact ⟨j, earlier, isNode⟩
    · exact absurd (Option.some.inj (isNode.symm.trans isPred)) same
  · rintro ⟨j, inside, isNode⟩
    exact ⟨j, Nat.lt_succ_of_lt inside, isNode⟩

theorem lockLoop_takes (levels : Levels memory head lists)
    (traced : Traced memory head lists key trace top)
    (free : ∀ l ≤ top, ∀ pred, trace.preds l = some pred → lock pred = 0)
    (inside : i + count ≤ top + 1) (highest : Int) :
    ∃ highest', lockLoop memory trace count i (below trace.preds i) (taken trace.preds lock i) highest =
      some (taken trace.preds lock (i + count), true, highest') := by
  induction count generalizing i highest with
  | zero => exact ⟨highest, rfl⟩
  | succ count ih =>
    obtain ⟨pred, isPred, isSucc, -⟩ := traced i (by omega)
    have later : i + (count + 1) = i + 1 + count := by omega
    by_cases again : some pred = below trace.preds i
    · have same : taken trace.preds lock (i + 1) = taken trace.preds lock i := by
        rw [taken_succ trace.preds lock isPred]
        refine Function.update_eq_self_iff.mpr ?_
        cases i with
        | zero => cases again
        | succ i => rw [taken, if_pos ⟨i, Nat.lt_succ_self i, again.symm⟩]
      obtain ⟨highest', looped⟩ := ih (i := i + 1) (by omega) highest
      refine ⟨highest', ?_⟩
      rw [same] at looped
      simp only [below, isPred] at looped
      rw [later, ← looped]
      simp [lockLoop, isPred, isSucc, ← again]
    · have untaken : taken trace.preds lock i pred = 0 := by
        rw [taken, if_neg, free i (by omega) pred isPred]
        rintro ⟨j, earlier, isNode⟩
        obtain ⟨i, rfl⟩ := Nat.exists_eq_add_one_of_ne_zero (Nat.ne_of_gt (Nat.zero_lt_of_lt earlier))
        have atBelow := traced_between traced levels (Nat.le_of_lt_succ earlier) (Nat.le_succ i)
          (by omega) isNode isPred
        exact again atBelow.symm
      obtain ⟨highest', looped⟩ := ih (i := i + 1) (by omega) (i : Int)
      refine ⟨highest', ?_⟩
      rw [taken_succ trace.preds lock isPred] at looped
      simp only [below, isPred] at looped
      rw [later, ← looped]
      simp [lockLoop, isPred, isSucc, again, untaken]

theorem unlockLoop_frees (assigned : ∀ l ≤ top, ∃ pred, trace.preds l = some pred)
    (inside : i + count ≤ top + 1)
    (freed : ∀ pred, below trace.preds i = some pred → lock pred = 0) :
    ∃ lock', unlockLoop trace count i (below trace.preds i) lock = some lock' ∧
      (∀ j, i ≤ j → j < i + count → ∀ pred, trace.preds j = some pred → lock' pred = 0) ∧
      ∀ node, lock node = 0 ∨ (∀ j, i ≤ j → j < i + count → trace.preds j ≠ some node) →
        lock' node = lock node := by
  induction count generalizing i lock with
  | zero => exact ⟨lock, rfl, fun j _ _ => by omega, fun _ _ => rfl⟩
  | succ count ih =>
    obtain ⟨pred, isPred⟩ := assigned i (by omega)
    -- the lock of this level is free after its round
    let now := if some pred ≠ below trace.preds i then Function.update lock pred 0 else lock
    have atPred : now pred = 0 := by
      by_cases again : some pred = below trace.preds i
      · simpa [now, again] using freed pred again.symm
      · simp [now, again]
    have others : ∀ node, node ≠ pred → now node = lock node := by
      intro node different
      by_cases again : some pred = below trace.preds i
      · simp [now, again]
      · simp [now, again, different]
    have zeros : ∀ node, lock node = 0 → now node = 0 := by
      intro node zero
      by_cases same : node = pred
      · rw [same, atPred]
      · rw [others node same, zero]
    have atBelow : ∀ other, below trace.preds (i + 1) = some other → now other = 0 := by
      intro other isOther
      obtain rfl := Option.some.inj (isPred.symm.trans isOther)
      exact atPred
    obtain ⟨lock', looped, frees, keeps⟩ := ih (by omega) atBelow
    simp only [below, isPred] at looped
    refine ⟨lock', by simp only [unlockLoop, isPred, Option.bind_eq_bind, Option.bind_some]; exact looped, ?_, ?_⟩
    · intro j low high other isOther
      by_cases here : j = i
      · subst here
        obtain rfl := Option.some.inj (isPred.symm.trans isOther)
        rw [keeps pred (.inl atPred), atPred]
      · exact frees j (by omega) (by omega) other isOther
    · rintro node (zero | apart)
      · rw [keeps node (.inl (zeros node zero)), zeros node zero, zero]
      have different : node ≠ pred := by
        rintro rfl
        exact apart i (Nat.le_refl i) (by omega) isPred
      rw [keeps node (.inr fun j low high => apart j (by omega) (by omega)),
        others node different]

end Locks

/-! ### One call -/

structure Good (procedure : Procedure) (s : State Key) (lists : Nat → List NodeId) : Prop where
  levels : Levels s.memory head lists
  headUsed : s.allocated head = true
  known : ∀ node ∈ lists 0, s.allocated node = true
  dummy : ∀ d, s.dummy = some d → d ≠ head ∧ d ∉ lists 0 ∧ s.allocated d = true ∧
    1 ≤ s.height d ∧ s.height d ≤ kMaxHeight
  top : s.maxHeight ≤ kMaxHeight
  flat : procedure ≠ .fineGrainLock → ∀ level, s.maxHeight ≤ level → lists level = []
  free : procedure = .fineGrainLock → ∀ node, node = head ∨ node ∈ lists 0 → s.lock node = 0

structure Adds (s after : State Key) (lists longer : Nat → List NodeId) (key : Key) (x : NodeId) :
    Prop where
  members : ∀ node, node ∈ longer 0 ↔ node ∈ lists 0 ∨ node = x
  isKey : after.memory.key x = key
  keys : ∀ node ∈ lists 0, after.memory.key node = s.memory.key node

section Call

variable {procedure : Procedure} {s : State Key} {lists : Nat → List NodeId} {input : Input Key}
  {fuel : Nat}

variable {x node : NodeId} {key : Key} {height : Nat} {longer : Nat → List NodeId}

omit [LinearOrder Key] in
theorem adds_hit (mem : x ∈ lists 0) (isKey : s.memory.key x = key) :
    Adds s s lists lists key x := by
  refine ⟨fun node => ⟨.inl, ?_⟩, isKey, fun _ _ => rfl⟩
  rintro (was | rfl)
  · exact was
  · exact mem

theorem links_new (levels : Levels s.memory head lists) {memory : Memory NodeId Key}
    (aside : Aside s.memory memory node key) (notHead : node ≠ head) (fresh : node ∉ lists 0)
    (absent : ∀ other ∈ lists 0, s.memory.key other ≠ key) {preds : Nat → Option NodeId}
    (positive : 1 ≤ height) (placed : ∀ level < height, ∃ pred, preds level = some pred ∧
      Stops s.memory head lists key level pred) :
    ∃ after longer, linkLoop preds node height 0 memory = some after ∧ Levels after head longer ∧
      (∀ other level, other ∈ longer level ↔ other ∈ lists level ∨ level < height ∧ other = node) ∧
      ∀ state : State Key, state.memory = after → Adds s state lists longer key node := by
  obtain ⟨after, longer, looped, -, levels', keys, exactly⟩ :=
    link_new levels aside notHead fresh absent placed
  refine ⟨after, longer, looped, levels', exactly, fun state isAfter => ⟨fun other => ?_, ?_, ?_⟩⟩
  · rw [exactly]
    refine or_congr_right ⟨fun inside => inside.2, fun same => ⟨positive, same⟩⟩
  · rw [isAfter, keys]
    exact aside.isKey
  · intro other mem
    rw [isAfter, keys]
    exact aside.key other fun same => fresh (same ▸ mem)

omit [LinearOrder Key] in
theorem flat_after {maxHeight : Nat} (members : ∀ other level, other ∈ longer level ↔
      other ∈ lists level ∨ level < height ∧ other = x)
    (flat : ∀ level, s.maxHeight ≤ level → lists level = []) (raised : s.maxHeight ≤ maxHeight)
    (covers : height ≤ maxHeight) : ∀ level, maxHeight ≤ level → longer level = [] := by
  intro level high
  refine List.eq_nil_iff_forall_not_mem.mpr fun node mem => ?_
  rcases (members node level).mp mem with was | ⟨inside, -⟩
  · rw [flat level (by omega)] at was
    cases was
  · omega

theorem Good.unused (good : Good procedure s lists) (unused : s.allocated node = false) :
    node ≠ head ∧ node ∉ lists 0 := by
  constructor
  · rintro rfl
    rw [good.headUsed] at unused
    cases unused
  · intro mem
    rw [good.known node mem] at unused
    cases unused

theorem Good.linked (good : Good procedure s lists) (unused : s.allocated input.node = false)
    {next : State Key} (levels : Levels next.memory head longer)
    (adds : Adds s next lists longer input.key input.node)
    (allocated : next.allocated = Function.update s.allocated input.node true)
    (height : next.height = Function.update s.height input.node input.height)
    (dummy : next.dummy = s.dummy) (top : next.maxHeight ≤ kMaxHeight)
    (flat : procedure ≠ .fineGrainLock → ∀ level, next.maxHeight ≤ level → longer level = [])

    (free : procedure = .fineGrainLock → ∀ node, node = head ∨ node ∈ longer 0 → next.lock node = 0) :
    Good procedure next longer := by
  have used : ∀ node, s.allocated node = true → next.allocated node = true := by
    intro node isUsed
    by_cases same : node = input.node
    · simp [allocated, same]
    · simpa [allocated, same] using isUsed
  refine ⟨levels, used head good.headUsed, ?_, ?_, top, flat, free⟩
  · intro node mem
    rcases (adds.members node).mp mem with was | rfl
    · exact used node (good.known node was)
    · simp [allocated]
  intro d isDummy
  obtain ⟨dHead, dFresh, dUsed, dHeight⟩ := good.dummy d (dummy ▸ isDummy)
  have different : d ≠ input.node := by
    rintro rfl
    rw [dUsed] at unused
    cases unused
  refine ⟨dHead, fun mem => ?_, used d dUsed, ?_⟩
  · exact ((adds.members d).mp mem).elim dFresh different
  · simpa [height, different] using dHeight

theorem rtm_inserts (good : Good .rtm s lists) (ready : s.dummy ≠ none)
    (unused : s.allocated input.node = false)
    (enough : kMaxHeight + (lists 0).length < fuel) :
    ∃ after x longer, getWithInsertRTM fuel s input = some (after, x) ∧ Good .rtm after longer ∧
      Adds s after lists longer input.key x ∧
      (after.dummy = none → after.allocated input.node = false) := by
  have flat := good.flat nofun
  have steps : s.maxHeight - 1 + (lists 0).length < fuel := by
    have top := good.top
    omega
  obtain ⟨found, searched, ends⟩ := search_ends good.levels input.key {} steps
  cases tested : hit s.memory input.key found.next with
  | some x =>
    obtain ⟨mem, isKey⟩ := ends.hit good.levels tested
    refine ⟨s, x, lists, ?_, good, adds_hit mem isKey, fun none_ => absurd none_ ready⟩
    simp [getWithInsertRTM, find, searched, tested]
  | none =>
    obtain ⟨d, isDummy⟩ := Option.ne_none_iff_exists'.mp ready
    obtain ⟨notHead, fresh, used, positive, bounded⟩ := good.dummy d isDummy
    let memory := { s.memory with key := Function.update s.memory.key d input.key }
    have aside : Aside s.memory memory d input.key :=
      ⟨Function.update_self .., fun _ different => Function.update_of_ne different .., fun _ _ => rfl⟩
    obtain ⟨after, longer, looped, levels, members, adds⟩ := links_new good.levels aside notHead fresh
      (ends.absent good.levels tested) positive
      (placed_fillHead good.levels ends.traced flat (s.height d))
    -- the loop that fills in the head does nothing if the height is not raised
    have preds : (if s.maxHeight < s.height d then
        fillHead head found.trace.preds s.maxHeight (s.height d) else found.trace.preds) =
        fillHead head found.trace.preds s.maxHeight (s.height d) := by
      split
      · rfl
      · rw [fillHead_of_le _ (by omega)]
    let next : State Key := { s with
      memory := after, dummy := none,
      maxHeight := if s.maxHeight < s.height d then s.height d else s.maxHeight }
    have raised : s.maxHeight ≤ next.maxHeight ∧ s.height d ≤ next.maxHeight ∧
        next.maxHeight ≤ kMaxHeight := by
      have top := good.top
      simp only [next]
      split <;> omega
    refine ⟨next, d, longer, ?_, ⟨levels, good.headUsed, ?_, nofun, raised.2.2, fun _ =>
      flat_after members flat raised.1 raised.2.1, nofun⟩, adds next rfl, fun _ => unused⟩
    · simp only [getWithInsertRTM, find, searched, tested, isDummy, preds, Option.bind_eq_bind,
        Option.bind_some]
      rw [looped]
      rfl
    · intro node mem
      rcases (adds next rfl).members node |>.mp mem with was | rfl
      · exact good.known node was
      · exact used

theorem lockFree_inserts (good : Good .lockFree s lists) (ready : s.dummy ≠ none)
    (unused : s.allocated input.node = false) (positive : 1 ≤ input.height)
    (bounded : input.height ≤ kMaxHeight) (enough : kMaxHeight + (lists 0).length < fuel) :
    ∃ after x longer, getWithInsertLockFree fuel s input = some (after, x) ∧
      Good .lockFree after longer ∧ Adds s after lists longer input.key x ∧
      (after.dummy = none → after.allocated input.node = false) := by
  have flat := good.flat nofun
  have steps : s.maxHeight - 1 + (lists 0).length < fuel := by
    have top := good.top
    omega
  obtain ⟨found, searched, ends⟩ := search_ends good.levels input.key {} steps
  cases tested : hit s.memory input.key found.next with
  | some x =>
    obtain ⟨mem, isKey⟩ := ends.hit good.levels tested
    refine ⟨s, x, lists, ?_, good, adds_hit mem isKey, fun none_ => absurd none_ ready⟩
    simp [getWithInsertLockFree, find, searched, tested]
  | none =>
    obtain ⟨notHead, fresh⟩ := good.unused unused
    let raised : State Key :=
      { s with maxHeight := if s.maxHeight < input.height then input.height else s.maxHeight }
    let made := raised.newNode input.node input.key input.height
    have aside : Aside s.memory made.memory input.node input.key :=
      newNode_aside raised input.node input.key input.height
    have placed := placed_fillHead good.levels ends.traced flat input.height
    have absent := ends.absent good.levels tested
    obtain ⟨after, longer, looped, levels, members, adds⟩ :=
      links_new good.levels aside notHead fresh absent positive placed
    obtain ⟨more, rfl⟩ : ∃ more, fuel = more + 1 := ⟨fuel - 1, by omega⟩
    have swapped := (pending_new good.levels aside notHead fresh absent placed).casLoop more
    rw [aside.isKey, looped] at swapped
    let next : State Key := { made with memory := after }
    have heights : s.maxHeight ≤ next.maxHeight ∧ input.height ≤ next.maxHeight ∧
        next.maxHeight ≤ kMaxHeight := by
      have top := good.top
      simp only [next, made, raised, State.newNode]
      split <;> omega
    refine ⟨next, input.node, longer, ?_, good.linked unused levels (adds next rfl) rfl rfl rfl
      heights.2.2 (fun _ => flat_after members flat heights.1 heights.2.1) nofun, adds next rfl,
      fun none_ => absurd none_ ready⟩
    simp only [getWithInsertLockFree, find, searched, tested, Option.bind_eq_bind, Option.bind_some]
    rw [swapped]
    rfl

theorem fineGrainLock_inserts (good : Good .fineGrainLock s lists) (ready : s.dummy ≠ none)
    (unused : s.allocated input.node = false) (positive : 1 ≤ input.height)
    (bounded : input.height ≤ kMaxHeight) (cleared : s.lock input.node = 0)
    (enough : kMaxHeight + (lists 0).length < fuel) :
    ∃ after x longer, getWithInsertFineGrainLock fuel s input = some (after, x) ∧
      Good .fineGrainLock after longer ∧ Adds s after lists longer input.key x ∧
      (after.dummy = none → after.allocated input.node = false) := by
  have free := good.free rfl
  have steps : kMaxHeight - 1 + (lists 0).length < fuel := by omega
  obtain ⟨found, searched, ends⟩ := search_ends good.levels input.key {} steps
  obtain ⟨more, rfl⟩ : ∃ more, fuel = more + 1 := ⟨fuel - 1, by omega⟩
  cases tested : hit s.memory input.key found.next with
  | some x =>
    obtain ⟨mem, isKey⟩ := ends.hit good.levels tested
    refine ⟨s, x, lists, ?_, good, adds_hit mem isKey, fun none_ => absurd none_ ready⟩
    simp [getWithInsertFineGrainLock, attempts, findFromTop, searched, tested]
  | none =>
    obtain ⟨notHead, fresh⟩ := good.unused unused
    have inside : 0 + input.height ≤ kMaxHeight - 1 + 1 := by
      have positive : 1 ≤ kMaxHeight := by decide
      omega
    -- the predecessors are in the list, so their locks are free
    have predsFree : ∀ l ≤ kMaxHeight - 1, ∀ pred, found.trace.preds l = some pred →
        s.lock pred = 0 := by
      intro l low pred isPred
      obtain ⟨pred', isPred', -, stops⟩ := ends.traced l low
      obtain rfl := Option.some.inj (isPred.symm.trans isPred')
      exact free pred (stops.on.imp_right good.levels.bottom)
    obtain ⟨highest, locked⟩ := lockLoop_takes good.levels ends.traced predsFree inside (-1)
    have none_ : taken found.trace.preds s.lock 0 = s.lock := by
      funext node
      exact if_neg (by rintro ⟨j, impossible, -⟩; omega)
    rw [none_, Nat.zero_add] at locked
    let holding : State Key := { s with lock := taken found.trace.preds s.lock input.height }
    let made := holding.newNode input.node input.key input.height
    have aside : Aside s.memory made.memory input.node input.key :=
      newNode_aside holding input.node input.key input.height
    obtain ⟨after, longer, looped, levels, members, adds⟩ := links_new good.levels aside notHead
      fresh (ends.absent good.levels tested) positive
      (fun level low => by
        obtain ⟨pred, isPred, -, stops⟩ := ends.traced level (by omega)
        exact ⟨pred, isPred, stops⟩)
    have assigned : ∀ l ≤ kMaxHeight - 1, ∃ pred, found.trace.preds l = some pred := by
      intro l low
      obtain ⟨pred, isPred, -⟩ := ends.traced l low
      exact ⟨pred, isPred⟩
    have first : ∀ pred, below found.trace.preds 0 = some pred → made.lock pred = 0 := nofun
    obtain ⟨lock, unlocked, frees, keeps⟩ := unlockLoop_frees assigned inside first
    -- every lock is as it was
    have restored : ∀ node, lock node = s.lock node := by
      intro node
      by_cases isPred : ∃ j < input.height, found.trace.preds j = some node
      · obtain ⟨j, low, isPred⟩ := isPred
        rw [frees j (Nat.zero_le j) (by omega) node isPred, predsFree j (by omega) node isPred]
      · rw [keeps node (.inr fun j _ low same => isPred ⟨j, by omega, same⟩)]
        exact if_neg isPred
    let next : State Key := { made with memory := after, lock := lock }
    refine ⟨next, input.node, longer, ?_, good.linked unused levels (adds next rfl) rfl rfl rfl
      good.top (fun other => absurd rfl other) (fun _ node mem => ?_), adds next rfl,
      fun none_ => absurd none_ ready⟩
    · simp only [getWithInsertFineGrainLock, attempts, findFromTop, searched, tested,
        Option.bind_eq_bind, Option.bind_some]
      rw [show none = below found.trace.preds 0 from rfl, locked]
      simp only [Option.bind_some, if_true]
      rw [looped]
      simp only [Option.bind_some]
      rw [unlocked]
      rfl
    · have same : next.lock node = s.lock node := restored node
      rw [same]
      rcases mem with isHead | mem
      · exact free node (.inl isHead)
      · rcases ((adds next rfl).members node).mp mem with was | rfl
        · exact free node (.inr was)
        · exact cleared

theorem call_inserts (good : Good procedure s lists) (ready : s.dummy ≠ none)
    (unused : s.allocated input.node = false) (positive : 1 ≤ input.height)
    (bounded : input.height ≤ kMaxHeight)
    (cleared : procedure = .fineGrainLock → s.lock input.node = 0)
    (enough : kMaxHeight + (lists 0).length < fuel) :
    ∃ after x longer, procedure.call fuel s input = some (after, x) ∧ Good procedure after longer ∧
      Adds s after lists longer input.key x ∧
      (after.dummy = none → after.allocated input.node = false) := by
  cases procedure with
  | fineGrainLock =>
    exact fineGrainLock_inserts good ready unused positive bounded (cleared rfl) enough
  | rtm => exact rtm_inserts good ready unused enough
  | lockFree => exact lockFree_inserts good ready unused positive bounded enough

theorem Good.newDummy (good : Good procedure s lists) (unused : s.allocated input.node = false)
    (positive : 1 ≤ input.height) (bounded : input.height ≤ kMaxHeight) :
    Good procedure
      { s.newNode input.node input.key input.height with dummy := some input.node } lists := by
  obtain ⟨notHead, fresh⟩ := good.unused unused
  have aside := newNode_aside s input.node input.key input.height
  have used : ∀ node, s.allocated node = true →
      Function.update s.allocated input.node true node = true := by
    intro node isUsed
    by_cases same : node = input.node
    · simp [same]
    · simpa [same] using isUsed
  have levels : Levels (s.newNode input.node input.key input.height).memory head lists := by
    apply good.levels.congr
    · intro node mem
      exact aside.key node fun same => fresh (same ▸ mem)
    intro level node on
    have different : node ≠ input.node := by
      rintro rfl
      exact on.elim notHead fun mem => fresh (good.levels.bottom mem)
    rw [aside.next node different]
  refine ⟨levels, used head good.headUsed, fun node mem => used node (good.known node mem),
    ?_, good.top, good.flat, good.free⟩
  rintro d ⟨rfl⟩
  refine ⟨notHead, fresh, ?_, ?_⟩
  · simp [State.newNode]
  · simpa [State.newNode] using ⟨positive, bounded⟩

theorem getWithInsert_inserts (good : Good procedure s lists) (ready : s.dummy ≠ none)
    (unused : s.allocated input.node = false) (positive : 1 ≤ input.height)
    (bounded : input.height ≤ kMaxHeight)
    (cleared : procedure = .fineGrainLock → s.lock input.node = 0)
    (enough : kMaxHeight + (lists 0).length < fuel) :
    ∃ after x longer, getWithInsert procedure fuel s input = some (after, x) ∧
      Good procedure after longer ∧ after.dummy ≠ none ∧
      Adds s after lists longer input.key x := by
  obtain ⟨after, x, longer, called, good', adds, unused'⟩ :=
    call_inserts good ready unused positive bounded cleared enough
  cases isDummy : after.dummy with
  | some d =>
    refine ⟨after, x, longer, ?_, good', by simp [isDummy], adds⟩
    simp [getWithInsert, called, isDummy]
  | none =>
    have free := unused' isDummy
    have fresh := (good'.unused free).2
    have aside := newNode_aside after input.node input.key input.height
    -- the node of a new `dummy_` is not one of the list, so the keys stay
    have keys : ∀ node ∈ longer 0,
        (after.newNode input.node input.key input.height).memory.key node =
          after.memory.key node :=
      fun node mem => aside.key node fun same => fresh (same ▸ mem)
    refine ⟨{ after.newNode input.node input.key input.height with dummy := some input.node }, x,
      longer, ?_, good'.newDummy free positive bounded, by simp, adds.members, ?_, ?_⟩
    · simp [getWithInsert, called, isDummy]
    · exact (keys x ((adds.members x).mpr (.inr rfl))).trans adds.isKey
    · intro node mem
      exact (keys node ((adds.members node).mpr (.inl mem))).trans (adds.keys node mem)

end Call

end EunoDb.MemStoreSkipList
