import EunoDb.Versions

/-! A value object is in one place at a time. -/

namespace EunoDb.Machine

open Memstore TxSets History Function

inductive Place where
  | held (u : ThreadId)
  | current (node : NodeId)
  | pooled (u : ThreadId) (tableid : TableId)
  deriving DecidableEq

def Pc.holdsWrites (pc : Pc) : Bool :=
  match pc with
  | .endAbort => true
  | other => other.inTx

def entryValues (kvs : List WSKV) : List Ptr := kvs.flatMap fun kv => pointers kv.val

def heldValues (th : Thread) : List Ptr :=
  if th.pc.holdsWrites then entryValues th.writeset else []

def valueHolding (heap : Heap) (th : Thread) (tableid : TableId) : List Ptr :=
  (th.valuesPool tableid).freelist ++ (th.valuesPool tableid).retired ++
    collectedValues heap th.collecting tableid

def givesNew (s : State) (t : ThreadId) : Prop :=
  match (s.threads t).pc with
  | .addCheck _ _ (.given object) _ => s.known object = false
  | _ => True

instance decidableGiven (s : State) (pc : Pc) : Decidable
    (match pc with
    | .addCheck _ _ (.given object) _ => s.known object = false
    | _ => True) := by
  split <;> infer_instance

instance (s : State) (t : ThreadId) : Decidable (givesNew s t) :=
  decidableGiven s (s.threads t).pc

structure Homes (s : State) (home : Ptr → Option Place) : Prop where
  held : ∀ u, ∀ object ∈ heldValues (s.threads u), home object = some (.held u)
  heldOnce : ∀ u, (heldValues (s.threads u)).Nodup
  current : ∀ {node object}, s.main node → (s.heap node).value = .pointer object →
    home object = some (.current node)
  pooled : ∀ u tableid, ∀ object ∈ valueHolding s.heap (s.threads u) tableid,
    home object = some (.pooled u tableid)
  pooledOnce : ∀ u tableid, (valueHolding s.heap (s.threads u) tableid).Nodup
  known : ∀ object, home object ≠ none → s.known object = true
  bounded : ∀ object, s.known object = true → object < s.nextValue

variable {object : Ptr} {heap : Heap} {tableid : TableId} {s middle : State} {t : ThreadId}
  {home : Ptr → Option Place} {ws : WriteState} {th own : Thread} {cfg : Config}

theorem mem_pointers {value : Value} : object ∈ pointers value ↔ value = .pointer object := by
  cases value <;> simp [pointers, eq_comm]

theorem pointers_nodup (value : Value) : (pointers value).Nodup := by
  cases value <;> simp [pointers]

/-! ### One written entry -/

theorem collectedValues_concat (heap : Heap) (kvs : List WSKV) (kv : WSKV) (tableid : TableId) :
    collectedValues heap (kvs ++ [kv]) tableid =
      collectedValues heap kvs tableid ++ collectedValues heap [kv] tableid := by
  simp [collectedValues]

theorem collectedValues_congr {after : Heap} {kvs : List WSKV}
    (same : ∀ owner, ∀ node ∈ collectedNodes kvs owner, (after node).value = (heap node).value) :
    collectedValues after kvs tableid = collectedValues heap kvs tableid := by
  induction kvs with
  | nil => rfl
  | cons kv rest ih =>
    have head : collectedValues after [kv] tableid = collectedValues heap [kv] tableid := by
      cases holds : kv.dummy with
      | none => simp [collectedValues, holds]
      | some dummy =>
        have value := same kv.tableid dummy (by simp [collectedNodes, holds])
        simp [collectedValues, holds, value]
    have tail := ih fun owner node mem => same owner node (by
      obtain ⟨other, inRest, isDummy⟩ := List.mem_filterMap.mp mem
      exact List.mem_filterMap.mpr ⟨other, List.mem_cons_of_mem kv inRest, isDummy⟩)
    have split : ∀ heap : Heap, collectedValues heap (kv :: rest) tableid =
        collectedValues heap [kv] tableid ++ collectedValues heap rest tableid := by
      simp [collectedValues]
    rw [split, split, head, tail]

def movingValues (s : State) (t : ThreadId) (ws : WriteState) (tableid : TableId) : List Ptr :=
  ((s.threads t).valuesPool tableid).freelist ++ ((s.threads t).valuesPool tableid).retired ++
    collectedValues ws.heap ws.written tableid

structure Moving (s : State) (t : ThreadId) (home : Ptr → Option Place) (rest : List WSKV)
    (ws : WriteState) : Prop where
  separate : Separate s.main ws
  holds : HoldingEffect (holding (s.threads t)) s.nextNode ws
  entries : ∀ kv ∈ rest, Pending s kv
  held : ∀ object ∈ entryValues rest, home object = some (.held t)
  heldOnce : (entryValues rest).Nodup
  heldOthers : ∀ u, u ≠ t → ∀ object ∈ heldValues (s.threads u), home object = some (.held u)
  current : ∀ {node object}, s.main node → (ws.heap node).value = .pointer object →
    home object = some (.current node)
  pooled : ∀ tableid, ∀ object ∈ movingValues s t ws tableid,
    home object = some (.pooled t tableid)
  pooledOnce : ∀ tableid, (movingValues s t ws tableid).Nodup
  pooledOthers : ∀ u, u ≠ t → ∀ tableid, ∀ object ∈ valueHolding s.heap (s.threads u) tableid,
    home object = some (.pooled u tableid)
  known : ∀ object, home object ≠ none → s.known object = true

def rehome (home : Ptr → Option Place) (t : ThreadId) (kv : WSKV) (old : Value) :
    Ptr → Option Place := fun object =>
  if old = .pointer object then some (.pooled t kv.tableid)
  else if kv.val = .pointer object then some (.current kv.node)
  else home object

variable {rest : List WSKV} {after : WriteState} {kv : WSKV} {next : State} {node : NodeId}
  {key : Key}

theorem writeEntry_collected (moving : Moving s t home rest ws) (pending : Pending s kv)
    (written : writeEntry s.snapshot ws kv = .ok after) (tableid : TableId) :
    collectedValues after.heap after.written tableid =
      collectedValues ws.heap ws.written tableid ++
        if kv.tableid = tableid then pointers (ws.heap kv.node).value else [] := by
  have record : s.main kv.node := ⟨_, _, pending.mapped⟩
  have spare : ∀ owner, ∀ node ∈ collectedNodes ws.written owner, node ≠ kv.node := by
    rintro owner node mem rfl
    obtain ⟨entry, inWritten, holds⟩ := List.mem_filterMap.mp mem
    split at holds
    · exact (moving.separate.dummies entry inWritten _ holds).1 record
    · cases holds
  have unchanged : collectedValues after.heap ws.written tableid =
      collectedValues ws.heap ws.written tableid := by
    apply collectedValues_congr
    intro owner node mem
    rcases writeEntry_versions moving.separate record written with place | ⟨dummy, _, place⟩
    · rw [place.others node (spare owner node mem)]
    · have other : node ≠ dummy := by
        rintro rfl
        exact moving.holds.unlinked place owner mem
      rw [place.others node (spare owner node mem) other]
  rcases writeEntry_versions moving.separate record written with place | ⟨dummy, _, place⟩
  · rw [place.written, collectedValues_concat, unchanged]
    simp [collectedValues, pending.plain]
  · rw [place.written, collectedValues_concat, unchanged]
    simp [collectedValues, pointers, place.copy.value]

theorem Moving.entry (moving : Moving s t home (kv :: rest) ws)
    (written : writeEntry s.snapshot ws kv = .ok after) :
    Moving s t (rehome home t kv (ws.heap kv.node).value) rest after := by
  have pending := moving.entries kv List.mem_cons_self
  have record : s.main kv.node := ⟨_, _, pending.mapped⟩
  have effect := writeEntry_effect moving.separate (moving.separate.bounded _ record) pending.plain written
  have collected : ∀ tableid, movingValues s t after tableid = movingValues s t ws tableid ++
      if kv.tableid = tableid then pointers (ws.heap kv.node).value else [] := by
    intro tableid
    rw [movingValues, writeEntry_collected moving pending written, ← List.append_assoc]
    rfl
  have shape : entryValues (kv :: rest) = pointers kv.val ++ entryValues rest := rfl
  have once := moving.heldOnce
  rw [shape, List.nodup_append] at once
  -- the two objects that move, by the place they are in
  have oldHome : ∀ {object}, (ws.heap kv.node).value = .pointer object →
      home object = some (.current kv.node) := fun holds => moving.current record holds
  have newHome : ∀ {object}, kv.val = .pointer object → home object = some (.held t) :=
    fun holds => moving.held _ (List.mem_append_left _ (mem_pointers.mpr holds))
  have others : ∀ {object place}, home object = some place → place ≠ .current kv.node →
      kv.val ≠ .pointer object →
      rehome home t kv (ws.heap kv.node).value object = some place := by
    intro object place inPlace notOld notNew
    unfold rehome
    rw [if_neg fun holds => notOld (Option.some.inj (inPlace.symm.trans (oldHome holds))),
      if_neg notNew, inPlace]
  have stays : ∀ {object place}, home object = some place → place ≠ .current kv.node →
      place ≠ .held t → rehome home t kv (ws.heap kv.node).value object = some place :=
    fun inPlace notOld notNew => others inPlace notOld fun holds =>
      notNew (Option.some.inj (inPlace.symm.trans (newHome holds)))
  refine
    { separate := effect.separate
      holds := moving.holds.entry pending.plain written
      entries := fun other mem => moving.entries other (List.mem_cons_of_mem kv mem)
      held := ?_
      heldOnce := once.2.1
      heldOthers := ?_
      current := ?_
      pooled := ?_
      pooledOnce := ?_
      pooledOthers := ?_
      known := ?_ }
  · intro object mem
    apply others (moving.held object (List.mem_append_right _ mem)) (by simp)
    intro holds
    exact once.2.2 object (mem_pointers.mpr holds) object mem rfl
  · intro u different object mem
    exact stays (moving.heldOthers u different object mem) (by simp) (by simpa using different)
  · intro node object main holds
    by_cases same : node = kv.node
    · subst same
      rw [effect.value] at holds
      unfold rehome
      rw [if_neg, if_pos holds]
      intro old
      have clash := (oldHome old).symm.trans (newHome holds)
      simp at clash
    · rw [effect.others node main same] at holds
      exact stays (moving.current main holds) (by simpa using same) (by simp)
  · intro tableid object mem
    rw [collected] at mem
    rcases List.mem_append.mp mem with earlier | new
    · exact stays (moving.pooled tableid object earlier) (by simp) (by simp)
    · split at new
      · rename_i same
        rw [rehome, if_pos (mem_pointers.mp new), same]
      · cases new
  · intro tableid
    rw [collected, List.nodup_append]
    refine ⟨moving.pooledOnce tableid, ?_, ?_⟩
    · split
      · exact pointers_nodup _
      · exact List.nodup_nil
    rintro object earlier _ new rfl
    split at new
    · have clash := (moving.pooled tableid object earlier).symm.trans
        (oldHome (mem_pointers.mp new))
      simp at clash
    · cases new
  · intro u different tableid object mem
    exact stays (moving.pooledOthers u different tableid object mem) (by simp) (by simp)
  · intro object placed
    unfold rehome at placed
    split at placed
    · rename_i holds
      exact moving.known object (by simp [oldHome holds])
    · split at placed
      · rename_i holds
        exact moving.known object (by simp [newHome holds])
      · exact moving.known object placed

/-! ### Steps that write no record -/

theorem heldValues_outside (pc : th.pc.holdsWrites = false) : heldValues th = [] := by
  simp [heldValues, pc]

theorem heldValues_same (writeset : own.writeset = th.writeset)
    (pc : own.pc.holdsWrites = th.pc.holdsWrites) : heldValues own = heldValues th := by
  simp [heldValues, writeset, pc]

theorem valueHolding_same (pools : own.valuesPool = th.valuesPool) (before : th.pc ≠ .endCollect)
    (after : own.pc ≠ .endCollect) (tableid : TableId) :
    (valueHolding heap own tableid).Perm (valueHolding heap th tableid) := by
  have nothing : ∀ {th : Thread}, th.pc ≠ .endCollect → th.collecting = [] := by
    intro th pc
    unfold Thread.collecting
    split
    · exact absurd ‹_› pc
    · rfl
  rw [valueHolding, valueHolding, pools, nothing before, nothing after]

structure SameValues (heap : Heap) (th own : Thread) : Prop where
  held : heldValues own = heldValues th ∨ heldValues own = []
  pooled : ∀ tableid, (valueHolding heap own tableid).Perm (valueHolding heap th tableid)

theorem sameValues_move (writeset : own.writeset = th.writeset)
    (pools : own.valuesPool = th.valuesPool)
    (pc : own.pc.holdsWrites = th.pc.holdsWrites ∨ own.pc.holdsWrites = false)
    (before : th.pc ≠ .endCollect) (after : own.pc ≠ .endCollect) : SameValues heap th own where
  held := pc.imp (heldValues_same writeset) heldValues_outside
  pooled := valueHolding_same pools before after

structure SameKnown (s middle : State) (th own : Thread) : Prop where
  fewer : ∀ object, middle.known object = true → s.known object = true
  lost : ∀ object, s.known object = true → middle.known object = false →
    object ∈ heldValues th ∧ heldValues own = []
  nextValue : middle.nextValue = s.nextValue

theorem sameKnown_refl (known : middle.known = s.known) (nextValue : middle.nextValue = s.nextValue) :
    SameKnown s middle th own where
  fewer := fun _ isKnown => known ▸ isKnown
  lost := fun object before after => by simp [known, before] at after
  nextValue := nextValue

theorem sameKnown_release (holds : th.pc.holdsWrites = true) (empty : heldValues own = []) :
    SameKnown s (release s th.writeset) th own where
  fewer := by
    intro object isKnown
    exact (Bool.and_eq_true_iff.mp isKnown).1
  lost := by
    intro object before after
    refine ⟨?_, empty⟩
    simp only [release, before, Bool.true_and, Bool.not_eq_false', List.any_eq_true,
      decide_eq_true_eq] at after
    obtain ⟨kv, mem, value⟩ := after
    rw [heldValues, if_pos holds]
    exact List.mem_flatMap.mpr ⟨kv, mem, mem_pointers.mpr value⟩
  nextValue := rfl

theorem step_sameValues (taken : Step cfg s t th middle own) (other : own.pc ≠ .endCollect) :
    SameValues s.heap th own ∧ SameKnown s middle th own ∨
      ∃ tableid key payload node val before, th.pc = .addCheck tableid key payload node ∧
        payloadValue s th tableid payload = (val, middle, before) ∧
        own = { before with
          pc := .body
          writeset := before.writeset ++ [{ tableid, key, node, val }]
          events := before.events ++ [.put tableid key val] } := by
  cases taken with
  | commit pc valid written => exact absurd rfl other
  | addCheck pc present chosen => exact Or.inr ⟨_, _, _, _, _, _, pc, chosen, rfl⟩
  | begin pc =>
    refine Or.inl ⟨⟨Or.inr ?_, ?_⟩, sameKnown_refl rfl rfl⟩
    · simp [heldValues, entryValues]
    · exact valueHolding_same (by rfl) (by simp [pc]) (by simp)
  | abort pc =>
    refine Or.inl ⟨⟨Or.inr rfl, ?_⟩, sameKnown_release (by rw [pc]; rfl) rfl⟩
    exact valueHolding_same (by rfl) (by simp [pc]) (by simp)
  | endAbort pc =>
    refine Or.inl ⟨⟨Or.inr rfl, ?_⟩, sameKnown_release (by rw [pc]; rfl) rfl⟩
    exact valueHolding_same (by rfl) (by simp [pc]) (by simp)
  | endCollect pc =>
    refine Or.inl ⟨⟨Or.inr rfl, ?_⟩, sameKnown_refl rfl rfl⟩
    intro tableid
    have pools := collect_valuesPool s.heap th.writeset th tableid
    obtain ⟨valuesPool, _, _, fields⟩ := collect_fields s.heap th.writeset th
    unfold collectOldVersions
    rw [fields] at pools ⊢
    obtain ⟨free, retired⟩ := pools
    simp only at free retired
    simp only [valueHolding, Thread.collecting, pc, free]
    rw [List.append_assoc, List.append_assoc]
    refine List.Perm.append_left _ ?_
    simpa [collectedValues] using retired.trans List.perm_append_comm
  | gcMove pc past =>
    refine Or.inl ⟨⟨Or.inr rfl, ?_⟩, sameKnown_refl rfl rfl⟩
    intro tableid
    simp only [valueHolding, Thread.collecting, pc, gcPools]
    exact List.Perm.append_right _ (gcPool_perm cfg th.valuesPool tableid)
  | iterValue pc cursor =>
    exact Or.inl ⟨sameValues_move (by rfl) (by rfl) (by simp [setBuffer]) (by simp [pc])
      (by simp [setBuffer, pc]), sameKnown_refl rfl rfl⟩
  | getOwn pc own | getAbsent pc invalid | getRead pc =>
    exact Or.inl ⟨sameValues_move (by rfl) (by rfl)
      (by simp [finishGet, pc, Pc.holdsWrites, Pc.inTx]) (by simp [pc]) (by simp [finishGet]),
      sameKnown_refl rfl rfl⟩
  | getFind pc found | addInsert pc buffers found | addInsertCopied pc found =>
    refine Or.inl ⟨sameValues_move (by rfl) (by rfl) (by simp [pc, Pc.holdsWrites, Pc.inTx])
      (by simp [pc]) (by simp), ?_⟩
    cases found <;> exact sameKnown_refl rfl rfl
  | _ =>
    exact Or.inl ⟨sameValues_move (by rfl) (by rfl) (by simp_all [Pc.holdsWrites, Pc.inTx])
      (by simp_all) (by simp), sameKnown_refl rfl rfl⟩

theorem Quiet.valueHolding (quiet : Quiet s next) (th : Thread) (tableid : TableId) :
    valueHolding next.heap th tableid = valueHolding s.heap th tableid := by
  unfold Machine.valueHolding
  rw [collectedValues_congr fun _ node _ => (quiet.record node).value]

theorem Quiet.current (quiet : Quiet s next) (unused : ∀ node, s.nextNode ≤ node → s.heap node = {})
    (main : next.main node) (holds : (next.heap node).value = .pointer object) :
    s.main node ∧ (s.heap node).value = .pointer object := by
  obtain ⟨tableid, key, mapped⟩ := main
  rw [(quiet.record node).value] at holds
  rcases quiet.tables.origin mapped with earlier | ⟨_, rfl, _, _⟩
  · exact ⟨⟨tableid, key, earlier⟩, holds⟩
  · simp [unused _ (le_refl _)] at holds

section

variable (homes : Homes s home) (shared : Shared s)

include homes shared

theorem Homes.quiet (quiet : Quiet s middle) (threads : middle.threads = s.threads)
    (same : SameValues s.heap (s.threads t) own) (known : SameKnown s middle (s.threads t) own) :
    Homes (finished s middle t own)
      (fun object => if middle.known object = true then home object else none) := by
  -- an object that stays in a place stays known
  have stays : ∀ {object place}, home object = some place →
      (place = .held t → heldValues own ≠ []) →
      (if middle.known object = true then home object else none) = some place := by
    intro object place placed held
    by_cases isKnown : middle.known object = true
    · rw [if_pos isKnown, placed]
    · have before := homes.known object (by simp [placed])
      obtain ⟨mem, empty⟩ := known.lost object before (by simpa using isKnown)
      have here := (homes.held t object mem).symm.trans placed
      exact absurd empty (held (Option.some.inj here).symm)
  constructor
  case held =>
    apply all_threads (P := fun u th => ∀ object ∈ heldValues th,
      (if middle.known object = true then home object else none) = some (.held u)) threads
    · intro object mem
      rcases same.held with kept | empty
      · exact stays (homes.held t object (kept ▸ mem)) fun _ => List.ne_nil_of_mem mem
      · simp [empty] at mem
    · intro u different object mem
      apply stays (homes.held u object mem)
      intro here
      exact absurd (Place.held.inj here) different
  case heldOnce =>
    apply all_threads (P := fun _ th => (heldValues th).Nodup) threads
    · rcases same.held with kept | empty
      · rw [kept]
        exact homes.heldOnce t
      · simp [empty]
    · exact fun u _ => homes.heldOnce u
  case current =>
    intro node object main holds
    obtain ⟨before, value⟩ := quiet.current shared.unused main holds
    exact stays (homes.current before value) (by simp)
  case pooled =>
    apply all_threads (P := fun u th => ∀ tableid, ∀ object ∈ valueHolding middle.heap th tableid,
      (if middle.known object = true then home object else none) =
        some (.pooled u tableid)) threads
    · intro tableid object mem
      rw [quiet.valueHolding] at mem
      exact stays (homes.pooled t tableid object ((same.pooled tableid).mem_iff.mp mem))
        (by simp)
    · intro u _ tableid object mem
      rw [quiet.valueHolding] at mem
      exact stays (homes.pooled u tableid object mem) (by simp)
  case pooledOnce =>
    apply all_threads (P := fun _ th => ∀ tableid, (valueHolding middle.heap th tableid).Nodup)
      threads
    · intro tableid
      rw [quiet.valueHolding, (same.pooled tableid).nodup_iff]
      exact homes.pooledOnce t tableid
    · intro u _ tableid
      rw [quiet.valueHolding]
      exact homes.pooledOnce u tableid
  case known =>
    intro object placed
    by_contra unknown
    exact placed (if_neg unknown)
  case bounded =>
    intro object isKnown
    show object < middle.nextValue
    rw [known.nextValue]
    exact homes.bounded object (known.fewer object isKnown)

theorem Homes.hold (quiet : Quiet s middle) (threads : middle.threads = s.threads)
    (place : home object = none ∨ ∃ tableid, home object = some (.pooled t tableid))
    (held : heldValues own = heldValues (s.threads t) ++ [object])
    (fewer : ∀ tableid, (valueHolding s.heap own tableid).Sublist
      (valueHolding s.heap (s.threads t) tableid))
    (gone : ∀ tableid, object ∉ valueHolding s.heap own tableid)
    (known : ∀ other, middle.known other = true ↔ s.known other = true ∨ other = object)
    (bounded : s.nextValue ≤ middle.nextValue ∧ object < middle.nextValue) :
    Homes (finished s middle t own) (update home object (some (.held t))) := by
  have stays : ∀ {other at_}, home other = some at_ → (∀ tableid, at_ ≠ .pooled t tableid) →
      update home object (some (.held t)) other = some at_ := by
    intro other at_ placed notPool
    have different : other ≠ object := by
      rintro rfl
      rcases place with outside | ⟨tableid, pooled⟩
      · exact absurd (outside.symm.trans placed) (by simp)
      · exact notPool tableid (Option.some.inj (placed.symm.trans pooled))
    rw [update_of_ne different, placed]
  have pooledStays : ∀ {u tableid other}, other ∈ valueHolding s.heap (s.threads u) tableid →
      other ≠ object →
      update home object (some (.held t)) other = some (.pooled u tableid) := by
    intro u tableid other mem different
    rw [update_of_ne different, homes.pooled u tableid other mem]
  refine
    { held := ?_
      heldOnce := ?_
      current := ?_
      pooled := ?_
      pooledOnce := ?_
      known := ?_
      bounded := ?_ }
  · apply all_threads (P := fun u th => ∀ other ∈ heldValues th,
      update home object (some (.held t)) other = some (.held u)) threads
    · intro other mem
      rw [held] at mem
      rcases List.mem_append.mp mem with earlier | new
      · exact stays (homes.held t other earlier) (by simp)
      · rw [List.mem_singleton.mp new, update_self]
    · intro u _ other mem
      exact stays (homes.held u other mem) (by simp)
  · apply all_threads (P := fun _ th => (heldValues th).Nodup) threads
    · rw [held, List.nodup_append]
      refine ⟨homes.heldOnce t, by simp, ?_⟩
      rintro other mem _ new rfl
      rw [List.mem_singleton.mp new] at mem
      rcases place with outside | ⟨tableid, pooled⟩
      · exact absurd (outside.symm.trans (homes.held t _ mem)) (by simp)
      · exact absurd (pooled.symm.trans (homes.held t _ mem)) (by simp)
    · exact fun u _ => homes.heldOnce u
  · intro node other main holds
    obtain ⟨before, value⟩ := quiet.current shared.unused main holds
    exact stays (homes.current before value) (by simp)
  · apply all_threads (P := fun u th => ∀ tableid, ∀ other ∈ valueHolding middle.heap th tableid,
      update home object (some (.held t)) other = some (.pooled u tableid)) threads
    · intro tableid other mem
      rw [quiet.valueHolding] at mem
      exact pooledStays ((fewer tableid).subset mem) fun same => gone tableid (same ▸ mem)
    intro u different tableid other mem
    rw [quiet.valueHolding] at mem
    refine pooledStays mem ?_
    rintro rfl
    have there := homes.pooled u tableid other mem
    rcases place with outside | ⟨owner, pooled⟩
    · exact absurd (outside.symm.trans there) (by simp)
    · have same := Option.some.inj (pooled.symm.trans there)
      simp only [Place.pooled.injEq] at same
      exact different same.1.symm
  · apply all_threads (P := fun _ th => ∀ tableid, (valueHolding middle.heap th tableid).Nodup)
      threads
    · intro tableid
      rw [quiet.valueHolding]
      exact (homes.pooledOnce t tableid).sublist (fewer tableid)
    · intro u _ tableid
      rw [quiet.valueHolding]
      exact homes.pooledOnce u tableid
  · intro other placed
    show middle.known other = true
    rw [known]
    by_cases same : other = object
    · exact Or.inr same
    · rw [update_of_ne same] at placed
      exact Or.inl (homes.known other placed)
  · intro other isKnown
    show other < middle.nextValue
    rcases (known other).mp isKnown with before | rfl
    · exact lt_of_lt_of_le (homes.bounded other before) bounded.1
    · exact bounded.2

theorem step_homes_add {before : Thread} {payload : Payload} {val : Value} (gives : givesNew s t)
    (taken : Step cfg s t (s.threads t) middle own)
    (pc : (s.threads t).pc = .addCheck tableid key payload node)
    (chosen : payloadValue s (s.threads t) tableid payload = (val, middle, before))
    (result : own = { before with
      pc := .body
      writeset := before.writeset ++ [{ tableid, key, node, val }]
      events := before.events ++ [.put tableid key val] }) :
    ∃ after, Homes (finished s middle t own) after := by
  have threads := step_threads taken
  obtain ⟨heap, log, snapshot, table, nextNode, _⟩ := payloadValue_shared chosen
  have quiet := quiet_local heap log snapshot table nextNode
  have start : heldValues (s.threads t) = entryValues (s.threads t).writeset := by
    simp [heldValues, pc, Pc.holdsWrites, Pc.inTx]
  have held : before.writeset = (s.threads t).writeset →
      heldValues own = heldValues (s.threads t) ++ pointers val := by
    intro writeset
    rw [start, heldValues, result, if_pos (by rfl), writeset]
    simp [entryValues]
  have idle : ∀ th : Thread, th.pc = .body ∨ th.pc = (s.threads t).pc → th.collecting = [] := by
    rintro th (body | same)
    · simp [Thread.collecting, body]
    · simp [Thread.collecting, same, pc]
  cases payload with
  | deleted =>
    cases chosen
    refine ⟨_, homes.quiet shared quiet threads ⟨Or.inl ?_, ?_⟩ (sameKnown_refl rfl rfl)⟩
    · rw [held rfl]
      simp [pointers]
    · intro other
      rw [valueHolding, valueHolding, idle _ (Or.inr rfl), result, idle _ (Or.inl rfl)]
  | given object =>
    cases chosen
    simp only [givesNew, pc] at gives
    have outside : home object = none := by
      by_contra placed
      rw [homes.known object placed] at gives
      cases gives
    have same : ∀ other, valueHolding s.heap own other =
        valueHolding s.heap (s.threads t) other := by
      intro other
      rw [valueHolding, valueHolding, idle _ (Or.inr rfl), result, idle _ (Or.inl rfl)]
    refine ⟨_, homes.hold shared quiet threads (Or.inl outside) (held rfl)
      (fun other => by rw [same]) ?_ ?_ ⟨le_max_left _ _, ?_⟩⟩
    · intro other mem
      rw [same] at mem
      rw [homes.pooled t other object mem] at outside
      cases outside
    · intro other
      by_cases here : other = object <;> simp [acquire, here]
    · exact lt_of_lt_of_le (Nat.lt_succ_self object) (le_max_right _ _)
  | copied =>
    simp only [payloadValue] at chosen
    split at chosen
    · rename_i object pool popped
      cases chosen
      obtain ⟨shape, lists⟩ := ObjPool.getFreeObj_some popped
      have elsewhere : ∀ other, other ≠ tableid → valueHolding s.heap own other =
          valueHolding s.heap (s.threads t) other := by
        intro other different
        rw [valueHolding, valueHolding, idle _ (Or.inr rfl), result, idle _ (Or.inl rfl)]
        simp [different]
      have here : valueHolding s.heap (s.threads t) tableid =
          object :: valueHolding s.heap own tableid := by
        rw [valueHolding, valueHolding, idle _ (Or.inr rfl), result, idle _ (Or.inl rfl)]
        simp [shape, ObjPool.retired, lists]
      have mem : object ∈ valueHolding s.heap (s.threads t) tableid := by
        rw [here]
        exact List.mem_cons_self
      have place := homes.pooled t tableid object mem
      refine ⟨_, homes.hold shared quiet threads (Or.inr ⟨tableid, place⟩)
        (held rfl) ?_ ?_ ?_ ⟨le_refl _, ?_⟩⟩
      · intro other
        by_cases same : other = tableid
        · subst other
          rw [here]
          exact List.sublist_cons_self _ _
        · rw [elsewhere other same]
      · intro other inOther
        by_cases same : other = tableid
        · subst other
          have once := homes.pooledOnce t tableid
          rw [here, List.nodup_cons] at once
          exact once.1 inOther
        · rw [elsewhere other same] at inOther
          have there := homes.pooled t other object inOther
          simp only [place, Option.some.injEq, Place.pooled.injEq, true_and] at there
          exact same there.symm
      · intro other
        constructor
        · exact Or.inl
        · rintro (before | rfl)
          · exact before
          · exact homes.known other (by simp [place])
      · exact homes.bounded object (homes.known object (by simp [place]))
    · cases chosen
      have unknown : s.known s.nextValue ≠ true :=
        fun isKnown => absurd (homes.bounded _ isKnown) (Nat.lt_irrefl _)
      have outside : home s.nextValue = none := by
        by_contra placed
        exact unknown (homes.known _ placed)
      have same : ∀ other, valueHolding s.heap own other =
          valueHolding s.heap (s.threads t) other := by
        intro other
        rw [valueHolding, valueHolding, idle _ (Or.inr rfl), result, idle _ (Or.inl rfl)]
      refine ⟨_, homes.hold shared quiet threads (Or.inl outside) (held rfl)
        (fun other => by rw [same]) ?_ ?_ ⟨le_max_left _ _, ?_⟩⟩
      · intro other mem
        rw [same] at mem
        rw [homes.pooled t other _ mem] at outside
        cases outside
      · intro other
        by_cases here : other = s.nextValue <;> simp [acquire, here]
      · exact lt_of_lt_of_le (Nat.lt_succ_self _) (le_max_right _ _)

end

/-! ### Commits -/

theorem moving_start (homes : Homes s home) (layout : Layout s) (pools : NodePools cfg s)
    (pc : (s.threads t).pc = .body) :
    Moving s t home (s.threads t).writeset (writeState s (s.threads t)) := by
  have tidy := layout.tidy t
  have same : ∀ tableid,
      wsHolding (writeState s (s.threads t)) tableid = holding (s.threads t) tableid := by
    intro tableid
    simp [wsHolding, holding, writeState, Thread.collecting, pc]
  have values : ∀ tableid, movingValues s t (writeState s (s.threads t)) tableid =
      valueHolding s.heap (s.threads t) tableid := by
    intro tableid
    simp [movingValues, valueHolding, writeState, Thread.collecting, pc]
  have start : heldValues (s.threads t) = entryValues (s.threads t).writeset := by
    simp [heldValues, pc, Pc.holdsWrites, Pc.inTx]
  exact
    { separate := tidy.separate layout.shared
      holds :=
        { distinct := (pools.distinct t).perm (le_refl _) fun tableid => by rw [same]
          origin := fun mem => Or.inl (by rwa [same] at mem)
          grows := le_refl _ }
      entries := tidy.entries (by rw [pc]; rfl)
      held := start ▸ homes.held t
      heldOnce := start ▸ homes.heldOnce t
      heldOthers := fun u _ => homes.held u
      current := homes.current
      pooled := fun tableid object mem => homes.pooled t tableid object (values _ ▸ mem)
      pooledOnce := fun tableid => values tableid ▸ homes.pooledOnce t tableid
      pooledOthers := fun u _ => homes.pooled u
      known := homes.known }

theorem moving_done (homes : Homes s home) (layout : Layout s) (pools : NodePools cfg s)
    (pc : (s.threads t).pc = .body)
    (written : write s.snapshot (writeState s (s.threads t)) (s.threads t).writeset = .ok ws) :
    ∃ after, Moving s t after [] ws :=
  write_rule (P := fun rest state => ∃ after, Moving s t after rest state)
    (fun kv _ state _ ⟨home, moving⟩ entry =>
      ⟨rehome home t kv (state.heap kv.node).value, moving.entry entry⟩)
    ⟨home, moving_start homes layout pools pc⟩ written

theorem commit_others {u : ThreadId} (layout : Layout s) (pools : NodePools cfg s)
    (pc : (s.threads t).pc = .body)
    (written : write s.snapshot (writeState s (s.threads t)) (s.threads t).writeset = .ok ws)
    (holds : HoldingEffect (holding (s.threads t)) s.nextNode ws) (different : u ≠ t)
    (tableid : TableId) :
    valueHolding ws.heap (s.threads u) tableid = valueHolding s.heap (s.threads u) tableid := by
  unfold valueHolding
  congr 1
  apply collectedValues_congr
  intro owner node mem
  have theirs : node ∈ holding (s.threads u) owner := List.mem_append_right _ mem
  have entries := (layout.tidy t).entries (by rw [pc]; rfl)
  congr 1
  apply write_others ((layout.tidy t).separate layout.shared)
    (fun kv inSet => ⟨_, _, (entries kv inSet).mapped⟩)
    (fun kv inSet => (entries kv inSet).plain) written
  · obtain ⟨kv, inSet, isDummy⟩ := List.mem_filterMap.mp mem
    unfold Thread.collecting at inSet
    split at inSet
    · rename_i collects
      split at isDummy
      · exact ((layout.tidy u).dummies collects kv inSet node isDummy).1
      · cases isDummy
    · cases inSet
  · intro other linked
    rcases holds.origin (List.mem_append_right _ linked) with old | new
    · exact different (pools.apart theirs old)
    · exact absurd ((pools.distinct u).below theirs) (Nat.not_lt.mpr new)

theorem commit_homes (homes : Homes s home) (layout : Layout s) (pools : NodePools cfg s)
    (pc : (s.threads t).pc = .body)
    (written : write s.snapshot (writeState s (s.threads t)) (s.threads t).writeset = .ok ws) :
    ∃ after, Homes (finished s (committed s t (s.threads t) ws) t (ended (s.threads t) ws)) after ∧
      Moving s t after [] ws := by
  obtain ⟨after, moving⟩ := moving_done homes layout pools pc written
  have own : ∀ tableid, valueHolding ws.heap (ended (s.threads t) ws) tableid =
      movingValues s t ws tableid := fun _ => rfl
  have others : ∀ u, u ≠ t → ∀ tableid, valueHolding ws.heap (s.threads u) tableid =
      valueHolding s.heap (s.threads u) tableid :=
    fun u different => commit_others layout pools pc written moving.holds different
  refine ⟨after, ?_, moving⟩
  refine
    { held := ?_
      heldOnce := ?_
      current := moving.current
      pooled := ?_
      pooledOnce := ?_
      known := moving.known
      bounded := homes.bounded }
  · apply all_threads (P := fun u th => ∀ object ∈ heldValues th,
      after object = some (.held u)) rfl
    · exact fun object mem => absurd mem (by simp [heldValues, ended, Pc.holdsWrites, Pc.inTx])
    · exact moving.heldOthers
  · apply all_threads (P := fun _ th => (heldValues th).Nodup) rfl
    · simp [heldValues, ended, Pc.holdsWrites, Pc.inTx]
    · exact fun u _ => homes.heldOnce u
  · apply all_threads (P := fun u th => ∀ tableid, ∀ object ∈ valueHolding ws.heap th tableid,
      after object = some (.pooled u tableid)) rfl
    · exact fun tableid object mem => moving.pooled tableid object (own tableid ▸ mem)
    · exact fun u different tableid object mem =>
        moving.pooledOthers u different tableid object (others u different tableid ▸ mem)
  · apply all_threads (P := fun _ th => ∀ tableid, (valueHolding ws.heap th tableid).Nodup) rfl
    · exact fun tableid => own tableid ▸ moving.pooledOnce tableid
    · exact fun u different tableid => others u different tableid ▸ homes.pooledOnce u tableid

theorem step_homes (homes : Homes s home) (layout : Layout s) (pools : NodePools cfg s)
    (admitted : ¬ removes s t) (gives : givesNew s t)
    (taken : Step cfg s t (s.threads t) middle own) :
    ∃ after, Homes (finished s middle t own) after := by
  by_cases collects : own.pc = .endCollect
  · obtain ⟨ws, pc, _, written, rfl, rfl⟩ := step_collects taken collects
    obtain ⟨after, result, _⟩ := commit_homes homes layout pools pc written
    exact ⟨after, result⟩
  rcases step_sameValues taken collects with
    ⟨same, known⟩ | ⟨_, _, _, _, _, _, pc, chosen, result⟩
  · rcases step_quiet layout.shared.unused admitted taken with quiet | ⟨ws, _, _, _, rfl, rfl⟩
    · exact ⟨_, homes.quiet layout.shared quiet (step_threads taken) same known⟩
    · exact absurd rfl collects
  · exact step_homes_add homes layout.shared gives taken pc chosen result

/-! ### The loaded state -/

theorem put_known (s : State) (tableid : TableId) (key : Key) (object : Ptr) :
    (put s tableid key object).known = update s.known object true ∧
      (put s tableid key object).nextValue = max s.nextValue (object + 1) := by
  unfold put getWithInsert acquire
  dsimp only
  cases s.table tableid key <;> exact ⟨rfl, rfl⟩

theorem put_homes (homes : Homes s home) (shared : Shared s)
    (idle : ∀ u, (put s tableid key object).threads u = {}) (new : s.known object = false) :
    ∃ after, Homes (put s tableid key object) after := by
  have unplaced : home object = none := by
    by_contra placed
    simp [homes.known object placed] at new
  have found := getWithInsert_found (acquire s object) tableid key
  have quiet : Quiet (acquire s object) (getWithInsert (acquire s object) tableid key).2 :=
    quiet_found shared.unused found
  obtain ⟨known, nextValue⟩ := put_known s tableid key object
  refine ⟨update home object
    (some (.current (getWithInsert (acquire s object) tableid key).1)), ?_⟩
  constructor
  case held => simp [idle, heldValues, Pc.holdsWrites, Pc.inTx]
  case heldOnce => simp [idle, heldValues, Pc.holdsWrites, Pc.inTx]
  case pooled => simp [idle, valueHolding, ObjPool.retired, Thread.collecting, collectedValues]
  case pooledOnce => simp [idle, valueHolding, ObjPool.retired, Thread.collecting, collectedValues]
  case current =>
    intro node other main holds
    by_cases here : node = (getWithInsert (acquire s object) tableid key).1
    · have same : object = other := by simpa [put, here] using holds
      simp [here, same]
    -- the loader leaves the other records alone
    obtain ⟨before, value⟩ := quiet.current shared.unused main (by simpa [put, here] using holds)
    have placed := homes.current before value
    have different : other ≠ object := by
      rintro rfl
      simp [placed] at unplaced
    rwa [update_of_ne different]
  case known =>
    intro other placed
    rw [known]
    by_cases same : other = object
    · simp [same]
    · rw [update_of_ne same] at placed ⊢
      exact homes.known other placed
  case bounded =>
    intro other isKnown
    rw [known] at isKnown
    rw [nextValue]
    by_cases same : other = object
    · exact lt_of_lt_of_le (same ▸ Nat.lt_succ_self object) (Nat.le_max_right _ _)
    · rw [update_of_ne same] at isKnown
      exact lt_of_lt_of_le (homes.bounded other isKnown) (Nat.le_max_left _ _)

theorem loaded_known (records : List (TableId × Key × Ptr)) (object : Ptr) :
    (loaded records).known object = true ↔ object ∈ records.map fun record => record.2.2 := by
  induction records using List.reverseRecOn with
  | nil => simp [loaded]
  | append_singleton rest record ih =>
    rw [loaded, List.foldl_append]
    show (put (loaded rest) record.1 record.2.1 record.2.2).known object = true ↔ _
    rw [(put_known ..).1]
    by_cases same : object = record.2.2
    · simp [same]
    · rw [update_of_ne same, ih]
      simp [same]

theorem loaded_homes (records : List (TableId × Key × Ptr))
    (distinct : (records.map fun record => record.2.2).Nodup) :
    ∃ home, Homes (loaded records) home := by
  induction records using List.reverseRecOn with
  | nil =>
    refine ⟨fun _ => none, ?_⟩
    constructor <;>
      simp [loaded, State.main, heldValues, Pc.holdsWrites, Pc.inTx, valueHolding,
        ObjPool.retired, Thread.collecting, collectedValues]
  | append_singleton rest record ih =>
    rw [List.map_append, List.nodup_append] at distinct
    obtain ⟨home, homes⟩ := ih distinct.1
    have idle := loaded_threads (rest ++ [record])
    rw [loaded, List.foldl_append] at idle ⊢
    apply put_homes homes (loaded_shared rest) idle
    by_contra isKnown
    have mem := (loaded_known rest record.2.2).mp (by simpa using isKnown)
    exact distinct.2.2 _ mem record.2.2 (by simp) rfl

end EunoDb.Machine
