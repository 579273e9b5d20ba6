import EunoDb.Steps

/-! The store with `DBTables::SnapshotUpdateThread`, one thread whose `snapshot++` is a load and a
later store. -/

namespace EunoDb.SnapshotThread

open Memstore TxSets Machine Execution

inductive Mark where
  | began (oldsnapshot : Nat)
  | committed (gcounter : Nat)
  deriving DecidableEq, Repr

structure System where
  store : State
  loaded : Option Nat := none
  -- history: no step below reads these
  begins : Nat := 0
  marks : List Mark := []

inductive Move where
  | worker (act : ThreadId × Act)
  | load
  | store
  deriving DecidableEq, Repr

def opens (s : State) (act : ThreadId × Act) : Bool :=
  match (s.threads act.1).pc, act.2 with
  | .roSnapshot, .tick => true
  | _, _ => false

def newMarks (s : State) (act : ThreadId × Act) (next : State) : List Mark :=
  if opens s act then [.began s.snapshot]
  else (next.log.drop s.log.length).map fun commit => .committed commit.sn

def step (cfg : Config) (sys : System) : Move → Option System
  | .worker act =>
    (Machine.step cfg sys.store act).map fun next =>
      { sys with
        store := next
        begins := if opens sys.store act then sys.begins + 1 else sys.begins
        marks := sys.marks ++ newMarks sys.store act next }
  | .load =>
    match sys.loaded with
    | none => some { sys with loaded := some sys.store.snapshot, begins := 0 }
    | some _ => none
  | .store =>
    sys.loaded.map fun value =>
      { sys with store := { sys.store with snapshot := value + 1 }, loaded := none }

def start (records : List (TableId × Key × Ptr)) : System := { store := Machine.loaded records }

def Ordered (marks : List Mark) : Prop :=
  marks.Pairwise fun earlier later =>
    ∀ oldsnapshot gcounter, earlier = .began oldsnapshot → later = .committed gcounter →
      oldsnapshot < gcounter

/-! ### Counters of the records -/

def Low (heap : Heap) (gcounter : Nat) : Prop :=
  ∀ node, (heap node).counter ≤ gcounter

variable {gcounter : Nat} {ws : WriteState} {s next : State} {tableid : TableId} {th own : Thread}
  {cfg : Config} {t : ThreadId}

theorem Low.update {heap : Heap} (low : Low heap gcounter) (target : NodeId) {node : MemNode}
    (below : node.counter ≤ gcounter) : Low (Function.update heap target node) gcounter := by
  intro other
  by_cases same : other = target
  · subst other
    simpa using below
  · simpa [same] using low other

theorem getMemNode_low (low : Low ws.heap gcounter) (tableid : TableId) :
    Low (getMemNode ws tableid).2.heap gcounter := by
  unfold getMemNode
  split
  · exact low.update _ (Nat.zero_le _)
  · exact low.update _ (Nat.zero_le _)

variable {after : WriteState} {key : Key} {node : NodeId} {middle : State} {act : ThreadId × Act}
  {sys : System}

theorem writeEntry_low {kv : WSKV} (low : Low ws.heap gcounter)
    (written : writeEntry gcounter ws kv = .ok after) : Low after.heap gcounter := by
  obtain ⟨queue, _, ⟨_, rfl⟩ | ⟨_, _, rfl⟩⟩ := writeEntry_cases written
  · exact low.update _ (le_refl _)
  -- the version node takes over a counter that was low, the record gets the new one
  have allocated := getMemNode_low low kv.tableid
  unfold writeNewVersion
  apply Low.update
  · exact allocated.update _ (allocated kv.node)
  · exact le_refl gcounter

theorem write_low {kvs : List WSKV} (low : Low ws.heap gcounter)
    (written : write gcounter ws kvs = .ok after) :
    Low after.heap gcounter :=
  write_rule (P := fun _ ws => Low ws.heap gcounter)
    (fun _ _ _ _ below entry => writeEntry_low below entry) low written

theorem found_low (low : Low s.heap s.snapshot) (found : Found s tableid key node next) :
    Low next.heap next.snapshot := by
  cases found with
  | present mapped => exact low
  | inserted absent => exact low.update _ (Nat.zero_le _)

inductive Counts (s middle : State) (t : ThreadId) (th : Thread) : Prop where
  | began (pc : th.pc = .roSnapshot) (snapshot : middle.snapshot = s.snapshot + 1)
      (log : middle.log = s.log)
  | kept (pc : th.pc ≠ .roSnapshot) (snapshot : middle.snapshot = s.snapshot)
      (log : middle.log = s.log)
  | committed (pc : th.pc ≠ .roSnapshot) (snapshot : middle.snapshot = s.snapshot)
      (log : middle.log = s.log ++ [⟨t, th.events, s.snapshot⟩])

theorem found_kept (found : Found s tableid key node next) :
    next.snapshot = s.snapshot ∧ next.log = s.log := by
  cases found with
  | present mapped | inserted absent => exact ⟨rfl, rfl⟩

theorem payloadValue_kept {payload : Payload} {val : Value}
    (chosen : payloadValue s th tableid payload = (val, next, own)) :
    next.heap = s.heap ∧ next.snapshot = s.snapshot ∧ next.log = s.log := by
  unfold payloadValue at chosen
  split at chosen
  · cases chosen
    exact ⟨rfl, rfl, rfl⟩
  · cases chosen
    exact ⟨rfl, rfl, rfl⟩
  · split at chosen <;>
      · cases chosen
        exact ⟨rfl, rfl, rfl⟩

theorem step_counts (taken : Step cfg s t th middle own) : Counts s middle t th := by
  cases taken with
  | roSnapshot pc => exact .began pc rfl rfl
  | commit pc valid written => exact .committed (by simp [pc]) rfl rfl
  | getFind pc found | addInsert pc buffers found | addInsertCopied pc found =>
    exact .kept (by simp [pc]) (found_kept found).1 (found_kept found).2
  | addCheck pc present chosen =>
    have kept := payloadValue_kept chosen
    exact .kept (by simp [pc]) kept.2.1 kept.2.2
  | _ => exact .kept (by simp [*]) rfl rfl

theorem step_low (low : Low s.heap s.snapshot) (taken : Step cfg s t th middle own) :
    Low middle.heap middle.snapshot := by
  cases taken with
  | roSnapshot pc => exact fun node => Nat.le_succ_of_le (low node)
  | commit pc valid written => exact write_low low written
  | getFind pc found | addInsert pc buffers found | addInsertCopied pc found =>
    exact found_low low found
  | addCheck pc present chosen =>
    obtain ⟨heap, snapshot, _⟩ := payloadValue_kept chosen
    rw [heap, snapshot]
    exact low
  | endRemove pc | rmPop pc queued => exact low.update _ (low _)
  | @rmRemove obj ref node pc current mapped =>
    -- the mark and the new sequence number leave the counters alone
    have marked : Low (Function.update s.heap obj.node
        { s.heap obj.node with value := .haveRemoved }) s.snapshot :=
      low.update obj.node (low obj.node)
    exact marked.update node (marked node)
  | _ => exact low

theorem loaded_low (records : List (TableId × Key × Ptr)) :
    Low (Machine.loaded records).heap (Machine.loaded records).snapshot := by
  have put_low : ∀ (s : State) (record : TableId × Key × Ptr), Low s.heap s.snapshot →
      Low (put s record.1 record.2.1 record.2.2).heap (put s record.1 record.2.1 record.2.2).snapshot := by
    intro s record low
    have found := getWithInsert_found (acquire s record.2.2) record.1 record.2.1
    have inserted := found_low (s := acquire s record.2.2) low found
    exact inserted.update _ (inserted _)
  have kept : ∀ (s : State), Low s.heap s.snapshot →
      Low (records.foldl (fun state record => put state record.1 record.2.1 record.2.2) s).heap
        (records.foldl (fun state record => put state record.1 record.2.1 record.2.2) s).snapshot := by
    induction records with
    | nil => exact fun _ low => low
    | cons record rest ih => exact fun s low => ih _ (put_low s record low)
  exact kept {} fun _ => Nat.zero_le _

/-! ### The system -/

structure Sound (sys : System) : Prop where
  low : Low sys.store.heap sys.store.snapshot
  loaded : ∀ value, sys.loaded = some value → sys.store.snapshot = value + sys.begins
  readers : ∀ oldsnapshot, .began oldsnapshot ∈ sys.marks → oldsnapshot < sys.store.snapshot
  ordered : Ordered sys.marks

def mild (sys : System) (move : Move) : Prop :=
  move = .store → sys.begins ≤ 1

instance (sys : System) (move : Move) : Decidable (mild sys move) := by
  unfold mild
  infer_instance

theorem opens_iff {act : Act} (taken : Machine.step cfg s (t, act) = some next) :
    opens s (t, act) = true ↔ (s.threads t).pc = .roSnapshot := by
  unfold opens
  constructor
  · intro section_
    split at section_
    · assumption
    · cases section_
  intro pc
  cases act with
  | tick => simp [pc]
  | call op =>
    -- no call is possible before the section has run
    simp only [Machine.step, perform] at taken
    split at taken
    · split at taken
      · cases op <;> simp [call, pc] at taken
      · simp at taken
    · cases taken

inductive Worked (s next : State) (act : ThreadId × Act) : Prop where
  | began (section_ : opens s act = true) (snapshot : next.snapshot = s.snapshot + 1)
      (marks : newMarks s act next = [.began s.snapshot])
  | kept (other : opens s act = false) (snapshot : next.snapshot = s.snapshot)
      (marks : newMarks s act next = [])
  | committed (other : opens s act = false) (snapshot : next.snapshot = s.snapshot)
      (marks : newMarks s act next = [.committed s.snapshot])

theorem step_worked (taken : Machine.step cfg s act = some next) : Worked s next act := by
  obtain ⟨t, act⟩ := act
  have opening := opens_iff taken
  obtain ⟨_, middle, own, outcome, rfl⟩ := step_cases taken
  cases step_counts outcome with
  | began pc snapshot log =>
    have section_ := opening.mpr pc
    exact .began section_ snapshot (by simp [newMarks, section_])
  | kept pc snapshot log =>
    have other : opens s (t, act) = false := by simpa [pc] using opening
    exact .kept other snapshot (by simp [newMarks, other, finished, State.setThread, log])
  | committed pc snapshot log =>
    have other : opens s (t, act) = false := by simpa [pc] using opening
    exact .committed other snapshot (by simp [newMarks, other, finished, State.setThread, log])

theorem Sound.worker (sound : Sound sys) (taken : Machine.step cfg sys.store act = some next) :
    Sound { sys with
      store := next
      begins := if opens sys.store act then sys.begins + 1 else sys.begins
      marks := sys.marks ++ newMarks sys.store act next } := by
  have low : Low next.heap next.snapshot := by
    obtain ⟨t, act⟩ := act
    obtain ⟨_, middle, own, outcome, rfl⟩ := step_cases taken
    have after := step_low sound.low outcome
    exact after
  cases step_worked taken with
  | began section_ snapshot marks =>
    rw [marks, section_]
    refine ⟨low, ?_, ?_, ?_⟩
    · intro value held
      have before := sound.loaded value held
      simp only [if_true]
      omega
    · intro oldsnapshot mem
      rcases List.mem_append.mp mem with earlier | new
      · have below := sound.readers oldsnapshot earlier
        simp only
        omega
      · cases List.mem_singleton.mp new
        simp only
        omega
    · apply List.pairwise_append.mpr
      refine ⟨sound.ordered, List.pairwise_singleton _ _, ?_⟩
      intro earlier _ later new oldsnapshot gcounter _ isCommit
      rw [List.mem_singleton.mp new] at isCommit
      cases isCommit
  | kept other snapshot marks =>
    rw [marks, other, List.append_nil]
    refine ⟨low, ?_, ?_, sound.ordered⟩
    · intro value held
      exact snapshot.trans (sound.loaded value held)
    · intro oldsnapshot mem
      exact snapshot.symm ▸ sound.readers oldsnapshot mem
  | committed other snapshot marks =>
    rw [marks, other]
    refine ⟨low, ?_, ?_, ?_⟩
    · intro value held
      exact snapshot.trans (sound.loaded value held)
    · intro oldsnapshot mem
      rcases List.mem_append.mp mem with earlier | new
      · exact snapshot.symm ▸ sound.readers oldsnapshot earlier
      · cases List.mem_singleton.mp new
    -- every reader that has begun is below the counter this commit writes
    apply List.pairwise_append.mpr
    refine ⟨sound.ordered, List.pairwise_singleton _ _, ?_⟩
    intro earlier mem later new oldsnapshot gcounter isBegin isCommit
    rw [List.mem_singleton.mp new] at isCommit
    cases isCommit
    exact sound.readers oldsnapshot (isBegin ▸ mem)

theorem step_sound {next : System} {move : Move} (sound : Sound sys) (admitted : mild sys move)
    (taken : step cfg sys move = some next) :
    Sound next ∧ sys.store.snapshot ≤ next.store.snapshot := by
  cases move with
  | worker act =>
    obtain ⟨store, worked, rfl⟩ := Option.map_eq_some_iff.mp taken
    refine ⟨sound.worker worked, ?_⟩
    cases step_worked worked with
    | began section_ snapshot marks => exact snapshot.symm ▸ Nat.le_succ _
    | kept other snapshot marks | committed other snapshot marks => exact le_of_eq snapshot.symm
  | load =>
    simp only [step] at taken
    split at taken
    · cases taken
      refine ⟨⟨sound.low, ?_, sound.readers, sound.ordered⟩, le_refl _⟩
      intro value held
      cases held
      rfl
    · cases taken
  | store =>
    obtain ⟨value, held, rfl⟩ := Option.map_eq_some_iff.mp taken
    have before := sound.loaded value held
    have few := admitted rfl
    have grows : sys.store.snapshot ≤ value + 1 := by omega
    refine ⟨⟨?_, ?_, ?_, sound.ordered⟩, grows⟩
    · exact fun node => le_trans (sound.low node) grows
    · intro other held
      cases held
    · exact fun oldsnapshot mem => lt_of_lt_of_le (sound.readers oldsnapshot mem) grows

theorem start_sound (records : List (TableId × Key × Ptr)) : Sound (start records) where
  low := loaded_low records
  loaded := fun _ held => by cases held
  readers := fun _ mem => by cases mem
  ordered := List.Pairwise.nil

/-- In every run whose updates overlap at most one `DBROTX::Begin` each, the
counter never falls, commits get numbers above those of the readers that began
before them, and no record carries a counter above the snapshot. -/
theorem snapshot_grows (cfg : Config) (records : List (TableId × Key × Ptr))
    (first second : List Move) (middle final : System)
    (admitted : Execution.Each (step cfg) mild (start records) (first ++ second))
    (reached : Execution.run (step cfg) (start records) first = some middle)
    (finished : Execution.run (step cfg) middle second = some final) :
    middle.store.snapshot ≤ final.store.snapshot ∧ Ordered final.marks ∧
      ∀ node, (final.store.heap node).counter ≤ final.store.snapshot := by
  obtain ⟨early, late⟩ := (Execution.each_append reached).mp admitted
  have sound : Sound middle :=
    Execution.run_preserves (fun _ _ _ before allowed taken => (step_sound before allowed taken).1)
      (start_sound records) early reached
  -- the second part carries the bound along with the invariant
  have carried : ∀ sys move next,
      Sound sys ∧ middle.store.snapshot ≤ sys.store.snapshot → mild sys move →
      step cfg sys move = some next →
      Sound next ∧ middle.store.snapshot ≤ next.store.snapshot := by
    intro sys move next before allowed taken
    have after := step_sound before.1 allowed taken
    exact ⟨after.1, le_trans before.2 after.2⟩
  have kept := Execution.run_preserves carried ⟨sound, le_refl _⟩ late finished
  exact ⟨kept.2, kept.1.ordered, kept.1.low⟩

def writing (t : ThreadId) (key : Key) (object : Ptr) : List Move :=
  [.worker (t, .call .begin), .worker (t, .call (.add 0 key (.given object))), .worker (t, .tick),
    .worker (t, .tick), .worker (t, .tick), .worker (t, .call .finish)]

def reading (t : ThreadId) : List Move :=
  [.worker (t, .call .roBegin), .worker (t, .tick)]

theorem snapshot_grows_reader :
    let first := writing 0 7 20 ++ [.load] ++ reading 1
    let second := writing 2 8 30 ++ [.store] ++ writing 3 9 40
    ∃ middle final,
      Execution.run (step ⟨4, 1, 100000, 100⟩) (start []) first = some middle ∧
      Execution.run (step ⟨4, 1, 100000, 100⟩) middle second = some final ∧
      final.marks = [.committed 1, .began 1, .committed 2, .committed 2] ∧
      middle.store.snapshot ≤ final.store.snapshot ∧ Ordered final.marks ∧
      ∀ node, (final.store.heap node).counter ≤ final.store.snapshot :=
  ⟨_, _, rfl, rfl, rfl,
    snapshot_grows ⟨4, 1, 100000, 100⟩ [] (writing 0 7 20 ++ [.load] ++ reading 1)
      (writing 2 8 30 ++ [.store] ++ writing 3 9 40) _ _ (by decide +kernel) rfl rfl⟩

/-- Two readers begin between the load and the store and a commit follows them.
The store takes the counter back from 3 to 2: a record keeps counter 3, and the
next commit gets the number that the second reader reads at. -/
theorem snapshot_falls :
    let first := [.load] ++ reading 1 ++ reading 2 ++ writing 0 7 20
    let second := [.store] ++ writing 3 8 30
    ∃ middle final,
      Execution.run (step ⟨4, 1, 100000, 100⟩) (start []) first = some middle ∧
      Execution.run (step ⟨4, 1, 100000, 100⟩) middle second = some final ∧
      final.store.snapshot < middle.store.snapshot ∧
      final.marks = [.began 1, .began 2, .committed 3, .committed 2] ∧ ¬ Ordered final.marks ∧
      final.store.snapshot < (final.store.heap 0).counter := by
  refine ⟨_, _, rfl, rfl, by decide, rfl, ?_, by decide⟩
  intro ordered
  have late : (2 : Nat) < 2 := by
    have second := (List.pairwise_cons.mp (List.pairwise_cons.mp ordered).2).1
    exact second (.committed 2) (by decide) 2 2 rfl rfl
  exact absurd late (Nat.lt_irrefl 2)

end EunoDb.SnapshotThread
