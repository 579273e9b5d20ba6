import EunoDb.Serializability
import EunoDb.NodePools
import EunoDb.Chain

/-! What read-only transactions see. -/

namespace EunoDb.Machine

open Memstore TxSets History Execution

abbrev walk (heap : Heap) (oldsnapshot : Nat) : NodeId → List NodeId → Option NodeId → Prop :=
  Chain.Walk (fun node => (heap node).counter) (fun node => (heap node).oldVersions) oldsnapshot

def stopValue (heap : Heap) : Option NodeId → Value
  | some node => (heap node).value
  | none => .logicalDelete

variable {heap : Heap} {oldsnapshot : Nat} {node : NodeId} {base : Entry → Value}
  {before writes : List (Entry × Value)}

theorem scanLoop_of_walk {path : List NodeId} {found : Option NodeId}
    (visits : walk heap oldsnapshot node path found) {fuel : Nat} (enough : path.length < fuel) :
    scanLoop heap oldsnapshot fuel (some node) = some found := by
  induction visits generalizing fuel with
  | stop low =>
    obtain ⟨fuel, rfl⟩ := Nat.exists_eq_succ_of_ne_zero (Nat.ne_of_gt enough)
    simp [scanLoop, Nat.not_lt.mpr low]
  | last high ends =>
    obtain ⟨fuel, rfl⟩ := Nat.exists_eq_succ_of_ne_zero (Nat.ne_of_gt enough)
    simp [scanLoop, high, ends]
  | hop high link falls rest ih =>
    obtain ⟨fuel, rfl⟩ := Nat.exists_eq_succ_of_ne_zero (Nat.ne_of_gt (Nat.zero_lt_of_lt enough))
    simp only [scanLoop, high, if_true, link]
    exact ih (Nat.lt_of_succ_lt_succ enough)

theorem scan_of_walk {path : List NodeId} {found : Option NodeId}
    (visits : walk heap oldsnapshot node path found) {fuel : Nat}
    (enough : (heap node).counter ≤ fuel) :
    scanMemNode heap oldsnapshot fuel (some node) = some (visible (stopValue heap found)) := by
  have short := le_trans visits.length_le enough
  cases visits with
  | stop low => simp [scanMemNode, low, stopValue]
  | last high ends =>
    simp [scanMemNode, Nat.not_le.mpr high, ends, scanLoop, stopValue, visible]
  | hop high link falls rest =>
    simp only [scanMemNode, Nat.not_le.mpr high, if_false, link,
      scanLoop_of_walk rest (Nat.lt_of_succ_le short), Option.map_some]
    cases found <;> rfl

def seen (base : Entry → Value) (before writes : List (Entry × Value)) (entry : Entry) : Value :=
  match latest before entry with
  | some value => value
  | none => if latest writes entry = none then base entry else .logicalDelete

structure Chained (heap : Heap) (writes : List (Entry × Value)) (gcounter : Nat) (entry : Entry)
    (node : NodeId) : Prop where
  bounded : (heap node).counter ≤ gcounter
  unwritten : (heap node).counter = 0 ↔ latest writes entry = none
  unlinked : (heap node).counter = 0 → (heap node).oldVersions = none

def Sees (base : Entry → Value) (heap : Heap) (before writes : List (Entry × Value))
    (oldsnapshot : Nat) (safe : NodeId → Prop) (entry : Entry) (node : NodeId) : Prop :=
  ∃ path found, walk heap oldsnapshot node path found ∧ (∀ version ∈ path, safe version) ∧
    stopValue heap found = seen base before writes entry

theorem Sees.congr {after : Heap} {later : List (Entry × Value)} {safe still : NodeId → Prop}
    {entry : Entry} (sees : Sees base heap before writes oldsnapshot safe entry node)
    (record : SameRecord (heap node) (after node))
    (versions : ∀ version, safe version → SameRecord (heap version) (after version))
    (remains : ∀ version, safe version → still version)
    (same : seen base before later entry = seen base before writes entry) :
    Sees base after before later oldsnapshot still entry node := by
  obtain ⟨path, found, visits, all, value⟩ := sees
  have visited : ∀ version ∈ node :: path, SameRecord (heap version) (after version) := by
    intro version mem
    rcases List.mem_cons.mp mem with rfl | later
    · exact record
    · exact versions version (all version later)
  refine ⟨path, found, ?_, fun version mem => remains version (all version mem), ?_⟩
  · exact visits.congr (fun version mem => (visited version mem).counter)
      (fun version mem => (visited version mem).oldVersions)
  rw [same, ← value]
  cases found with
  | none => rfl
  | some stop =>
    have mem : stop ∈ node :: path := by
      rcases visits.found_cases with ⟨_, _, here⟩ | ⟨_, behind⟩
      · cases here
        exact List.mem_cons_self
      · exact List.mem_cons_of_mem _ (behind stop rfl)
    exact (visited stop mem).value

theorem sees_first {safe : NodeId → Prop} {entry : Entry} (low : (heap node).counter ≤ oldsnapshot)
    (value : (heap node).value = seen base before writes entry) :
    Sees base heap before writes oldsnapshot safe entry node :=
  ⟨[], some node, .stop low, by simp, value⟩

/-! ### One written entry -/

theorem seen_concat_other {entry other : Entry} {value : Value} (different : entry ≠ other) :
    seen base before (writes ++ [(entry, value)]) other = seen base before writes other := by
  unfold seen
  rw [latest_concat, if_neg different]

theorem seen_concat_again {entry : Entry} {value : Value} (again : latest writes entry ≠ none) :
    seen base before (writes ++ [(entry, value)]) entry = seen base before writes entry := by
  unfold seen
  rw [latest_concat, if_pos rfl]
  simp [again]

section WrittenEntry

variable {base : Entry → Value} {gcounter oldsnapshot : Nat} {ws after : WriteState} {kv : WSKV}
  {before writes : List (Entry × Value)} {safe still : NodeId → Prop}

theorem chained_written (stamped : (after.heap kv.node).counter = gcounter)
    (positive : gcounter ≠ 0) :
    Chained after.heap (writes ++ [((kv.tableid, kv.key), kv.val)]) gcounter
      (kv.tableid, kv.key) kv.node := by
  constructor
  · exact le_of_eq stamped
  · simp [stamped, positive, latest_concat]
  · simp [stamped, positive]

theorem Sees.inPlace
    (sees : Sees base ws.heap before writes oldsnapshot safe (kv.tableid, kv.key) kv.node)
    (chained : Chained ws.heap writes gcounter (kv.tableid, kv.key) kv.node)
    (place : InPlace gcounter ws kv after) (recent : oldsnapshot < gcounter)
    (began : latest writes (kv.tableid, kv.key) = none →
      latest before (kv.tableid, kv.key) = none)
    (apart : ∀ version, safe version → version ≠ kv.node) :
    Sees base after.heap before (writes ++ [((kv.tableid, kv.key), kv.val)]) oldsnapshot safe
      (kv.tableid, kv.key) kv.node := by
  rcases place.stamped with unset | current
  · have ends := place.oldVersions.trans (chained.unlinked unset)
    refine ⟨[], none, .last (by rwa [place.counter]) ends, by simp, ?_⟩
    have unwritten := began (chained.unwritten.mp unset)
    simp [stopValue, seen, unwritten, latest_concat]
  obtain ⟨path, found, visits, all, value⟩ := sees
  have high : oldsnapshot < (ws.heap kv.node).counter := current ▸ recent
  have written : latest writes (kv.tableid, kv.key) ≠ none := by
    rw [Ne, ← chained.unwritten, current]
    exact Nat.ne_of_gt (Nat.zero_lt_of_lt recent)
  have kept : ∀ version ∈ path, after.heap version = ws.heap version :=
    fun version mem => place.others version (apart version (all version mem))
  refine ⟨path, found, ?_, all, ?_⟩
  · apply visits.congr
    · intro version mem
      rcases List.mem_cons.mp mem with rfl | behind
      · rw [place.counter, current]
      · rw [kept version behind]
    · intro version mem
      rcases List.mem_cons.mp mem with rfl | behind
      · exact place.oldVersions
      · rw [kept version behind]
  · rw [seen_concat_again written, ← value]
    cases found with
    | none => rfl
    | some stop =>
      rcases visits.found_cases with ⟨low, _, _⟩ | ⟨_, behind⟩
      · exact absurd low (Nat.not_le.mpr high)
      · exact congrArg MemNode.value (kept stop (behind stop rfl))

theorem Sees.pushed {dummy : NodeId}
    (sees : Sees base ws.heap before writes oldsnapshot safe (kv.tableid, kv.key) kv.node)
    (chained : Chained ws.heap writes gcounter (kv.tableid, kv.key) kv.node)
    (place : Pushed gcounter ws kv dummy after) (recent : oldsnapshot < gcounter)
    (apart : ∀ version, safe version → version ≠ kv.node ∧ version ≠ dummy)
    (remains : ∀ version, safe version → still version) (linked : still dummy) :
    Sees base after.heap before (writes ++ [((kv.tableid, kv.key), kv.val)]) oldsnapshot still
      (kv.tableid, kv.key) kv.node := by
  obtain ⟨path, found, visits, all, value⟩ := sees
  have written : latest writes (kv.tableid, kv.key) ≠ none := by
    rw [Ne, ← chained.unwritten]
    exact place.stamped
  have kept : ∀ version ∈ path, after.heap version = ws.heap version := fun version mem =>
    place.others version (apart version (all version mem)).1
      (apart version (all version mem)).2
  have longer : walk after.heap oldsnapshot kv.node (dummy :: path)
      (if found = some kv.node then some dummy else found) := by
    apply visits.push
    · simpa only [place.counter] using recent
    · exact place.link
    · exact place.copy.counter
    · simpa only [place.counter] using place.older
    · exact place.copy.oldVersions
    · exact fun version mem => by rw [kept version mem]
    · exact fun version mem => by rw [kept version mem]
  refine ⟨_, _, longer, ?_, ?_⟩
  · intro version mem
    rcases List.mem_cons.mp mem with rfl | behind
    · exact linked
    · exact remains version (all version behind)
  rw [seen_concat_again written, ← value]
  rcases visits.found_cases with ⟨_, _, rfl⟩ | ⟨_, behind⟩
  · rw [if_pos rfl]
    exact place.copy.value
  cases found with
  | none => rfl
  | some stop =>
    have mem := behind stop rfl
    have different := (apart stop (all stop mem)).1
    rw [if_neg (by simpa using different)]
    exact congrArg MemNode.value (kept stop mem)

end WrittenEntry

/-! ### The invariant -/

def Pc.reading : Pc → Bool
  | .roBody | .roScan _ _ _ => true
  | _ => false

abbrev committedWrites (log : List Commit) : List (Entry × Value) := written (serialized log)

def Kept (s : State) (th : Thread) (version : NodeId) : Prop :=
  Spare s.main s.nextNode version ∧ th.began < s.nodeRetired version

structure Reader (base : Entry → Value) (s : State) (th : Thread) : Prop where
  recent : th.oldsnapshot < s.snapshot
  earlier : ∃ later, s.log = th.beginLog ++ later
  sees : ∀ {tableid key node}, s.table tableid key = some node →
    Sees base s.heap (committedWrites th.beginLog) (committedWrites s.log) th.oldsnapshot
      (Kept s th) (tableid, key) node
  scans : ∀ {tableid key node}, th.pc = .roScan tableid key node →
    match node with
    | some node => s.table tableid key = some node
    | none => seen base (committedWrites th.beginLog) (committedWrites s.log) (tableid, key) =
        .logicalDelete

structure Versions (cfg : Config) (base : Entry → Value) (s : State) : Prop where
  serial : Serial base s
  pools : NodePools cfg s
  started : s.snapshot ≠ 0
  absent : ∀ {tableid key}, s.table tableid key = none →
    base (tableid, key) = .logicalDelete ∧ latest (committedWrites s.log) (tableid, key) = none
  chained : ∀ {tableid key node}, s.table tableid key = some node →
    Chained s.heap (committedWrites s.log) s.snapshot (tableid, key) node
  readers : ∀ u, (s.threads u).pc.reading = true → Reader base s (s.threads u)

theorem latest_of_earlier {beginLog later : List Commit} {entry : Entry}
    (unwritten : latest (committedWrites (beginLog ++ later)) entry = none) :
    latest (committedWrites beginLog) entry = none := by
  rw [committedWrites, serialized, List.flatMap_append, written_append, latest_append,
    Option.or_eq_none_iff] at unwritten
  exact unwritten.2

/-! ### Steps that write no record -/

section QuietStep

variable {cfg : Config} {base : Entry → Value} {s middle : State} {th : Thread}

theorem quiet_absent (versions : Versions cfg base s) (quiet : Quiet s middle) {tableid : TableId}
    {key : Key} (missing : middle.table tableid key = none) :
    base (tableid, key) = .logicalDelete ∧
      latest (committedWrites middle.log) (tableid, key) = none := by
  rw [quiet.log]
  apply versions.absent
  cases mapped : s.table tableid key with
  | none => rfl
  | some node =>
    rw [quiet.tables.keeps mapped] at missing
    cases missing

theorem quiet_chained (versions : Versions cfg base s) (quiet : Quiet s middle)
    {tableid : TableId} {key : Key} {node : NodeId}
    (mapped : middle.table tableid key = some node) :
    Chained middle.heap (committedWrites middle.log) middle.snapshot (tableid, key) node := by
  have record := quiet.record node
  rw [quiet.log]
  rcases quiet.tables.origin mapped with earlier | ⟨missing, rfl, _, _⟩
  · have chained := versions.chained earlier
    constructor
    · exact record.counter ▸ le_trans chained.bounded quiet.snapshot
    · rw [record.counter]
      exact chained.unwritten
    · rw [record.counter, record.oldVersions]
      exact chained.unlinked
  · have new := versions.serial.layout.shared.unused _ (le_refl s.nextNode)
    constructor
    · simp [record.counter, new]
    · simp [record.counter, new, (versions.absent missing).2]
    · simp [record.oldVersions, new]

theorem Kept.quiet {version : NodeId} (kept : Kept s th version) (quiet : Quiet s middle)
    (retired : middle.nodeRetired = s.nodeRetired) : Kept middle th version :=
  ⟨quiet.grows.spare kept.1, by rw [retired]; exact kept.2⟩

theorem Reader.quiet (reader : Reader base s th) (versions : Versions cfg base s)
    (quiet : Quiet s middle) (retired : middle.nodeRetired = s.nodeRetired) :
    Reader base middle th where
  recent := lt_of_lt_of_le reader.recent quiet.snapshot
  earlier := by
    rw [quiet.log]
    exact reader.earlier
  sees := by
    intro tableid key node mapped
    rcases quiet.tables.origin mapped with earlier | ⟨missing, rfl, _, _⟩
    · exact (reader.sees earlier).congr (quiet.record node) (fun version _ => quiet.record version)
        (fun version kept => kept.quiet quiet retired) (by rw [quiet.log])
    -- a key inserted now has no value in any snapshot
    have new := versions.serial.layout.shared.unused _ (le_refl s.nextNode)
    obtain ⟨empty, unwritten⟩ := versions.absent missing
    obtain ⟨later, log⟩ := reader.earlier
    have before : latest (committedWrites th.beginLog) (tableid, key) = none :=
      latest_of_earlier (log ▸ unwritten)
    apply sees_first
    · simp [(quiet.record _).counter, new]
    · simp [(quiet.record _).value, new, seen, before, quiet.log, unwritten, empty]
  scans := by
    intro tableid key node pc
    have before := reader.scans pc
    cases node with
    | some node => exact quiet.tables.keeps before
    | none =>
      rw [quiet.log]
      exact before

end QuietStep

variable {cfg : Config} {base : Entry → Value} {s middle : State} {t u : ThreadId}
  {own reader : Thread} {writes : List (Entry × Value)} {rest : List WSKV} {ws after : WriteState}
  {kv : WSKV} {dummy version : NodeId}

theorem step_reader (versions : Versions cfg base s) (taken : Step cfg s t (s.threads t) middle own)
    (reading : own.pc.reading = true) : Reader base middle own := by
  cases taken with
  | @roGet tableid key pc =>
    have reader := versions.readers t (by rw [pc]; rfl)
    refine ⟨reader.recent, reader.earlier, reader.sees, ?_⟩
    rintro _ _ _ ⟨⟩
    cases mapped : s.table tableid key with
    | some node => rfl
    | none =>
      obtain ⟨empty, unwritten⟩ := versions.absent mapped
      obtain ⟨later, log⟩ := reader.earlier
      have before : latest (committedWrites (s.threads t).beginLog) (tableid, key) = none :=
        latest_of_earlier (log ▸ unwritten)
      simp [seen, before, unwritten, empty]
  | roScan pc scanned =>
    have reader := versions.readers t (by rw [pc]; rfl)
    exact ⟨reader.recent, reader.earlier, reader.sees, by rintro _ _ _ ⟨⟩⟩
  | roSnapshot pc =>
    refine ⟨Nat.lt_succ_self _, ⟨[], (List.append_nil _).symm⟩, ?_, by rintro _ _ _ ⟨⟩⟩
    intro tableid key node present
    have mapped : s.table tableid key = some node := present
    apply sees_first
    · exact (versions.chained mapped).bounded
    · have held : (s.heap node).value = s.contents (tableid, key) := by
        simp [State.contents, mapped]
      rw [held, replay_content versions.serial.log, content, seen]
      cases latest (committedWrites s.log) (tableid, key) <;> rfl
  | iterValue pc cursor => simp [setBuffer, pc, Pc.reading] at reading
  | getOwn pc own | getAbsent pc invalid | getRead pc => simp [finishGet, Pc.reading] at reading
  | _ => cases reading

/-! ### Commits -/

def Linked (s : State) (reader : Thread) (ws : WriteState) (version : NodeId) : Prop :=
  Spare s.main ws.nextNode version ∧
    (reader.began < s.nodeRetired version ∨ ∃ tableid, version ∈ collectedNodes ws.written tableid)

structure Writing (base : Entry → Value) (s : State) (th : Thread)
    (writes : List (Entry × Value)) (rest : List WSKV) (ws : WriteState) : Prop where
  separate : Separate s.main ws
  holds : HoldingEffect (holding th) s.nextNode ws
  free : ∀ tableid, ∀ node ∈ (ws.memnodesPool tableid).freelist,
    node ∈ (th.memnodesPool tableid).freelist
  entries : ∀ kv ∈ rest, Pending s kv
  chained : ∀ {tableid key node}, s.table tableid key = some node →
    Chained ws.heap writes s.snapshot (tableid, key) node
  grows : ∀ entry, latest writes entry = none → latest (committedWrites s.log) entry = none
  sees : ∀ u, (s.threads u).pc.reading = true → ∀ {tableid key node},
    s.table tableid key = some node →
      Sees base ws.heap (committedWrites (s.threads u).beginLog) writes
        (s.threads u).oldsnapshot (Linked s (s.threads u) ws) (tableid, key) node

theorem Pc.active_of_reading {pc : Pc} (reading : pc.reading = true) : pc.active = true := by
  cases pc <;> first | rfl | cases reading

theorem Writing.unvisited (writing : Writing base s (s.threads t) writes rest ws)
    (pools : NodePools cfg s) (place : Pushed s.snapshot ws kv dummy after)
    (reading : (s.threads u).pc.reading = true) (linked : Linked s (s.threads u) ws version) :
    version ≠ dummy := by
  rintro rfl
  rcases linked.2 with retired | ⟨tableid, collected⟩
  · rcases place.source with free | new
    · have old := (pools.graced t).free kv.tableid version (writing.free _ _ free) u
        (Pc.active_of_reading reading)
      omega
    · exact absurd linked.1.2 (new ▸ Nat.lt_irrefl _)
  · exact writing.holds.unlinked place tableid collected

theorem Linked.inPlace (linked : Linked s reader ws version)
    (place : InPlace s.snapshot ws kv after) : Linked s reader after version := by
  refine ⟨place.nextNode ▸ linked.1, linked.2.imp_right ?_⟩
  rintro ⟨tableid, collected⟩
  refine ⟨tableid, ?_⟩
  rw [place.written, collectedNodes_concat]
  exact List.mem_append_left _ collected

theorem Linked.pushed (linked : Linked s reader ws version)
    (place : Pushed s.snapshot ws kv dummy after) : Linked s reader after version := by
  refine ⟨⟨linked.1.1, lt_of_lt_of_le linked.1.2 place.nextNode⟩, linked.2.imp_right ?_⟩
  rintro ⟨tableid, collected⟩
  refine ⟨tableid, ?_⟩
  rw [place.written, collectedNodes_concat]
  exact List.mem_append_left _ collected

theorem linked_dummy (spare : ¬ s.main dummy) (place : Pushed s.snapshot ws kv dummy after) :
    Linked s reader after dummy := by
  refine ⟨⟨spare, place.below⟩, Or.inr ⟨kv.tableid, ?_⟩⟩
  rw [place.written, collectedNodes_concat]
  exact List.mem_append_right _ (by simp [collectedNodes])

theorem entry_names (shared : Shared s) (pending : Pending s kv) {tableid : TableId} {key : Key}
    {node : NodeId} (mapped : s.table tableid key = some node) :
    (tableid, key) = (kv.tableid, kv.key) ∧ node = kv.node ∨
      (kv.tableid, kv.key) ≠ (tableid, key) ∧ node ≠ kv.node := by
  by_cases same : node = kv.node
  · subst same
    obtain ⟨sameTable, sameKey⟩ := shared.injective mapped pending.mapped
    exact Or.inl ⟨by rw [sameTable, sameKey], rfl⟩
  · refine Or.inr ⟨?_, same⟩
    rintro ⟨⟩
    exact same (Option.some.inj (mapped.symm.trans pending.mapped))

theorem Writing.entry (versions : Versions cfg base s)
    (writing : Writing base s (s.threads t) writes (kv :: rest) ws)
    (written : writeEntry s.snapshot ws kv = .ok after) :
    Writing base s (s.threads t) (writes ++ [((kv.tableid, kv.key), kv.val)]) rest after := by
  have shared := versions.serial.layout.shared
  have pending := writing.entries kv List.mem_cons_self
  have record : s.main kv.node := ⟨_, _, pending.mapped⟩
  have effect := writeEntry_effect writing.separate (writing.separate.bounded _ record) pending.plain written
  have grows : ∀ entry, latest (writes ++ [((kv.tableid, kv.key), kv.val)]) entry = none →
      latest writes entry = none := by
    intro entry unwritten
    rw [latest_concat] at unwritten
    split at unwritten
    · cases unwritten
    · exact unwritten
  have began : ∀ u, (s.threads u).pc.reading = true → ∀ entry, latest writes entry = none →
      latest (committedWrites (s.threads u).beginLog) entry = none := by
    intro u reading entry unwritten
    obtain ⟨later, log⟩ := (versions.readers u reading).earlier
    exact latest_of_earlier (log ▸ writing.grows entry unwritten)
  refine
    { separate := effect.separate
      holds := writing.holds.entry pending.plain written
      free := fun tableid node mem =>
        writing.free tableid node (writeEntry_freelist written tableid mem)
      entries := fun other mem => writing.entries other (List.mem_cons_of_mem kv mem)
      chained := ?_
      grows := fun entry unwritten => writing.grows entry (grows entry unwritten)
      sees := ?_ }
  · intro tableid key node mapped
    rcases entry_names shared pending mapped with ⟨⟨⟩, rfl⟩ | ⟨named, different⟩
    · exact chained_written effect.counter versions.started
    have chained := writing.chained mapped
    have same := effect.others node ⟨tableid, key, mapped⟩ different
    exact
      { bounded := same ▸ chained.bounded
        unwritten := by
          rw [same, latest_concat, if_neg named]
          exact chained.unwritten
        unlinked := same ▸ chained.unlinked }
  intro u reading tableid key node mapped
  have sees := writing.sees u reading mapped
  have recent := (versions.readers u reading).recent
  have spare : ∀ version, Linked s (s.threads u) ws version → version ≠ kv.node := by
    rintro version linked rfl
    exact linked.1.1 record
  rcases writeEntry_versions writing.separate record written with place | ⟨dummy, free, place⟩
  · rcases entry_names shared pending mapped with ⟨⟨⟩, rfl⟩ | ⟨named, different⟩
    · have result := sees.inPlace (writing.chained mapped) place recent (began u reading _) spare
      exact result.congr (SameRecord.refl _) (fun _ _ => SameRecord.refl _)
        (fun version linked => linked.inPlace place) rfl
    apply sees.congr
    · rw [place.others node different]
      exact SameRecord.refl _
    · intro version linked
      rw [place.others version (spare version linked)]
      exact SameRecord.refl _
    · exact fun version linked => linked.inPlace place
    · exact seen_concat_other named
  have unvisited : ∀ version, Linked s (s.threads u) ws version → version ≠ dummy :=
    fun version linked => writing.unvisited versions.pools place reading linked
  have remains : ∀ version, Linked s (s.threads u) ws version →
      Linked s (s.threads u) after version := fun version linked => linked.pushed place
  rcases entry_names shared pending mapped with ⟨⟨⟩, rfl⟩ | ⟨named, different⟩
  · exact sees.pushed (writing.chained mapped) place recent
      (fun version linked => ⟨spare version linked, unvisited version linked⟩) remains
      (linked_dummy free place)
  have apart : node ≠ dummy := by
    rintro rfl
    exact free ⟨tableid, key, mapped⟩
  apply sees.congr
  · rw [place.others node different apart]
    exact SameRecord.refl _
  · intro version linked
    rw [place.others version (spare version linked) (unvisited version linked)]
    exact SameRecord.refl _
  · exact remains
  · exact seen_concat_other named

theorem writing_start (versions : Versions cfg base s) (pc : (s.threads t).pc = .body) :
    Writing base s (s.threads t) (committedWrites s.log) (s.threads t).writeset
      (writeState s (s.threads t)) := by
  have tidy := versions.serial.layout.tidy t
  have shared := versions.serial.layout.shared
  have same : ∀ tableid,
      wsHolding (writeState s (s.threads t)) tableid = holding (s.threads t) tableid := by
    intro tableid
    simp [wsHolding, holding, writeState, Thread.collecting, pc]
  refine
    { separate := tidy.separate shared
      holds :=
        { distinct := (versions.pools.distinct t).perm (le_refl _) fun tableid => by rw [same]
          origin := fun mem => Or.inl (by rwa [same] at mem)
          grows := le_refl _ }
      free := fun _ _ mem => mem
      entries := tidy.entries (by rw [pc]; rfl)
      chained := versions.chained
      grows := fun _ unwritten => unwritten
      sees := ?_ }
  intro u reading tableid key node mapped
  apply ((versions.readers u reading).sees mapped).congr (SameRecord.refl _)
    (fun _ _ => SameRecord.refl _) _ rfl
  exact fun version kept => ⟨kept.1, Or.inl kept.2⟩

theorem writing_done (versions : Versions cfg base s) (pc : (s.threads t).pc = .body)
    (written : write s.snapshot (writeState s (s.threads t)) (s.threads t).writeset = .ok ws) :
    Writing base s (s.threads t)
      (committedWrites (s.log ++ [⟨t, (s.threads t).events, s.snapshot⟩])) [] ws := by
  have writes : committedWrites (s.log ++ [⟨t, (s.threads t).events, s.snapshot⟩]) =
      committedWrites s.log ++
        (s.threads t).writeset.map fun kv => ((kv.tableid, kv.key), kv.val) := by
    rw [(versions.serial.inTx t (by rw [pc]; rfl)).writes, committedWrites, serialized,
      List.flatMap_append, written_append]
    simp only [List.flatMap_cons, List.flatMap_nil, List.append_nil]
    rfl
  obtain ⟨total, order, done⟩ := write_rule
    (P := fun rest state => ∃ total, total ++
        (rest.map fun kv => ((kv.tableid, kv.key), kv.val)) =
          committedWrites (s.log ++ [⟨t, (s.threads t).events, s.snapshot⟩]) ∧
        Writing base s (s.threads t) total rest state)
    (by
      rintro kv rest state later ⟨total, order, writing⟩ entry
      refine ⟨total ++ [((kv.tableid, kv.key), kv.val)], ?_, writing.entry versions entry⟩
      simpa using order)
    ⟨_, writes.symm, writing_start versions pc⟩ written
  simp only [List.map_nil, List.append_nil] at order
  exact order ▸ done

theorem Linked.kept {th : Thread} (linked : Linked s (s.threads u) ws version)
    (clocks : Clocks cfg s) : Kept (committed s t th ws) (s.threads u) version := by
  refine ⟨linked.1, ?_⟩
  show (s.threads u).began <
    if ws.written.any fun kv => decide (kv.dummy = some version) then s.clock
    else s.nodeRetired version
  split
  · exact clocks.began u
  rename_i unlinked
  rcases linked.2 with retired | ⟨tableid, collected⟩
  · exact retired
  obtain ⟨kv, mem, holds⟩ := List.mem_filterMap.mp collected
  refine absurd (List.any_eq_true.mpr ⟨kv, mem, ?_⟩) unlinked
  split at holds
  · simpa using holds
  · cases holds

theorem commit_reader (versions : Versions cfg base s) (writing : Writing base s (s.threads t)
      (committedWrites (s.log ++ [⟨t, (s.threads t).events, s.snapshot⟩])) [] ws)
    (reading : (s.threads u).pc.reading = true) :
    Reader base (committed s t (s.threads t) ws) (s.threads u) := by
  have reader := versions.readers u reading
  obtain ⟨later, log⟩ := reader.earlier
  refine ⟨reader.recent, ⟨later ++ [⟨t, (s.threads t).events, s.snapshot⟩], ?_⟩, ?_, ?_⟩
  · show s.log ++ _ = _
    rw [log, List.append_assoc]
  · intro tableid key node mapped
    exact (writing.sees u reading mapped).congr (SameRecord.refl _) (fun _ _ => SameRecord.refl _)
      (fun version linked => linked.kept versions.pools.clocks) rfl
  intro tableid key node pc
  have before := reader.scans pc
  cases node with
  | some node => exact before
  | none =>
    -- what was absent before the reader began stays absent for it
    revert before
    show seen _ _ (committedWrites s.log) _ = _ → seen _ _ (committedWrites (s.log ++ _)) _ = _
    unfold seen
    cases latest (committedWrites (s.threads u).beginLog) (tableid, key) with
    | some value => exact id
    | none =>
      intro before
      dsimp only at before ⊢
      split
      · rename_i unwritten
        rwa [if_pos (writing.grows _ unwritten)] at before
      · rfl

theorem Reader.finished {th : Thread} (reader : Reader base middle th) :
    Reader base (finished s middle t own) th :=
  ⟨reader.recent, reader.earlier, reader.sees, reader.scans⟩

theorem step_readers (versions : Versions cfg base s) (admitted : ¬ removes s t)
    (taken : Step cfg s t (s.threads t) middle own) (reading : (s.threads u).pc.reading = true) :
    Reader base middle (s.threads u) := by
  rcases step_quiet versions.serial.layout.shared.unused admitted taken with
    quiet | ⟨ws, pc, _, written, rfl, rfl⟩
  · by_cases collects : own.pc = .endCollect
    · obtain ⟨ws, pc, _, written, rfl, rfl⟩ := step_collects taken collects
      exact commit_reader versions (writing_done versions pc written) reading
    · exact (versions.readers u reading).quiet versions quiet (step_retired taken collects).1
  · exact commit_reader versions (writing_done versions pc written) reading

theorem step_versions {next : State} {act : Act} (versions : Versions cfg base s)
    (admitted : ¬ removes s t) (taken : step cfg s (t, act) = some next) :
    Versions cfg base next := by
  have serial := step_serial versions.serial admitted taken
  obtain ⟨inRange, middle, own, outcome, rfl⟩ := step_cases taken
  have layout := versions.serial.layout
  have pools := step_nodePools layout admitted versions.pools inRange outcome
  have readers : ∀ u, ((finished s middle t own).threads u).pc.reading = true →
      Reader base (finished s middle t own) ((finished s middle t own).threads u) := by
    apply all_threads (P := fun _ th => th.pc.reading = true →
      Reader base (finished s middle t own) th) (step_threads outcome)
    · exact fun reading => (step_reader versions outcome reading).finished
    · exact fun u _ reading => (step_readers versions admitted outcome reading).finished
  rcases step_quiet layout.shared.unused admitted outcome with
    quiet | ⟨ws, pc, _, written, rfl, rfl⟩
  · exact
      { serial := serial
        pools := pools
        started := Nat.ne_of_gt (lt_of_lt_of_le (Nat.pos_of_ne_zero versions.started) quiet.snapshot)
        absent := quiet_absent versions quiet
        chained := quiet_chained versions quiet
        readers := readers }
  have writing := writing_done versions pc written
  refine
    { serial := serial
      pools := pools
      started := versions.started
      absent := ?_
      chained := writing.chained
      readers := readers }
  intro tableid key missing
  have mapped : ∀ kv ∈ (s.threads t).writeset, s.table kv.tableid kv.key = some kv.node :=
    fun kv mem => ((layout.tidy t).entries (by rw [pc]; rfl) kv mem).mapped
  obtain ⟨empty, unwritten⟩ := versions.absent missing
  refine ⟨empty, ?_⟩
  show latest (committedWrites (s.log ++ [⟨t, (s.threads t).events, s.snapshot⟩])) _ = none
  rw [committedWrites, serialized, List.flatMap_append, written_append, latest_append,
    Option.or_eq_none_iff]
  refine ⟨?_, unwritten⟩
  simp only [List.flatMap_cons, List.flatMap_nil, List.append_nil]
  rw [← (versions.serial.inTx t (by rw [pc]; rfl)).writes, latest_eq_none_iff]
  intro entry mem named
  obtain ⟨kv, inSet, rfl⟩ := List.mem_map.mp mem
  cases named
  have contradiction := (mapped kv inSet).symm.trans missing
  cases contradiction

theorem loaded_counters (records : List (TableId × Key × Ptr)) (node : NodeId) :
    ((loaded records).heap node).counter = 0 ∧
      ((loaded records).heap node).oldVersions = none := by
  induction records using List.reverseRecOn with
  | nil => exact ⟨rfl, rfl⟩
  | append_singleton rest record ih =>
    rw [loaded, List.foldl_append]
    show ((put (loaded rest) record.1 record.2.1 record.2.2).heap node).counter = 0 ∧
      ((put (loaded rest) record.1 record.2.1 record.2.2).heap node).oldVersions = none
    have unused : ∀ node, (acquire (loaded rest) record.2.2).nextNode ≤ node →
        (acquire (loaded rest) record.2.2).heap node = {} := (loaded_shared rest).unused
    have quiet := quiet_found unused
      (getWithInsert_found (acquire (loaded rest) record.2.2) record.1 record.2.1)
    have same : SameRecord ((loaded rest).heap node) _ := quiet.record node
    rw [← same.counter, ← same.oldVersions] at ih
    by_cases here : node = (getWithInsert (acquire (loaded rest) record.2.2) record.1 record.2.1).1
    · subst here
      simpa [put] using ih
    · simpa [put, here] using ih

theorem loaded_versions (cfg : Config) (records : List (TableId × Key × Ptr)) :
    Versions cfg (loaded records).contents (loaded records) := by
  obtain ⟨_, _, _, _, _, _, fields⟩ := loaded_fields records
  have unwritten : ∀ entry, latest (committedWrites (loaded records).log) entry = none := by
    intro entry
    rw [fields]
    rfl
  refine
    { serial := loaded_serial records
      pools := loaded_nodePools cfg records
      started := by simp [fields]
      absent := fun missing => ⟨by simp [State.contents, missing], unwritten _⟩
      chained := ?_
      readers := ?_ }
  · intro tableid key node mapped
    have record := loaded_counters records node
    constructor
    · simp [record.1]
    · simp [record.1, unwritten]
    · exact fun _ => record.2
  · intro u reading
    rw [loaded_threads] at reading
    cases reading

theorem Writing.counterAhead (versions : Versions cfg base s)
    (writing : Writing base s (s.threads t) writes rest ws) :
    write s.snapshot ws rest ≠ .error .counterAhead := by
  induction rest generalizing writes ws with
  | nil => simp [write, pure, Except.pure]
  | cons kv rest ih =>
    intro failed
    cases first : writeEntry s.snapshot ws kv with
    | ok after =>
      apply ih (writing.entry versions first)
      rw [← failed]
      simp [write, first, bind, Except.bind]
    | error failure =>
      simp only [write, List.foldlM_cons, first, bind, Except.bind, Except.error.injEq] at failed
      have ahead := writeEntry_counterAhead (failed ▸ first)
      have bounded :=
        (writing.chained (writing.entries kv List.mem_cons_self).mapped).bounded
      omega

/-! ### Main results -/

theorem Versions.scan {tableid : TableId} {key : Key} {node : Option NodeId}
    (versions : Versions cfg base s) (pc : (s.threads t).pc = .roScan tableid key node) :
    scanMemNode s.heap (s.threads t).oldsnapshot (s.snapshot + 1) node =
      some (visible (seen base (committedWrites (s.threads t).beginLog) (committedWrites s.log)
        (tableid, key))) := by
  have reader := versions.readers t (by rw [pc]; rfl)
  have scans := reader.scans pc
  cases node with
  | none =>
    rw [scans]
    rfl
  | some node =>
    obtain ⟨path, found, visits, _, value⟩ := reader.sees scans
    have enough := le_trans (versions.chained scans).bounded (Nat.le_succ s.snapshot)
    rw [scan_of_walk visits enough, value]

theorem run_versions {records : List (TableId × Key × Ptr)} {acts : List (ThreadId × Act)}
    {final : State}
    (admitted : Each (step cfg) (fun s act => ¬ removes s act.1) (loaded records) acts)
    (reached : run (step cfg) (loaded records) acts = some final) :
    Versions cfg (loaded records).contents final :=
  run_preserves
    (fun _ _ _ versions allowed taken => step_versions versions allowed taken)
    (loaded_versions cfg records) admitted reached

theorem loaded_nil_contents : (loaded []).contents = fun _ => .logicalDelete := rfl

theorem seen_absent (before writes : List (Entry × Value)) (entry : Entry) :
    seen (fun _ => .logicalDelete) before writes entry =
      content (fun _ => .logicalDelete) before entry := by
  unfold seen content
  cases latest before entry <;> simp

/-- Without loaded records, a read-only `Get` returns the last value that a
transaction committed before the reader's `Begin` wrote to the key, and false if
there is none or it is a deletion, whatever is committed and recycled meanwhile;
and no commit finds a counter above the snapshot. -/
theorem snapshot_reads (cfg : Config) (acts : List (ThreadId × Act)) (final : State)
    (admitted : Execution.Each (step cfg) (fun s act => ¬ removes s act.1) (loaded []) acts)
    (reached : Execution.run (step cfg) (loaded []) acts = some final) :
    (∀ t tableid key node, (final.threads t).pc = .roScan tableid key node →
      scanMemNode final.heap (final.threads t).oldsnapshot (final.snapshot + 1) node =
        some (visible (content (fun _ => .logicalDelete)
          (committedWrites (final.threads t).beginLog) (tableid, key)))) ∧
      ∀ t, (final.threads t).pc = .body →
        write final.snapshot (writeState final (final.threads t)) (final.threads t).writeset ≠
          .error .counterAhead := by
  have versions := run_versions admitted reached
  rw [loaded_nil_contents] at versions
  constructor
  · intro t tableid key node pc
    rw [versions.scan pc, seen_absent]
  · intro t pc
    exact (writing_start versions pc).counterAhead versions

def versionedUpdate : List (ThreadId × Act) :=
  let commit (payload : Payload) : List (ThreadId × Act) :=
    [(0, .call .begin), (0, .call (.add 0 7 payload)), (0, .tick), (0, .tick), (0, .call .finish),
      (0, .tick), (0, .tick), (0, .tick), (0, .tick)]
  [(0, .call .begin), (0, .call (.add 0 7 (.given 20))), (0, .tick), (0, .tick), (0, .tick),
    (0, .call .finish), (0, .tick), (0, .tick), (0, .tick), (0, .tick),
    (1, .call .roBegin), (1, .tick)] ++
    commit (.given 30) ++ (commit .deleted).take 5 ++ [(1, .call (.roGet 0 7))]

theorem snapshot_reads_versionedUpdate : ∃ final,
    Execution.run (step ⟨2, 1, 100000, 100⟩) (loaded []) versionedUpdate = some final ∧
      (final.threads 1).pc = .roScan 0 7 (some 0) ∧
      (final.heap 0).value = .logicalDelete ∧
      scanMemNode final.heap (final.threads 1).oldsnapshot (final.snapshot + 1) (some 0) =
        some (some 20) :=
  ⟨_, rfl, rfl, rfl,
    (snapshot_reads ⟨2, 1, 100000, 100⟩ versionedUpdate _ (by decide +kernel) rfl).1 1 0 7 _ rfl⟩

/-- For a loaded record that no transaction committed before the reader's `Begin`
wrote, `Get` returns the loaded value exactly as long as no transaction has
written the key since. -/
theorem loaded_visible_iff (cfg : Config) (records : List (TableId × Key × Ptr))
    (acts : List (ThreadId × Act)) (final : State)
    (admitted : Execution.Each (step cfg) (fun s act => ¬ removes s act.1) (loaded records) acts)
    (reached : Execution.run (step cfg) (loaded records) acts = some final)
    (t : ThreadId) (tableid : TableId) (key : Key) (node : Option NodeId) (object : Ptr)
    (pc : (final.threads t).pc = .roScan tableid key node)
    (present : (loaded records).contents (tableid, key) = .pointer object)
    (unwritten : latest (committedWrites (final.threads t).beginLog) (tableid, key) = none) :
    scanMemNode final.heap (final.threads t).oldsnapshot (final.snapshot + 1) node =
        some (some object) ↔
      latest (committedWrites final.log) (tableid, key) = none := by
  have versions := run_versions admitted reached
  rw [versions.scan pc, seen, unwritten]
  by_cases still : latest (committedWrites final.log) (tableid, key) = none
  · simp [still, present, visible]
  · simp [still, visible]

def overwrite : List (ThreadId × Act) :=
  [(1, .call .roBegin), (1, .tick), (0, .call .begin), (0, .call (.add 0 7 (.given 20))),
    (0, .tick), (0, .tick), (0, .tick), (0, .call .finish), (1, .call (.roGet 0 7))]

theorem loaded_hidden : ∃ final,
    Execution.run (step ⟨2, 1, 100000, 100⟩) (loaded [(0, 7, 10)]) overwrite = some final ∧
      (loaded [(0, 7, 10)]).contents (0, 7) = .pointer 10 ∧
      (final.threads 1).pc = .roScan 0 7 (some 0) ∧ (final.threads 1).beginLog = [] ∧
      scanMemNode final.heap (final.threads 1).oldsnapshot (final.snapshot + 1) (some 0) =
        some none :=
  ⟨_, rfl, rfl, rfl, rfl, rfl⟩

def overwriteOther : List (ThreadId × Act) :=
  [(1, .call .roBegin), (1, .tick), (0, .call .begin), (0, .call (.add 0 8 (.given 20))),
    (0, .tick), (0, .tick), (0, .tick), (0, .call .finish), (1, .call (.roGet 0 7))]

theorem loaded_visible_overwriteOther : ∃ final,
    Execution.run (step ⟨2, 1, 100000, 100⟩) (loaded [(0, 7, 10), (0, 8, 11)]) overwriteOther =
      some final ∧
      scanMemNode final.heap (final.threads 1).oldsnapshot (final.snapshot + 1) (some 0) =
        some (some 10) :=
  ⟨_, rfl,
    (loaded_visible_iff ⟨2, 1, 100000, 100⟩ [(0, 7, 10), (0, 8, 11)] overwriteOther _
      (by decide +kernel) rfl 1 0 7 (some 0) 10 rfl rfl rfl).mpr rfl⟩

end EunoDb.Machine
