import Mathlib.Data.Finset.Sort
import EunoDb.MemStoreInsert

/-! Any number of `GetWithInsert` calls by one thread. -/

namespace EunoDb.MemStoreSkipList

open Execution LinkedList SkipLevels SkipSearch
open SkipInsert (NodeId head)

variable {Key : Type} [LinearOrder Key]

/-! ### Reading -/

section Reading

variable {s : State Key} {lists : Nat → List NodeId} {fuel : Nat}

def IsGet (s : State Key) (nodes : List NodeId) (key : Key) : Option NodeId → Prop
  | some x => x ∈ nodes ∧ s.memory.key x = key
  | none => ∀ node ∈ nodes, s.memory.key node ≠ key

def IsLessThan (s : State Key) (nodes : List NodeId) (key : Key) (x : NodeId) : Prop :=
  (x = head ∧ ∀ node ∈ nodes, key ≤ s.memory.key node) ∨
    x ∈ nodes ∧ s.memory.key x < key ∧
      ∀ node ∈ nodes, s.memory.key node < key → s.memory.key node ≤ s.memory.key x

theorem find_ends (levels : Levels s.memory head lists)
    (enough : s.maxHeight + (lists 0).length < fuel) (key : Key) :
    ∃ found, find s fuel key = some found ∧
      Ends s.memory head lists key (s.maxHeight - 1) found :=
  search_ends levels key {} (by omega)

theorem get_finds (levels : Levels s.memory head lists)
    (enough : s.maxHeight + (lists 0).length < fuel) (key : Key) :
    ∃ answer, get s fuel key = some answer ∧ IsGet s (lists 0) key answer := by
  obtain ⟨found, searched, ends⟩ := find_ends levels enough key
  refine ⟨hit s.memory key found.next, by simp [get, findGreaterOrEqual, searched], ?_⟩
  cases tested : hit s.memory key found.next with
  | some x => exact ends.hit levels tested
  | none => exact ends.absent levels tested

theorem isLessThan_of_stops (levels : Levels s.memory head lists) {key : Key} {x : NodeId}
    (stops : Stops s.memory head lists key 0 x) : IsLessThan s (lists 0) key x := by
  rcases stops.on with rfl | mem
  · refine .inl ⟨rfl, fun node mem => ?_⟩
    by_contra less
    exact levels.head 0 (stops.passed levels mem (not_le.mp less)).1
  · have notHead : x ≠ head := fun same => levels.head 0 (same ▸ mem)
    exact .inr ⟨mem, stops.before.resolve_left notHead,
      fun node inside less => (stops.passed levels inside less).2⟩

theorem findLessThan_answers (levels : Levels s.memory head lists)
    (enough : s.maxHeight + (lists 0).length < fuel) (key : Key) :
    ∃ x, findLessThan s fuel key = some x ∧ IsLessThan s (lists 0) key x := by
  obtain ⟨found, searched, ends⟩ := find_ends levels enough key
  exact ⟨found.last, by simp [findLessThan, searched], isLessThan_of_stops levels ends.stops⟩

end Reading

/-! ### Runs -/

section Runs

variable {procedure : Procedure} {fuel : Nat} {w : World Key} {lists : Nat → List NodeId}
  {input : Input Key}

def Supplied (w : World Key) (input : Input Key) : Prop :=
  (1 ≤ input.height ∧ input.height ≤ kMaxHeight) ∧ w.list.allocated input.node = false

instance (w : World Key) (input : Input Key) : Decidable (Supplied w input) :=
  inferInstanceAs (Decidable (_ ∧ _))

def Cleared (procedure : Procedure) (w : World Key) (input : Input Key) : Prop :=
  procedure = .fineGrainLock → w.list.lock input.node = 0

instance (w : World Key) (input : Input Key) : Decidable (Cleared procedure w input) :=
  inferInstanceAs (Decidable (_ → _))

structure Kept (procedure : Procedure) (w : World Key) (lists : Nat → List NodeId) : Prop where
  good : Good procedure w.list lists
  ready : w.list.dummy ≠ none
  nodes : ∀ node, node ∈ lists 0 ↔ ∃ key, (key, node) ∈ w.returned
  keys : ∀ result ∈ w.returned, w.list.memory.key result.2 = result.1

omit [LinearOrder Key] in
theorem length_le_returned {nodes : List NodeId} (nodup : nodes.Nodup)
    (known : ∀ node ∈ nodes, ∃ key, (key, node) ∈ w.returned) :
    nodes.length ≤ w.returned.length := by
  have inside : nodes ⊆ w.returned.map Prod.snd := by
    intro node mem
    obtain ⟨key, result⟩ := known node mem
    exact List.mem_map.mpr ⟨(key, node), result, rfl⟩
  simpa using (nodup.subperm inside).length_le

theorem Kept.length_le (kept : Kept procedure w lists) : (lists 0).length ≤ w.returned.length :=
  length_le_returned (kept.good.levels.linked 0).nodup fun node => (kept.nodes node).mp

theorem Kept.step (kept : Kept procedure w lists) (supplied : Supplied w input)
    (cleared : Cleared procedure w input) (enough : kMaxHeight + w.returned.length < fuel) :
    ∃ next longer x, step procedure fuel w input = some next ∧ Kept procedure next longer ∧
      next.returned = w.returned ++ [(input.key, x)] := by
  have short := kept.length_le
  obtain ⟨after, x, longer, called, good, ready, adds⟩ := getWithInsert_inserts kept.good kept.ready
    supplied.2 supplied.1.1 supplied.1.2 cleared (by omega : kMaxHeight + (lists 0).length < fuel)
  refine ⟨⟨after, w.returned ++ [(input.key, x)]⟩, longer, x, ?_, ⟨good, ready, ?_, ?_⟩, rfl⟩
  · have guard : (1 ≤ input.height ∧ input.height ≤ kMaxHeight) ∧
        w.list.allocated input.node = false := supplied
    simp [MemStoreSkipList.step, guard, called]
  · intro node
    rw [adds.members, kept.nodes]
    constructor
    · rintro (⟨key, result⟩ | rfl)
      · exact ⟨key, List.mem_append_left _ result⟩
      · exact ⟨input.key, by simp⟩
    · rintro ⟨key, result⟩
      rcases List.mem_append.mp result with was | new
      · exact .inl ⟨key, was⟩
      · exact .inr (congrArg Prod.snd (List.mem_singleton.mp new))
  · intro result mem
    rcases List.mem_append.mp mem with was | new
    · have known : result.2 ∈ lists 0 := (kept.nodes _).mpr ⟨result.1, was⟩
      exact (adds.keys _ known).trans (kept.keys result was)
    · rw [List.mem_singleton.mp new]
      exact adds.isKey

theorem Kept.run {inputs : List (Input Key)} (kept : Kept procedure w lists)
    (supplied : Each (MemStoreSkipList.step procedure fuel) Supplied w inputs)
    (cleared : Each (MemStoreSkipList.step procedure fuel) (Cleared procedure) w inputs)
    (enough : kMaxHeight + w.returned.length + inputs.length < fuel) :
    ∃ final longer, run (MemStoreSkipList.step procedure fuel) w inputs = some final ∧
      Kept procedure final longer ∧
      final.returned.map Prod.fst = w.returned.map Prod.fst ++ inputs.map Input.key := by
  -- every call adds one result, so the rounds left go down with the calls left
  induction inputs generalizing w lists with
  | nil => exact ⟨w, lists, rfl, kept, by simp⟩
  | cons input rest ih =>
    simp only [List.length_cons] at enough
    obtain ⟨next, longer, x, stepped, kept', results⟩ :=
      kept.step supplied.1 cleared.1 (by omega : kMaxHeight + w.returned.length < fuel)
    have fewer : kMaxHeight + next.returned.length + rest.length < fuel := by
      rw [results, List.length_append, List.length_singleton]
      omega
    obtain ⟨final, lists', ran, kept'', keys⟩ :=
      ih kept' (supplied.2 next stepped) (cleared.2 next stepped) fewer
    refine ⟨final, lists', (run_cons ..).mpr ⟨next, stepped, ran⟩, kept'', ?_⟩
    simp [keys, results]

end Runs

/-! ### From the empty list -/

section Created

variable {procedure : Procedure} {fuel : Nat} {memory : Memory NodeId Key} {lock : NodeId → Nat}
  {zero : Key} {dummy : NodeId} {height : Nat}

theorem create_levels (other : dummy ≠ head) :
    Levels (create memory lock zero dummy height).memory head fun _ => [] where
  linked level := by
    have first : (create memory lock zero dummy height).memory.next head level = none := by
      simp [create, State.newNode, setNext_node _ _ _ _ other.symm]
    rw [first]
    exact .nil
  head _ := List.not_mem_nil
  ordered _ := .nil
  below _ _ mem := mem

theorem create_kept (other : dummy ≠ head) (positive : 1 ≤ height) (bounded : height ≤ kMaxHeight)
    (free : procedure = .fineGrainLock → lock head = 0) :
    Kept procedure ⟨create memory lock zero dummy height, []⟩ fun _ => [] where
  good := by
    have low : (1 : Nat) ≤ kMaxHeight := by decide
    refine ⟨create_levels other, ?_, nofun, ?_, low, fun _ _ _ => rfl, ?_⟩
    · simp [create, State.newNode, Function.update_of_ne other.symm]
    · rintro d ⟨rfl⟩
      simp [create, State.newNode, other, positive, bounded]
    · rintro isFineGrain node (rfl | impossible)
      · exact free isFineGrain
      · cases impossible
  ready := by simp [create, State.newNode]
  nodes node := by simp
  keys := nofun

theorem levels_sorted {lists : Nat → List NodeId} (levels : Levels memory head lists)
    {keys : List Key} (same : ∀ key, key ∈ (lists 0).map memory.key ↔ key ∈ keys) :
    (lists 0).map memory.key = keys.toFinset.sort (· ≤ ·) := by
  have increasing : ((lists 0).map memory.key).Pairwise (· < ·) :=
    List.pairwise_map.mpr (levels.ordered 0)
  have nodup : ((lists 0).map memory.key).Nodup := increasing.imp ne_of_lt
  have sets : ((lists 0).map memory.key).toFinset = keys.toFinset := by
    ext key
    simpa using same key
  calc (lists 0).map memory.key
      = ((lists 0).map memory.key).toFinset.sort (· ≤ ·) :=
        ((List.toFinset_sort (· ≤ ·) nodup).mpr (increasing.imp le_of_lt)).symm
    _ = keys.toFinset.sort (· ≤ ·) := by rw [sets]

structure Represents (s : State Key) (fuel : Nat) (lists : Nat → List NodeId) (keys : List Key) :
    Prop where
  levels : Levels s.memory head lists
  sorted : (lists 0).map s.memory.key = keys.toFinset.sort (· ≤ ·)
  sublists : ∀ level, (lists (level + 1)).Sublist (lists level)
  get : ∀ key, ∃ answer, get s fuel key = some answer ∧ IsGet s (lists 0) key answer
  findLessThan : ∀ key, ∃ x, findLessThan s fuel key = some x ∧ IsLessThan s (lists 0) key x

/-- Each of the three insertions builds the sorted list of its keys, in which searches find them. -/
theorem procedures_represent (procedure : Procedure) (memory : Memory NodeId Key)
    (lock : NodeId → Nat) (zero : Key) (dummy : NodeId) (height : Nat) (other : dummy ≠ head)
    (positive : 1 ≤ height) (bounded : height ≤ kMaxHeight) (inputs : List (Input Key)) (fuel : Nat)
    (enough : kMaxHeight + inputs.length < fuel)
    (supplied : Each (step procedure fuel) Supplied ⟨create memory lock zero dummy height, []⟩ inputs)
    (free : procedure = .fineGrainLock → lock head = 0)
    (cleared : Each (step procedure fuel) (Cleared procedure)
      ⟨create memory lock zero dummy height, []⟩ inputs) :
    ∃ final lists, run (step procedure fuel) ⟨create memory lock zero dummy height, []⟩ inputs =
        some final ∧
      Represents final.list fuel lists (inputs.map Input.key) ∧
      final.returned.map Prod.fst = inputs.map Input.key ∧
      (∀ result ∈ final.returned, result.2 ∈ lists 0 ∧
        final.list.memory.key result.2 = result.1) ∧
      ∀ first ∈ final.returned, ∀ second ∈ final.returned, first.1 = second.1 →
        first.2 = second.2 := by
  obtain ⟨final, lists, ran, kept, keys⟩ :=
    (create_kept other positive bounded free).run supplied cleared (by simpa using enough)
  replace keys : final.returned.map Prod.fst = inputs.map Input.key := by simpa using keys
  have levels := kept.good.levels
  have calls : final.returned.length = inputs.length := by
    simpa using congrArg List.length keys
  have short : final.list.maxHeight + (lists 0).length < fuel := by
    have nodes := kept.length_le
    have top := kept.good.top
    omega
  have results : ∀ result ∈ final.returned, result.2 ∈ lists 0 ∧
      final.list.memory.key result.2 = result.1 := by
    intro result member
    exact ⟨(kept.nodes _).mpr ⟨result.1, member⟩, kept.keys result member⟩
  have sorted : (lists 0).map final.list.memory.key = (inputs.map Input.key).toFinset.sort (· ≤ ·) := by
    refine levels_sorted levels fun key => ?_
    rw [← keys, List.mem_map, List.mem_map]
    constructor
    · rintro ⟨node, member, isKey⟩
      obtain ⟨returned, result⟩ := (kept.nodes node).mp member
      exact ⟨(returned, node), result, (kept.keys _ result).symm.trans isKey⟩
    · rintro ⟨result, member, rfl⟩
      exact ⟨result.2, results result member⟩
  refine ⟨final, lists, ran, ⟨levels, sorted, levels.sublist, get_finds levels short,
    findLessThan_answers levels short⟩, keys, results, ?_⟩
  intro first isFirst second isSecond same
  obtain ⟨inside, isKey⟩ := results first isFirst
  obtain ⟨inside', isKey'⟩ := results second isSecond
  exact levels.unique_key inside inside' (isKey.trans (same.trans isKey'.symm))

theorem procedures_represent_repeated :
    let memory : Memory NodeId Nat := ⟨fun _ => 0, fun _ _ => some 4⟩
    ∃ final lists, run (step .fineGrainLock 20) ⟨create memory (fun _ => 0) 0 1 1, []⟩
        [⟨5, 2, 2⟩, ⟨3, 1, 3⟩, ⟨5, 1, 4⟩] = some final ∧
      Represents final.list 20 lists [5, 3, 5] := by
  intro memory
  obtain ⟨final, lists, ran, represents, -⟩ := procedures_represent .fineGrainLock memory
    (fun _ => 0) 0 1 1 (by decide) (by decide) (by decide) [⟨5, 2, 2⟩, ⟨3, 1, 3⟩, ⟨5, 1, 4⟩] 20
    (by decide) (by decide +kernel) (fun _ => rfl) (by decide +kernel)
  exact ⟨final, lists, ran, represents⟩

theorem search_stays (empty : ∀ level, memory.next head level = none) {key : Key} {level : Nat}
    {trace : Trace NodeId} {found : Found NodeId}
    (searched : search memory key fuel level head trace = some found) :
    found.trace.preds 0 = some head ∧ found.next = none := by
  induction fuel generalizing level trace with
  | zero => cases searched
  | succ fuel ih =>
    cases level with
    | zero =>
      simp only [search, empty, Option.filter_none, Option.some.injEq] at searched
      subst searched
      simp [Trace.set]
    | succ level =>
      simp only [search, empty, Option.filter_none] at searched
      exact ih searched

theorem attempts_wait {s : State Key} (empty : ∀ level, s.memory.next head level = none)
    (busy : s.lock head ≠ 0) {input : Input Key} (positive : 1 ≤ input.height) (more : Nat)
    (highest : Int) : attempts fuel input more highest s = none := by
  cases more with
  | zero => rfl
  | succ more =>
    cases searched : findFromTop s fuel input.key with
    | none => simp [attempts, searched]
    | some found =>
      obtain ⟨isHead, isEnd⟩ := search_stays empty searched
      obtain ⟨height, isHeight⟩ := Nat.exists_eq_add_of_le' positive
      simp [attempts, searched, isEnd, hit, isHeight, lockLoop, isHead, busy]

end Created

theorem fineGrainLock_waits :
    let memory : Memory NodeId Nat := ⟨fun _ => 0, fun _ _ => none⟩
    let w : World Nat := ⟨create memory (fun _ => 1) 0 1 1, []⟩
    Supplied w ⟨5, 1, 2⟩ ∧ ∀ fuel, run (step .fineGrainLock fuel) w [⟨5, 1, 2⟩] = none := by
  intro memory w
  refine ⟨by decide, fun fuel => ?_⟩
  have empty : ∀ level, w.list.memory.next head level = none := fun level => by
    simp [w, create, State.newNode, setNext_node _ _ _ _ (by decide : head ≠ 1)]
  have waits : getWithInsertFineGrainLock fuel w.list ⟨5, 1, 2⟩ = none :=
    attempts_wait empty (by decide) (by decide) fuel (-1)
  have stuck : step .fineGrainLock fuel w ⟨5, 1, 2⟩ = none := by
    simp [step, getWithInsert, Procedure.call, waits]
  simp [run, stuck]

end EunoDb.MemStoreSkipList
