import EunoDb.DBTransaction
import EunoDb.PartitionSort

/-! `GetBatch` in a state that no other thread changes. More than 10001 reads exit the process, and
a read set of `2 ^ 30` entries cannot be doubled; neither has a result. `*value` and `*s` are part
of the entry. -/

namespace EunoDb.DBTransaction

open Execution

structure Batch (Key Val : Type) where
  key : Key
  value : Option Val
  s : Status
  seq : Nat
  deriving DecidableEq, Repr

section

variable {Key Val : Type} [LinearOrder Key] {hashfunc : Key → UInt64}

def sortBatch (comp : Key → Key → Int) (keys : Array (Batch Key Val)) :
    Option (Array (Batch Key Val)) :=
  PartitionSort.sort (fun a b => comp a.key b.key ≤ 0) (keys.size + 1) keys 0 (keys.size - 1)

def readVersion (latestseq : HashTable hashfunc) (entry : Batch Key Val) :
    Batch Key Val × RSSeqPair :=
  match latestseq.getNode entry.key with
  | none => ({ entry with seq := 0 }, ⟨0, none, hashfunc entry.key⟩)
  | some node =>
    let seq := latestseq.seq node.id
    ({ entry with seq := seq }, ⟨seq, some node.id, node.hash⟩)

def waitLoop (txdb : TXMemStore Key Val) (key : Key) (seq : Nat) : Nat → Nat → Option (Val × Nat)
  | 0, _ => none
  | rounds + 1, count =>
    if 10000 < count then none
    else
      match txdb.get key seq with
      | some val => some (val, count + 1)
      | none => waitLoop txdb key seq rounds (count + 1)

def readValues (txdb : TXMemStore Key Val) : Nat → List (Batch Key Val) → Option (List (Batch Key Val))
  | _, [] => some []
  | count, entry :: rest => do
      if entry.seq = 0 then
        return { entry with s := .notFound } :: (← readValues txdb count rest)
      else
        let (val, count) ← waitLoop txdb entry.key entry.seq 10002 count
        return { entry with value := some val, s := .ok } :: (← readValues txdb count rest)

def addRead (readset : List RSSeqPair) (pair : RSSeqPair) : Option (List RSSeqPair) :=
  if readset.length < 2 ^ 30 then some (readset ++ [pair]) else none

def getBatch (comp : Key → Key → Int) (latestseq : HashTable hashfunc) (txdb : TXMemStore Key Val)
    (readset : List RSSeqPair) (keys : Array (Batch Key Val)) :
    Option (List RSSeqPair × List (Batch Key Val)) := do
  let keys ← sortBatch comp keys
  let read := keys.toList.map (readVersion latestseq)
  let readset ← (read.map Prod.snd).foldlM addRead readset
  return (readset, ← readValues txdb 0 (read.map Prod.fst))

/-! ### `Get` -/

def Finishes (s : State Val hashfunc) (t : ThreadId) (events : List (Event Key Val)) (key : Key)
    (found : Found Val) : Prop :=
  ∃ ticks final, run step s (List.replicate ticks (t, .tick)) = some final ∧
    (final.threads t).pc = .body ∧ (final.threads t).events = events ++ [.get key found]

def Gets (s : State Val hashfunc) (t : ThreadId) (key : Key) (found : Found Val) : Prop :=
  ∃ next, step s (t, .call (.get key)) = some next ∧
    Finishes next t (s.threads t).events key found

def latestOf (latestseq : HashTable hashfunc) (key : Key) : Nat :=
  match latestseq.getNode key with
  | none => 0
  | some node => latestseq.seq node.id

def Present (s : State Val hashfunc) : Prop :=
  ∀ key, latestOf s.latestseq key ≠ 0 → s.txdb.get key (latestOf s.latestseq key) ≠ none

variable {s next : State Val hashfunc} {t : ThreadId} {key : Key} {found : Found Val}
  {events : List (Event Key Val)}

def State.goTo (s : State Val hashfunc) (t : ThreadId) (pc : Pc Key) : State Val hashfunc :=
  s.setThread t { s.threads t with pc := pc }

theorem goTo_thread (pc : Pc Key) :
    (s.goTo t pc).threads t = { s.threads t with pc := pc } := by
  simp [State.goTo, State.setThread]

theorem finishes_last {th : Thread Key Val}
    (taken : tick s t = some (s.setThread t (finishGet th key found)))
    (same : th.events = (s.threads t).events) : Finishes s t (s.threads t).events key found := by
  refine ⟨1, _, (run_cons ..).mpr ⟨_, taken, rfl⟩, ?_, ?_⟩ <;>
    simp [State.setThread, finishGet, same]

theorem finishes_goTo {pc : Pc Key} (taken : tick s t = some (s.goTo t pc))
    (later : Finishes (s.goTo t pc) t ((s.goTo t pc).threads t).events key found) :
    Finishes s t (s.threads t).events key found := by
  obtain ⟨ticks, final, ran, atEnd⟩ := later
  rw [goTo_thread] at atEnd
  exact ⟨ticks + 1, final, (run_cons ..).mpr ⟨_, taken, ran⟩, atEnd⟩

variable {node : HashTable.Node Key}

theorem finishes_getStore {seq : Nat} {val : Val} (pc : (s.threads t).pc = .getStore key node seq)
    (version : s.txdb.get key seq = some val) :
    Finishes s t (s.threads t).events key ⟨true, .ok, some val⟩ := by
  have taken : tick s t = some (s.setThread t (finishGet { s.threads t with
      readset := (s.threads t).readset ++ [⟨seq, some node.id, node.hash⟩] } key
      ⟨true, .ok, some val⟩)) := by
    simp [tick, pc, version]
  exact finishes_last taken rfl

theorem finishes_empty (pc : (s.threads t).pc = .getSeq key node)
    (zero : s.latestseq.seq node.id = 0) : Finishes s t (s.threads t).events key missing := by
  have taken : tick s t = some (s.setThread t (finishGet
      { s.threads t with empty := (s.threads t).empty ++ [node.id] } key missing)) := by
    simp [tick, pc, zero]
  exact finishes_last taken rfl

theorem finishes_absent (pc : (s.threads t).pc = .getNode key)
    (none_ : s.latestseq.getNode key = none) : Finishes s t (s.threads t).events key missing := by
  have taken : tick s t = some (s.setThread t (finishGet { s.threads t with
      readset := (s.threads t).readset ++ [⟨0, none, hashfunc key⟩] } key missing)) := by
    simp [tick, pc, none_]
  exact finishes_last taken rfl

def stored (s : State Val hashfunc) (key : Key) : Found Val :=
  if latestOf s.latestseq key = 0 then missing
  else ⟨true, .ok, s.txdb.get key (latestOf s.latestseq key)⟩

theorem finishes_getSeq (pc : (s.threads t).pc = .getSeq key node)
    (isNode : s.latestseq.getNode key = some node) (present : Present s) :
    Finishes s t (s.threads t).events key (stored s key) := by
  have isLatest : latestOf s.latestseq key = s.latestseq.seq node.id := by simp [latestOf, isNode]
  by_cases zero : s.latestseq.seq node.id = 0
  · rw [stored, isLatest, if_pos zero]
    exact finishes_empty pc zero
  obtain ⟨val, version⟩ := Option.ne_none_iff_exists'.mp (present key (isLatest ▸ zero))
  rw [isLatest] at version
  have taken : tick s t = some (s.goTo t (.getStore key node (s.latestseq.seq node.id))) := by
    simp [tick, pc, zero, State.goTo]
  rw [stored, isLatest, if_neg zero, version]
  exact finishes_goTo taken (finishes_getStore (congrArg Thread.pc (goTo_thread _)) version)

theorem gets_stored (body : (s.threads t).pc = .body)
    (unwritten : lookup (s.threads t).writeset key = none) (present : Present s) :
    Gets s t key (stored s key) := by
  refine ⟨s.goTo t (.getNode key), by simp [step, call, body, unwritten, State.goTo], ?_⟩
  have started : ((s.goTo t (.getNode key)).threads t).pc = .getNode key :=
    congrArg Thread.pc (goTo_thread _)
  have events : ((s.goTo t (.getNode key)).threads t).events = (s.threads t).events := by
    rw [goTo_thread]
  rw [← events]
  cases isNode : s.latestseq.getNode key with
  | none =>
    have zero : latestOf s.latestseq key = 0 := by simp [latestOf, isNode]
    rw [stored, if_pos zero]
    exact finishes_absent started isNode
  | some node =>
    have taken : tick (s.goTo t (.getNode key)) t =
        some ((s.goTo t (.getNode key)).goTo t (.getSeq key node)) := by
      have isNode' : (s.goTo t (.getNode key)).latestseq.getNode key = some node := isNode
      simp only [tick, started, isNode']
      rfl
    exact finishes_goTo taken
      (finishes_getSeq (congrArg Thread.pc (goTo_thread _)) isNode present)

theorem gets_own {own : WSEntry Key Val} (body : (s.threads t).pc = .body)
    (written : lookup (s.threads t).writeset key = some own) :
    Gets s t key found ↔ found = ownWrite own := by
  have taken : step s (t, .call (.get key)) =
      some (s.setThread t (finishGet (s.threads t) key (ownWrite own))) := by
    simp [step, call, body, written]
  have thread : (s.setThread t (finishGet (s.threads t) key (ownWrite own))).threads t =
      finishGet (s.threads t) key (ownWrite own) := by simp [State.setThread]
  generalize s.setThread t (finishGet (s.threads t) key (ownWrite own)) = after at taken thread
  have returned : (after.threads t).pc = .body := congrArg Thread.pc thread
  have logged : (after.threads t).events = (s.threads t).events ++ [.get key (ownWrite own)] :=
    congrArg Thread.events thread
  constructor
  · rintro ⟨next, called, ticks, final, ran, -, events⟩
    cases taken.symm.trans called
    cases ticks with
    | zero =>
      cases ran
      simpa [logged] using events.symm
    | succ ticks =>
      -- the call has returned, so no tick is enabled
      obtain ⟨_, ticked, -⟩ := (run_cons ..).mp ran
      simp [step, tick, returned] at ticked
  · rintro rfl
    exact ⟨after, taken, 0, after, rfl, returned, logged⟩

/-! ### The loops of `GetBatch` -/

theorem addReads_eq {readset : List RSSeqPair} (held : readset.length ≤ 2 ^ 30)
    (pairs : List RSSeqPair) :
    pairs.foldlM addRead readset =
      if readset.length + pairs.length ≤ 2 ^ 30 then some (readset ++ pairs) else none := by
  induction pairs generalizing readset with
  | nil =>
    rw [List.length_nil, Nat.add_zero, if_pos held, List.append_nil]
    rfl
  | cons pair rest ih =>
    rw [List.foldlM_cons, addRead, List.length_cons]
    by_cases room : readset.length < 2 ^ 30
    · have longer : (readset ++ [pair]).length = readset.length + 1 := by simp
      have later := @ih (readset ++ [pair]) (by rw [longer]; exact room)
      rw [longer, Nat.add_assoc, Nat.add_comm 1, List.append_assoc] at later
      rw [if_pos room]
      exact later
    · have full : ¬ readset.length + (rest.length + 1) ≤ 2 ^ 30 := by omega
      rw [if_neg room, if_neg full]
      rfl

def filled (txdb : TXMemStore Key Val) (entry : Batch Key Val) : Batch Key Val :=
  if entry.seq = 0 then { entry with s := .notFound }
  else { entry with value := txdb.get entry.key entry.seq, s := .ok }

def Batch.hasVersion (entry : Batch Key Val) : Bool := entry.seq ≠ 0

theorem readValues_eq {txdb : TXMemStore Key Val} {entries : List (Batch Key Val)} {count : Nat}
    (present : ∀ entry ∈ entries, entry.seq ≠ 0 → txdb.get entry.key entry.seq ≠ none)
    (bound : count ≤ 10001) :
    readValues txdb count entries =
      if count + entries.countP Batch.hasVersion ≤ 10001 then
        some (entries.map (filled txdb))
      else none := by
  induction entries generalizing count with
  | nil => simp [readValues, bound]
  | cons entry rest ih =>
    have present' := fun other mem => present other (List.mem_cons_of_mem _ mem)
    by_cases zero : entry.seq = 0
    · have counted : (entry :: rest).countP Batch.hasVersion =
          rest.countP Batch.hasVersion :=
        List.countP_cons_of_neg (by simp [Batch.hasVersion, zero])
      rw [readValues, if_pos zero, ih present' bound, counted]
      split <;> simp [filled, zero]
    obtain ⟨val, version⟩ :=
      Option.ne_none_iff_exists'.mp (present entry List.mem_cons_self zero)
    have counted : (entry :: rest).countP Batch.hasVersion =
        rest.countP Batch.hasVersion + 1 :=
      List.countP_cons_of_pos (by simp [Batch.hasVersion, zero])
    rw [readValues, if_neg zero, counted]
    by_cases last : 10000 < count
    · -- this read is the one too many
      have many : ¬ count + (rest.countP Batch.hasVersion + 1) ≤ 10001 := by omega
      rw [if_neg many]
      simp [waitLoop, last]
    have read : waitLoop txdb entry.key entry.seq 10002 count = some (val, count + 1) := by
      simp [waitLoop, last, version]
    have later := ih present' (by omega : count + 1 ≤ 10001)
    have sums : count + 1 + rest.countP Batch.hasVersion =
        count + (rest.countP Batch.hasVersion + 1) := by omega
    rw [sums] at later
    simp only [read, Option.bind_eq_bind, Option.bind_some, later]
    split <;> simp [filled, zero, version]

def versioned (latestseq : HashTable hashfunc) (entry : Batch Key Val) : Batch Key Val :=
  { entry with seq := latestOf latestseq entry.key }

theorem readVersion_fst (latestseq : HashTable hashfunc) (entry : Batch Key Val) :
    (readVersion latestseq entry).1 = versioned latestseq entry := by
  rw [readVersion, versioned, latestOf]
  split <;> rfl

variable {keys : Array (Batch Key Val)}

omit [LinearOrder Key] in
theorem sortBatch_perm (comp : Key → Key → Int) (short : keys.size ≤ 2 ^ 30) :
    ∃ sorted, sortBatch comp keys = some sorted ∧ sorted.toList.Perm keys.toList := by
  obtain ⟨sorted, isSorted, moved, -⟩ := PartitionSort.sort_spec
    (fun a b : Batch Key Val => decide (comp a.key b.key ≤ 0))
    (by omega : keys.size - 1 - 0 < keys.size + 1) (Or.inl rfl)
    (by omega : 0 < keys.size - 1 → _ < keys.size) short
  exact ⟨sorted, isSorted, moved.perm.toList⟩

def versions (s : State Val hashfunc) (keys : List (Batch Key Val)) : Nat :=
  keys.countP fun entry => decide (latestOf s.latestseq entry.key ≠ 0)

theorem getBatch_eq {comp : Key → Key → Int} {sorted : Array (Batch Key Val)}
    {readset : List RSSeqPair} (present : Present s) (held : readset.length ≤ 2 ^ 30)
    (sorting : sortBatch comp keys = some sorted) (perm : sorted.toList.Perm keys.toList) :
    getBatch comp s.latestseq s.txdb readset keys =
      if readset.length + keys.size ≤ 2 ^ 30 ∧ versions s keys.toList ≤ 10001 then
        some (readset ++ sorted.toList.map fun entry => (readVersion s.latestseq entry).2,
          sorted.toList.map fun entry => filled s.txdb (versioned s.latestseq entry))
      else none := by
  have first : (sorted.toList.map (readVersion s.latestseq)).map Prod.fst =
      sorted.toList.map (versioned s.latestseq) := by
    rw [List.map_map]
    exact List.map_congr_left fun entry _ => readVersion_fst s.latestseq entry
  have inStore : ∀ entry ∈ sorted.toList.map (versioned s.latestseq), entry.seq ≠ 0 →
      s.txdb.get entry.key entry.seq ≠ none := by
    intro entry mem some_
    obtain ⟨before, -, rfl⟩ := List.mem_map.mp mem
    exact present before.key some_
  have counted : (sorted.toList.map (versioned s.latestseq)).countP Batch.hasVersion =
      versions s keys.toList := by
    rw [List.countP_map]
    exact perm.countP_eq _
  have values := readValues_eq inStore (Nat.zero_le 10001)
  rw [Nat.zero_add, counted] at values
  have reads := addReads_eq held ((sorted.toList.map (readVersion s.latestseq)).map Prod.snd)
  have size : sorted.toList.length = keys.size := perm.length_eq
  rw [List.length_map, List.length_map, size] at reads
  simp only [getBatch, sorting, Option.bind_eq_bind, Option.bind_some, first, values, reads]
  by_cases room : readset.length + keys.size ≤ 2 ^ 30
  · rw [if_pos room]
    by_cases few : versions s keys.toList ≤ 10001
    · rw [if_pos few, if_pos ⟨room, few⟩]
      simp
    · have fails : ¬ (readset.length + keys.size ≤ 2 ^ 30 ∧ versions s keys.toList ≤ 10001) :=
        fun both => few both.2
      rw [if_neg few, if_neg fails]
      rfl
  · have fails : ¬ (readset.length + keys.size ≤ 2 ^ 30 ∧ versions s keys.toList ≤ 10001) :=
      fun both => room both.1
    rw [if_neg room, if_neg fails]
    rfl

theorem filled_stored (present : Present s) (entry : Batch Key Val) :
    (filled s.txdb (versioned s.latestseq entry)).s = (stored s entry.key).status ∧
      (filled s.txdb (versioned s.latestseq entry)).value =
        (stored s entry.key).value.or entry.value := by
  by_cases zero : latestOf s.latestseq entry.key = 0
  · simp [filled, versioned, stored, zero, missing]
  · obtain ⟨val, version⟩ := Option.ne_none_iff_exists'.mp (present entry.key zero)
    simp [filled, versioned, stored, zero, version]

/-- Entry by entry of the sorted batch, the key is kept, and status and value are those of a
`Get` of that key. -/
def Agree (s : State Val hashfunc) (t : ThreadId) : List (Batch Key Val) → List (Batch Key Val) → Prop :=
  List.Forall₂ fun before after => after.key = before.key ∧
    ∃ found, Gets s t before.key found ∧ after.s = found.status ∧
      after.value = found.value.or before.value

/-- The own write of a key of the batch, if there is one, says what the store says. -/
def OwnWritesStored (s : State Val hashfunc) (t : ThreadId) (keys : Array (Batch Key Val)) : Prop :=
  ∀ entry ∈ keys, ∀ own ∈ lookup (s.threads t).writeset entry.key,
    (ownWrite own).status = (stored s entry.key).status ∧
      (ownWrite own).value.or entry.value = (stored s entry.key).value.or entry.value

theorem agree_iff {sorted : Array (Batch Key Val)} (body : (s.threads t).pc = .body)
    (present : Present s) (perm : sorted.toList.Perm keys.toList) :
    Agree s t sorted.toList
        (sorted.toList.map fun entry => filled s.txdb (versioned s.latestseq entry)) ↔
      OwnWritesStored s t keys := by
  rw [Agree, List.forall₂_map_right_iff, List.forall₂_same]
  have inside : ∀ entry, entry ∈ sorted.toList ↔ entry ∈ keys := fun entry =>
    perm.mem_iff.trans Array.mem_toList_iff
  constructor
  · intro agree entry mem own written
    obtain ⟨-, found, gets, status, value⟩ := agree entry ((inside entry).mpr mem)
    obtain rfl := (gets_own body written).mp gets
    obtain ⟨status', value'⟩ := filled_stored present entry
    exact ⟨status.symm.trans status', value.symm.trans value'⟩
  · intro own entry mem
    have sameKey : (filled s.txdb (versioned s.latestseq entry)).key = entry.key := by
      rw [filled]
      split <;> rfl
    have result := filled_stored present entry
    cases written : lookup (s.threads t).writeset entry.key with
    | none => exact ⟨sameKey, _, gets_stored body written present, result⟩
    | some write =>
      obtain ⟨status, value⟩ := own entry ((inside entry).mp mem) write written
      exact ⟨sameKey, _, (gets_own body written).mpr rfl, result.1.trans status.symm,
        result.2.trans value.symm⟩

/-- `GetBatch` returns and gives every entry what `Get` would give exactly if the read set has room
for the batch, at most 10001 entries have a version, and own writes say what the store says. -/
theorem getBatch_agrees (comp : Key → Key → Int) (s : State Val hashfunc) (t : ThreadId)
    (body : (s.threads t).pc = .body) (present : Present s)
    (held : (s.threads t).readset.length ≤ 2 ^ 30) (keys : Array (Batch Key Val)) :
    (∃ sorted readset result, sortBatch comp keys = some sorted ∧
      sorted.toList.Perm keys.toList ∧
      getBatch comp s.latestseq s.txdb (s.threads t).readset keys = some (readset, result) ∧
      Agree s t sorted.toList result) ↔
    (s.threads t).readset.length + keys.size ≤ 2 ^ 30 ∧ versions s keys.toList ≤ 10001 ∧
      OwnWritesStored s t keys := by
  constructor
  · rintro ⟨sorted, readset, result, sorting, perm, returned, agree⟩
    rw [getBatch_eq present held sorting perm] at returned
    split at returned
    · rename_i bounds
      cases returned
      exact ⟨bounds.1, bounds.2, (agree_iff body present perm).mp agree⟩
    · cases returned
  · rintro ⟨room, few, own⟩
    obtain ⟨sorted, sorting, perm⟩ := sortBatch_perm comp (by omega : keys.size ≤ 2 ^ 30)
    have returned := getBatch_eq present held sorting perm
    rw [if_pos ⟨room, few⟩] at returned
    exact ⟨sorted, _, _, sorting, perm, returned, (agree_iff body present perm).mpr own⟩

end

/-! ### Two batches -/

def oneSlot : Nat → UInt64 := fun _ => 0

theorem present_of_slot {s : State Nat oneSlot}
    (inStore : ∀ node ∈ s.latestseq.list (HashTable.slot 0), s.latestseq.seq node.id ≠ 0 →
      s.txdb.get node.key (s.latestseq.seq node.id) ≠ none) : Present s := by
  intro key some_
  cases isNode : s.latestseq.getNode key with
  | none => exact absurd (by simp [latestOf, isNode]) some_
  | some node =>
    have isLatest : latestOf s.latestseq key = s.latestseq.seq node.id := by simp [latestOf, isNode]
    obtain ⟨mem, rfl⟩ := HashTable.getNode_eq_some.mp isNode
    rw [isLatest] at some_ ⊢
    exact inStore node mem some_

def committed : List (ThreadId × Act Nat Nat) :=
  [(0, .call .begin), (0, .call (.add .value 1 5)), (0, .call .finish), (0, .tick), (0, .tick),
    (0, .call .begin), (0, .call (.add .value 3 7))]

/-- The own writes are 7 for key 3, which the store does not have, and 5 for key 1, as in the
store. -/
theorem getBatch_agrees_twice :
    ∃ s : State Nat oneSlot, run step {} (committed ++ [(0, .call (.add .value 1 5))]) = some s ∧
      (∃ sorted readset result, sortBatch (fun a b : Nat => (a : Int) - b)
          #[⟨2, none, .ok, 0⟩, ⟨1, none, .ok, 0⟩, ⟨1, some 8, .ok, 0⟩] = some sorted ∧
        sorted.toList.Perm [⟨2, none, .ok, 0⟩, ⟨1, none, .ok, 0⟩, ⟨1, some 8, .ok, 0⟩] ∧
        getBatch (fun a b : Nat => (a : Int) - b) s.latestseq s.txdb (s.threads 0).readset
          #[⟨2, none, .ok, 0⟩, ⟨1, none, .ok, 0⟩, ⟨1, some 8, .ok, 0⟩] = some (readset, result) ∧
        Agree s 0 sorted.toList result) ∧
      ¬ ∃ sorted readset result, sortBatch (fun a b : Nat => (a : Int) - b)
          #[⟨3, none, .ok, 0⟩] = some sorted ∧
        sorted.toList.Perm [⟨3, none, .ok, 0⟩] ∧
        getBatch (fun a b : Nat => (a : Int) - b) s.latestseq s.txdb (s.threads 0).readset
          #[⟨3, none, .ok, 0⟩] = some (readset, result) ∧
        Agree s 0 sorted.toList result := by
  refine ⟨_, rfl, ?_, ?_⟩
  · refine (getBatch_agrees (fun a b : Nat => (a : Int) - b) _ 0 rfl
      (present_of_slot (by decide +kernel)) (by decide +kernel)
      #[⟨2, none, .ok, 0⟩, ⟨1, none, .ok, 0⟩, ⟨1, some 8, .ok, 0⟩]).mpr ?_
    exact ⟨by decide +kernel, by decide +kernel, by unfold OwnWritesStored; decide +kernel⟩
  · intro agrees
    obtain ⟨-, -, own⟩ := (getBatch_agrees (fun a b : Nat => (a : Int) - b) _ 0 rfl
      (present_of_slot (by decide +kernel)) (by decide +kernel) #[⟨3, none, .ok, 0⟩]).mp agrees
    revert own
    unfold OwnWritesStored
    decide +kernel

theorem getBatch_ignores_writes :
    ∃ s : State Nat oneSlot, run step {} committed = some s ∧ Present s ∧
      Gets s 0 3 ⟨true, .ok, some 7⟩ ∧
      (getBatch (fun a b : Nat => (a : Int) - b) s.latestseq s.txdb (s.threads 0).readset
        #[⟨3, none, .ok, 0⟩]).map Prod.snd = some [⟨3, none, .notFound, 0⟩] := by
  refine ⟨_, rfl, present_of_slot (by decide +kernel), ⟨_, rfl, 0, _, rfl, rfl, rfl⟩, ?_⟩
  decide +kernel

end EunoDb.DBTransaction
