import EunoDb.TxHistory

/-! `DBTransaction` used by one thread: every `Get` returns. -/

namespace EunoDb.DBTransaction

open History Execution

section Answers

variable {Key Val : Type} [LinearOrder Key]

def expected (log : List (Commit Key Val)) (before : List (Event Key Val)) (key : Key) :
    Option Val :=
  ((latest (adds before) key).or (latest (committedAdds log) key)).bind meaning

def firstAdd (writes : List (Key × ValueType × Val)) (key : Key) : Option (ValueType × Val) :=
  (writes.find? fun write => write.1 = key).map Prod.snd

def Plain (log : List (Commit Key Val)) (before : List (Event Key Val)) (key : Key) : Prop :=
  (firstAdd (adds before) key).map meaning = (latest (adds before) key).map meaning ∧
    (latest (adds before) key = none →
      ∀ val, latest (committedAdds log) key ≠ some (.deletion, val))

theorem firstAdd_of_lookup {writeset : List (WSEntry Key Val)} {events : List (Event Key Val)}
    (same : writeset.map WSEntry.kv = adds events) (key : Key) :
    firstAdd (adds events) key = (lookup writeset key).map fun entry => (entry.type, entry.val) := by
  unfold firstAdd lookup
  rw [← same, List.find?_map, Option.map_map]
  rfl

variable {key : Key}

theorem latest_isSome_of_firstAdd {writes : List (Key × ValueType × Val)} :
    latest writes key = none ↔ firstAdd writes key = none := by
  unfold firstAdd
  rw [latest_eq_none_iff, Option.map_eq_none_iff, List.find?_eq_none]
  simp

omit [LinearOrder Key] in
theorem ownWrite_answer (entry : WSEntry Key Val) :
    (ownWrite entry).answer = meaning (entry.type, entry.val) := by
  unfold ownWrite
  cases entry.type <;> rfl

variable {log : List (Commit Key Val)} {before : List (Event Key Val)}

theorem own_plain {first : ValueType × Val} (found : firstAdd (adds before) key = some first) :
    meaning first = expected log before key ↔ Plain log before key := by
  have written : latest (adds before) key ≠ none := by
    rw [Ne, latest_isSome_of_firstAdd, found]
    simp
  obtain ⟨last, isLast⟩ := Option.ne_none_iff_exists'.mp written
  simp [expected, Plain, found, isLast]

theorem committed_plain (unwritten : firstAdd (adds before) key = none) :
    (latest (committedAdds log) key).map Prod.snd = expected log before key ↔
      Plain log before key := by
  have none_ := latest_isSome_of_firstAdd.mpr unwritten
  simp only [expected, Plain, unwritten, none_, Option.none_or]
  cases latest (committedAdds log) key with
  | none => simp
  | some write =>
    obtain ⟨type, val⟩ := write
    cases type <;> simp [meaning]

end Answers

section Serial

variable {Key Val : Type} [LinearOrder Key] {hashfunc : Key → UInt64}

def Answers (s : State Val hashfunc) (t : ThreadId) (key : Key) (answer : Option Val) : Prop :=
  ∃ ticks next found, ticks ≤ 3 ∧
    Execution.run step s ((t, .call (.get key)) :: List.replicate ticks (t, .tick)) = some next ∧
    (next.threads t).pc = .body ∧
    (next.threads t).events = (s.threads t).events ++ [.get key found] ∧ found.answer = answer

variable {s : State Val hashfunc} {t : ThreadId} {key : Key}

theorem own_answers {entry : WSEntry Key Val} (pc : (s.threads t).pc = .body)
    (found : lookup (s.threads t).writeset key = some entry) :
    Answers s t key (meaning (entry.type, entry.val)) := by
  refine ⟨0, s.setThread t (finishGet (s.threads t) key (ownWrite entry)), ownWrite entry,
    Nat.zero_le 3, ?_, ?_, ?_, ownWrite_answer entry⟩
  · simp [run, step, call, pc, found]
  · simp [State.setThread, finishGet]
  · simp [State.setThread, finishGet]

theorem absent_answers (pc : (s.threads t).pc = .body)
    (unwritten : lookup (s.threads t).writeset key = none) (found : s.latestseq.getNode key = none) :
    Answers s t key none := by
  refine ⟨1, ?next, missing, by decide, ?run, ?body, ?events, rfl⟩
  case run =>
    simp only [List.replicate, run, step, call, pc, unwritten, tick, State.setThread,
      Function.update_self, found, Option.bind_some]
    rfl
  case body => simp [finishGet]
  case events => simp [finishGet]

variable {node : HashTable.Node Key}

theorem empty_answers (pc : (s.threads t).pc = .body)
    (unwritten : lookup (s.threads t).writeset key = none)
    (found : s.latestseq.getNode key = some node) (zero : s.latestseq.seq node.id = 0) :
    Answers s t key none := by
  refine ⟨2, ?next, missing, by decide, ?run, ?body, ?events, rfl⟩
  case run =>
    simp only [List.replicate, run, step, call, pc, unwritten, tick, State.setThread,
      Function.update_self, found, zero, if_true, Option.bind_some]
    rfl
  case body => simp [finishGet]
  case events => simp [finishGet]

theorem version_answers {val : Val} (pc : (s.threads t).pc = .body)
    (unwritten : lookup (s.threads t).writeset key = none)
    (found : s.latestseq.getNode key = some node) (some_ : s.latestseq.seq node.id ≠ 0)
    (version : s.txdb.get key (s.latestseq.seq node.id) = some val) :
    Answers s t key (some val) := by
  refine ⟨3, ?next, ⟨true, .ok, some val⟩, by decide, ?run, ?body, ?events, rfl⟩
  case run =>
    simp only [List.replicate, run, step, call, pc, unwritten, tick, State.setThread,
      Function.update_self, found, some_, if_false, version, Option.bind_some]
    rfl
  case body => simp [finishGet]
  case events => simp [finishGet]

theorem store_answers (consistent : Consistent s) (recorded : Recorded s) (settled : Settled s)
    (pc : (s.threads t).pc = .body) (unwritten : lookup (s.threads t).writeset key = none) :
    Answers s t key ((latest (committedAdds s.log) key).map Prod.snd) := by
  cases found : s.latestseq.getNode key with
  | none =>
    have zero : s.latestseq.seqOf key = 0 := by simp [HashTable.seqOf, found]
    rw [latest_of_zero consistent recorded zero]
    exact absent_answers pc unwritten found
  | some node =>
    have seq := HashTable.seqOf_of_getNode found
    by_cases zero : s.latestseq.seq node.id = 0
    · rw [latest_of_zero consistent recorded (seq.trans zero)]
      exact empty_answers pc unwritten found zero
    have bound : 1 ≤ s.latestseq.seq node.id ∧ s.latestseq.seq node.id ≤ s.latestseq.seqOf key :=
      ⟨Nat.pos_of_ne_zero zero, Nat.le_of_eq seq.symm⟩
    obtain ⟨val, mem⟩ := (consistent.versions settled key _).mpr bound
    obtain ⟨entry, inside, rfl, number, rfl⟩ := (consistent.mem_table settled).mp mem
    rw [latest_of_wseq consistent recorded inside (number.trans seq.symm)]
    exact version_answers pc unwritten found zero (TXMemStore.get_eq_some.mpr mem)

theorem run_recorded {acts : List (ThreadId × Act Key Val)} {final : State Val hashfunc}
    (reached : run step {} acts = some final) : Recorded final := by
  have kept : ∀ (s : State Val hashfunc) act next, Recorded s → True →
      step s act = some next → Recorded next :=
    fun s act next recorded _ taken => recorded.step (step_cases taken)
  exact run_preserves kept created_recorded
    (each_of_forall fun _ _ => trivial) reached

/-- What `Get` answers to one transaction after another, and exactly when that is as expected. -/
theorem get_answers (t : ThreadId) (acts : List (ThreadId × Act Key Val)) (s : State Val hashfunc)
    (alone : ∀ act ∈ acts, act.1 = t) (reached : Execution.run step {} acts = some s)
    (pc : (s.threads t).pc = .body) (key : Key) :
    ∃ answer, Answers s t key answer ∧
      (answer = expected s.log (s.threads t).events key ↔
        Plain s.log (s.threads t).events key) := by
  have consistent := run_consistent reached
  have recorded := run_recorded reached
  have settled : Settled s := by
    intro u i
    by_cases own : u = t
    · rw [own, pc]
      simp
    · rw [run_other (fun act member => alone act member ▸ Ne.symm own) reached]
      simp
  have writes := firstAdd_of_lookup (recorded.writes t (by rw [pc]; rfl)) key
  cases found : lookup (s.threads t).writeset key with
  | some entry =>
    rw [found] at writes
    exact ⟨_, own_answers pc found, own_plain writes⟩
  | none =>
    rw [found] at writes
    exact ⟨_, store_answers consistent recorded settled pc found, committed_plain writes⟩

def twoTransactions : List (ThreadId × Act Nat Nat) :=
  [(0, .call .begin), (0, .call (.add .value 1 10)), (0, .call (.add .value 2 20)),
    (0, .call .finish), (0, .tick), (0, .tick), (0, .tick), (0, .call .begin),
    (0, .call (.add .deletion 2 0))]

theorem get_answers_twoTransactions : ∃ s : State Nat Nat.toUInt64,
    Execution.run step {} twoTransactions = some s ∧
      expected s.log (s.threads 0).events 1 = some 10 ∧
      expected s.log (s.threads 0).events 2 = none ∧
      (∃ answer, Answers s 0 1 answer ∧ (answer = expected s.log (s.threads 0).events 1 ↔
        Plain s.log (s.threads 0).events 1)) ∧
      ∃ answer, Answers s 0 2 answer ∧ (answer = expected s.log (s.threads 0).events 2 ↔
        Plain s.log (s.threads 0).events 2) :=
  ⟨_, rfl, rfl, rfl, get_answers 0 twoTransactions _ (by decide) rfl rfl 1,
    get_answers 0 twoTransactions _ (by decide) rfl rfl 2⟩

theorem get_unexpected :
    (∃ s : State Nat Nat.toUInt64,
      Execution.run step {} [(0, .call .begin), (0, .call (.add .value 1 10)),
        (0, .call (.add .value 1 20))] = some s ∧
      Answers s 0 1 (some 10) ∧ expected s.log (s.threads 0).events 1 = some 20) ∧
    ∃ s : State Nat Nat.toUInt64,
      Execution.run step {} [(0, .call .begin), (0, .call (.add .deletion 1 7)),
        (0, .call .finish), (0, .tick), (0, .tick), (0, .call .begin)] = some s ∧
      Answers s 0 1 (some 7) ∧ expected s.log (s.threads 0).events 1 = none :=
  ⟨⟨_, rfl, ⟨0, _, ⟨true, .ok, some 10⟩, by decide, rfl, rfl, rfl, rfl⟩, rfl⟩,
    ⟨_, rfl, ⟨3, _, ⟨true, .ok, some 7⟩, by decide, rfl, rfl, rfl, rfl⟩, rfl⟩⟩

end Serial

end EunoDb.DBTransaction
