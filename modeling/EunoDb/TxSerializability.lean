import EunoDb.TxHistory

/-! `DBTransaction` is serializable except for a `Get` that finds the number 0. -/

namespace EunoDb.DBTransaction

open History Function Execution

variable {Key Val : Type} [LinearOrder Key] {hashfunc : Key → UInt64}

inductive Seen (s : State Val hashfunc) (th : Thread Key Val) (key : Key) : Option Val → Prop where
  | absent (pair : ⟨0, none, hashfunc key⟩ ∈ th.readset) : Seen s th key none
  | empty {node : HashTable.Node Key} (found : s.latestseq.getNode key = some node)
      (noted : node.id ∈ th.empty) : Seen s th key none
  | version {node : HashTable.Node Key} {entry : WSEntry Key Val}
      (found : s.latestseq.getNode key = some node) (own : entry.key = key)
      (pair : ⟨entry.wseq, some node.id, node.hash⟩ ∈ th.readset)
      (member : entry ∈ assigned s) : Seen s th key (some entry.val)

def Reported (s : State Val hashfunc) (th : Thread Key Val) : Prop :=
  ∀ before key found rest, th.events = before ++ .get key found :: rest →
    latest (adds before) key = none → Seen s th key found.answer

structure Later (s next : State Val hashfunc) : Prop where
  table : Grows s.latestseq next.latestseq
  assigned : ∀ entry ∈ assigned s, entry ∈ assigned next

variable {s next : State Val hashfunc} {th after : Thread Key Val} {key : Key} {t : ThreadId}
  {act : Act Key Val}

theorem Seen.mono {answer : Option Val} (seen : Seen s th key answer) (later : Later s next)
    (readset : ∀ pair ∈ th.readset, pair ∈ after.readset)
    (empty : ∀ id ∈ th.empty, id ∈ after.empty) : Seen next after key answer := by
  cases seen with
  | absent pair => exact .absent (readset _ pair)
  | empty found noted => exact .empty (later.table.nodes _ _ found).1 (empty _ noted)
  | version found own pair mem =>
    exact .version (later.table.nodes _ _ found).1 own (readset _ pair)
      (later.assigned _ mem)

theorem Reported.mono (reported : Reported s th) (later : Later s next)
    (events : after.events = th.events) (readset : ∀ pair ∈ th.readset, pair ∈ after.readset)
    (empty : ∀ id ∈ th.empty, id ∈ after.empty) : Reported next after := by
  intro before key found rest here unwritten
  rw [events] at here
  exact (reported before key found rest here unwritten).mono later readset empty

theorem split_concat {α : Type} {xs before rest : List α} {x y : α}
    (same : xs ++ [y] = before ++ x :: rest) :
    before = xs ∧ x = y ∨ ∃ front, xs = before ++ x :: front := by
  rcases List.eq_nil_or_concat rest with rfl | ⟨front, z, rfl⟩
  · obtain ⟨earlier, last⟩ := List.append_inj' same rfl
    cases last
    exact Or.inl ⟨earlier.symm, rfl⟩
  · rw [List.concat_eq_append, ← List.cons_append, ← List.append_assoc] at same
    exact Or.inr ⟨front, (List.append_inj' same rfl).1⟩

theorem Reported.get (reported : Reported s th) (later : Later s next) {found : Found Val}
    (events : after.events = th.events ++ [.get key found])
    (readset : ∀ pair ∈ th.readset, pair ∈ after.readset)
    (empty : ∀ id ∈ th.empty, id ∈ after.empty)
    (last : latest (adds th.events) key = none → Seen next after key found.answer) :
    Reported next after := by
  intro before other answer rest here unwritten
  rw [events] at here
  rcases split_concat here with ⟨rfl, same⟩ | ⟨front, old⟩
  · cases same
    exact last unwritten
  · exact (reported before other answer front old unwritten).mono later readset empty

theorem Reported.add (reported : Reported s th) (later : Later s next) {type : ValueType}
    {val : Val} (events : after.events = th.events ++ [.add type key val])
    (readset : after.readset = th.readset) (empty : after.empty = th.empty) :
    Reported next after := by
  intro before other answer rest here unwritten
  rw [events] at here
  rcases split_concat here with ⟨_, same⟩ | ⟨front, old⟩
  · cases same
  · exact (reported before other answer front old unwritten).mono later
      (by rw [readset]; exact fun _ => id) (by rw [empty]; exact fun _ => id)

theorem step_later (consistent : Consistent s) (taken : Step s t act next) : Later s next := by
  have still : Grows s.latestseq s.latestseq := ⟨fun _ _ found => ⟨found, Nat.le_refl _⟩⟩
  cases taken with
  | add pc =>
    refine ⟨⟨fun k node found => ?_⟩, fun _ => id⟩
    obtain ⟨there, seq⟩ := HashTable.getNodeWithInsert_old found
    exact ⟨there, Nat.le_of_eq seq.symm⟩
  | commit pc valid =>
    refine ⟨grows_validated consistent t, fun entry mem => ?_⟩
    rw [assigned_validated]
    exact List.mem_append_left _ mem
  | _ => exact ⟨still, fun _ => id⟩

/-! ### Validation -/

theorem Seen.current (consistent : Consistent s) (recorded : Recorded s)
    (valued : ∀ entry ∈ assigned s, entry.type = .value) {answer : Option Val}
    (seen : Seen s th key answer) (valid : validate s.latestseq th.readset = true)
    (still : ∀ id ∈ th.empty, s.latestseq.seq id = 0) :
    answer = (latest (committedAdds s.log) key).bind meaning := by
  have pairs : ∀ pair ∈ th.readset, validPair s.latestseq pair = true := List.all_eq_true.mp valid
  cases seen with
  | absent pair =>
    have nothing := of_decide_eq_true (pairs _ pair)
    rw [latest_of_zero consistent recorded (HashTable.seqOf_of_getMaxWithHash nothing.symm)]
    rfl
  | empty found noted =>
    have zero := still _ noted
    rw [← HashTable.seqOf_of_getNode found] at zero
    rw [latest_of_zero consistent recorded zero]
    rfl
  | version found own pair mem =>
    subst own
    have number := of_decide_eq_true (pairs _ pair)
    rw [← HashTable.seqOf_of_getNode found] at number
    rw [latest_of_wseq consistent recorded mem number, valued _ mem]
    rfl

def Serialized (log : List (Commit Key Val)) : Prop :=
  ∀ i commit, log[i]? = some commit → ∀ before key found rest,
    commit.events = before ++ .get key found :: rest → latest (adds before) key = none →
    found.answer = (latest (committedAdds (log.take i)) key).bind meaning

theorem Serialized.concat {log : List (Commit Key Val)} {commit : Commit Key Val}
    (serialized : Serialized log)
    (last : ∀ before key found rest, commit.events = before ++ .get key found :: rest →
      latest (adds before) key = none →
      found.answer = (latest (committedAdds log) key).bind meaning) :
    Serialized (log ++ [commit]) := by
  intro i other here before key found rest events unwritten
  rcases Nat.lt_trichotomy i log.length with earlier | rfl | outside
  · rw [List.getElem?_append_left earlier] at here
    rw [List.take_append_of_le_length (Nat.le_of_lt earlier)]
    exact serialized i other here before key found rest events unwritten
  · simp only [List.getElem?_concat_length, Option.some.injEq] at here
    subst here
    rw [List.take_left']
    · exact last before key found rest events unwritten
    · rfl
  · rw [List.getElem?_eq_none (by rw [List.length_append]; exact outside)] at here
    cases here

/-! ### Runs -/

def valuesOnly (_ : State Val hashfunc) : ThreadId × Act Key Val → Prop
  | (_, .call (.add type _ _)) => type = .value
  | (_, .call .begin) | (_, .call (.get _)) | (_, .call .finish) | (_, .tick) => True

def emptyStill (s : State Val hashfunc) : ThreadId × Act Key Val → Prop
  | (t, .call .finish) => validate s.latestseq (s.threads t).readset = true →
      ∀ id ∈ (s.threads t).empty, s.latestseq.seq id = 0
  | (_, .call .begin) | (_, .call (.get _)) | (_, .call (.add _ _ _)) | (_, .tick) => True

instance (s : State Val hashfunc) : (act : ThreadId × Act Key Val) → Decidable (valuesOnly s act)
  | (_, .call (.add _ _ _)) => inferInstanceAs (Decidable (_ = _))
  | (_, .call .begin) | (_, .call (.get _)) | (_, .call .finish) | (_, .tick) =>
    inferInstanceAs (Decidable True)

instance (s : State Val hashfunc) : (act : ThreadId × Act Key Val) → Decidable (emptyStill s act)
  | (_, .call .finish) => inferInstanceAs (Decidable (_ → _))
  | (_, .call .begin) | (_, .call (.get _)) | (_, .call (.add _ _ _)) | (_, .tick) =>
    inferInstanceAs (Decidable True)

structure Sees (s : State Val hashfunc) : Prop where
  consistent : Consistent s
  recorded : Recorded s
  writes : ∀ t, ∀ entry ∈ (s.threads t).writeset, entry.type = .value
  valued : ∀ entry ∈ assigned s, entry.type = .value
  reported : ∀ t, (s.threads t).pc.inTx = true → Reported s (s.threads t)
  log : Serialized s.log

theorem Sees.own (sees : Sees s) (taken : Step s t act next)
    (threads : next.threads = update s.threads t th) (log : next.log = s.log)
    (writes : ∀ entry ∈ th.writeset, entry.type = .value)
    (reported : th.pc.inTx = true → Reported next th) : Sees next := by
  have later := step_later sees.consistent taken
  refine ⟨sees.consistent.step taken, sees.recorded.step taken, ?_, ?_, ?_, log ▸ sees.log⟩
  · intro u
    rw [threads]
    by_cases same : u = t
    · subst same
      rw [update_self]
      exact writes
    · rw [update_of_ne same]
      exact sees.writes u
  · have same : assigned next = assigned s := by
      unfold assigned
      rw [log]
    rw [same]
    exact sees.valued
  · intro u inside
    rw [threads] at inside ⊢
    by_cases same : u = t
    · subst same
      rw [update_self] at inside ⊢
      exact reported inside
    · rw [update_of_ne same] at inside ⊢
      exact (sees.reported u inside).mono later rfl (fun _ => id) (fun _ => id)

omit [LinearOrder Key] in
theorem updateGlobalSeqs_valued (seq : HashTable.NodeId → Nat) {entries : List (WSEntry Key Val)}
    (valued : ∀ entry ∈ entries, entry.type = .value) :
    ∀ entry ∈ (updateGlobalSeqs seq entries).2, entry.type = .value := by
  intro entry mem
  have kept : entry.kv ∈ entries.map WSEntry.kv := by
    have same := (updateGlobalSeqs_entries seq entries).1
    rw [show entries.map WSEntry.kv = _ from same.symm]
    exact List.mem_map_of_mem mem
  obtain ⟨old, there, same⟩ := List.mem_map.mp kept
  have type := congrArg (fun kv => kv.2.1) same
  exact Eq.trans (Eq.symm type) (valued old there)

theorem Sees.commit (sees : Sees s) (pc : (s.threads t).pc = .body)
    (valid : validate s.latestseq (s.threads t).readset = true)
    (still : ∀ id ∈ (s.threads t).empty, s.latestseq.seq id = 0) : Sees (validated s t) := by
  have taken : Step s t (.call .finish) (validated s t) := .commit pc valid
  have later := step_later sees.consistent taken
  have new := updateGlobalSeqs_valued s.latestseq.seq (sees.writes t)
  refine ⟨sees.consistent.step taken, sees.recorded.step taken, ?_, ?_, ?_, ?_⟩
  · intro u
    by_cases same : u = t
    · subst same
      simpa [validated, State.setThread] using new
    · simpa [validated, State.setThread, same] using sees.writes u
  · intro entry mem
    rw [assigned_validated] at mem
    rcases List.mem_append.mp mem with old | added
    · exact sees.valued entry old
    · exact new entry added
  · intro u inside
    by_cases same : u = t
    · subst same
      simp [validated, State.setThread, Pc.inTx] at inside
    · simp only [validated, State.setThread, update_of_ne same] at inside ⊢
      exact (sees.reported u inside).mono later rfl (fun _ => id) (fun _ => id)
  · refine sees.log.concat ?_
    intro before key found rest events unwritten
    have seen := sees.reported t (by rw [pc]; rfl) before key found rest events unwritten
    exact seen.current sees.consistent sees.recorded sees.valued valid still

theorem Sees.step (sees : Sees s) (plain : valuesOnly s (t, act)) (still : emptyStill s (t, act))
    (taken : Step s t act next) : Sees next := by
  have now := sees.reported t
  have later := step_later sees.consistent taken
  have writes := sees.writes t
  cases taken with
  | begin pc =>
    refine sees.own (.begin pc) rfl rfl (fun _ mem => by cases mem) fun _ => ?_
    intro before key found rest events
    simp at events
  | own pc found =>
    refine sees.own (.own pc found) rfl rfl writes fun _ => ?_
    refine (now (by rw [pc]; rfl)).get later rfl (fun _ => id) (fun _ => id) ?_
    -- the key is in the write set
    intro unwritten
    rw [← sees.recorded.writes t (by rw [pc]; rfl), latest_eq_none_iff] at unwritten
    have same := List.find?_some found
    rw [decide_eq_true_eq] at same
    exact absurd same (unwritten _ (List.mem_map_of_mem (List.mem_of_find?_eq_some found)))
  | look pc unwritten =>
    exact sees.own (.look pc unwritten) rfl rfl writes fun _ =>
      (now (by rw [pc]; rfl)).mono later rfl (fun _ => id) (fun _ => id)
  | add pc =>
    refine sees.own (.add pc) rfl rfl ?_ fun _ => (now (by rw [pc]; rfl)).add later rfl rfl rfl
    intro entry mem
    rcases List.mem_append.mp mem with old | new
    · exact writes entry old
    · rw [List.mem_singleton.mp new]
      exact plain
  | commit pc valid => exact sees.commit pc valid (still valid)
  | abort pc invalid =>
    exact sees.own (.abort pc invalid) rfl rfl writes fun inside => by cases inside
  | absent pc none_ =>
    refine sees.own (.absent pc none_) rfl rfl writes fun _ => ?_
    exact (now (by rw [pc]; rfl)).get later rfl (fun _ => List.mem_append_left _) (fun _ => id)
      fun _ => .absent (List.mem_append_right _ List.mem_cons_self)
  | node pc found =>
    exact sees.own (.node pc found) rfl rfl writes fun _ =>
      (now (by rw [pc]; rfl)).mono later rfl (fun _ => id) (fun _ => id)
  | empty pc zero =>
    have found := sees.consistent.reads t
    rw [pc] at found
    refine sees.own (.empty pc zero) rfl rfl writes fun _ => ?_
    exact (now (by rw [pc]; rfl)).get later rfl (fun _ => id) (fun _ => List.mem_append_left _)
      fun _ => .empty found (List.mem_append_right _ List.mem_cons_self)
  | seq pc some_ =>
    exact sees.own (.seq pc some_) rfl rfl writes fun _ =>
      (now (by rw [pc]; rfl)).mono later rfl (fun _ => id) (fun _ => id)
  | retry pc none_ => exact sees
  | found pc version =>
    have reads := sees.consistent.reads t
    rw [pc] at reads
    -- the version is that of a numbered write
    obtain ⟨entry, inside, same⟩ :=
      sees.consistent.stored _ (TXMemStore.get_eq_some.mp version)
    cases same
    refine sees.own (.found pc version) rfl rfl writes fun _ => ?_
    exact (now (by rw [pc]; rfl)).get later rfl (fun _ => List.mem_append_left _) (fun _ => id)
      fun _ => .version reads.1 rfl (List.mem_append_right _ List.mem_cons_self) inside
  | put pc more =>
    exact sees.own (.put pc more) rfl rfl writes fun inside => by cases inside
  | done pc last =>
    exact sees.own (.done pc last) rfl rfl (fun _ mem => by cases mem)
      fun inside => by cases inside

theorem created_sees : Sees ({} : State Val hashfunc) where
  consistent := created_consistent
  recorded := created_recorded
  writes := fun _ _ mem => by cases mem
  valued := fun _ mem => by cases mem
  reported := fun _ inside => by cases inside
  log := fun _ _ here => by simp at here

/-- In every run in which the nodes that committing transactions found empty stay
empty until their `Validation`, each `Get` of a committed transaction on a key it had
not written answered what the transactions validated before it left. -/
theorem validation_serializes (acts : List (ThreadId × Act Key Val)) (final : State Val hashfunc)
    (values : Execution.Each step valuesOnly ({} : State Val hashfunc) acts)
    (admitted : Execution.Each step emptyStill ({} : State Val hashfunc) acts)
    (reached : Execution.run step {} acts = some final) :
    ∀ i commit, final.log[i]? = some commit → ∀ before key found rest,
      commit.events = before ++ .get key found :: rest → latest (adds before) key = none →
      found.answer = (latest (committedAdds (final.log.take i)) key).bind meaning := by
  have kept : ∀ (s : State Val hashfunc) act next, Sees s → valuesOnly s act ∧ emptyStill s act →
      step s act = some next → Sees next := by
    rintro s ⟨t, act⟩ next sees ⟨plain, still⟩ taken
    exact sees.step plain still (step_cases taken)
  exact (Execution.run_preserves kept created_sees
    (Execution.each_and values admitted) reached).log

def readsCommitted : List (ThreadId × Act Nat Nat) :=
  [(0, .call .begin), (0, .call (.add .value 1 10)), (0, .call .finish), (1, .call .begin),
    (1, .call (.get 2)), (1, .tick), (1, .call (.get 1)), (1, .tick), (1, .tick), (1, .tick),
    (0, .tick), (1, .tick), (1, .call (.add .value 2 20)), (1, .call .finish)]

theorem validation_serializes_readsCommitted : ∃ final : State Nat Nat.toUInt64,
    Execution.run step {} readsCommitted = some final ∧
      (final.log.map Commit.events)[1]? =
        some [.get 2 ⟨false, .notFound, none⟩, .get 1 ⟨true, .ok, some 10⟩, .add .value 2 20] ∧
      ∀ i commit, final.log[i]? = some commit → ∀ before key found rest,
        commit.events = before ++ .get key found :: rest → latest (adds before) key = none →
        found.answer = (latest (committedAdds (final.log.take i)) key).bind meaning :=
  ⟨_, rfl, rfl, validation_serializes readsCommitted _ (by decide +kernel) (by decide +kernel) rfl⟩

def lostUpdate : List (ThreadId × Act Nat Nat) :=
  [(0, .call .begin), (0, .call (.add .value 1 10)), (1, .call .begin), (1, .call (.get 1)),
    (1, .tick), (1, .tick), (0, .call .finish), (0, .tick), (0, .tick),
    (1, .call (.add .value 1 20)), (1, .call .finish)]

theorem empty_node_unvalidated : ∃ final : State Nat Nat.toUInt64,
    Execution.run step {} lostUpdate = some final ∧
      Execution.Each step valuesOnly ({} : State Nat Nat.toUInt64) lostUpdate ∧
      final.log.map Commit.events =
        [[.add .value 1 10], [.get 1 ⟨false, .notFound, none⟩, .add .value 1 20]] ∧
      (latest (committedAdds (final.log.take 1)) 1).bind meaning = some 10 :=
  ⟨_, rfl, by decide +kernel, rfl, rfl⟩

end EunoDb.DBTransaction
