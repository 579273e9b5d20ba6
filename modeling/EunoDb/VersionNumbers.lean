import EunoDb.DBTransaction
import Mathlib.Data.List.Nodup

/-! The versions in the store are the numbered writes `GlobalCommit` has reached. -/

namespace EunoDb.DBTransaction

open Function Execution

variable {Key Val : Type} [LinearOrder Key] {hashfunc : Key → UInt64}

def WSEntry.version (entry : WSEntry Key Val) : TableKey Key Val :=
  ⟨entry.key, entry.val, entry.wseq⟩

def assigned (s : State Val hashfunc) : List (WSEntry Key Val) := s.log.flatMap Commit.writes

def numbers (entries : List (WSEntry Key Val)) (k : Key) : List Nat :=
  (entries.filter fun entry => entry.key = k).map WSEntry.wseq

def Thread.pending (th : Thread Key Val) : List (WSEntry Key Val) :=
  match th.pc with
  | .commit i => th.writeset.drop i
  | .idle | .body | .getNode _ | .getSeq _ _ | .getStore _ _ _ => []

def Points (ht : HashTable hashfunc) (entry : WSEntry Key Val) : Prop :=
  ∃ node, ht.getNode entry.key = some node ∧ node.id = entry.seqptr

def Reads (ht : HashTable hashfunc) : Pc Key → Prop
  | .getSeq key node => ht.getNode key = some node
  | .getStore key node seq => ht.getNode key = some node ∧ 1 ≤ seq ∧ seq ≤ ht.seq node.id
  | .idle | .body | .getNode _ | .commit _ => True

structure Consistent (s : State Val hashfunc) : Prop where
  points : ∀ t, ∀ entry ∈ (s.threads t).writeset, Points s.latestseq entry
  numbered : ∀ k, numbers (assigned s) k = List.range' 1 (s.latestseq.seqOf k)
  stored : ∀ x ∈ s.txdb.table, ∃ entry ∈ assigned s, entry.version = x
  pending : ∀ t, ∀ entry ∈ (s.threads t).pending, entry ∈ assigned s
  covered : ∀ entry ∈ assigned s,
    entry.version ∈ s.txdb.table ∨ ∃ t, entry ∈ (s.threads t).pending
  reads : ∀ t, Reads s.latestseq (s.threads t).pc

/-! ### Assigning numbers -/

variable {ht : HashTable hashfunc} {entry : WSEntry Key Val} {s : State Val hashfunc} {t : ThreadId}

theorem seqOf_update (points : Points ht entry) (wseq : Nat) (k : Key) :
    (ht.setSeq (update ht.seq entry.seqptr wseq)).seqOf k =
      if entry.key = k then wseq else ht.seqOf k := by
  obtain ⟨node, found, address⟩ := points
  split
  · rename_i same
    subst same
    rw [HashTable.seqOf_setSeq found, ← address]
    exact update_self ..
  rename_i different
  cases there : ht.getNode k with
  | none =>
    unfold HashTable.seqOf
    rw [HashTable.setSeq_getNode, there]
  | some other =>
    rw [HashTable.seqOf_setSeq there, HashTable.seqOf_of_getNode there]
    refine update_of_ne ?_ ..
    intro same
    exact different (HashTable.getNode_inj found there (address.trans same.symm))

theorem updateGlobalSeqs_numbers {entries : List (WSEntry Key Val)}
    (points : ∀ entry ∈ entries, Points ht entry) (k : Key) :
    numbers (updateGlobalSeqs ht.seq entries).2 k =
        List.range' (ht.seqOf k + 1) (entries.filter fun entry => entry.key = k).length ∧
      (ht.setSeq (updateGlobalSeqs ht.seq entries).1).seqOf k =
        ht.seqOf k + (entries.filter fun entry => entry.key = k).length := by
  induction entries generalizing ht with
  | nil => exact ⟨rfl, rfl⟩
  | cons entry rest ih =>
    have first := points entry List.mem_cons_self
    obtain ⟨node, found, address⟩ := first
    -- the rest is numbered in the table that the first write leaves
    have later : ∀ other ∈ rest, Points (ht.setSeq
        (update ht.seq entry.seqptr (ht.seq entry.seqptr + 1))) other :=
      fun other mem => points other (List.mem_cons_of_mem entry mem)
    have tail := ih later
    rw [seqOf_update ⟨node, found, address⟩] at tail
    obtain ⟨numbered, counted⟩ := tail
    by_cases same : entry.key = k
    · subst same
      have now : ht.seq entry.seqptr = ht.seqOf entry.key := by
        rw [HashTable.seqOf_of_getNode found, address]
      simp only [if_true] at numbered counted
      rw [List.filter_cons_of_pos (by simp), List.length_cons]
      constructor
      · simp only [numbers, updateGlobalSeqs]
        rw [List.filter_cons_of_pos (by simp), List.map_cons, List.range'_succ, now]
        rw [now] at numbered
        exact congrArg _ numbered
      · rw [now] at counted
        simp only [updateGlobalSeqs, now]
        refine Eq.trans counted ?_
        omega
    · simp only [same, if_false] at numbered counted
      rw [List.filter_cons_of_neg (by simp [same])]
      refine ⟨?_, counted⟩
      simp only [numbers, updateGlobalSeqs]
      rw [List.filter_cons_of_neg (by simp [same])]
      exact numbered

omit [LinearOrder Key] in
theorem updateGlobalSeqs_entries (seq : HashTable.NodeId → Nat) (entries : List (WSEntry Key Val)) :
    (updateGlobalSeqs seq entries).2.map (fun entry => (entry.key, entry.type, entry.val)) =
        entries.map (fun entry => (entry.key, entry.type, entry.val)) ∧
      ∀ entry ∈ (updateGlobalSeqs seq entries).2,
        ∃ old ∈ entries, old.key = entry.key ∧ old.seqptr = entry.seqptr := by
  induction entries generalizing seq with
  | nil => exact ⟨rfl, fun _ mem => by cases mem⟩
  | cons first rest ih =>
    obtain ⟨same, old⟩ := ih (update seq first.seqptr (seq first.seqptr + 1))
    simp only [updateGlobalSeqs, List.map_cons]
    refine ⟨congrArg _ same, ?_⟩
    intro entry mem
    rcases List.mem_cons.mp mem with rfl | inside
    · exact ⟨first, List.mem_cons_self, rfl, rfl⟩
    · obtain ⟨before, there, kept⟩ := old entry inside
      exact ⟨before, List.mem_cons_of_mem first there, kept⟩

theorem numbers_append (first second : List (WSEntry Key Val)) (k : Key) :
    numbers (first ++ second) k = numbers first k ++ numbers second k := by
  simp [numbers]

/-! ### Steps -/

theorem Consistent.unique (consistent : Consistent s) {a b : WSEntry Key Val}
    (first : a ∈ assigned s) (second : b ∈ assigned s) (key : a.key = b.key)
    (wseq : a.wseq = b.wseq) : a = b := by
  have nodup : (numbers (assigned s) b.key).Nodup := by
    rw [consistent.numbered]
    exact List.nodup_range'
  exact List.inj_on_of_nodup_map nodup (List.mem_filter.mpr ⟨first, by simp [key]⟩)
    (List.mem_filter.mpr ⟨second, by simp⟩) wseq

theorem Consistent.bound (consistent : Consistent s) (mem : entry ∈ assigned s) :
    1 ≤ entry.wseq ∧ entry.wseq ≤ s.latestseq.seqOf entry.key := by
  have number : entry.wseq ∈ numbers (assigned s) entry.key :=
    List.mem_map_of_mem (List.mem_filter.mpr ⟨mem, by simp⟩)
  rw [consistent.numbered, List.mem_range'_1] at number
  omega

variable {after : HashTable hashfunc}

theorem Reads.mono {pc : Pc Key} (reads : Reads ht pc) (nodes : ∀ k node, ht.getNode k = some node →
      after.getNode k = some node ∧ ht.seq node.id ≤ after.seq node.id) : Reads after pc := by
  cases pc with
  | getSeq key node => exact (nodes key node reads).1
  | getStore key node seq =>
    obtain ⟨found, positive, bound⟩ := reads
    exact ⟨(nodes key node found).1, positive, Nat.le_trans bound (nodes key node found).2⟩
  | idle | body | getNode _ | commit _ => trivial

theorem Consistent.own (consistent : Consistent s) {th : Thread Key Val}
    (writes : ∀ entry ∈ th.writeset, entry ∈ (s.threads t).writeset)
    (pending : th.pending = (s.threads t).pending) (reads : Reads s.latestseq th.pc) :
    Consistent (s.setThread t th) := by
  have same : ∀ u, ((s.setThread t th).threads u).pending = (s.threads u).pending := by
    intro u
    by_cases own : u = t
    · subst own
      simpa [State.setThread] using pending
    · simp [State.setThread, own]
  constructor
  · intro u entry mem
    by_cases own : u = t
    · subst own
      simp only [State.setThread, update_self] at mem
      exact consistent.points u entry (writes entry mem)
    · simp only [State.setThread, update_of_ne own] at mem
      exact consistent.points u entry mem
  · exact consistent.numbered
  · exact consistent.stored
  · intro u entry mem
    rw [same u] at mem
    exact consistent.pending u entry mem
  · intro entry mem
    refine (consistent.covered entry mem).imp_right ?_
    rintro ⟨u, waits⟩
    exact ⟨u, by rw [same u]; exact waits⟩
  · intro u
    by_cases own : u = t
    · subst own
      simpa [State.setThread] using reads
    · simpa [State.setThread, own] using consistent.reads u

structure Grows (ht after : HashTable hashfunc) : Prop where
  nodes : ∀ k node, ht.getNode k = some node →
    after.getNode k = some node ∧ ht.seq node.id ≤ after.seq node.id

theorem Points.mono (points : Points ht entry) (grows : Grows ht after) : Points after entry := by
  obtain ⟨node, found, address⟩ := points
  exact ⟨node, (grows.nodes _ _ found).1, address⟩

theorem Consistent.add (consistent : Consistent s) {type : ValueType} {key : Key} {val : Val}
    (pc : (s.threads t).pc = .body) : Consistent (add s t type key val) := by
  have grows : Grows s.latestseq (s.latestseq.getNodeWithInsert key).1 :=
    ⟨fun k node found =>
      ⟨(HashTable.getNodeWithInsert_old found).1,
        Nat.le_of_eq (HashTable.getNodeWithInsert_old found).2.symm⟩⟩
  have same : ∀ u, ((DBTransaction.add s t type key val).threads u).pending =
      (s.threads u).pending ∧ ((DBTransaction.add s t type key val).threads u).pc =
        (s.threads u).pc := by
    intro u
    by_cases own : u = t
    · subst own
      simp [DBTransaction.add, State.setThread, Thread.pending, pc]
    · simp [DBTransaction.add, State.setThread, own]
  constructor
  · intro u entry mem
    by_cases own : u = t
    · subst own
      simp only [DBTransaction.add, State.setThread, update_self] at mem
      rcases List.mem_append.mp mem with old | new
      · exact (consistent.points u entry old).mono grows
      · rw [List.mem_singleton.mp new]
        exact ⟨_, HashTable.getNodeWithInsert_getNode s.latestseq key, rfl⟩
    · simp only [DBTransaction.add, State.setThread, update_of_ne own] at mem
      exact (consistent.points u entry mem).mono grows
  · intro k
    show numbers (assigned s) k = List.range' 1 ((s.latestseq.getNodeWithInsert key).1.seqOf k)
    rw [HashTable.seqOf_getNodeWithInsert]
    exact consistent.numbered k
  · exact consistent.stored
  · intro u entry mem
    rw [(same u).1] at mem
    exact consistent.pending u entry mem
  · intro entry mem
    refine (consistent.covered entry mem).imp_right ?_
    rintro ⟨u, waits⟩
    exact ⟨u, by rw [(same u).1]; exact waits⟩
  · intro u
    rw [(same u).2]
    exact (consistent.reads u).mono grows.nodes

theorem assigned_validated (s : State Val hashfunc) (t : ThreadId) :
    assigned (validated s t) =
      assigned s ++ (updateGlobalSeqs s.latestseq.seq (s.threads t).writeset).2 := by
  simp [assigned, validated]

section

variable (consistent : Consistent s)

include consistent

theorem grows_validated (t : ThreadId) : Grows s.latestseq (validated s t).latestseq := by
  constructor
  intro k node found
  refine ⟨found, ?_⟩
  have counted := (updateGlobalSeqs_numbers (consistent.points t) k).2
  rw [HashTable.seqOf_setSeq found, HashTable.seqOf_of_getNode found] at counted
  exact Nat.le.intro counted.symm

theorem Consistent.commit (pc : (s.threads t).pc = .body) : Consistent (validated s t) := by
  have grows := grows_validated consistent t
  have own : (validated s t).threads t = { s.threads t with
      pc := .commit 0
      writeset := (updateGlobalSeqs s.latestseq.seq (s.threads t).writeset).2 } :=
    update_self ..
  have others : ∀ u, u ≠ t → (validated s t).threads u = s.threads u :=
    fun u other => update_of_ne other ..
  have waits : ((validated s t).threads t).pending =
      (updateGlobalSeqs s.latestseq.seq (s.threads t).writeset).2 := by
    rw [own]
    rfl
  constructor
  · intro u entry mem
    by_cases same : u = t
    · subst same
      rw [own] at mem
      obtain ⟨old, there, key, address⟩ :=
        (updateGlobalSeqs_entries s.latestseq.seq (s.threads u).writeset).2 entry mem
      have points := (consistent.points u old there).mono grows
      unfold Points at points ⊢
      rw [key, address] at points
      exact points
    · rw [others u same] at mem
      exact (consistent.points u entry mem).mono grows
  · intro k
    obtain ⟨numbered, counted⟩ := updateGlobalSeqs_numbers (consistent.points t) k
    rw [assigned_validated, numbers_append, consistent.numbered k, numbered]
    have joined := List.range'_append_1 (s := 1) (m := s.latestseq.seqOf k)
      (n := ((s.threads t).writeset.filter fun entry => entry.key = k).length)
    rw [Nat.add_comm 1] at joined
    rw [joined, ← counted]
    rfl
  · intro x mem
    obtain ⟨entry, inside, version⟩ := consistent.stored x mem
    refine ⟨entry, ?_, version⟩
    rw [assigned_validated]
    exact List.mem_append_left _ inside
  · intro u entry mem
    rw [assigned_validated]
    by_cases same : u = t
    · subst same
      rw [waits] at mem
      exact List.mem_append_right _ mem
    · rw [others u same] at mem
      exact List.mem_append_left _ (consistent.pending u entry mem)
  · intro entry mem
    rw [assigned_validated] at mem
    rcases List.mem_append.mp mem with old | new
    · refine (consistent.covered entry old).imp_right ?_
      rintro ⟨u, there⟩
      have other : u ≠ t := by
        rintro rfl
        simp [Thread.pending, pc] at there
      exact ⟨u, by rw [others u other]; exact there⟩
    · exact Or.inr ⟨t, by rw [waits]; exact new⟩
  · intro u
    by_cases same : u = t
    · subst same
      rw [own]
      trivial
    · rw [others u same]
      exact (consistent.reads u).mono grows.nodes

theorem Consistent.put {i : Nat} (pc : (s.threads t).pc = .commit i)
    (more : (s.threads t).writeset[i]? = some entry) :
    Consistent { s.setThread t { s.threads t with pc := .commit (i + 1) } with
      txdb := s.txdb.put entry.key entry.val entry.wseq } := by
  obtain ⟨inRange, here⟩ := List.getElem?_eq_some_iff.mp more
  have front : (s.threads t).pending = entry :: (s.threads t).writeset.drop (i + 1) := by
    simp only [Thread.pending, pc]
    rw [List.drop_eq_getElem_cons inRange, here]
  have mine : entry ∈ assigned s := consistent.pending t entry (by rw [front]; exact List.mem_cons_self)
  -- a version with the same number is this one
  have fresh : ∀ v, ⟨entry.key, v, entry.wseq⟩ ∈ s.txdb.table → v = entry.val := by
    intro v mem
    obtain ⟨other, inside, version⟩ := consistent.stored _ mem
    simp only [WSEntry.version, TableKey.mk.injEq] at version
    obtain ⟨key, val, wseq⟩ := version
    rw [← val, consistent.unique inside mine key wseq]
  have table := TXMemStore.mem_put fresh
  have own : (update s.threads t { s.threads t with pc := .commit (i + 1) }) t =
      { s.threads t with pc := .commit (i + 1) } := update_self ..
  have others : ∀ u, u ≠ t →
      (update s.threads t { s.threads t with pc := .commit (i + 1) }) u = s.threads u :=
    fun u other => update_of_ne other ..
  have waits : Thread.pending { s.threads t with pc := .commit (i + 1) } =
      (s.threads t).writeset.drop (i + 1) := rfl
  constructor
  · intro u other mem
    by_cases same : u = t
    · subst same
      simp only [State.setThread, own] at mem
      exact consistent.points u other mem
    · simp only [State.setThread, others u same] at mem
      exact consistent.points u other mem
  · exact consistent.numbered
  · intro x mem
    rcases (table x).mp mem with rfl | old
    · exact ⟨entry, mine, rfl⟩
    · exact consistent.stored x old
  · intro u other mem
    by_cases same : u = t
    · subst same
      simp only [State.setThread, own, waits] at mem
      refine consistent.pending u other ?_
      rw [front]
      exact List.mem_cons_of_mem entry mem
    · simp only [State.setThread, others u same] at mem
      exact consistent.pending u other mem
  · intro other mem
    rcases consistent.covered other mem with stored | ⟨u, there⟩
    · exact Or.inl ((table _).mpr (Or.inr stored))
    by_cases same : u = t
    · subst same
      rw [front] at there
      rcases List.mem_cons.mp there with rfl | later
      · exact Or.inl ((table _).mpr (Or.inl rfl))
      · refine Or.inr ⟨u, ?_⟩
        simpa only [State.setThread, own, waits] using later
    · refine Or.inr ⟨u, ?_⟩
      simpa only [State.setThread, others u same] using there
  · intro u
    by_cases same : u = t
    · subst same
      simp only [State.setThread, own]
      trivial
    · simpa only [State.setThread, others u same] using consistent.reads u

theorem Consistent.step {next : State Val hashfunc} {act : Act Key Val}
    (taken : Step s t act next) : Consistent next := by
  cases taken with
  | begin pc =>
    refine consistent.own (fun _ mem => by cases mem) ?_ trivial
    rcases pc with pc | pc <;> simp [Thread.pending, pc]
  | own pc found | absent pc none_ | empty pc zero | found pc version =>
    exact consistent.own (fun _ => id) (by simp [Thread.pending, finishGet, pc]) trivial
  | look pc unwritten | abort pc invalid =>
    exact consistent.own (fun _ => id) (by simp [Thread.pending, pc]) trivial
  | add pc => exact consistent.add pc
  | commit pc valid => exact consistent.commit pc
  | node pc found => exact consistent.own (fun _ => id) (by simp [Thread.pending, pc]) found
  | seq pc some_ =>
    have reads := consistent.reads t
    rw [pc] at reads
    exact consistent.own (fun _ => id) (by simp [Thread.pending, pc])
      ⟨reads, Nat.pos_of_ne_zero some_, Nat.le_refl _⟩
  | retry pc none_ => exact consistent
  | put pc more => exact consistent.put pc more
  | done pc last =>
    refine consistent.own (fun _ mem => by cases mem) ?_ trivial
    simp only [Thread.pending, pc]
    exact (List.drop_eq_nil_of_le (List.getElem?_eq_none_iff.mp last)).symm

end

theorem created_consistent : Consistent ({} : State Val hashfunc) where
  points := fun _ _ mem => by cases mem
  numbered := fun _ => rfl
  stored := fun _ mem => by cases mem
  pending := fun _ _ mem => by cases mem
  covered := fun _ mem => by cases mem
  reads := fun _ => trivial

theorem run_consistent {acts : List (ThreadId × Act Key Val)} {final : State Val hashfunc}
    (reached : run step {} acts = some final) : Consistent final := by
  have kept : ∀ (s : State Val hashfunc) act next, Consistent s → True →
      step s act = some next → Consistent next :=
    fun s act next consistent _ taken => consistent.step (step_cases taken)
  exact run_preserves kept created_consistent
    (each_of_forall fun _ _ => trivial) reached

/-! ### Between commits -/

def Settled (s : State Val hashfunc) : Prop := ∀ t i, (s.threads t).pc ≠ .commit i

theorem Settled.pending (settled : Settled s) (t : ThreadId) : (s.threads t).pending = [] := by
  unfold Thread.pending
  cases pc : (s.threads t).pc with
  | commit i => exact absurd pc (settled t i)
  | idle | body | getNode _ | getSeq _ _ | getStore _ _ _ => rfl

theorem Consistent.mem_table (consistent : Consistent s) (settled : Settled s) {k : Key} {v : Val}
    {n : Nat} : ⟨k, v, n⟩ ∈ s.txdb.table ↔
      ∃ entry ∈ assigned s, entry.key = k ∧ entry.wseq = n ∧ entry.val = v := by
  constructor
  · intro mem
    obtain ⟨entry, inside, version⟩ := consistent.stored _ mem
    cases version
    exact ⟨entry, inside, rfl, rfl, rfl⟩
  · rintro ⟨entry, inside, rfl, rfl, rfl⟩
    rcases consistent.covered entry inside with stored | ⟨t, waits⟩
    · exact stored
    · rw [settled.pending t] at waits
      cases waits

theorem Consistent.versions (consistent : Consistent s) (settled : Settled s) (k : Key) (n : Nat) :
    (∃ v, ⟨k, v, n⟩ ∈ s.txdb.table) ↔ 1 ≤ n ∧ n ≤ s.latestseq.seqOf k := by
  constructor
  · rintro ⟨v, mem⟩
    obtain ⟨entry, inside, rfl, rfl, rfl⟩ := (consistent.mem_table settled).mp mem
    exact consistent.bound inside
  intro bound
  have number : n ∈ numbers (assigned s) k := by
    rw [consistent.numbered, List.mem_range'_1]
    omega
  obtain ⟨entry, inside, rfl⟩ := List.mem_map.mp number
  obtain ⟨inside, same⟩ := List.mem_filter.mp inside
  exact ⟨entry.val, (consistent.mem_table settled).mpr
    ⟨entry, inside, of_decide_eq_true same, rfl, rfl⟩⟩

/-- In every state the versions of a key have distinct numbers, from 1 to the number
of its node. Between commits they are all of these, each with the value of the write
that got the number; `GetMaxSeq` is the node's number and a waiting `Get` is done at
its next try. -/
theorem versions_match (acts : List (ThreadId × Act Key Val)) (final : State Val hashfunc)
    (reached : Execution.run step {} acts = some final) :
    (∀ k, ((final.txdb.table.filter fun x => x.k = k).map TableKey.seq).Nodup) ∧
      (∀ x ∈ final.txdb.table, ∃ node, final.latestseq.getNode x.k = some node ∧
        1 ≤ x.seq ∧ x.seq ≤ final.latestseq.seq node.id) ∧
      (Settled final → ∀ k node, final.latestseq.getNode k = some node →
        (∀ n, (∃ v, ⟨k, v, n⟩ ∈ final.txdb.table) ↔ 1 ≤ n ∧ n ≤ final.latestseq.seq node.id) ∧
        (∀ v n, ⟨k, v, n⟩ ∈ final.txdb.table ↔
          ∃ entry ∈ assigned final, entry.key = k ∧ entry.wseq = n ∧ entry.val = v) ∧
        (numbers (assigned final) k).Nodup ∧
        final.txdb.getMaxSeq k =
          (if final.latestseq.seq node.id = 0 then none else some (final.latestseq.seq node.id)) ∧
        (0 < final.latestseq.seq node.id →
          ∃ v, final.txdb.get k (final.latestseq.seq node.id) = some v)) ∧
      (Settled final → ∀ t key node seq, (final.threads t).pc = .getStore key node seq →
        ∃ next, step final (t, .tick) = some next ∧ (next.threads t).pc = .body) := by
  have consistent := run_consistent reached
  refine ⟨final.txdb.seqs_nodup, ?_, ?_, ?_⟩
  · intro x member
    obtain ⟨entry, inside, rfl⟩ := consistent.stored x member
    obtain ⟨least, most⟩ := consistent.bound inside
    cases found : final.latestseq.getNode entry.key with
    | none =>
      simp only [HashTable.seqOf, found] at most
      omega
    | some node =>
      rw [HashTable.seqOf_of_getNode found] at most
      exact ⟨node, found, least, most⟩
  · intro settled k node found
    have seq := HashTable.seqOf_of_getNode found
    have versions := consistent.versions settled k
    rw [seq] at versions
    refine ⟨versions, fun v n => consistent.mem_table settled, ?_, ?_, ?_⟩
    · rw [consistent.numbered]
      exact List.nodup_range'
    · split
      · rename_i zero
        refine TXMemStore.getMaxSeq_eq_none ?_
        intro v n member
        have bound := (versions n).mp ⟨v, member⟩
        omega
      · rename_i some_
        obtain ⟨v, member⟩ := (versions _).mpr ⟨Nat.pos_of_ne_zero some_, Nat.le_refl _⟩
        exact TXMemStore.getMaxSeq_eq member fun v' n other => ((versions n).mp ⟨v', other⟩).2
    · intro positive
      obtain ⟨v, member⟩ := (versions _).mpr ⟨positive, Nat.le_refl _⟩
      exact ⟨v, TXMemStore.get_eq_some.mpr member⟩
  · intro settled t key node seq pc
    have reads := consistent.reads t
    rw [pc] at reads
    obtain ⟨found, positive, bound⟩ := reads
    rw [← HashTable.seqOf_of_getNode found] at bound
    obtain ⟨v, member⟩ := (consistent.versions settled key seq).mpr ⟨positive, bound⟩
    have version := TXMemStore.get_eq_some.mpr member
    refine ⟨_, by simp only [step, tick, pc, version]; rfl, ?_⟩
    simp [State.setThread, finishGet]

def threeWrites : List (ThreadId × Act Nat Nat) :=
  [(0, .call .begin), (0, .call (.add .value 1 10)), (0, .call (.add .value 1 11)),
    (0, .call .finish), (0, .tick), (0, .tick), (0, .tick), (0, .call .begin),
    (0, .call (.add .deletion 1 12)), (0, .call .finish), (0, .tick), (0, .tick)]

theorem versions_match_threeWrites : ∃ final : State Nat Nat.toUInt64,
    Execution.run step {} threeWrites = some final ∧ Settled final ∧
      final.latestseq.getNode 1 = some ⟨0, 1, 1⟩ ∧ final.txdb.getMaxSeq 1 = some 3 ∧
      ∃ v, final.txdb.get 1 3 = some v := by
  have seen : (Execution.run step ({} : State Nat Nat.toUInt64) threeWrites).map (fun final =>
      ((final.threads 0).pc, final.latestseq.getNode 1, final.latestseq.seq 0)) =
      some (.idle, some ⟨0, 1, 1⟩, 3) := by decide +kernel
  obtain ⟨final, reached, shape⟩ := Option.map_eq_some_iff.mp seen
  simp only [Prod.mk.injEq] at shape
  obtain ⟨pc, node, seq⟩ := shape
  have settled : Settled final := by
    intro t i
    by_cases acting : t = 0
    · rw [acting, pc]
      simp
    · have alone : ∀ act ∈ threeWrites, act.1 = 0 := by decide
      rw [run_other (fun act member => alone act member ▸ Ne.symm acting) reached]
      simp
  have matched := (versions_match threeWrites final reached).2.2.1 settled 1 _ node
  rw [seq] at matched
  exact ⟨final, reached, settled, node, matched.2.2.2.1, matched.2.2.2.2 (by decide)⟩

end EunoDb.DBTransaction
