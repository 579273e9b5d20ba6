import EunoDb.History
import EunoDb.VersionNumbers

/-! What the client of `DBTransaction` sees. -/

namespace EunoDb.DBTransaction

open History

variable {Key Val : Type}

def Found.answer (found : Found Val) : Option Val :=
  match found.status with
  | .ok => found.value
  | .notFound => none

def meaning : ValueType × Val → Option Val
  | (.value, val) => some val
  | (.deletion, _) => none

def adds (events : List (Event Key Val)) : List (Key × ValueType × Val) :=
  events.filterMap fun
    | .get _ _ => none
    | .add type key val => some (key, type, val)

def committedAdds (log : List (Commit Key Val)) : List (Key × ValueType × Val) :=
  log.flatMap fun commit => adds commit.events

def WSEntry.kv (entry : WSEntry Key Val) : Key × ValueType × Val :=
  (entry.key, entry.type, entry.val)

theorem adds_append (first second : List (Event Key Val)) :
    adds (first ++ second) = adds first ++ adds second :=
  List.filterMap_append

theorem adds_get (events : List (Event Key Val)) (key : Key) (found : Found Val) :
    adds (events ++ [.get key found]) = adds events := by
  simp [adds]

variable [LinearOrder Key] {hashfunc : Key → UInt64}

def Pc.inTx : Pc Key → Bool
  | .body | .getNode _ | .getSeq _ _ | .getStore _ _ _ => true
  | .idle | .commit _ => false

structure Recorded (s : State Val hashfunc) : Prop where
  log : ∀ commit ∈ s.log, commit.writes.map WSEntry.kv = adds commit.events
  writes : ∀ t, (s.threads t).pc.inTx = true →
    (s.threads t).writeset.map WSEntry.kv = adds (s.threads t).events

variable {s next : State Val hashfunc} {t : ThreadId}

theorem Recorded.own (recorded : Recorded s) {th : Thread Key Val}
    (threads : next.threads = Function.update s.threads t th) (log : ∀ commit ∈ next.log,
      commit ∈ s.log ∨ commit.writes.map WSEntry.kv = adds commit.events)
    (same : th.pc.inTx = true → th.writeset.map WSEntry.kv = adds th.events) : Recorded next := by
  constructor
  · exact fun commit mem => (log commit mem).elim (recorded.log commit) id
  intro u inside
  rw [threads] at inside ⊢
  by_cases own : u = t
  · subst own
    rw [Function.update_self] at inside ⊢
    exact same inside
  · rw [Function.update_of_ne own] at inside ⊢
    exact recorded.writes u inside

theorem Recorded.step {act : Act Key Val} (recorded : Recorded s) (taken : Step s t act next) :
    Recorded next := by
  have now : (s.threads t).pc.inTx = true →
      (s.threads t).writeset.map WSEntry.kv = adds (s.threads t).events := recorded.writes t
  have old : ∀ commit ∈ s.log,
      commit ∈ s.log ∨ commit.writes.map WSEntry.kv = adds commit.events := fun _ => Or.inl
  cases taken with
  | begin pc => exact recorded.own rfl old fun _ => rfl
  | own pc found | absent pc none_ | empty pc zero | found pc version =>
    exact recorded.own rfl old fun _ => (now (by rw [pc]; rfl)).trans (adds_get ..).symm
  | look pc unwritten | node pc found | seq pc some_ =>
    exact recorded.own rfl old fun _ => now (by rw [pc]; rfl)
  | add pc =>
    refine recorded.own rfl old fun _ => ?_
    rw [List.map_append, now (by rw [pc]; rfl), adds_append]
    rfl
  | commit pc valid =>
    refine recorded.own rfl ?_ fun inside => by cases inside
    intro commit mem
    rcases List.mem_append.mp mem with before | new
    · exact Or.inl before
    · rw [List.mem_singleton.mp new]
      exact Or.inr ((updateGlobalSeqs_entries ..).1.trans (now (by rw [pc]; rfl)))
  | abort pc invalid | put pc more | done pc last =>
    exact recorded.own rfl old fun inside => by cases inside
  | retry pc none_ => exact recorded

theorem created_recorded : Recorded ({} : State Val hashfunc) where
  log := fun _ mem => by cases mem
  writes := fun _ inside => by cases inside

/-! ### The latest write -/

theorem Recorded.committedAdds (recorded : Recorded s) :
    committedAdds s.log = (assigned s).map WSEntry.kv := by
  unfold DBTransaction.committedAdds assigned
  rw [List.map_flatMap]
  exact List.flatMap_congr fun commit mem => (recorded.log commit mem).symm

theorem latest_of_zero (consistent : Consistent s) (recorded : Recorded s) {k : Key}
    (zero : s.latestseq.seqOf k = 0) : latest (committedAdds s.log) k = none := by
  rw [recorded.committedAdds, latest_eq_none_iff]
  intro write mem same
  obtain ⟨entry, inside, rfl⟩ := List.mem_map.mp mem
  have bound := consistent.bound inside
  rw [show entry.key = k from same] at bound
  omega

theorem latest_of_wseq (consistent : Consistent s) (recorded : Recorded s) {entry : WSEntry Key Val}
    (mem : entry ∈ assigned s) (newest : entry.wseq = s.latestseq.seqOf entry.key) :
    latest (committedAdds s.log) entry.key = some (entry.type, entry.val) := by
  have own : ((assigned s).map WSEntry.kv).filter (fun write => write.1 = entry.key) =
      ((assigned s).filter fun other => other.key = entry.key).map WSEntry.kv := by
    rw [List.filter_map]
    rfl
  have numbered := consistent.numbered entry.key
  have inside : entry ∈ (assigned s).filter fun other => other.key = entry.key :=
    List.mem_filter.mpr ⟨mem, by simp⟩
  obtain ⟨last, isLast⟩ : ∃ last,
      ((assigned s).filter fun other => other.key = entry.key).getLast? = some last :=
    ⟨_, List.getLast?_eq_some_getLast (List.ne_nil_of_mem inside)⟩
  -- the last of the key's writes has the last of its numbers
  have number : last.wseq = s.latestseq.seqOf entry.key := by
    have ends := congrArg List.getLast? numbered
    rw [numbers, List.getLast?_map, isLast, List.getLast?_range'] at ends
    have positive := (consistent.bound mem).1
    rw [← newest] at ends ⊢
    rw [if_neg (by omega)] at ends
    have same := Option.some.inj ends
    omega
  obtain ⟨there, same⟩ := List.mem_filter.mp (List.mem_of_getLast? isLast)
  have it : last = entry :=
    consistent.unique there mem (of_decide_eq_true same) (number.trans newest.symm)
  rw [recorded.committedAdds, latest_eq_getLast?, own, List.getLast?_map, isLast, it]
  rfl

end EunoDb.DBTransaction
