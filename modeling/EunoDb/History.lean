import Mathlib.Data.List.Induction
import Mathlib.Logic.Function.Basic

/-! A map that one client reads and writes at a time. -/

namespace EunoDb.History

variable {K V : Type} [DecidableEq K]

def latest (writes : List (K × V)) (key : K) : Option V :=
  writes.foldl (fun found entry => if entry.1 = key then some entry.2 else found) none

def content (base : K → V) (writes : List (K × V)) (key : K) : V :=
  (latest writes key).getD (base key)

@[simp] theorem latest_nil (key : K) : latest ([] : List (K × V)) key = none := rfl

theorem latest_concat (writes : List (K × V)) (entry : K × V) (key : K) :
    latest (writes ++ [entry]) key =
      if entry.1 = key then some entry.2 else latest writes key := by
  simp [latest, List.foldl_append]

theorem latest_append (first second : List (K × V)) (key : K) :
    latest (first ++ second) key = (latest second key).or (latest first key) := by
  induction second using List.reverseRecOn with
  | nil => simp
  | append_singleton rest entry ih =>
    rw [← List.append_assoc, latest_concat, latest_concat, ih]
    by_cases same : entry.1 = key <;> simp [same]

theorem latest_cons (entry : K × V) (rest : List (K × V)) (key : K) :
    latest (entry :: rest) key =
      (latest rest key).or (if entry.1 = key then some entry.2 else none) := by
  have split := latest_append [entry] rest key
  simpa [latest] using split

theorem latest_eq_none_iff (writes : List (K × V)) (key : K) :
    latest writes key = none ↔ ∀ entry ∈ writes, entry.1 ≠ key := by
  induction writes using List.reverseRecOn with
  | nil => simp
  | append_singleton rest entry ih =>
    rw [latest_concat]
    by_cases same : entry.1 = key
    · simp only [same, if_true, reduceCtorEq, false_iff, not_forall]
      exact ⟨entry, by simp, by simp [same]⟩
    · simp [same, ih, or_imp, forall_and]

theorem latest_map {E K' : Type} [DecidableEq K'] (entries : List E) (first : E → K)
    (second : E → K') (value : E → V) {key : K} {key' : K'}
    (same : ∀ entry ∈ entries, first entry = key ↔ second entry = key') :
    latest (entries.map fun entry => (first entry, value entry)) key =
      latest (entries.map fun entry => (second entry, value entry)) key' := by
  induction entries with
  | nil => rfl
  | cons entry rest ih =>
    have tail := ih fun other mem => same other (List.mem_cons_of_mem entry mem)
    have head := same entry List.mem_cons_self
    simp only [List.map_cons, latest_cons, tail, head]

theorem latest_mem {writes : List (K × V)} {key : K} {value : V}
    (found : latest writes key = some value) : (key, value) ∈ writes := by
  induction writes using List.reverseRecOn with
  | nil => simp at found
  | append_singleton rest entry ih =>
    rw [latest_concat] at found
    split at found
    · rename_i same
      cases found
      simp [← same]
    · exact List.mem_append_left _ (ih found)

theorem latest_eq_getLast? (writes : List (K × V)) (key : K) :
    latest writes key = ((writes.filter fun entry => entry.1 = key).getLast?).map Prod.snd := by
  induction writes using List.reverseRecOn with
  | nil => rfl
  | append_singleton rest entry ih =>
    rw [latest_concat, List.filter_append]
    by_cases same : entry.1 = key
    · simp [same]
    · simp [same, ih]

theorem content_concat (base : K → V) (writes : List (K × V)) (key : K) (value : V) :
    content base (writes ++ [(key, value)]) =
      Function.update (content base writes) key value := by
  funext other
  unfold content
  rw [latest_concat]
  by_cases same : key = other
  · subst other
    simp
  · simp [same, Ne.symm same]

/-! ### Sequential execution -/

inductive Access (K V R : Type) where
  | read (key : K) (seen : R)
  | write (key : K) (value : V)

variable {R : Type} [DecidableEq R]

def written : List (Access K V R) → List (K × V) :=
  List.filterMap fun
    | .read _ _ => none
    | .write key value => some (key, value)

def access (observe : V → R) (store : K → V) : Access K V R → Option (K → V)
  | .read key seen => if seen = observe (store key) then some store else none
  | .write key value => some (Function.update store key value)

def replay (observe : V → R) (store : K → V) (accesses : List (Access K V R)) :
    Option (K → V) :=
  accesses.foldlM (access observe) store

variable {observe : V → R} {store : K → V}

omit [DecidableEq K] [DecidableEq R] in
theorem written_append (first second : List (Access K V R)) :
    written (first ++ second) = written first ++ written second :=
  List.filterMap_append

theorem replay_append (first second : List (Access K V R)) :
    replay observe store (first ++ second) =
      (replay observe store first).bind fun middle => replay observe middle second := by
  simp only [replay, List.foldlM_append]
  rfl

theorem replay_concat {accesses : List (Access K V R)} {middle : K → V}
    (before : replay observe store accesses = some middle) (last : Access K V R) :
    replay observe store (accesses ++ [last]) = access observe middle last := by
  rw [replay_append, before]
  simp [replay]

theorem replay_content {accesses : List (Access K V R)} {final : K → V}
    (done : replay observe store accesses = some final) :
    final = content store (written accesses) := by
  induction accesses using List.reverseRecOn generalizing final with
  | nil =>
    cases done
    rfl
  | append_singleton rest last ih =>
    rw [replay_append] at done
    obtain ⟨middle, before, finish⟩ := Option.bind_eq_some_iff.mp done
    have kept := ih before
    cases last with
    | read key seen =>
      simp only [replay, List.foldlM_cons, List.foldlM_nil, access] at finish
      split at finish
      · cases finish
        simpa [written_append, written] using kept
      · cases finish
    | write key value =>
      cases finish
      rw [written_append, kept]
      exact (content_concat store (written rest) key value).symm

end EunoDb.History
