import Mathlib.Data.List.Basic

/-! Finite executions of a partial step function. An action that is not enabled ends a run. -/

namespace EunoDb.Execution

variable {State Act : Type}

def run (step : State → Act → Option State) : State → List Act → Option State
  | state, [] => some state
  | state, act :: rest => (step state act).bind fun next => run step next rest

def Each (step : State → Act → Option State) (good : State → Act → Prop) :
    State → List Act → Prop
  | _, [] => True
  | state, act :: rest =>
    good state act ∧ ∀ next, step state act = some next → Each step good next rest

theorem run_cons (step : State → Act → Option State) (state final : State)
    (act : Act) (rest : List Act) :
    run step state (act :: rest) = some final ↔
      ∃ next, step state act = some next ∧ run step next rest = some final := by
  simp only [run, Option.bind_eq_some_iff]

theorem run_append (step : State → Act → Option State) (state : State)
    (first second : List Act) :
    run step state (first ++ second) =
      (run step state first).bind fun middle => run step middle second := by
  induction first generalizing state with
  | nil => rfl
  | cons act rest ih =>
    simp only [List.cons_append, run]
    cases step state act with
    | none => rfl
    | some next => exact ih next

variable {step : State → Act → Option State} {good : State → Act → Prop} {inv : State → Prop}
  {acts : List Act} {state : State}

theorem run_preserves (preserved : ∀ state act next, inv state → good state act →
      step state act = some next → inv next) {final : State} (initial : inv state)
    (admitted : Each step good state acts) (finished : run step state acts = some final) :
    inv final := by
  induction acts generalizing state with
  | nil =>
    cases finished
    exact initial
  | cons act rest ih =>
    obtain ⟨next, taken, later⟩ := (run_cons step state final act rest).mp finished
    exact ih (preserved state act next initial admitted.1 taken)
      (admitted.2 next taken) later

theorem run_total (enabled : ∀ state act, inv state → good state act →
      ∃ next, step state act = some next ∧ inv next) (initial : inv state)
    (admitted : Each step good state acts) :
    ∃ final, run step state acts = some final ∧ inv final := by
  induction acts generalizing state with
  | nil => exact ⟨state, rfl, initial⟩
  | cons act rest ih =>
    obtain ⟨next, taken, after⟩ := enabled state act initial admitted.1
    obtain ⟨final, finished, last⟩ := ih after (admitted.2 next taken)
    exact ⟨final, (run_cons step state final act rest).mpr ⟨next, taken, finished⟩, last⟩

theorem run_then {leads : State → Act → State → Prop}
    (enabled : ∀ state act, inv state → good state act →
      ∃ next, step state act = some next ∧ inv next ∧ leads state act next) (initial : inv state)
    (admitted : Each step good state acts) :
    ∃ final, run step state acts = some final ∧
      ∀ act, good final act → ∃ next, step final act = some next ∧ leads final act next := by
  have kept : ∀ state act, inv state → good state act →
      ∃ next, step state act = some next ∧ inv next := by
    intro state act holds allowed
    obtain ⟨next, taken, holds', -⟩ := enabled state act holds allowed
    exact ⟨next, taken, holds'⟩
  obtain ⟨final, ran, holds⟩ := run_total kept initial admitted
  refine ⟨final, ran, fun act allowed => ?_⟩
  obtain ⟨next, taken, -, leads⟩ := enabled final act holds allowed
  exact ⟨next, taken, leads⟩

theorem each_cons {next : State} {act : Act} {rest : List Act} (taken : step state act = some next) :
    Each step good state (act :: rest) ↔ good state act ∧ Each step good next rest := by
  simp [Each, taken]

theorem each_append {middle : State} {first second : List Act}
    (reached : run step state first = some middle) :
    Each step good state (first ++ second) ↔
      Each step good state first ∧ Each step good middle second := by
  induction first generalizing state with
  | nil =>
    cases reached
    simp [Each]
  | cons act rest ih =>
    obtain ⟨next, taken, later⟩ := (run_cons ..).mp reached
    rw [List.cons_append, each_cons taken, each_cons taken, ih later, and_assoc]

instance decideEach (step : State → Act → Option State) (good : State → Act → Prop)
    [∀ state act, Decidable (good state act)] :
    (state : State) → (acts : List Act) → Decidable (Each step good state acts)
  | _, [] => isTrue trivial
  | state, act :: rest =>
    match taken : step state act with
    | none => decidable_of_iff (good state act) (by simp [Each, taken])
    | some next =>
      have := decideEach step good next rest
      decidable_of_iff (good state act ∧ Each step good next rest) (each_cons taken).symm

theorem each_mono {strong weak : State → Act → Prop}
    (implies : ∀ state act, strong state act → weak state act)
    (admitted : Each step strong state acts) : Each step weak state acts := by
  induction acts generalizing state with
  | nil => trivial
  | cons act rest ih =>
    exact ⟨implies state act admitted.1, fun next taken => ih (admitted.2 next taken)⟩

theorem each_and {first second : State → Act → Prop} (left : Each step first state acts)
    (right : Each step second state acts) :
    Each step (fun state act => first state act ∧ second state act) state acts := by
  induction acts generalizing state with
  | nil => trivial
  | cons act rest ih =>
    exact ⟨⟨left.1, right.1⟩, fun next taken => ih (left.2 next taken) (right.2 next taken)⟩

theorem each_of_forall {allowed : Act → Prop} (all : ∀ act ∈ acts, allowed act) :
    Each step (fun _ act => allowed act) state acts := by
  induction acts generalizing state with
  | nil => trivial
  | cons act rest ih =>
    exact ⟨all act List.mem_cons_self,
      fun _ _ => ih fun later mem => all later (List.mem_cons_of_mem act mem)⟩

theorem each_iff (exact_ : ∀ state act, inv state →
      ∃ next, step state act = some next ∧ (good state act ↔ inv next)) (initial : inv state) :
    Each step good state acts ↔
      ∀ front, front <+: acts → ∀ final, run step state front = some final → inv final := by
  constructor
  · rintro admitted front ⟨rest, rfl⟩ final reached
    refine run_preserves ?_ initial ((each_append reached).mp admitted).1 reached
    intro state act next holds allowed taken
    obtain ⟨other, taken', kept⟩ := exact_ state act holds
    cases taken.symm.trans taken'
    exact kept.mp allowed
  intro always
  induction acts generalizing state with
  | nil => trivial
  | cons act rest ih =>
    obtain ⟨next, taken, kept⟩ := exact_ state act initial
    have later : inv next := always [act] (by simp) next (by rw [run, taken]; rfl)
    refine ⟨kept.mpr later, fun other taken' => ?_⟩
    cases taken.symm.trans taken'
    refine ih later fun front starts final reached => ?_
    exact always (act :: front) (List.cons_prefix_cons.mpr ⟨rfl, starts⟩) final
      ((run_cons ..).mpr ⟨next, taken, reached⟩)

def checkedRun (step : State → Act → Option State) (good : State → Act → Prop)
    [∀ state act, Decidable (good state act)] : State → List Act → Option State
  | state, [] => some state
  | state, act :: rest =>
    if good state act then
      (step state act).bind fun next => checkedRun step good next rest
    else none

section Checked

variable {step : State → Act → Option State} {good : State → Act → Prop}
  [∀ state act, Decidable (good state act)]

theorem checkedRun_append {state middle : State} {first second : List Act}
    (reached : checkedRun step good state first = some middle) :
    checkedRun step good state (first ++ second) = checkedRun step good middle second := by
  induction first generalizing state with
  | nil =>
    cases reached
    rfl
  | cons act rest ih =>
    simp only [checkedRun, List.cons_append] at reached ⊢
    split at reached
    · rename_i allowed
      obtain ⟨next, taken, tail⟩ := Option.bind_eq_some_iff.mp reached
      rw [if_pos allowed, taken]
      exact ih tail
    · cases reached

theorem checkedRun_iff {state final : State} {acts : List Act} :
    checkedRun step good state acts = some final ↔
      run step state acts = some final ∧ Each step good state acts := by
  induction acts generalizing state with
  | nil => simp [checkedRun, run, Each]
  | cons act rest ih =>
    constructor
    · intro reached
      simp only [checkedRun] at reached
      split at reached
      · rename_i allowed
        obtain ⟨next, taken, tail⟩ := Option.bind_eq_some_iff.mp reached
        obtain ⟨ran, each⟩ := ih.mp tail
        exact ⟨(run_cons ..).mpr ⟨next, taken, ran⟩, (each_cons taken).mpr ⟨allowed, each⟩⟩
      · cases reached
    · rintro ⟨ran, each⟩
      obtain ⟨next, taken, tail⟩ := (run_cons ..).mp ran
      obtain ⟨allowed, after⟩ := (each_cons taken).mp each
      simp only [checkedRun, if_pos allowed, taken]
      exact ih.mpr ⟨tail, after⟩

end Checked

end EunoDb.Execution
