import Mathlib.Data.Nat.Bitwise
import Mathlib.Logic.Function.Basic
import EunoDb.Execution

/-! Grace periods of `db/rcu.cc`. `BeginTX` is two stores; `WaitForGracePeriod` copies the
counters one by one and polls. `begun`, `ended`, `marked` and `copied` are history. -/

namespace EunoDb.Rcu

open Execution Function

def endMask : UInt64 := (1 : UInt64) <<< 63

def begMask : UInt64 := ~~~((1 : UInt64) <<< 63)

inductive Phase where
  | idle
  | beginning
  | running
  deriving DecidableEq

structure Thread where
  counter : UInt64 := endMask
  phase : Phase := .idle
  begun : Nat := 0
  ended : Nat := 0

inductive Wait where
  | away
  | copying (index : Nat) (cur : Nat → UInt64)
  | polling (index : Nat) (cur : Nat → UInt64)
  | returned

structure State where
  threads : Nat → Thread := fun _ => {}
  wait : Wait := .away
  marked : Nat → Option Nat := fun _ => none
  copied : Nat → Nat := fun _ => 0

inductive Act where
  | beginIncrement (thread : Nat)
  | beginClear (thread : Nat)
  | endTX (thread : Nat)
  | call
  | copy
  | poll
  deriving DecidableEq

def safe (counter c : UInt64) : Bool := decide (counter > c)

def setThread (state : State) (thread : Nat) (value : Thread) : State :=
  { state with threads := update state.threads thread value }

def inside (thread : Thread) : Option Nat :=
  if thread.phase = .running then some thread.begun else none

def step (thrs tid : Nat) (state : State) : Act → Option State
  | .beginIncrement t =>
    let th := state.threads t
    if th.phase = .idle then
      some (setThread state t
        { th with counter := th.counter + 1, phase := .beginning, begun := th.begun + 1 })
    else none
  | .beginClear t =>
    let th := state.threads t
    if th.phase = .beginning then
      some (setThread state t { th with counter := th.counter &&& begMask, phase := .running })
    else none
  | .endTX t =>
    let th := state.threads t
    if th.phase = .running then
      some (setThread state t
        { th with counter := th.counter ||| endMask, phase := .idle, ended := th.ended + 1 })
    else none
  | .call =>
    match state.wait with
    | .away | .returned =>
      some { state with
        wait := .copying 0 (fun _ => 0)
        marked := fun i => inside (state.threads i) }
    | _ => none
  | .copy =>
    match state.wait with
    | .copying i cur =>
      if i < thrs then
        some { state with
          wait := .copying (i + 1)
            (update cur i ((state.threads i).counter &&& begMask))
          copied := update state.copied i (state.threads i).begun }
      else some { state with wait := .polling 0 cur }
    | _ => none
  | .poll =>
    match state.wait with
    | .polling i cur =>
      if i < thrs then
        if i = tid then some { state with wait := .polling (i + 1) cur }
        else if safe (state.threads i).counter (cur i) then
          some { state with wait := .polling (i + 1) cur }
        else some state
      else some { state with wait := .returned }
    | _ => none

theorem begmask_toNat (c : UInt64) : (c &&& begMask).toNat = c.toNat % 2 ^ 63 := by
  rw [UInt64.toNat_and]
  have mask : begMask.toNat = 2 ^ 63 - 1 := by decide
  rw [mask, Nat.and_two_pow_sub_one_eq_mod]

theorem endmask_toNat (c : UInt64) (small : c.toNat < 2 ^ 63) :
    (c ||| endMask).toNat = 2 ^ 63 + c.toNat := by
  rw [UInt64.toNat_or]
  have mask : endMask.toNat = 2 ^ 63 := by decide
  have disjoint := Nat.two_pow_add_eq_or_of_lt small 1
  rw [mask, Nat.or_comm]
  simpa using disjoint.symm

structure Counted (th : Thread) : Prop where
  value : th.counter.toNat = if th.phase = .running then th.begun else 2 ^ 63 + th.begun
  balance : th.ended + (if th.phase = .idle then 0 else 1) = th.begun

def Later (before after : Thread) : Prop :=
  before.begun ≤ after.begun ∧ before.ended ≤ after.ended

variable {th : Thread} {mark : Option Nat} {copied thrs tid : Nat} {c : UInt64} {state : State}

theorem counted_increment (small : th.begun + 1 < 2 ^ 63) (counted : Counted th)
    (idle : th.phase = .idle) :
    Counted { th with counter := th.counter + 1, phase := .beginning, begun := th.begun + 1 } := by
  have value := counted.value
  have balance := counted.balance
  simp only [idle, reduceCtorEq, if_false, if_true] at value balance
  constructor
  · simp only [reduceCtorEq, if_false]
    rw [UInt64.toNat_add, value]
    have one : (1 : UInt64).toNat = 1 := by decide
    rw [one]
    omega
  · simp only [reduceCtorEq, if_false]
    omega

theorem counted_clear (small : th.begun < 2 ^ 63) (counted : Counted th)
    (beginning : th.phase = .beginning) :
    Counted { th with counter := th.counter &&& begMask, phase := .running } := by
  have value := counted.value
  have balance := counted.balance
  simp only [beginning, reduceCtorEq, if_false] at value balance
  constructor
  · simp only [if_true]
    rw [begmask_toNat, value]
    omega
  · simp only [reduceCtorEq, if_false]
    omega

theorem counted_end (small : th.begun < 2 ^ 63) (counted : Counted th)
    (running : th.phase = .running) :
    Counted { th with counter := th.counter ||| endMask, phase := .idle, ended := th.ended + 1 } := by
  have value := counted.value
  have balance := counted.balance
  simp only [running, reduceCtorEq, if_true, if_false] at value balance
  constructor
  · simp only [reduceCtorEq, if_false]
    rw [endmask_toNat _ (by omega), value]
  · simp only [if_true]
    omega

def Marked (th : Thread) (mark : Option Nat) : Prop :=
  ∀ n, mark = some n → n ≤ th.ended ∨ (th.phase = .running ∧ th.begun = n)

structure Copied (th : Thread) (mark : Option Nat) (copied : Nat) (c : UInt64) : Prop where
  value : c.toNat = copied
  bound : copied ≤ th.begun
  covers : ∀ n, mark = some n → n ≤ copied

def Passed (th : Thread) (mark : Option Nat) : Prop :=
  ∀ n, mark = some n → n ≤ th.ended

def WaitInv (thrs tid : Nat) (state : State) : Prop :=
  match state.wait with
  | .away => True
  | .copying i cur =>
    ∀ j < i, Copied (state.threads j) (state.marked j) (state.copied j) (cur j)
  | .polling i cur =>
    (∀ j < thrs, Copied (state.threads j) (state.marked j) (state.copied j) (cur j)) ∧
    ∀ j < i, j < thrs → j ≠ tid → Passed (state.threads j) (state.marked j)
  | .returned => ∀ j < thrs, j ≠ tid → Passed (state.threads j) (state.marked j)

structure Inv (thrs tid : Nat) (state : State) : Prop where
  counted : ∀ t, Counted (state.threads t)
  marked : ∀ t, Marked (state.threads t) (state.marked t)
  waiting : WaitInv thrs tid state

theorem initial_inv (thrs tid : Nat) : Inv thrs tid {} := by
  have fresh : Counted {} := ⟨by decide, by decide⟩
  refine ⟨fun _ => fresh, ?_, trivial⟩
  intro t n present
  cases present

variable {before after : Thread} {t i : Nat} {cur : Nat → UInt64}

theorem copied_later (later : Later before after) (held : Copied before mark copied c) :
    Copied after mark copied c :=
  ⟨held.value, le_trans held.bound later.1, held.covers⟩

theorem passed_later (later : Later before after) (held : Passed before mark) : Passed after mark :=
  fun n present => le_trans (held n present) later.2

theorem waitInv_later (later : Later (state.threads t) th) (waiting : WaitInv thrs tid state) :
    WaitInv thrs tid (setThread state t th) := by
  have grows : ∀ j, Later (state.threads j) ((setThread state t th).threads j) := by
    intro j
    by_cases same : j = t
    · subst j
      simpa [setThread] using later
    · simp [setThread, same, Later]
  have position : (setThread state t th).wait = state.wait := rfl
  unfold WaitInv at waiting ⊢
  rw [position]
  cases place : state.wait with
  | away => trivial
  | copying i cur =>
    simp only [place] at waiting
    exact fun j below => copied_later (grows j) (waiting j below)
  | polling i cur =>
    simp only [place] at waiting
    exact ⟨fun j below => copied_later (grows j) (waiting.1 j below),
      fun j below inRange other => passed_later (grows j) (waiting.2 j below inRange other)⟩
  | returned =>
    simp only [place] at waiting
    exact fun j inRange other => passed_later (grows j) (waiting j inRange other)

theorem setThread_inv (inv : Inv thrs tid state) (counted : Counted th)
    (later : Later (state.threads t) th) (leaves : (state.threads t).phase = .running →
      (state.threads t).begun ≤ th.ended ∨
        (th.phase = .running ∧ th.begun = (state.threads t).begun)) :
    Inv thrs tid (setThread state t th) := by
  refine ⟨?_, ?_, waitInv_later later inv.waiting⟩
  · intro j
    by_cases same : j = t
    · subst j
      simpa [setThread] using counted
    · simpa [setThread, same] using inv.counted j
  intro j n present
  have before := inv.marked j n present
  by_cases same : j = t
  · subst j
    simp only [setThread, update_self]
    rcases before with past | ⟨running, number⟩
    · exact Or.inl (le_trans past later.2)
    · rw [← number]
      exact leaves running
  · simpa [setThread, same] using before

theorem safe_iff (counted : Counted th) (held : Copied th mark copied c) :
    safe th.counter c = true ↔ ¬ (th.phase = .running ∧ th.begun = copied) := by
  have value := counted.value
  have bound := held.bound
  simp only [safe, decide_eq_true_eq, gt_iff_lt, UInt64.lt_iff_toNat_lt, held.value]
  by_cases running : th.phase = .running
  · simp only [running, if_true] at value
    simp only [running, true_and]
    omega
  · simp only [running, if_false] at value
    simp only [running, false_and, not_false_eq_true, iff_true]
    omega

theorem safe_passed (counted : Counted th) (marked : Marked th mark)
    (held : Copied th mark copied c) (clear : safe th.counter c = true) : Passed th mark := by
  intro n present
  rcases marked n present with past | ⟨running, number⟩
  · exact past
  · have covered := held.covers n present
    have bound := held.bound
    exact absurd ⟨running, by omega⟩ ((safe_iff counted held).mp clear)

theorem copied_now (counted : Counted th) (marked : Marked th mark) (small : th.begun < 2 ^ 63) :
    Copied th mark th.begun (th.counter &&& begMask) := by
  have value := counted.value
  have balance := counted.balance
  refine ⟨?_, le_refl _, ?_⟩
  · rw [begmask_toNat, value]
    split <;> omega
  · intro n present
    rcases marked n present with past | ⟨_, number⟩
    · omega
    · omega

theorem copy_inv (inv : Inv thrs tid state) (small : (state.threads i).begun < 2 ^ 63)
    (position : state.wait = .copying i cur) :
    Inv thrs tid { state with
      wait := .copying (i + 1) (update cur i ((state.threads i).counter &&& begMask))
      copied := update state.copied i (state.threads i).begun } := by
  have waiting := inv.waiting
  simp only [WaitInv, position] at waiting
  refine ⟨inv.counted, inv.marked, ?_⟩
  intro j below
  by_cases same : j = i
  · subst j
    simpa using copied_now (inv.counted i) (inv.marked i) small
  · simpa [same] using waiting j (by omega)

theorem poll_inv (inv : Inv thrs tid state) (position : state.wait = .polling i cur)
    (passed : i < thrs → i ≠ tid → Passed (state.threads i) (state.marked i)) :
    Inv thrs tid { state with wait := .polling (i + 1) cur } := by
  have waiting := inv.waiting
  simp only [WaitInv, position] at waiting
  refine ⟨inv.counted, inv.marked, waiting.1, ?_⟩
  intro j below inRange other
  by_cases same : j = i
  · subst j
    exact passed inRange other
  · exact waiting.2 j (by omega) inRange other

theorem step_begun (thrs tid : Nat) (state next : State) (act : Act)
    (taken : step thrs tid state act = some next) (t : Nat) :
    (next.threads t).begun =
      (state.threads t).begun + if act = .beginIncrement t then 1 else 0 := by
  have touch : ∀ u th, (setThread state u th).threads t =
      if t = u then th else state.threads t := by
    intro u th
    simp [setThread, update_apply]
  cases act with
  | beginIncrement u =>
    simp only [step] at taken
    split at taken
    · cases taken
      rw [touch]
      by_cases same : t = u
      · subst u
        simp
      · simp [same, Ne.symm same]
    · cases taken
  | beginClear u | endTX u =>
    simp only [step] at taken
    split at taken
    · cases taken
      rw [touch]
      by_cases same : t = u
      · subst u
        simp
      · simp [same]
    · cases taken
  | call | copy | poll =>
    simp only [step] at taken
    repeat' split at taken
    all_goals cases taken
    all_goals simp

theorem step_inv (thrs tid : Nat) (state next : State) (act : Act)
    (inv : Inv thrs tid state) (small : ∀ t, (next.threads t).begun < 2 ^ 63)
    (taken : step thrs tid state act = some next) : Inv thrs tid next := by
  have before : ∀ t, (state.threads t).begun < 2 ^ 63 := by
    intro t
    have grows := step_begun thrs tid state next act taken t
    have bound := small t
    omega
  cases act with
  | beginIncrement t =>
    have bound := step_begun thrs tid state next _ taken t
    have limit := small t
    simp only [if_true] at bound
    simp only [step] at taken
    split at taken
    · rename_i idle
      cases taken
      refine setThread_inv inv (counted_increment (by omega) (inv.counted t) idle)
        ⟨Nat.le_succ _, le_refl _⟩ ?_
      intro running
      rw [idle] at running
      cases running
    · cases taken
  | beginClear t =>
    simp only [step] at taken
    split at taken
    · rename_i beginning
      cases taken
      refine setThread_inv inv (counted_clear (before t) (inv.counted t) beginning)
        ⟨le_refl _, le_refl _⟩ ?_
      intro running
      rw [beginning] at running
      cases running
    · cases taken
  | endTX t =>
    simp only [step] at taken
    split at taken
    · rename_i running
      cases taken
      refine setThread_inv inv (counted_end (before t) (inv.counted t) running)
        ⟨le_refl _, Nat.le_succ _⟩ ?_
      intro _
      have balance := (inv.counted t).balance
      simp only [running, reduceCtorEq, if_false] at balance
      exact Or.inl (by simp only; omega)
    · cases taken
  | call =>
    -- Every thread is either not inside a transaction, and then unmarked, or
    -- inside exactly the one it is marked with.
    have marked : ∀ t, Marked (state.threads t) (inside (state.threads t)) := by
      intro t n present
      simp only [inside] at present
      split at present
      · rename_i running
        cases present
        exact Or.inr ⟨running, rfl⟩
      · cases present
    simp only [step] at taken
    split at taken
    · cases taken
      exact ⟨inv.counted, marked, by simp [WaitInv]⟩
    · cases taken
      exact ⟨inv.counted, marked, by simp [WaitInv]⟩
    · cases taken
  | copy =>
    simp only [step] at taken
    split at taken
    · rename_i i cur position
      split at taken
      · cases taken
        exact copy_inv inv (before i) position
      · cases taken
        have waiting := inv.waiting
        simp only [WaitInv, position] at waiting
        exact ⟨inv.counted, inv.marked, fun j below => waiting j (by omega), by simp⟩
    · cases taken
  | poll =>
    simp only [step] at taken
    split at taken
    · rename_i i cur position
      have waiting := inv.waiting
      simp only [WaitInv, position] at waiting
      split at taken
      · rename_i inRange
        split at taken
        · rename_i own
          cases taken
          exact poll_inv inv position fun _ other => absurd own other
        split at taken
        · rename_i clear
          cases taken
          exact poll_inv inv position
            fun _ _ => safe_passed (inv.counted i) (inv.marked i) (waiting.1 i inRange) clear
        · cases taken
          exact inv
      · cases taken
        exact ⟨inv.counted, inv.marked, fun j inRange other =>
          waiting.2 j (by omega) inRange other⟩
    · cases taken

theorem run_inv (thrs tid : Nat) (acts : List Act) (state final : State)
    (inv : Inv thrs tid state)
    (few : ∀ t, (state.threads t).begun + acts.count (.beginIncrement t) < 2 ^ 63)
    (finished : run (step thrs tid) state acts = some final) : Inv thrs tid final := by
  induction acts generalizing state with
  | nil =>
    cases finished
    exact inv
  | cons act rest ih =>
    obtain ⟨next, taken, later⟩ := (run_cons _ _ _ _ _).mp finished
    have counts : ∀ t, (next.threads t).begun + rest.count (.beginIncrement t) < 2 ^ 63 := by
      intro t
      have total := few t
      rw [List.count_cons] at total
      rw [step_begun thrs tid state next act taken t]
      simp only [beq_iff_eq] at total
      omega
    exact ih next (step_inv thrs tid state next act inv
      (fun t => lt_of_le_of_lt (Nat.le_add_right _ _) (counts t)) taken) counts later

/-- When `WaitForGracePeriod` returns, the transaction every other thread was
inside at the call has executed `EndTX`; and the poll of a thread that is outside
a transaction, or has ended the one it was in when its counter was copied, moves
on to the next thread. -/
theorem grace_period (thrs tid : Nat) (acts : List Act) (final : State)
    (finished : run (step thrs tid) {} acts = some final)
    (few : ∀ t, acts.count (.beginIncrement t) < 2 ^ 63) :
    (final.wait = .returned → ∀ i < thrs, i ≠ tid → ∀ n, final.marked i = some n →
      n ≤ (final.threads i).ended) ∧
    (∀ i cur, final.wait = .polling i cur → i < thrs → i ≠ tid →
      (final.threads i).phase ≠ .running ∨ final.copied i ≤ (final.threads i).ended →
      step thrs tid final .poll = some { final with wait := .polling (i + 1) cur }) := by
  have inv := run_inv thrs tid acts {} final (initial_inv thrs tid)
    (fun t => by simpa using few t) finished
  have waiting := inv.waiting
  constructor
  · intro position i inRange other n present
    simp only [WaitInv, position] at waiting
    exact waiting i inRange other n present
  · intro i cur position inRange other past
    simp only [WaitInv, position] at waiting
    have balance := (inv.counted i).balance
    have clear : safe (final.threads i).counter (cur i) = true := by
      refine (safe_iff (inv.counted i) (waiting.1 i inRange)).mpr ?_
      rintro ⟨running, number⟩
      simp only [running, reduceCtorEq, if_false] at balance
      rcases past with outside | ended
      · exact outside running
      · omega
    simp [step, position, inRange, other, clear]

def twoThreads : List Act :=
  [.beginIncrement 1, .beginClear 1, .call, .copy, .copy, .copy, .poll, .poll, .endTX 1,
    .poll, .poll]

theorem grace_period_two_threads :
    ∃ final, run (step 2 0) {} twoThreads = some final ∧ final.wait = .returned ∧
      final.marked 1 = some 1 ∧ 1 ≤ (final.threads 1).ended := by
  have few : ∀ t, twoThreads.count (.beginIncrement t) < 2 ^ 63 :=
    fun t => lt_of_le_of_lt List.count_le_length (by decide)
  refine ⟨_, rfl, rfl, rfl, ?_⟩
  exact (grace_period 2 0 twoThreads _ rfl few).1 rfl 1 (by decide) (by decide) 1 rfl

end EunoDb.Rcu
