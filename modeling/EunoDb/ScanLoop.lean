import Mathlib.Data.List.Basic

/-! Iterators that skip entries. `Lands` says where a loop is to end. -/

namespace EunoDb.ScanLoop

variable {I E A K : Type}

def loop (entry : I → Option E) (advance : E → I → Option I) (accept : E → Option (Option A)) :
    Nat → I → Option (I × Option A)
  | 0, _ => none
  | fuel + 1, it =>
    match entry it with
    | none => some (it, none)
    | some e => do
        match ← accept e with
        | some a => return (it, some a)
        | none => loop entry advance accept fuel (← advance e it)

inductive Path (entry : I → Option E) (advance : E → I → Option I) : I → List E → I → Prop where
  | stay {it : I} : Path entry advance it [] it
  | move {it next last : I} {e : E} {rest : List E} (here : entry it = some e)
      (moved : advance e it = some next) (later : Path entry advance next rest last) :
      Path entry advance it (e :: rest) last

inductive Yields (entry : I → Option E) (advance : E → I → Option I) (stands : I → Prop) :
    I → List E → Prop where
  | ended {it : I} (stood : stands it) (here : entry it = none) : Yields entry advance stands it []
  | more {it next : I} {e : E} {rest : List E} (stood : stands it) (here : entry it = some e)
      (moved : advance e it = some next) (later : Yields entry advance stands next rest) :
      Yields entry advance stands it (e :: rest)

section

variable {entry : I → Option E} {advance other : E → I → Option I}
  {accept : E → Option (Option A)} {stands : I → Prop}

variable {it last : I} {es skipped : List E}

theorem Yields.stood (yields : Yields entry advance stands it es) : stands it := by
  cases yields <;> assumption

theorem Yields.entry_eq (yields : Yields entry advance stands it es) : entry it = es.head? := by
  cases yields with
  | ended _ here | more _ here => exact here

theorem Yields.path (yields : Yields entry advance stands it (skipped ++ es)) :
    ∃ last, Path entry advance it skipped last ∧ Yields entry advance stands last es := by
  induction skipped generalizing it with
  | nil => exact ⟨it, .stay, yields⟩
  | cons e rest ih =>
    cases yields with
    | more _ here moved later =>
      obtain ⟨last, path, after⟩ := ih later
      exact ⟨last, .move here moved path, after⟩

theorem loop_path (path : Path entry advance it skipped last)
    (refused : ∀ e ∈ skipped, accept e = some none) (fuel : Nat) :
    loop entry advance accept (fuel + skipped.length) it = loop entry advance accept fuel last := by
  induction path with
  | stay => rfl
  | move here moved later ih =>
    have now := refused _ List.mem_cons_self
    have rest := ih fun e mem => refused e (List.mem_cons_of_mem _ mem)
    simp [loop, here, now, moved, rest, ← Nat.add_assoc]

variable {fuel : Nat}

theorem loop_path_short (path : Path entry advance it skipped last)
    (refused : ∀ e ∈ skipped, accept e = some none) (short : fuel ≤ skipped.length) :
    loop entry advance accept fuel it = none := by
  induction path generalizing fuel with
  | stay =>
    rw [Nat.le_zero.mp short]
    rfl
  | move here moved later ih =>
    cases fuel with
    | zero => rfl
    | succ fuel =>
      have now := refused _ List.mem_cons_self
      have rest := ih (fun e mem => refused e (List.mem_cons_of_mem _ mem))
        (Nat.le_of_succ_le_succ short)
      simp [loop, here, now, moved, rest]

theorem loop_cycle (path : Path entry advance it skipped it) (some_ : skipped ≠ [])
    (refused : ∀ e ∈ skipped, accept e = some none) (fuel : Nat) :
    loop entry advance accept fuel it = none := by
  induction fuel using Nat.strongRecOn with
  | _ fuel ih =>
    by_cases short : fuel ≤ skipped.length
    · exact loop_path_short path refused short
    have once := loop_path path refused (fuel - skipped.length)
    rw [Nat.sub_add_cancel (Nat.le_of_not_le short)] at once
    have length := List.length_pos_iff.mpr some_
    rw [once]
    exact ih _ (by omega)

theorem loop_ended (here : entry it = none) (fuel : Nat) :
    loop entry advance accept (fuel + 1) it = some (it, none) := by
  simp [loop, here]

theorem loop_accepted {e : E} {a : A} (here : entry it = some e)
    (accepted : accept e = some (some a)) (fuel : Nat) :
    loop entry advance accept (fuel + 1) it = some (it, some a) := by
  simp [loop, here, accepted]

theorem first_accepted (total : E → Option A) (es : List E) :
    (∀ e ∈ es, total e = none) ∨ ∃ skipped e a rest, es = skipped ++ e :: rest ∧
      (∀ e ∈ skipped, total e = none) ∧ total e = some a := by
  induction es with
  | nil => exact .inl nofun
  | cons e rest ih =>
    cases here : total e with
    | some a => exact .inr ⟨[], e, a, rest, rfl, nofun, here⟩
    | none =>
      rcases ih with all | ⟨skipped, found, a, after, rfl, refused, accepted⟩
      · exact .inl (List.forall_mem_cons.mpr ⟨here, all⟩)
      · exact .inr ⟨e :: skipped, found, a, after, rfl,
          List.forall_mem_cons.mpr ⟨here, refused⟩, accepted⟩

theorem loop_finds (yields : Yields entry advance stands it es) {total : E → Option A}
    (tested : ∀ e ∈ es, accept e = some (total e)) (enough : es.length < fuel) :
    ∃ last, loop entry advance accept fuel it = some (last, es.findSome? total) ∧ stands last ∧
      entry last = es.find? fun e => (total e).isSome := by
  rcases first_accepted total es with refused | ⟨skipped, e, a, rest, rfl, refused, accepted⟩
  · rw [← List.append_nil es] at yields
    obtain ⟨last, path, after⟩ := yields.path
    obtain ⟨more, rfl⟩ : ∃ more, fuel = more + 1 + es.length := ⟨fuel - es.length - 1, by omega⟩
    refine ⟨last, ?_, after.stood, ?_⟩
    · rw [loop_path path fun e mem => by rw [tested e mem, refused e mem]]
      rw [loop_ended after.entry_eq, List.findSome?_eq_none_iff.mpr refused]
    · rw [after.entry_eq]
      symm
      exact List.find?_eq_none.mpr fun e mem => by simp [refused e mem]
  obtain ⟨last, path, after⟩ := yields.path
  rw [List.length_append, List.length_cons] at enough
  obtain ⟨more, rfl⟩ : ∃ more, fuel = more + 1 + skipped.length :=
    ⟨fuel - skipped.length - 1, by omega⟩
  have passes : ∀ e ∈ skipped, accept e = some none := fun e mem => by
    rw [tested e (List.mem_append_left _ mem), refused e mem]
  have stops : accept e = some (some a) := by
    rw [tested e (List.mem_append_right _ List.mem_cons_self), accepted]
  refine ⟨last, ?_, after.stood, ?_⟩
  · rw [loop_path path passes, loop_accepted after.entry_eq stops, List.findSome?_append,
      List.findSome?_eq_none_iff.mpr refused]
    simp [accepted]
  · rw [after.entry_eq, List.find?_append,
      List.find?_eq_none.mpr fun e mem => by simp [refused e mem]]
    simp [accepted]

theorem loop_congr (yields : Yields entry advance stands it es) (refused : E → Bool)
    (tested : ∀ e ∈ es, ∃ found, accept e = some found ∧ refused e = found.isNone)
    (same : ∀ e ∈ es.takeWhile refused, other e = advance e) (fuel : Nat) :
    loop entry other accept fuel it = loop entry advance accept fuel it := by
  induction yields generalizing fuel with
  | ended _ here =>
    cases fuel with
    | zero => rfl
    | succ fuel => rw [loop_ended here, loop_ended here]
  | @more it next e rest _ here moved later ih =>
    obtain ⟨found, now, isRefused⟩ := tested e List.mem_cons_self
    cases fuel with
    | zero => rfl
    | succ fuel =>
      cases found with
      | some a => rw [loop_accepted here now, loop_accepted here now]
      | none =>
        rw [List.takeWhile_cons_of_pos isRefused] at same
        have later_ := ih (fun e mem => tested e (List.mem_cons_of_mem _ mem))
          (fun e mem => same e (List.mem_cons_of_mem _ mem)) fuel
        simp [loop, here, now, same e List.mem_cons_self, moved, later_]

end

/-! ### Cutting a list at a position -/

variable {α : Type} {p : α → Bool} {first second : List α}

theorem filter_cut (fails : ∀ x ∈ first, ¬ p x) (holds : ∀ x ∈ second, p x) :
    (first ++ second).filter p = second := by
  rw [List.filter_append, List.filter_eq_nil_iff.mpr fails, List.filter_eq_self.mpr holds,
    List.nil_append]

theorem cut_unique {first' second' : List α} (same : first ++ second = first' ++ second')
    (fails : ∀ x ∈ first, ¬ p x) (holds : ∀ x ∈ second, p x) (fails' : ∀ x ∈ first', ¬ p x)
    (holds' : ∀ x ∈ second', p x) : first = first' ∧ second = second' := by
  have later : second = second' := by
    rw [← filter_cut fails holds, same, filter_cut fails' holds']
  subst later
  exact ⟨List.append_cancel_right same, rfl⟩

/-! ### Where a skipping iterator is to end -/

def Lands (offers : K → Option A) (wanted : K → Prop) (closer : K → K → Prop) :
    Option (K × A) → Prop
  | none => ∀ key, wanted key → offers key = none
  | some (key, a) => wanted key ∧ offers key = some a ∧
      ∀ other, wanted other → offers other ≠ none → closer key other

theorem lands_first {offers : K → Option A} {wanted : K → Prop} {closer : K → K → Prop}
    {es : List E} {key : E → K} {total : E → Option A} (refl : ∀ key, closer key key)
    (ordered : es.Pairwise fun first second => closer (key first) (key second))
    (sound : ∀ e ∈ es, wanted (key e) ∧ offers (key e) = total e)
    (complete : ∀ other, wanted other → offers other ≠ none → ∃ e ∈ es, key e = other) :
    Lands offers wanted closer ((es.find? fun e => (total e).isSome).bind fun e =>
      (total e).map fun a => (key e, a)) := by
  rcases first_accepted total es with refused | ⟨skipped, e, a, rest, rfl, refused, accepted⟩
  · rw [List.find?_eq_none.mpr fun e mem => by simp [refused e mem]]
    intro other isWanted
    by_contra offered
    obtain ⟨e, mem, rfl⟩ := complete other isWanted offered
    exact offered ((sound e mem).2.trans (refused e mem))
  rw [List.find?_append, List.find?_eq_none.mpr fun e mem => by simp [refused e mem]]
  have here := sound e (List.mem_append_right _ List.mem_cons_self)
  simp only [List.find?_cons, accepted, Option.isSome_some, Option.none_or, Option.bind_some,
    Option.map_some]
  refine ⟨here.1, here.2.trans accepted, fun other isWanted offered => ?_⟩
  obtain ⟨found, mem, rfl⟩ := complete other isWanted offered
  rcases List.mem_append.mp mem with earlier | later
  · exact absurd ((sound found mem).2.trans (refused found earlier)) offered
  · rcases List.mem_cons.mp later with rfl | later
    · exact refl _
    · have after := (List.pairwise_append.mp ordered).2.1
      exact (List.pairwise_cons.mp after).1 found later

end EunoDb.ScanLoop
