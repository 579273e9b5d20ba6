import Mathlib.Data.List.Perm.Basic
import Mathlib.Logic.Equiv.Basic
import Mathlib.Algebra.Group.Nat.Defs

/-! Sorting in place around a pivot from the middle. An index outside the array or a sum that an
`int` cannot hold has no result. -/

namespace EunoDb.PartitionSort

section

variable {α : Type} (notAfter : α → α → Bool)

def swap (bat : Array α) (i j : Nat) : Option (Array α) :=
  if inside : i < bat.size ∧ j < bat.size then some (bat.swap i j inside.1 inside.2) else none

def partitionLoop (pivotValue : α) : Nat → Nat → Nat → Array α → Option (Array α × Nat)
  | 0, _, storeIndex, bat => some (bat, storeIndex)
  | rounds + 1, i, storeIndex, bat => do
      if notAfter (← bat[i]?) pivotValue then
        partitionLoop pivotValue rounds (i + 1) (storeIndex + 1) (← swap bat storeIndex i)
      else partitionLoop pivotValue rounds (i + 1) storeIndex bat

def partition (bat : Array α) (left right pivotIndex : Nat) : Option (Array α × Nat) := do
  let pivotValue ← bat[pivotIndex]?
  let bat ← swap bat pivotIndex right
  let (bat, storeIndex) ← partitionLoop notAfter pivotValue (right - left) left left bat
  return (← swap bat right storeIndex, storeIndex)

def sort : Nat → Array α → Nat → Nat → Option (Array α)
  | 0, _, _, _ => none
  | fuel + 1, bat, left, right =>
    if left < right then
      if left + right < 2 ^ 31 then do
        let (bat, pivotNewIndex) ← partition notAfter bat left right ((left + right) / 2)
        let bat ← sort fuel bat left (pivotNewIndex - 1)
        sort fuel bat (pivotNewIndex + 1) right
      else none
    else some bat

end

section

variable {α : Type} {bat after : Array α} {left stop : Nat}

structure Rearranged (left stop : Nat) (bat after : Array α) : Prop where
  perm : after.Perm bat
  moved : ∃ σ : Equiv.Perm Nat, (∀ k, left ≤ k ∧ k < stop ∨ σ k = k) ∧ ∀ k, after[k]? = bat[σ k]?

def Part (bat : Array α) (left stop : Nat) (P : α → Prop) : Prop :=
  ∀ k x, left ≤ k → k < stop → bat[k]? = some x → P x

theorem Rearranged.refl (left stop : Nat) (bat : Array α) : Rearranged left stop bat bat :=
  ⟨.refl bat, .refl Nat, fun _ => Or.inr rfl, fun _ => rfl⟩

theorem Rearranged.trans {last : Array α} (first : Rearranged left stop bat after)
    (second : Rearranged left stop after last) : Rearranged left stop bat last := by
  obtain ⟨perm, σ, fixed, moved⟩ := first
  obtain ⟨perm', τ, fixed', moved'⟩ := second
  refine ⟨perm'.trans perm, τ.trans σ, fun k => ?_, fun k => ?_⟩
  · rcases fixed' k with inside | same
    · exact Or.inl inside
    · rcases fixed k with inside | same'
      · exact Or.inl inside
      · exact Or.inr (by rw [Equiv.trans_apply, same, same'])
  · rw [moved', moved, Equiv.trans_apply]

theorem Rearranged.widen (part : Rearranged left stop bat after) {left' stop' : Nat}
    (below : left' ≤ left) (above : stop ≤ stop') : Rearranged left' stop' bat after := by
  obtain ⟨perm, σ, fixed, moved⟩ := part
  exact ⟨perm, σ, fun k => (fixed k).imp_left fun ⟨low, high⟩ => ⟨by omega, by omega⟩, moved⟩

theorem Rearranged.outside (part : Rearranged left stop bat after) {k : Nat}
    (outside : k < left ∨ stop ≤ k) : after[k]? = bat[k]? := by
  obtain ⟨-, σ, fixed, moved⟩ := part
  rw [moved, (fixed k).resolve_left (by omega)]

theorem Rearranged.part (part : Rearranged left stop bat after) {P : α → Prop}
    (all : Part bat left stop P) : Part after left stop P := by
  obtain ⟨-, σ, fixed, moved⟩ := part
  intro k x low high here
  rw [moved] at here
  -- `σ` maps the part to itself, since it fixes what is outside
  have inside : left ≤ σ k ∧ σ k < stop := by
    rcases fixed (σ k) with inside | same
    · exact inside
    · rw [σ.injective same]
      exact ⟨low, high⟩
  exact all _ x inside.1 inside.2 here

theorem Part.congr {P : α → Prop} (all : Part bat left stop P)
    (same : ∀ k, left ≤ k → k < stop → after[k]? = bat[k]?) : Part after left stop P :=
  fun k x low high here => all k x low high (same k low high ▸ here)

theorem swap_spec {i j : Nat} (first : i < bat.size) (second : j < bat.size)
    (inside : left ≤ i ∧ i < stop) (inside' : left ≤ j ∧ j < stop) :
    ∃ after, swap bat i j = some after ∧ Rearranged left stop bat after ∧
      after[i]? = bat[j]? ∧ after[j]? = bat[i]? ∧ ∀ k, k ≠ i → k ≠ j → after[k]? = bat[k]? := by
  have moved : ∀ k, (bat.swap i j first second)[k]? = bat[Equiv.swap i j k]? := by
    intro k
    rw [Array.getElem?_swap, Equiv.swap_apply_def]
    by_cases isJ : j = k
    · subst isJ
      by_cases isI : j = i <;> simp [isI, first]
    · by_cases isI : i = k
      · subst isI
        simp [isJ, second]
      · simp [isJ, isI, Ne.symm isJ, Ne.symm isI]
  refine ⟨bat.swap i j first second, by simp [swap, first, second],
    ⟨Array.swap_perm first second, Equiv.swap i j, fun k => ?_, moved⟩, ?_, ?_, ?_⟩
  · by_cases isI : k = i
    · exact Or.inl (isI ▸ inside)
    · by_cases isJ : k = j
      · exact Or.inl (isJ ▸ inside')
      · exact Or.inr (Equiv.swap_apply_of_ne_of_ne isI isJ)
  · rw [moved, Equiv.swap_apply_left]
  · rw [moved, Equiv.swap_apply_right]
  · intro k notI notJ
    rw [moved, Equiv.swap_apply_of_ne_of_ne notI notJ]

variable (notAfter : α → α → Bool)

theorem partitionLoop_spec (pivotValue : α) {rounds i storeIndex : Nat} (starts : left ≤ storeIndex)
    (behind : storeIndex ≤ i) (inside : i + rounds ≤ bat.size)
    (low : Part bat left storeIndex fun x => notAfter x pivotValue = true)
    (high : Part bat storeIndex i fun x => ¬ notAfter x pivotValue = true) :
    ∃ after place, partitionLoop notAfter pivotValue rounds i storeIndex bat = some (after, place) ∧
      Rearranged left (i + rounds) bat after ∧ storeIndex ≤ place ∧ place ≤ i + rounds ∧
      (Part after left place fun x => notAfter x pivotValue = true) ∧
      Part after place (i + rounds) fun x => ¬ notAfter x pivotValue = true := by
  induction rounds generalizing i storeIndex bat with
  | zero => exact ⟨bat, storeIndex, rfl, .refl .., Nat.le_refl _, behind, low, high⟩
  | succ rounds ih =>
    have here : bat[i]? = some bat[i] := Array.getElem?_eq_getElem (by omega)
    have more : i + 1 + rounds = i + (rounds + 1) := by omega
    by_cases front : notAfter bat[i] pivotValue = true
    · obtain ⟨next, swapped, moved, atStore, atI, others⟩ :=
        swap_spec (by omega : storeIndex < bat.size) (by omega : i < bat.size)
          (by omega : left ≤ _ ∧ _ < i + (rounds + 1)) (by omega)
      have size := moved.perm.size_eq
      have low' : Part next left (storeIndex + 1) fun x => notAfter x pivotValue = true := by
        intro k x below above found
        by_cases isStore : k = storeIndex
        · rw [isStore, atStore, here] at found
          exact Option.some.inj found ▸ front
        · rw [others k isStore (by omega)] at found
          exact low k x below (by omega) found
      have high' : Part next (storeIndex + 1) (i + 1) fun x => ¬ notAfter x pivotValue = true := by
        intro k x below above found
        by_cases isI : k = i
        · rw [isI, atI] at found
          exact high storeIndex x (Nat.le_refl _) (by omega) found
        · rw [others k (by omega) isI] at found
          exact high k x (by omega) (by omega) found
      obtain ⟨after, place, looped, moved', least, most, final⟩ :=
        ih (by omega) (by omega) (by omega) low' high'
      rw [more] at moved' most final
      refine ⟨after, place, ?_, moved.trans moved', by omega, most, final⟩
      simp [partitionLoop, here, front, swapped, looped]
    · have high' : Part bat storeIndex (i + 1) fun x => ¬ notAfter x pivotValue = true := by
        intro k x below above found
        by_cases isI : k = i
        · rw [isI, here] at found
          exact Option.some.inj found ▸ front
        · exact high k x below (by omega) found
      obtain ⟨after, place, looped, moved, least, most, final⟩ :=
        ih starts (by omega) (by omega) low high'
      rw [more] at moved most final
      refine ⟨after, place, ?_, moved, least, most, final⟩
      simp [partitionLoop, here, front, looped]

theorem partition_spec {right pivotIndex : Nat} (inside : right < bat.size)
    (order : left ≤ pivotIndex) (order' : pivotIndex ≤ right) :
    ∃ after place pivot, partition notAfter bat left right pivotIndex = some (after, place) ∧
      Rearranged left (right + 1) bat after ∧ left ≤ place ∧ place ≤ right ∧
      after[place]? = some pivot ∧ (Part after left place fun x => notAfter x pivot = true) ∧
      Part after (place + 1) (right + 1) fun x => ¬ notAfter x pivot = true := by
  have here : bat[pivotIndex]? = some bat[pivotIndex] := Array.getElem?_eq_getElem (by omega)
  obtain ⟨first, swapped, moved, -, atRight, -⟩ :=
    swap_spec (by omega : pivotIndex < bat.size) inside (by omega : left ≤ _ ∧ _ < right + 1)
      (by omega)
  have size := moved.perm.size_eq
  obtain ⟨next, place, looped, moved', least, most, low, high⟩ :=
    partitionLoop_spec notAfter bat[pivotIndex] (Nat.le_refl left) (Nat.le_refl left)
      (by omega : left + (right - left) ≤ first.size) (fun _ _ _ _ _ => by omega)
      (fun _ _ _ _ _ => by omega)
  rw [Nat.add_sub_cancel' (by omega : left ≤ right)] at moved' most high
  have size' := moved'.perm.size_eq
  have atRight' : next[right]? = some bat[pivotIndex] := by
    rw [moved'.outside (Or.inr (Nat.le_refl _)), atRight, here]
  obtain ⟨after, swapped', moved'', atRight'', atPlace, others⟩ :=
    swap_spec (by omega : right < next.size) (by omega : place < next.size)
      (by omega : left ≤ _ ∧ _ < right + 1) (by omega)
  refine ⟨after, place, bat[pivotIndex], ?_,
    (moved.trans (moved'.widen (Nat.le_refl _) (Nat.le_succ _))).trans moved'', least, most,
    atPlace.trans atRight', low.congr fun k _ _ => others k (by omega) (by omega), ?_⟩
  · simp [partition, here, swapped, looped, swapped']
  intro k x below above found
  by_cases isRight : k = right
  · rw [isRight, atRight''] at found
    exact high place x (Nat.le_refl _) (by omega) found
  · rw [others k isRight (by omega)] at found
    exact high k x (by omega) (by omega) found

structure TotalPreorder : Prop where
  total : ∀ x y, notAfter x y = true ∨ notAfter y x = true
  trans : ∀ x y z, notAfter x y = true → notAfter y z = true → notAfter x z = true

def Sorted (bat : Array α) (left stop : Nat) : Prop :=
  ∀ i j x y, left ≤ i → i < j → j < stop → bat[i]? = some x → bat[j]? = some y →
    notAfter x y = true

variable {notAfter}

theorem Sorted.congr (sorted : Sorted notAfter bat left stop)
    (same : ∀ k, left ≤ k → k < stop → after[k]? = bat[k]?) : Sorted notAfter after left stop := by
  intro i j x y low less high here there
  rw [same i low (by omega)] at here
  rw [same j (by omega) high] at there
  exact sorted i j x y low less high here there

theorem Sorted.join {place : Nat} {pivot : α} (order : TotalPreorder notAfter)
    (here : bat[place]? = some pivot) (low : Part bat left place fun x => notAfter x pivot = true)
    (high : Part bat (place + 1) stop fun x => ¬ notAfter x pivot = true)
    (lower : Sorted notAfter bat left place) (upper : Sorted notAfter bat (place + 1) stop) :
    Sorted notAfter bat left stop := by
  intro i j x y least less most first second
  have above : place < j → notAfter pivot y = true := fun behind =>
    (order.total y pivot).resolve_left (high j y behind most second)
  rcases Nat.lt_trichotomy i place with before | rfl | behind
  · have below := low i x least before first
    rcases Nat.lt_trichotomy j place with before' | rfl | behind'
    · exact lower i j x y least less before' first second
    · cases here.symm.trans second
      exact below
    · exact order.trans x pivot y below (above behind')
  · cases here.symm.trans first
    exact above less
  · exact upper i j x y behind less most first second

variable (notAfter)

theorem sort_spec {fuel right : Nat} (enough : right - left < fuel)
    (bounds : stop = right + 1 ∨ stop ≤ left ∧ right ≤ left)
    (inside : left < right → right < bat.size) (short : bat.size ≤ 2 ^ 30) :
    ∃ after, sort notAfter fuel bat left right = some after ∧ Rearranged left stop bat after ∧
      (TotalPreorder notAfter → Sorted notAfter after left stop) := by
  induction fuel generalizing bat left right stop with
  | zero => exact absurd enough (Nat.not_lt_zero _)
  | succ fuel ih =>
    by_cases more : left < right
    · have inside := inside more
      have last : stop = right + 1 := by omega
      subst last
      obtain ⟨parted, place, pivot, cut, moved, least, most, here, low, high⟩ :=
        partition_spec notAfter inside (by omega : left ≤ (left + right) / 2) (by omega)
      have size := moved.perm.size_eq
      have lowerInside : left < place - 1 → place - 1 < parted.size := by omega
      have lowerBounds : place = place - 1 + 1 ∨ place ≤ left ∧ place - 1 ≤ left := by omega
      obtain ⟨lower, sorting, moved', sorted⟩ := ih (by omega) lowerBounds lowerInside (by omega)
      have size' := moved'.perm.size_eq
      have upperInside : place + 1 < right → right < lower.size := by omega
      obtain ⟨after, sorting', moved'', sorted'⟩ := ih (by omega) (Or.inl rfl) upperInside (by omega)
      refine ⟨after, ?_, (moved.trans (moved'.widen (Nat.le_refl _) (by omega))).trans
        (moved''.widen (by omega) (Nat.le_refl _)), fun order => ?_⟩
      · have fits : left + right < 2 ^ 31 := by omega
        simp only [sort, if_pos more, if_pos fits, cut, Option.bind_eq_bind, Option.bind_some, sorting,
          sorting']
      have kept : ∀ k, left ≤ k → k < place → after[k]? = lower[k]? :=
        fun k _ _ => moved''.outside (by omega)
      have kept' : ∀ k, place + 1 ≤ k → k < right + 1 → lower[k]? = parted[k]? :=
        fun k _ _ => moved'.outside (by omega)
      refine .join order ?_ ((moved'.part low).congr kept) (moved''.part (high.congr kept'))
        ((sorted order).congr kept) (sorted' order)
      rw [moved''.outside (by omega), moved'.outside (by omega), here]
    · exact ⟨bat, by simp [sort, more], .refl .., fun _ i j _ _ _ _ _ => by omega⟩

end

end EunoDb.PartitionSort
