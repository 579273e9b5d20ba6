import Mathlib.Logic.Function.Basic
import Mathlib.Order.Nat

/-! Version chains. `Walk` lists the versions that a reader visits. -/

namespace EunoDb.Chain

variable {N : Type} {counter after : N → Nat} {older behind : N → Option N} {bound : Nat}

inductive Walk (counter : N → Nat) (older : N → Option N) (bound : Nat) :
    N → List N → Option N → Prop where
  | stop {node : N} (low : counter node ≤ bound) : Walk counter older bound node [] (some node)
  | last {node : N} (high : bound < counter node) (ends : older node = none) :
      Walk counter older bound node [] none
  | hop {node next : N} {path : List N} {found : Option N} (high : bound < counter node)
      (link : older node = some next) (falls : counter next < counter node)
      (rest : Walk counter older bound next path found) :
      Walk counter older bound node (next :: path) found

variable {node : N} {path : List N} {found : Option N}

section

variable (walk : Walk counter older bound node path found)

include walk

theorem Walk.falls : ∀ version ∈ path, counter version < counter node := by
  induction walk with
  | stop | last => simp
  | hop high link falls rest ih =>
    intro version mem
    rcases List.mem_cons.mp mem with rfl | later
    · exact falls
    · exact lt_trans (ih version later) falls

theorem Walk.length_le : path.length ≤ counter node := by
  induction walk with
  | stop | last => exact Nat.zero_le _
  | hop high link falls rest ih => exact Nat.succ_le_of_lt (lt_of_le_of_lt ih falls)

theorem Walk.found_cases :
    counter node ≤ bound ∧ path = [] ∧ found = some node ∨
      bound < counter node ∧ ∀ version, found = some version → version ∈ path := by
  induction walk with
  | stop low => exact Or.inl ⟨low, rfl, rfl⟩
  | last high ends => exact Or.inr ⟨high, by simp⟩
  | hop high link falls rest ih =>
    refine Or.inr ⟨high, ?_⟩
    intro version same
    rcases ih with ⟨_, _, here⟩ | ⟨_, behind⟩
    · rw [here] at same
      cases same
      exact List.mem_cons_self
    · exact List.mem_cons_of_mem _ (behind version same)

theorem Walk.congr (sameCounter : ∀ version ∈ node :: path, after version = counter version)
    (sameOlder : ∀ version ∈ node :: path, behind version = older version) :
    Walk after behind bound node path found := by
  induction walk with
  | stop low => exact .stop (by rwa [sameCounter _ List.mem_cons_self])
  | last high ends =>
    exact .last (by rwa [sameCounter _ List.mem_cons_self])
      (by rwa [sameOlder _ List.mem_cons_self])
  | hop high link falls rest ih =>
    have here := sameCounter _ List.mem_cons_self
    have next := sameCounter _ (List.mem_cons_of_mem _ List.mem_cons_self)
    refine .hop (by rwa [here]) (by rwa [sameOlder _ List.mem_cons_self]) (by rwa [here, next]) ?_
    exact ih (fun version mem => sameCounter version (List.mem_cons_of_mem _ mem))
      (fun version mem => sameOlder version (List.mem_cons_of_mem _ mem))

theorem Walk.push [DecidableEq N] {version : N} (higher : bound < after node)
    (link : behind node = some version) (copied : after version = counter node)
    (rises : counter node < after node) (chain : behind version = older node)
    (sameCounter : ∀ other ∈ path, after other = counter other)
    (sameOlder : ∀ other ∈ path, behind other = older other) :
    Walk after behind bound node (version :: path)
      (if found = some node then some version else found) := by
  refine .hop higher link (copied ▸ rises) ?_
  cases walk with
  | stop low =>
    rw [if_pos rfl]
    exact .stop (copied ▸ low)
  | last high ends => exact .last (copied ▸ high) (chain.trans ends)
  | hop high next falls rest =>
    have elsewhere : found ≠ some node := by
      intro same
      subst same
      have below : ∀ other, some node = some other → counter other < counter node := by
        intro other isFound
        rcases rest.found_cases with ⟨_, _, here⟩ | ⟨_, mem⟩
        · cases isFound.symm.trans here
          exact falls
        · exact lt_trans (rest.falls other (mem other isFound)) falls
      exact absurd (below node rfl) (Nat.lt_irrefl _)
    rw [if_neg elsewhere]
    have first := sameCounter _ List.mem_cons_self
    refine .hop (copied ▸ high) (chain.trans next) (by rwa [first, copied]) ?_
    exact rest.congr sameCounter sameOlder

end

end EunoDb.Chain
