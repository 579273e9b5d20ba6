import Mathlib.Order.Defs.Unbundled
import Mathlib.Data.List.Basic

/-! A set as a list in increasing order of a rank. -/

namespace EunoDb.OrderedList

variable {α β : Type} (lt : β → β → Prop) [DecidableRel lt] [DecidableEq β] (rank : α → β)

def Ordered (list : List α) : Prop := list.Pairwise fun first second => lt (rank first) (rank second)

def insert (x : α) : List α → List α
  | [] => [x]
  | y :: rest =>
    if lt (rank y) (rank x) then y :: insert x rest
    else if rank y = rank x then y :: rest
    else x :: y :: rest

def seek (target : β) (list : List α) : Option α :=
  list.find? fun y => !decide (lt (rank y) target)

variable {lt rank}

variable {x y : α} {list : List α} {target : β}

theorem mem_of_mem_insert (mem : y ∈ insert lt rank x list) : y = x ∨ y ∈ list := by
  induction list with
  | nil => simpa [insert] using mem
  | cons z rest ih =>
    simp only [insert] at mem
    split at mem
    · rcases List.mem_cons.mp mem with rfl | inside
      · exact Or.inr List.mem_cons_self
      · exact (ih inside).imp_right (List.mem_cons_of_mem z)
    · split at mem
      · exact Or.inr mem
      · exact List.mem_cons.mp mem

theorem mem_insert_of_mem (mem : y ∈ list) : y ∈ insert lt rank x list := by
  induction list with
  | nil => simp at mem
  | cons z rest ih =>
    simp only [insert]
    split
    · rcases List.mem_cons.mp mem with rfl | inside
      · exact List.mem_cons_self
      · exact List.mem_cons_of_mem z (ih inside)
    · split
      · exact mem
      · exact List.mem_cons_of_mem x mem

theorem exists_rank_insert (x : α) (list : List α) :
    ∃ y ∈ insert lt rank x list, rank y = rank x := by
  induction list with
  | nil => exact ⟨x, List.mem_cons_self, rfl⟩
  | cons z rest ih =>
    simp only [insert]
    split
    · obtain ⟨y, mem, same⟩ := ih
      exact ⟨y, List.mem_cons_of_mem z mem, same⟩
    · split
      · rename_i equal
        exact ⟨z, List.mem_cons_self, equal⟩
      · exact ⟨x, List.mem_cons_self, rfl⟩

theorem mem_insert (fresh : ∀ z ∈ list, rank z = rank x → z = x) :
    y ∈ insert lt rank x list ↔ y = x ∨ y ∈ list := by
  refine ⟨mem_of_mem_insert, ?_⟩
  induction list with
  | nil => simp [insert]
  | cons z rest ih =>
    intro mem
    have tail := ih fun other inside => fresh other (List.mem_cons_of_mem z inside)
    simp only [insert]
    split
    · rcases mem with same | inside
      · exact List.mem_cons_of_mem z (tail (Or.inl same))
      · rcases List.mem_cons.mp inside with rfl | inside
        · exact List.mem_cons_self
        · exact List.mem_cons_of_mem z (tail (Or.inr inside))
    · split
      · rename_i equal
        rcases mem with rfl | inside
        · rw [fresh z List.mem_cons_self equal]
          exact List.mem_cons_self
        · exact inside
      · exact List.mem_cons.mpr mem

omit [DecidableEq β] in
theorem seek_eq_some (ordered : Ordered lt rank list) (found : seek lt rank target list = some x) :
    x ∈ list ∧ ¬ lt (rank x) target ∧
      ∀ y ∈ list, ¬ lt (rank y) target → y = x ∨ lt (rank x) (rank y) := by
  induction list with
  | nil => cases found
  | cons z rest ih =>
    obtain ⟨first, tail⟩ := List.pairwise_cons.mp ordered
    unfold seek at found
    by_cases before : lt (rank z) target
    · rw [List.find?_cons_of_neg (by simp [before])] at found
      obtain ⟨mem, notBefore, least⟩ := ih tail found
      refine ⟨List.mem_cons_of_mem z mem, notBefore, ?_⟩
      intro y inside late
      rcases List.mem_cons.mp inside with rfl | inside
      · exact absurd before late
      · exact least y inside late
    · rw [List.find?_cons_of_pos (by simp [before])] at found
      cases found
      refine ⟨List.mem_cons_self, before, ?_⟩
      intro y inside _
      exact (List.mem_cons.mp inside).imp_right (first y)

omit [DecidableEq β] in
theorem seek_eq_none (missing : seek lt rank target list = none) (mem : x ∈ list) :
    lt (rank x) target := by
  have before := List.find?_eq_none.mp missing x mem
  simpa using before

variable [IsStrictTotalOrder β lt]

theorem insert_ordered (x : α) (ordered : Ordered lt rank list) :
    Ordered lt rank (insert lt rank x list) := by
  induction list with
  | nil => exact List.pairwise_singleton ..
  | cons y rest ih =>
    obtain ⟨first, tail⟩ := List.pairwise_cons.mp ordered
    simp only [insert]
    split
    · rename_i after
      refine List.pairwise_cons.mpr ⟨?_, ih tail⟩
      intro z mem
      rcases mem_of_mem_insert mem with rfl | inside
      · exact after
      · exact first z inside
    rename_i notAfter
    split
    · exact ordered
    rename_i different
    have front : lt (rank x) (rank y) := by
      rcases trichotomous_of lt (rank x) (rank y) with less | equal | more
      · exact less
      · exact absurd equal.symm different
      · exact absurd more notAfter
    refine List.pairwise_cons.mpr ⟨?_, ordered⟩
    intro z mem
    rcases List.mem_cons.mp mem with rfl | inside
    · exact front
    · exact trans_of lt front (first z inside)

end EunoDb.OrderedList
