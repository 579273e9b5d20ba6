import EunoDb.OrderedList
import Mathlib.Order.WithBot

/-! `TXMemStore`, ordered by key and from new to old. Sequence numbers are unbounded, so
`(uint64_t)-1` is above all. -/

namespace EunoDb

open OrderedList

structure TableKey (Key Val : Type) where
  k : Key
  v : Val
  seq : Nat
  deriving DecidableEq, Repr

section Order

variable {Key Val : Type} [LinearOrder Key]

abbrev TableKey.Rank (Key : Type) := Key × WithTop Nat

def TableKey.rank (entry : TableKey Key Val) : TableKey.Rank Key := (entry.k, WithTop.some entry.seq)

def before (a b : TableKey.Rank Key) : Prop := a.1 < b.1 ∨ a.1 = b.1 ∧ b.2 < a.2

instance : @DecidableRel (TableKey.Rank Key) (TableKey.Rank Key) before := fun a b =>
  inferInstanceAs (Decidable (a.1 < b.1 ∨ a.1 = b.1 ∧ b.2 < a.2))

instance : IsStrictTotalOrder (TableKey.Rank Key) before where
  trichotomous := by
    rintro ⟨a, m⟩ ⟨b, n⟩ notBefore notAfter
    simp only [before, not_or, not_and, not_lt] at notBefore notAfter
    obtain rfl := le_antisymm notAfter.1 notBefore.1
    exact Prod.ext rfl (le_antisymm (notBefore.2 rfl) (notAfter.2 rfl))
  irrefl := by
    rintro ⟨a, m⟩ (less | ⟨_, less⟩)
    · exact lt_irrefl a less
    · exact lt_irrefl m less
  trans := by
    rintro ⟨a, m⟩ ⟨b, n⟩ ⟨c, o⟩ (first | ⟨rfl, first⟩) (second | ⟨rfl, second⟩)
    · exact Or.inl (lt_trans first second)
    · exact Or.inl first
    · exact Or.inl second
    · exact Or.inr ⟨rfl, lt_trans second first⟩

end Order

structure TXMemStore (Key Val : Type) [LinearOrder Key] where
  table : List (TableKey Key Val) := []
  ordered : Ordered before TableKey.rank table := by exact List.Pairwise.nil

namespace TXMemStore

variable {Key Val : Type} [LinearOrder Key]

def put (store : TXMemStore Key Val) (k : Key) (val : Val) (seq : Nat) : TXMemStore Key Val where
  table := insert before TableKey.rank ⟨k, val, seq⟩ store.table
  ordered := insert_ordered _ store.ordered

def get (store : TXMemStore Key Val) (k : Key) (seq : Nat) : Option Val :=
  match seek before TableKey.rank (k, WithTop.some seq) store.table with
  | some res => if k = res.k then (if seq ≠ res.seq then none else some res.v) else none
  | none => none

def getMaxSeq (store : TXMemStore Key Val) (k : Key) : Option Nat :=
  match seek before TableKey.rank (k, ⊤) store.table with
  | some res => if k = res.k then some res.seq else none
  | none => none

variable {store : TXMemStore Key Val} {k : Key} {val : Val} {seq : Nat}

theorem mem_put (fresh : ∀ v, ⟨k, v, seq⟩ ∈ store.table → v = val) (entry : TableKey Key Val) :
    entry ∈ (store.put k val seq).table ↔ entry = ⟨k, val, seq⟩ ∨ entry ∈ store.table := by
  apply mem_insert
  rintro ⟨k', v, n⟩ mem same
  simp only [TableKey.rank, Prod.mk.injEq, WithTop.coe_inj] at same
  obtain ⟨rfl, rfl⟩ := same
  rw [fresh v mem]

theorem get_eq_some : store.get k seq = some val ↔ ⟨k, val, seq⟩ ∈ store.table := by
  constructor
  · intro found
    unfold get at found
    split at found
    · rename_i res sought
      obtain ⟨mem, _, _⟩ := seek_eq_some store.ordered sought
      split at found
      · rename_i same
        split at found
        · cases found
        · rename_i version
          cases found
          rw [same, not_ne_iff.mp version]
          exact mem
      · cases found
    · cases found
  · intro mem
    have late : ¬ before (TableKey.rank ⟨k, val, seq⟩) (k, WithTop.some seq) :=
      irrefl_of before _
    unfold get
    cases sought : seek before TableKey.rank (k, WithTop.some seq) store.table with
    | none => exact absurd (seek_eq_none sought mem) late
    | some res =>
      obtain ⟨_, notBefore, least⟩ := seek_eq_some store.ordered sought
      rcases least _ mem late with rfl | before
      · simp
      · exact absurd before notBefore

theorem getMaxSeq_eq (mem : ⟨k, val, seq⟩ ∈ store.table)
    (newest : ∀ v n, ⟨k, v, n⟩ ∈ store.table → n ≤ seq) : store.getMaxSeq k = some seq := by
  have late : ¬ before (TableKey.rank ⟨k, val, seq⟩) (k, ⊤) := by
    simp [before, TableKey.rank]
  unfold getMaxSeq
  cases sought : seek before TableKey.rank (k, ⊤) store.table with
  | none => exact absurd (seek_eq_none sought mem) late
  | some res =>
    obtain ⟨inside, notBefore, least⟩ := seek_eq_some store.ordered sought
    rcases least _ mem late with rfl | smaller | ⟨same, older⟩
    · simp
    · exact absurd (Or.inl smaller) notBefore
    -- a version in front would be newer still
    have bound := newest res.v res.seq (by
      rw [show k = res.k from same.symm]
      exact inside)
    exact absurd (WithTop.coe_lt_coe.mp older) (not_lt.mpr bound)

theorem getMaxSeq_eq_none (absent : ∀ v n, ⟨k, v, n⟩ ∉ store.table) : store.getMaxSeq k = none := by
  unfold getMaxSeq
  cases sought : seek before TableKey.rank (k, ⊤) store.table with
  | none => rfl
  | some res =>
    have different : k ≠ res.k := by
      rintro rfl
      exact absent res.v res.seq (seek_eq_some store.ordered sought).1
    simp [different]

theorem seqs_nodup (store : TXMemStore Key Val) (k : Key) :
    ((store.table.filter fun entry => entry.k = k).map TableKey.seq).Nodup := by
  rw [List.nodup_iff_pairwise_ne, List.pairwise_map, List.pairwise_filter]
  refine store.ordered.imp ?_
  intro a b apart first second same
  have equal : a.rank = b.rank := by
    rw [TableKey.rank, TableKey.rank, of_decide_eq_true first, of_decide_eq_true second, same]
  rw [equal] at apart
  exact irrefl_of before _ apart

end TXMemStore

end EunoDb
