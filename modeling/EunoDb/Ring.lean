import Mathlib.Data.List.Basic
import Mathlib.Data.Nat.ModEq
import Mathlib.Logic.Function.Basic

/-! Ring buffers with one free slot. `Holds` says which list stands in one. -/

namespace EunoDb

structure Ring (α : Type) where
  slots : Nat → Option α := fun _ => none
  head : Nat := 0
  tail : Nat := 0

namespace Ring

variable {α : Type} {size : Nat} {ring : Ring α} {list : List α}

def push (size : Nat) (ring : Ring α) (x : α) : Ring α :=
  { ring with slots := Function.update ring.slots ring.tail (some x), tail := (ring.tail + 1) % size }

def pop (size : Nat) (ring : Ring α) : Ring α :=
  { ring with head := (ring.head + 1) % size }

structure Holds (size : Nat) (ring : Ring α) (list : List α) : Prop where
  inside : ring.head < size
  room : list.length < size
  tail : ring.tail = (ring.head + list.length) % size
  slots : ∀ i x, list[i]? = some x → ring.slots ((ring.head + i) % size) = some x

theorem holds_nil (some_ : 0 < size) : Holds size ({} : Ring α) [] :=
  ⟨some_, some_, (Nat.zero_mod size).symm, fun i x found => by cases found⟩

theorem position_ne {base first second : Nat} (less : first < second) (near : second - first < size) :
    (base + first) % size ≠ (base + second) % size := by
  intro same
  have divides : size ∣ base + second - (base + first) := (Nat.modEq_iff_dvd' (by omega)).mp same
  have whole := Nat.le_of_dvd (by omega) divides
  omega

section

variable (holds : Holds size ring list)

include holds

theorem Holds.empty_iff : ring.head = ring.tail ↔ list = [] := by
  have start : (ring.head + 0) % size = ring.head := Nat.mod_eq_of_lt holds.inside
  rw [holds.tail]
  constructor
  · intro same
    by_contra nonempty
    have some_ : 0 < list.length := List.length_pos_iff.mpr nonempty
    have room := holds.room
    exact position_ne some_ (by omega) (start.trans same)
  · rintro rfl
    exact start.symm

theorem Holds.next_tail : (ring.tail + 1) % size = (ring.head + (list.length + 1)) % size := by
  rw [holds.tail, Nat.mod_add_mod, Nat.add_assoc]

theorem Holds.full_iff : (ring.tail + 1) % size = ring.head ↔ list.length + 1 = size := by
  have start : (ring.head + 0) % size = ring.head := Nat.mod_eq_of_lt holds.inside
  have room := holds.room
  rw [holds.next_tail]
  constructor
  · intro same
    by_contra notFull
    exact position_ne (Nat.succ_pos _) (by omega) (start.trans same.symm)
  · intro full
    rw [full, Nat.add_mod_right]
    exact start

theorem Holds.push (x : α) (room : list.length + 1 < size) :
    Holds size (ring.push size x) (list ++ [x]) := by
  refine ⟨holds.inside, by simpa using room, ?_, fun i y found => ?_⟩
  · rw [List.length_append, List.length_singleton]
    exact holds.next_tail
  by_cases last : i = list.length
  · subst last
    rw [List.getElem?_concat_length] at found
    cases found
    exact (congrArg _ holds.tail.symm).trans (Function.update_self ..)
  have bound := (List.getElem?_eq_some_iff.mp found).1
  rw [List.length_append, List.length_singleton] at bound
  have earlier : i < list.length := by omega
  rw [List.getElem?_append_left earlier] at found
  have different : (ring.head + i) % size ≠ ring.tail := by
    rw [holds.tail]
    exact position_ne earlier (by omega)
  exact (Function.update_of_ne different ..).trans (holds.slots i y found)

end

theorem Holds.front {x : α} (holds : Holds size ring (x :: list)) :
    ring.slots ring.head = some x := by
  have first := holds.slots 0 x rfl
  rwa [Nat.add_zero, Nat.mod_eq_of_lt holds.inside] at first

theorem Holds.pop {x : α} (holds : Holds size ring (x :: list)) : Holds size (ring.pop size) list := by
  have room := holds.room
  rw [List.length_cons] at room
  have some_ : 0 < size := Nat.lt_of_le_of_lt (Nat.zero_le _) holds.inside
  have shifted : ∀ i, ((ring.head + 1) % size + i) % size = (ring.head + (i + 1)) % size := by
    intro i
    rw [Nat.mod_add_mod, Nat.add_assoc, Nat.add_comm 1 i]
  refine ⟨Nat.mod_lt _ some_, by omega, ?_, fun i y found => ?_⟩
  · rw [Ring.pop, shifted]
    exact holds.tail
  · rw [Ring.pop, shifted]
    exact holds.slots (i + 1) y found

end Ring

end EunoDb
