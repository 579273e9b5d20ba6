import Mathlib.Data.List.Induction

/-! Fixed-size arrays. Reading an unwritten slot or past the end has no result. -/

namespace EunoDb.Slots

variable {α : Type}

def read (slots : List (Option α)) (i : Nat) : Option α := (slots[i]?).join

def write (slots : List (Option α)) (i : Nat) (x : α) : Option (List (Option α)) :=
  if i < slots.length then some (slots.set i (some x)) else none

def scan (slots : List (Option α)) (p : α → Bool) : Nat → Nat → Option Nat
  | k, 0 => some k
  | k, n + 1 => do
      let x ← read slots k
      if p x then scan slots p (k + 1) n else some k

def copy (source : List (Option α)) (offset : Nat) :
    Nat → Nat → List (Option α) → Option (List (Option α))
  | _, 0, target => some target
  | j, n + 1, target => do
      let x ← read source (offset + j)
      let target ← write target j x
      copy source offset (j + 1) n target

def shift (k : Nat) : Nat → List (Option α) → Option (List (Option α))
  | 0, slots => some slots
  | n + 1, slots => do
      let x ← read slots (k + n)
      let slots ← write slots (k + n + 1) x
      shift k n slots

def insertAt (slots : List (Option α)) (num k : Nat) (x : α) : Option (List (Option α)) := do
  let slots ← shift k (num - k) slots
  write slots k x

/-! The elements written so far stand at the front. -/

theorem read_append (first : List α) (x : α) (rest : List (Option α)) :
    read (first.map some ++ some x :: rest) first.length = some x := by
  simp [read]

theorem write_append (first : List α) (old : Option α) (x : α) (rest : List (Option α)) :
    write (first.map some ++ old :: rest) first.length x =
      some (first.map some ++ some x :: rest) := by
  simp [write]

theorem write_read {slots : List (Option α)} {i : Nat} {x : α} (found : read slots i = some x) :
    write slots i x = some slots := by
  have slot : slots[i]? = some (some x) := Option.join_eq_some_iff.mp found
  obtain ⟨inside, here⟩ := List.getElem?_eq_some_iff.mp slot
  rw [write, if_pos inside, ← here, List.set_getElem_self]

theorem scan_eq (p : α → Bool) (before pass stop : List α) (rest : List (Option α))
    (all : ∀ x ∈ pass, p x = true) (none_ : ∀ x ∈ stop.head?, p x = false) :
    scan ((before ++ pass ++ stop).map some ++ rest) p before.length (pass ++ stop).length =
      some (before.length + pass.length) := by
  induction pass generalizing before with
  | nil =>
    cases stop with
    | nil => rfl
    | cons x stop =>
      have here : read ((before ++ [] ++ x :: stop).map some ++ rest) before.length = some x := by
        simpa using read_append before x (stop.map some ++ rest)
      simp only [List.nil_append, List.length_cons, scan, here, Option.bind_eq_bind,
        Option.bind_some]
      rw [if_neg (by simp [none_ x (by simp)])]
      rfl
  | cons x pass ih =>
    have here : read ((before ++ x :: pass ++ stop).map some ++ rest) before.length = some x := by
      simpa using read_append before x ((pass ++ stop).map some ++ rest)
    have tail := ih (before ++ [x]) fun y mem => all y (List.mem_cons_of_mem x mem)
    simp only [List.append_assoc, List.cons_append, List.nil_append, List.length_append,
      List.length_cons, List.length_nil, Nat.zero_add] at tail
    simp only [List.cons_append, List.length_cons, scan, here, Option.bind_eq_bind,
      Option.bind_some, all x List.mem_cons_self, if_true]
    simp only [List.append_assoc, List.cons_append, List.length_append]
    rw [tail]
    congr 1
    omega

theorem exists_position (p : α → Bool) (list : List α)
    (ordered : list.Pairwise fun earlier later => p later = true → p earlier = true) :
    ∃ pass stop, list = pass ++ stop ∧ (∀ x ∈ pass, p x = true) ∧ ∀ x ∈ stop, p x = false := by
  induction list with
  | nil => exact ⟨[], [], rfl, by simp, by simp⟩
  | cons x rest ih =>
    obtain ⟨first, tail⟩ := List.pairwise_cons.mp ordered
    cases test : p x with
    | true =>
      obtain ⟨pass, stop, rfl, all, others⟩ := ih tail
      refine ⟨x :: pass, stop, rfl, ?_, others⟩
      intro y mem
      rcases List.mem_cons.mp mem with rfl | later
      · exact test
      · exact all y later
    | false =>
      refine ⟨[], x :: rest, rfl, by simp, ?_⟩
      intro y mem
      rcases List.mem_cons.mp mem with rfl | later
      · exact test
      · exact Bool.eq_false_iff.mpr fun passes => by simp [first y later passes] at test

theorem copy_eq (offset : Nat) (skipped copied done : List α) (rest old : List (Option α))
    (position : offset + done.length = skipped.length) (room : copied.length ≤ old.length) :
    copy ((skipped ++ copied).map some ++ rest) offset done.length copied.length
        (done.map some ++ old) =
      some ((done ++ copied).map some ++ old.drop copied.length) := by
  induction copied generalizing skipped done old with
  | nil => simp [copy]
  | cons x copied ih =>
    cases old with
    | nil => simp at room
    | cons slot old =>
      have here : read ((skipped ++ x :: copied).map some ++ rest) (offset + done.length) =
          some x := by
        rw [position]
        simpa using read_append skipped x (copied.map some ++ rest)
      have tail := ih (skipped ++ [x]) (done ++ [x]) old (by simp; omega) (by simpa using room)
      simp only [List.length_append, List.length_cons, List.length_nil, List.append_assoc,
        List.singleton_append, List.map_append, List.map_cons, List.map_nil] at tail
      simp only [List.length_cons, copy, here, Option.bind_eq_bind, Option.bind_some,
        write_append]
      simp only [List.map_append, List.map_cons, List.cons_append, List.append_assoc,
        List.drop_succ_cons]
      exact tail

theorem shift_eq (first moved : List α) (slot : Option α) (rest : List (Option α)) :
    ∃ junk, shift first.length moved.length ((first ++ moved).map some ++ slot :: rest) =
      some (first.map some ++ junk :: (moved.map some ++ rest)) := by
  induction moved using List.reverseRecOn generalizing slot rest with
  | nil => exact ⟨slot, by simp [shift]⟩
  | append_singleton moved x ih =>
    obtain ⟨junk, tail⟩ := ih (some x) (some x :: rest)
    refine ⟨junk, ?_⟩
    have here : read ((first ++ (moved ++ [x])).map some ++ slot :: rest)
        (first.length + moved.length) = some x := by
      have found := read_append (first ++ moved) x (slot :: rest)
      simpa using found
    have put : write ((first ++ (moved ++ [x])).map some ++ slot :: rest)
        (first.length + moved.length + 1) x =
        some ((first ++ moved).map some ++ some x :: some x :: rest) := by
      have written := write_append (first ++ moved ++ [x]) slot x rest
      rw [Nat.add_assoc]
      simpa using written
    simp only [List.length_append, List.length_cons, List.length_nil, Nat.zero_add, shift, here,
      put, Option.bind_eq_bind, Option.bind_some]
    rw [tail]
    simp

theorem insertAt_eq (first moved : List α) (slot : Option α) (x : α) (rest : List (Option α)) :
    insertAt ((first ++ moved).map some ++ slot :: rest) (first ++ moved).length first.length x =
      some ((first ++ x :: moved).map some ++ rest) := by
  obtain ⟨junk, room⟩ := shift_eq first moved slot rest
  have amount : (first ++ moved).length - first.length = moved.length := by simp
  simp only [insertAt, amount, room, Option.bind_eq_bind, Option.bind_some]
  simpa using write_append first junk x (moved.map some ++ rest)

/-! ### Arrays filled from the front -/

section Filled

variable {slots : List (Option α)} {list : List α} {size : Nat}

def Filled (slots : List (Option α)) (list : List α) (size : Nat) : Prop :=
  slots.length = size ∧ ∃ rest, slots = list.map some ++ rest

theorem filled_new (size : Nat) : Filled (List.replicate size (none : Option α)) [] size :=
  ⟨List.length_replicate, _, rfl⟩

section

variable (filled : Filled slots list size)

include filled

theorem Filled.length_le : list.length ≤ size := by
  obtain ⟨rfl, rest, rfl⟩ := filled
  simp

theorem Filled.write (room : list.length < size) (x : α) :
    ∃ after, write slots list.length x = some after ∧ Filled after (list ++ [x]) size := by
  obtain ⟨rfl, rest, rfl⟩ := filled
  cases rest with
  | nil => simp at room
  | cons old rest => exact ⟨_, write_append list old x rest, by simp, rest, by simp⟩

theorem Filled.copy (larger : Nat) (room : list.length ≤ larger) :
    ∃ after, copy slots 0 0 list.length (List.replicate larger none) = some after ∧
      Filled after list larger := by
  obtain ⟨rfl, rest, rfl⟩ := filled
  have copied := copy_eq 0 [] list [] rest (List.replicate larger none) rfl (by simpa using room)
  simp only [List.nil_append, List.map_nil, List.length_nil] at copied
  exact ⟨_, copied, by simp; omega, _, rfl⟩

theorem Filled.scan (p : α → Bool) :
    (∃ i x, list.find? (fun x => !p x) = some x ∧ i < list.length ∧
        scan slots p 0 list.length = some i ∧ read slots i = some x) ∨
      (list.find? fun x => !p x) = none ∧ scan slots p 0 list.length = some list.length := by
  obtain ⟨-, rest, rfl⟩ := filled
  cases found : list.find? fun x => !p x with
  | some x =>
    obtain ⟨fails, pass, stop, rfl, all⟩ := List.find?_eq_some_iff_append.mp found
    have scanned := scan_eq p [] pass (x :: stop) rest (by simpa using all) (by simpa using fails)
    refine Or.inl ⟨pass.length, x, rfl, by simp, by simpa using scanned, ?_⟩
    simpa using read_append pass x (stop.map some ++ rest)
  | none =>
    have scanned := scan_eq p [] list [] rest (by simpa using found) (by simp)
    exact Or.inr ⟨rfl, by simpa using scanned⟩

end

end Filled

end EunoDb.Slots
