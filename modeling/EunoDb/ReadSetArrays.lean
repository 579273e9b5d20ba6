import EunoDb.Execution
import EunoDb.Slots
import EunoDb.TxSets
import Mathlib.Algebra.Group.Nat.Defs

/-! The arrays of `DBTX::ReadSet`, with one `max_length`, an `int`. -/

namespace EunoDb.ReadSetArrays

open Execution Memstore Slots
open TxSets (RSSeqPair RSSuccPair noConflict)

variable {Link : Type}

structure ReadSet (Link : Type) where
  maxLength : Nat := 1024
  elems : Nat := 0
  seqs : List (Option RSSeqPair) := List.replicate 1024 none
  rangeElems : Nat := 0
  nexts : List (Option (RSSuccPair Link)) := List.replicate 1024 none

def ReadSet.resize (rs : ReadSet Link) : Option (ReadSet Link) := do
  let maxLength := rs.maxLength * 2
  if maxLength < 2 ^ 31 then
    let ns ← copy rs.seqs 0 0 rs.elems (List.replicate maxLength none)
    let nts ← copy rs.nexts 0 0 rs.rangeElems (List.replicate maxLength none)
    some { rs with maxLength := maxLength, seqs := ns, nexts := nts }
  else none

def ReadSet.reserve (rs : ReadSet Link) (n : Nat) : Option (ReadSet Link) :=
  if n = rs.maxLength then rs.resize else some rs

def ReadSet.addNext (rs : ReadSet Link) (ptr : Link) (value : Option NodeId) :
    Option (ReadSet Link) := do
  let rs ← rs.reserve rs.rangeElems
  let nexts ← write rs.nexts rs.rangeElems ⟨value, ptr⟩
  some { rs with rangeElems := rs.rangeElems + 1, nexts := nexts }

def ReadSet.add (rs : ReadSet Link) (heap : Heap) (ptr : NodeId) (label : Int) :
    Option (ReadSet Link) := do
  let rs ← rs.reserve rs.elems
  let seqs ← write rs.seqs rs.elems ⟨(heap ptr).seq, ptr, label⟩
  some { rs with elems := rs.elems + 1, seqs := seqs }

def ReadSet.validate (rs : ReadSet Link) (heap : Heap) (nextOf : Link → Option NodeId) :
    Option Int := do
  let i ← scan rs.seqs (fun pair => pair.seq = (heap pair.seqptr).seq) 0 rs.elems
  if i < rs.elems then
    let pair ← read rs.seqs i
    some pair.label
  else
    let i ← scan rs.nexts (fun pair => pair.next = nextOf pair.nextptr) 0 rs.rangeElems
    some (if i < rs.rangeElems then 0 else noConflict)

inductive Call (Link : Type) where
  | add (heap : Heap) (ptr : NodeId) (label : Int)
  | addNext (ptr : Link) (value : Option NodeId)

def step (rs : ReadSet Link) : Call Link → Option (ReadSet Link)
  | .add heap ptr label => rs.add heap ptr label
  | .addNext ptr value => rs.addNext ptr value

/-! ### The arrays hold the lists -/

structure Holds (rs : ReadSet Link) (spec : TxSets.ReadSet Link) : Prop where
  seqs : Filled rs.seqs spec.seqs rs.maxLength
  elems : rs.elems = spec.seqs.length
  nexts : Filled rs.nexts spec.nexts rs.maxLength
  rangeElems : rs.rangeElems = spec.nexts.length
  doubled : ∃ k ≤ 20, rs.maxLength = 1024 * 2 ^ k

variable {rs : ReadSet Link} {spec : TxSets.ReadSet Link}

theorem holds_new : Holds ({} : ReadSet Link) {} :=
  ⟨filled_new 1024, rfl, filled_new 1024, rfl, 0, by decide, rfl⟩

section

variable (holds : Holds rs spec)

include holds

theorem Holds.maxLength_le : rs.maxLength ≤ 2 ^ 30 := by
  obtain ⟨k, small, length⟩ := holds.doubled
  have power := Nat.pow_le_pow_right (show 0 < 2 by decide) small
  omega

theorem Holds.resize (room : rs.maxLength < 2 ^ 30) :
    ∃ after, rs.resize = some after ∧ Holds after spec ∧ after.maxLength = rs.maxLength * 2 := by
  obtain ⟨k, small, length⟩ := holds.doubled
  have more : k + 1 ≤ 20 := by
    by_contra
    obtain rfl : k = 20 := by omega
    omega
  have double : rs.maxLength * 2 = 1024 * 2 ^ (k + 1) := by
    rw [length, Nat.pow_succ, Nat.mul_assoc]
  have twice : rs.maxLength ≤ rs.maxLength * 2 := by omega
  obtain ⟨ns, copied, seqs⟩ := holds.seqs.copy _ (Nat.le_trans holds.seqs.length_le twice)
  obtain ⟨nts, copied', nexts⟩ := holds.nexts.copy _ (Nat.le_trans holds.nexts.length_le twice)
  rw [← holds.elems] at copied
  rw [← holds.rangeElems] at copied'
  refine ⟨{ rs with maxLength := rs.maxLength * 2, seqs := ns, nexts := nts }, ?_,
    ⟨seqs, holds.elems, nexts, holds.rangeElems, k + 1, more, double⟩, rfl⟩
  simp only [ReadSet.resize, if_pos (show rs.maxLength * 2 < 2 ^ 31 by omega), copied, copied',
    Option.bind_eq_bind, Option.bind_some]

theorem Holds.reserve {n : Nat} (inside : n ≤ rs.maxLength) (few : n < 2 ^ 30) :
    ∃ after, rs.reserve n = some after ∧ Holds after spec ∧ n < after.maxLength := by
  by_cases full : n = rs.maxLength
  · obtain ⟨after, resized, holds, double⟩ := holds.resize (full ▸ few)
    obtain ⟨k, -, length⟩ := holds.doubled
    have some_ := Nat.two_pow_pos k
    exact ⟨after, by rw [ReadSet.reserve, if_pos full, resized], holds, by omega⟩
  · exact ⟨rs, if_neg full, holds, by omega⟩

theorem Holds.add (few : spec.seqs.length < 2 ^ 30) (heap : Heap) (ptr : NodeId) (label : Int) :
    ∃ after, rs.add heap ptr label = some after ∧ Holds after (spec.add heap ptr label) := by
  obtain ⟨grown, resized, kept, room⟩ := holds.reserve holds.seqs.length_le few
  obtain ⟨seqs, written, filled⟩ := kept.seqs.write room ⟨(heap ptr).seq, ptr, label⟩
  rw [← holds.elems] at resized
  rw [← kept.elems] at written
  refine ⟨{ grown with elems := grown.elems + 1, seqs := seqs }, ?_,
    ⟨filled, ?_, kept.nexts, kept.rangeElems, kept.doubled⟩⟩
  · simp only [ReadSet.add, resized, written, Option.bind_eq_bind, Option.bind_some]
  · simp only [TxSets.ReadSet.add, List.length_append, List.length_singleton, kept.elems]

theorem Holds.addNext (few : spec.nexts.length < 2 ^ 30) (ptr : Link) (value : Option NodeId) :
    ∃ after, rs.addNext ptr value = some after ∧ Holds after (spec.addNext ptr value) := by
  obtain ⟨grown, resized, kept, room⟩ := holds.reserve holds.nexts.length_le few
  obtain ⟨nexts, written, filled⟩ := kept.nexts.write room ⟨value, ptr⟩
  rw [← holds.rangeElems] at resized
  rw [← kept.rangeElems] at written
  refine ⟨{ grown with rangeElems := grown.rangeElems + 1, nexts := nexts }, ?_,
    ⟨kept.seqs, kept.elems, filled, ?_, kept.doubled⟩⟩
  · simp only [ReadSet.addNext, resized, written, Option.bind_eq_bind, Option.bind_some]
  · simp only [TxSets.ReadSet.addNext, List.length_append, List.length_singleton, kept.rangeElems]

theorem Holds.validate (heap : Heap) (nextOf : Link → Option NodeId) :
    rs.validate heap nextOf = some (spec.validate heap nextOf) := by
  have changed : (fun pair : RSSeqPair => decide (pair.seq ≠ (heap pair.seqptr).seq)) =
      fun pair => !decide (pair.seq = (heap pair.seqptr).seq) := funext fun _ => decide_not
  rw [ReadSet.validate, TxSets.ReadSet.validate, holds.elems, changed]
  rcases holds.seqs.scan fun pair => pair.seq = (heap pair.seqptr).seq with
    ⟨i, pair, found, inside, scanned, here⟩ | ⟨none_, scanned⟩
  · simp only [found, scanned, if_pos inside, here, Option.bind_eq_bind, Option.bind_some]
  have broken : (fun pair : RSSuccPair Link => decide (pair.next ≠ nextOf pair.nextptr)) =
      fun pair => !decide (pair.next = nextOf pair.nextptr) := funext fun _ => decide_not
  simp only [none_, scanned, Nat.lt_irrefl, if_false, Option.bind_eq_bind, Option.bind_some]
  rw [holds.rangeElems, broken, ← List.isSome_find?]
  rcases holds.nexts.scan fun pair => pair.next = nextOf pair.nextptr with
    ⟨i, pair, found, inside, scanned, here⟩ | ⟨none_, scanned⟩
  · simp [found, scanned, inside]
  · simp [none_, scanned]

end

/-! ### Sequences of calls -/

def record (spec : TxSets.ReadSet Link) : Call Link → TxSets.ReadSet Link
  | .add heap ptr label => spec.add heap ptr label
  | .addNext ptr value => spec.addNext ptr value

theorem record_grows (calls : List (Call Link)) (spec : TxSets.ReadSet Link) :
    spec.seqs.length ≤ (calls.foldl record spec).seqs.length ∧
      spec.nexts.length ≤ (calls.foldl record spec).nexts.length := by
  induction calls generalizing spec with
  | nil => exact ⟨Nat.le_refl _, Nat.le_refl _⟩
  | cons call rest ih =>
    have later := ih (record spec call)
    cases call <;>
      simp only [List.foldl_cons, record, TxSets.ReadSet.add, TxSets.ReadSet.addNext,
        List.length_append] at later ⊢ <;> omega

theorem Holds.run {calls : List (Call Link)} (holds : Holds rs spec)
    (few : (calls.foldl record spec).seqs.length ≤ 2 ^ 30)
    (few' : (calls.foldl record spec).nexts.length ≤ 2 ^ 30) :
    ∃ final, run step rs calls = some final ∧ Holds final (calls.foldl record spec) := by
  induction calls generalizing rs spec with
  | nil => exact ⟨rs, rfl, holds⟩
  | cons call rest ih =>
    have grows := record_grows rest (record spec call)
    rw [List.foldl_cons] at few few' ⊢
    obtain ⟨next, taken, kept⟩ : ∃ next, step rs call = some next ∧ Holds next (record spec call) := by
      cases call with
      | add heap ptr label =>
        refine holds.add ?_ heap ptr label
        simp only [record, TxSets.ReadSet.add, List.length_append, List.length_singleton] at grows few
        omega
      | addNext ptr value =>
        refine holds.addNext ?_ ptr value
        simp only [record, TxSets.ReadSet.addNext, List.length_append, List.length_singleton]
          at grows few'
        omega
    obtain ⟨final, ran, last⟩ := ih kept few few'
    exact ⟨final, (run_cons ..).mpr ⟨next, taken, ran⟩, last⟩

/-- As long as neither array gets more than 2 ^ 30 entries, every sequence of calls returns with
the arrays holding all entries in order, and `Validate` returns `NO_CONFLICT` if and only
if nothing that was recorded has changed. -/
theorem validate_exact (calls : List (Call Link))
    (few : (calls.foldl record {}).seqs.length ≤ 2 ^ 30)
    (few' : (calls.foldl record {}).nexts.length ≤ 2 ^ 30)
    (labels : ∀ pair ∈ (calls.foldl record {}).seqs, 0 ≤ pair.label) :
    ∃ rs, run step {} calls = some rs ∧ Holds rs (calls.foldl record {}) ∧
      ∀ (heap : Heap) (nextOf : Link → Option NodeId), ∃ result,
        rs.validate heap nextOf = some result ∧
          (result = noConflict ↔
            (∀ pair ∈ (calls.foldl record {}).seqs, pair.seq = (heap pair.seqptr).seq) ∧
              ∀ pair ∈ (calls.foldl record {}).nexts, pair.next = nextOf pair.nextptr) := by
  obtain ⟨rs, ran, holds⟩ := holds_new.run few few'
  exact ⟨rs, ran, holds, fun heap nextOf => ⟨_, holds.validate heap nextOf,
    TxSets.ReadSet.validate_eq_noConflict _ heap nextOf labels⟩⟩

/-- One entry more than the first arrays can take, and a link: the arrays have grown, and
`Validate` sees the one record that has changed behind the old end. -/
def grown : List (Call Unit) :=
  List.replicate 1024 (.add (fun _ => {}) 3 0) ++ [.addNext () none, .add (fun _ => {}) 4 0]

theorem validate_exact_grown : ∃ rs, run step {} grown = some rs ∧ 1024 < rs.maxLength ∧
    (∃ result, rs.validate (fun _ => {}) (fun _ => none) = some result ∧ result = noConflict) ∧
    ∃ result, rs.validate (fun node => if node = 4 then { seq := 9 } else {}) (fun _ => none) =
      some result ∧ result ≠ noConflict := by
  obtain ⟨rs, ran, holds, exact_⟩ := validate_exact grown (by decide +kernel) (by decide +kernel)
    (by decide +kernel)
  refine ⟨rs, ran, ?_, ?_, ?_⟩
  · have long : (grown.foldl record {}).seqs.length = 1025 := by decide +kernel
    have inside := holds.seqs.length_le
    omega
  · obtain ⟨result, validated, same⟩ := exact_ (fun _ => {}) fun _ => none
    exact ⟨result, validated, same.mpr (by decide +kernel)⟩
  · obtain ⟨result, validated, same⟩ :=
      exact_ (fun node => if node = 4 then { seq := 9 } else {}) fun _ => none
    exact ⟨result, validated, mt same.mp (by decide +kernel)⟩

theorem Holds.add_full (holds : Holds rs spec) (full : spec.seqs.length = 2 ^ 30) (heap : Heap)
    (ptr : NodeId) (label : Int) : rs.add heap ptr label = none := by
  have length : rs.maxLength = 2 ^ 30 :=
    Nat.le_antisymm holds.maxLength_le (full ▸ holds.seqs.length_le)
  have resized : rs.resize = none := by
    simp only [ReadSet.resize, length]
    rfl
  rw [ReadSet.add, ReadSet.reserve, if_pos (by rw [holds.elems, full, length]), resized]
  rfl

theorem add_overflows : run step ({} : ReadSet Empty)
    (List.replicate (2 ^ 30) (.add (fun _ => {}) 0 0) ++ [.add (fun _ => {}) 0 0]) = none := by
  have entries : ∀ (n : Nat) (spec : TxSets.ReadSet Empty),
      ((List.replicate n (.add (fun _ => {}) 0 0)).foldl record spec).seqs.length =
          spec.seqs.length + n ∧
        ((List.replicate n (.add (fun _ => {}) 0 0)).foldl record spec).nexts = spec.nexts := by
    intro n
    induction n with
    | zero => exact fun spec => ⟨rfl, rfl⟩
    | succ n ih =>
      intro spec
      obtain ⟨seqs, nexts⟩ := ih (record spec (.add (fun _ => {}) 0 0))
      rw [List.replicate_succ, List.foldl_cons]
      refine ⟨seqs.trans ?_, nexts⟩
      simp only [record, TxSets.ReadSet.add, List.length_append, List.length_singleton]
      omega
  obtain ⟨seqs, nexts⟩ := entries (2 ^ 30) {}
  rw [List.length_nil, Nat.zero_add] at seqs
  obtain ⟨rs, ran, holds⟩ := holds_new.run seqs.le (by rw [nexts]; decide)
  rw [run_append, ran]
  simp only [Option.bind_some, run, step, holds.add_full seqs, Option.bind_none]

end EunoDb.ReadSetArrays
