import EunoDb.RangeScan
import Mathlib.Data.List.Nodup
import Mathlib.Order.RelClasses
import Mathlib.Order.Nat

/-! Range scans and the state that `End` validates. -/

namespace EunoDb.RangeScan

variable {Val : Type}

/-! ### The calls run alone -/

def first (table : Table Val) (wanted : Key → Bool) : Option (Key × Val) :=
  table.findSome? fun record =>
    if wanted record.key then record.value.validate.map (record.key, ·) else none

def aloneAnswer (table : Table Val) (position : Option Key) : Call → Option (Key × Val)
  | .seek low => first table (low ≤ ·)
  | .next => position.bind fun key => first table (key < ·)

def aloneStep (table : Table Val) (state : List (Option (Key × Val)) × Option Key) (call : Call) :
    List (Option (Key × Val)) × Option Key :=
  let answer := aloneAnswer table state.2 call
  (state.1 ++ [answer], answer.map Prod.fst)

def alone (table : Table Val) (calls : List Call) : List (Option (Key × Val)) :=
  (calls.foldl (aloneStep table) ([], none)).1

def position (table : Table Val) (calls : List Call) : Option Key :=
  (calls.foldl (aloneStep table) ([], none)).2

theorem alone_append (table : Table Val) (calls : List Call) (call : Call) :
    alone table (calls ++ [call]) =
      alone table calls ++ [aloneAnswer table (position table calls) call] := by
  simp only [alone, position, List.foldl_append, List.foldl_cons, List.foldl_nil, aloneStep]

theorem position_append (table : Table Val) (calls : List Call) (call : Call) :
    position table (calls ++ [call]) =
      (aloneAnswer table (position table calls) call).map Prod.fst := by
  simp only [position, List.foldl_append, List.foldl_cons, List.foldl_nil, aloneStep]

/-! ### Tables -/

def Ordered (table : Table Val) : Prop := OrderedList.Ordered (· < ·) Record.key table

variable {table : Table Val} {link : Link} {record : Record Val} {key : Key}

theorem Ordered.pairwise (ordered : Ordered table) :
    table.Pairwise fun earlier later => earlier.key < later.key := ordered

theorem next_eq_none (ended : next table link = none) (mem : record ∈ table) :
    after link record.key = false := by
  have absent := List.find?_eq_none.mp (Option.map_eq_none_iff.mp ended) record mem
  simpa using absent

theorem next_eq_some (ordered : Ordered table) (found : next table link = some key) :
    ∃ before record rest, table = before ++ record :: rest ∧ record.key = key ∧
      after link key = true ∧ (∀ other ∈ before, after link other.key = false ∧ other.key < key) ∧
      ∀ other ∈ rest, key < other.key := by
  obtain ⟨record, isFirst, rfl⟩ := Option.map_eq_some_iff.mp found
  obtain ⟨passes, before, rest, rfl, skipped⟩ := List.find?_eq_some_iff_append.mp isFirst
  obtain ⟨-, later, apart⟩ := List.pairwise_append.mp ordered.pairwise
  refine ⟨before, record, rest, rfl, rfl, passes, ?_, (List.pairwise_cons.mp later).1⟩
  intro other mem
  exact ⟨by simpa using skipped other mem, apart other mem record List.mem_cons_self⟩

variable {other : Record Val} {at_ : Link} {wanted : Key → Bool} {target : Option Key}

theorem next_least (ordered : Ordered table) (found : next table link = some key)
    (mem : other ∈ table) (behind : after link other.key = true) : key ≤ other.key := by
  obtain ⟨before, record, rest, rfl, rfl, -, skipped, later⟩ := next_eq_some ordered found
  rcases List.mem_append.mp mem with early | late
  · exact absurd behind (by simp [(skipped other early).1])
  · rcases List.mem_cons.mp late with rfl | inRest
    · exact Nat.le_refl _
    · exact Nat.le_of_lt (later other inRest)

theorem stepTo_some {further : Key} (step : stepTo table key at_ = some further) :
    after (some further) key = true := by
  obtain ⟨-, less⟩ := Option.filter_eq_some_iff.mp step
  exact less

theorem stepTo_none {target : Key} (stop : stepTo table key at_ = none)
    (points : next table at_ = some target) : key ≤ target := by
  have notLess := Option.filter_eq_none_iff.mp stop target points
  exact Nat.not_lt.mp (by simpa using notLess)

theorem find_eq_some (found : find table key = some record) : record ∈ table ∧ record.key = key :=
  ⟨List.mem_of_find?_eq_some found, by simpa using List.find?_some found⟩

section

variable (ordered : Ordered table)

include ordered

theorem Ordered.unique (mem : record ∈ table) (inTable : other ∈ table)
    (same : record.key = other.key) : record = other := by
  have distinct : (table.map Record.key).Nodup :=
    List.pairwise_map.mpr (ordered.pairwise.imp fun less => Nat.ne_of_lt less)
  exact List.inj_on_of_nodup_map distinct mem inTable same

theorem Ordered.find_of_mem (mem : record ∈ table) : find table record.key = some record := by
  cases found : find table record.key with
  | none =>
    have absent := List.find?_eq_none.mp found record mem
    simp at absent
  | some other =>
    obtain ⟨inTable, same⟩ := find_eq_some found
    rw [ordered.unique inTable mem same]

theorem Ordered.getWithInsert (key : Key) :
    Ordered (getWithInsert key table) ∧
      ∀ other record, find table other = some record →
        find (RangeScan.getWithInsert key table) other = some record := by
  have kept : Ordered (RangeScan.getWithInsert key table) :=
    OrderedList.insert_ordered (⟨key, 0, .logicalDelete⟩ : Record Val) ordered
  refine ⟨kept, ?_⟩
  intro other record found
  obtain ⟨mem, rfl⟩ := find_eq_some found
  exact kept.find_of_mem (OrderedList.mem_insert_of_mem mem)

theorem Ordered.write (key : Key) (value : Payload Val) :
    Ordered (write key value table) ∧
      ∀ other record, find table other = some record →
        find (RangeScan.write key value table) other = some
          (if other = key then { record with seq := record.seq + 1, value := value } else record) := by
  have kept : Ordered (RangeScan.write key value table) := by
    refine List.pairwise_map.mpr (ordered.pairwise.imp ?_)
    intro earlier later less
    dsimp only
    split <;> split <;> exact less
  refine ⟨kept, ?_⟩
  intro other record found
  obtain ⟨mem, rfl⟩ := find_eq_some found
  have written := List.mem_map_of_mem (f := fun record : Record Val =>
    if record.key = key then { record with seq := record.seq + 1, value := value } else record) mem
  have isKey : (if record.key = key then { record with seq := record.seq + 1, value := value }
      else record).key = record.key := by split <;> rfl
  have there := kept.find_of_mem written
  rwa [isKey] at there

end

/-! ### The first record past a link -/

def firstFrom (table : Table Val) (node : Option Key) : Option (Key × Val) :=
  node.bind fun key => first table (key ≤ ·)

theorem firstFrom_some (table : Table Val) (key : Key) :
    firstFrom table (some key) = first table (key ≤ ·) := rfl

theorem first_congr {other : Key → Bool}
    (same : ∀ record ∈ table, record.value.validate ≠ none → wanted record.key = other record.key) :
    first table wanted = first table other := by
  induction table with
  | nil => rfl
  | cons record rest ih =>
    have tail := ih fun later mem => same later (List.mem_cons_of_mem record mem)
    simp only [first, List.findSome?_cons] at tail ⊢
    rw [tail]
    cases valid : record.value.validate with
    | none => simp
    | some val => rw [same record List.mem_cons_self (by simp [valid])]

theorem first_eq_none (unwanted : ∀ record ∈ table, wanted record.key = false) :
    first table wanted = none := by
  refine List.findSome?_eq_none_iff.mpr ?_
  intro record mem
  simp [unwanted record mem]

theorem after_trans {other : Key} (behind : after link key = true) (less : key < other) :
    after link other = true := by
  cases link with
  | none => rfl
  | some start => exact decide_eq_true (Nat.lt_trans (of_decide_eq_true behind) less)

section

variable (ordered : Ordered table)

include ordered

theorem first_after (points : next table link = target) :
    first table (after link) = firstFrom table target := by
  cases target with
  | none => exact first_eq_none fun record mem => next_eq_none points mem
  | some key =>
    obtain ⟨before, record, rest, rfl, rfl, behind, skipped, later⟩ := next_eq_some ordered points
    rw [firstFrom_some]
    apply first_congr
    intro other mem _
    rcases List.mem_append.mp mem with early | late
    · obtain ⟨notBehind, less⟩ := skipped other early
      rw [notBehind, decide_eq_false (Nat.not_le.mpr less)]
    · rcases List.mem_cons.mp late with rfl | inRest
      · rw [behind, decide_eq_true (Nat.le_refl _)]
      · have less := later other inRest
        rw [after_trans behind less, decide_eq_true (Nat.le_of_lt less)]

theorem first_seek {low : Key} (points : next table link = target) (start : after link low = true)
    (reached : ∀ key, target = some key → low ≤ key) :
    first table (low ≤ ·) = firstFrom table target := by
  rw [← first_after ordered points]
  apply first_congr
  intro record mem _
  by_cases inRange : low ≤ record.key
  · have behind : after link record.key = true := by
      rcases Nat.lt_or_eq_of_le inRange with less | same
      · exact after_trans start less
      · exact same ▸ start
    rw [behind, decide_eq_true inRange]
  rw [decide_eq_false inRange]
  symm
  cases target with
  | none => exact next_eq_none points mem
  | some key =>
    obtain ⟨before, found, rest, rfl, rfl, -, skipped, later⟩ := next_eq_some ordered points
    have bound := reached _ rfl
    rcases List.mem_append.mp mem with early | late
    · exact (skipped record early).1
    · rcases List.mem_cons.mp late with rfl | inRest
      · exact absurd bound inRange
      · exact absurd (Nat.le_trans bound (Nat.le_of_lt (later record inRest))) inRange

theorem first_valid (mem : record ∈ table) {val : Val} (valid : record.value.validate = some val) :
    firstFrom table (some record.key) = some (record.key, val) := by
  obtain ⟨before, rest, rfl⟩ := List.append_of_mem mem
  obtain ⟨-, -, apart⟩ := List.pairwise_append.mp ordered.pairwise
  have skipped : first before (record.key ≤ ·) = none := by
    apply first_eq_none
    intro other early
    exact decide_eq_false (Nat.not_le.mpr (apart other early record List.mem_cons_self))
  simp only [first] at skipped
  rw [firstFrom_some, first, List.findSome?_append, skipped]
  simp [valid]

theorem first_passed (mem : record ∈ table) (invalid : record.value.validate = none) :
    firstFrom table (some record.key) = first table (record.key < ·) := by
  rw [firstFrom_some]
  apply first_congr
  intro other inTable valid
  have different : record.key ≠ other.key := by
    intro same
    exact valid (ordered.unique mem inTable same ▸ invalid)
  exact decide_eq_decide.mpr ⟨fun le => Nat.lt_of_le_of_ne le different, Nat.le_of_lt⟩

end

end EunoDb.RangeScan
