import EunoDb.BPlusCursor
import Mathlib.Algebra.Group.Nat.Defs

/-! `SecondIndexStringBPlusTree`: the tree with `Compare`, which compares ranks of strings. -/

namespace EunoDb.StringKeys

open Slots BPlusTree

abbrev Text := BPlusTree.Key

structure Strings where
  stringLength : Nat := 38
  byte : Text → Nat → UInt8

section

variable (m : Strings)

def compareLoop (a b : Text) : Nat → Nat → Int
  | 0, _ => 0
  | rounds + 1, i =>
    if i < m.stringLength then
      if m.byte b i < m.byte a i then 1
      else if m.byte a i < m.byte b i then -1
      else if 4 < i ∧ i < 21 ∧ m.byte a i = 0 then compareLoop a b rounds 21
      else if 20 < i ∧ m.byte a i = 0 then 0
      else compareLoop a b rounds (i + 1)
    else 0

def compare (a b : Text) : Int := compareLoop m a b m.stringLength 0

def rankLoop (a : Text) : Nat → Nat → Nat
  | 0, _ => 0
  | rounds + 1, i =>
    if i < m.stringLength then
      (m.byte a i).toNat * 256 ^ (m.stringLength - (i + 1)) +
        if 4 < i ∧ i < 21 ∧ m.byte a i = 0 then rankLoop a rounds 21
        else if 20 < i ∧ m.byte a i = 0 then 0
        else rankLoop a rounds (i + 1)
    else 0

def rank (a : Text) : Nat := rankLoop m a m.stringLength 0

variable {m}

def rankTail (m : Strings) (a : Text) (rounds i : Nat) : Nat :=
  if 4 < i ∧ i < 21 ∧ m.byte a i = 0 then rankLoop m a rounds 21
  else if 20 < i ∧ m.byte a i = 0 then 0
  else rankLoop m a rounds (i + 1)

theorem rankLoop_succ (a : Text) (rounds : Nat) {i : Nat} (inside : i < m.stringLength) :
    rankLoop m a (rounds + 1) i =
      (m.byte a i).toNat * 256 ^ (m.stringLength - (i + 1)) + rankTail m a rounds i :=
  if_pos inside

theorem rankTail_lt {a : Text} {rounds : Nat}
    (later : ∀ i, rankLoop m a rounds i < 256 ^ (m.stringLength - i)) (i : Nat) :
    rankTail m a rounds i < 256 ^ (m.stringLength - (i + 1)) := by
  rw [rankTail]
  split
  · exact Nat.lt_of_lt_of_le (later 21) (Nat.pow_le_pow_right (by decide) (by omega))
  · split
    · exact Nat.pow_pos (by decide)
    · exact later (i + 1)

theorem rankLoop_lt (a : Text) (rounds i : Nat) :
    rankLoop m a rounds i < 256 ^ (m.stringLength - i) := by
  induction rounds generalizing i with
  | zero => exact Nat.pow_pos (by decide)
  | succ rounds ih =>
    by_cases inside : i < m.stringLength
    · have width : m.stringLength - i = m.stringLength - (i + 1) + 1 := by omega
      rw [rankLoop_succ a rounds inside, width, Nat.pow_succ]
      calc (m.byte a i).toNat * 256 ^ (m.stringLength - (i + 1)) + rankTail m a rounds i
          < (m.byte a i).toNat * 256 ^ (m.stringLength - (i + 1)) +
              256 ^ (m.stringLength - (i + 1)) := Nat.add_lt_add_left (rankTail_lt ih i) _
        _ = ((m.byte a i).toNat + 1) * 256 ^ (m.stringLength - (i + 1)) := by rw [Nat.succ_mul]
        _ ≤ 256 * 256 ^ (m.stringLength - (i + 1)) :=
            Nat.mul_le_mul_right _ (m.byte a i).toNat_lt
        _ = 256 ^ (m.stringLength - (i + 1)) * 256 := Nat.mul_comm ..
    · rw [rankLoop, if_neg inside]
      exact Nat.pow_pos (by decide)

theorem digit_decides {x y power first : Nat} (less : x < y) (tail : first < power) (second : Nat) :
    x * power + first < y * power + second := by
  calc x * power + first < x * power + power := Nat.add_lt_add_left tail _
    _ = (x + 1) * power := by rw [Nat.succ_mul]
    _ ≤ y * power := Nat.mul_le_mul_right _ less
    _ ≤ y * power + second := Nat.le_add_right ..

def Signs (sign : Int) (a b : Nat) : Prop := (0 ≤ sign ↔ b ≤ a) ∧ (0 < sign ↔ b < a)

theorem compareLoop_signs (a b : Text) (rounds i : Nat) :
    Signs (compareLoop m a b rounds i) (rankLoop m a rounds i) (rankLoop m b rounds i) := by
  induction rounds generalizing i with
  | zero => simp [Signs, compareLoop, rankLoop]
  | succ rounds ih =>
    by_cases inside : i < m.stringLength
    · rw [rankLoop_succ a rounds inside, rankLoop_succ b rounds inside, compareLoop, if_pos inside]
      have tails : ∀ text, rankTail m text rounds i < 256 ^ (m.stringLength - (i + 1)) :=
        fun text => rankTail_lt (rankLoop_lt text rounds) i
      simp only [UInt8.lt_iff_toNat_lt]
      rcases Nat.lt_trichotomy (m.byte a i).toNat (m.byte b i).toNat with less | same | greater
      · have decided := digit_decides less (tails a) (rankTail m b rounds i)
        rw [if_neg (Nat.lt_asymm less), if_pos less]
        constructor <;> omega
      · -- equal bytes: both loops go on in the same way
        replace same : m.byte a i = m.byte b i := UInt8.toNat_inj.mp same
        have same' : rankTail m b rounds i = if 4 < i ∧ i < 21 ∧ m.byte a i = 0 then
            rankLoop m b rounds 21 else if 20 < i ∧ m.byte a i = 0 then 0
            else rankLoop m b rounds (i + 1) := by
          rw [rankTail, same]
        have later : Signs (if 4 < i ∧ i < 21 ∧ m.byte a i = 0 then compareLoop m a b rounds 21
            else if 20 < i ∧ m.byte a i = 0 then 0 else compareLoop m a b rounds (i + 1))
            (rankTail m a rounds i) (rankTail m b rounds i) := by
          rw [same', rankTail]
          split
          · exact ih 21
          · split
            · simp [Signs]
            · exact ih (i + 1)
        rw [if_neg (by simp [same]), if_neg (by simp [same]), same]
        rw [same] at later
        simpa [Signs] using later
      · have decided := digit_decides greater (tails b) (rankTail m a rounds i)
        rw [if_pos greater]
        constructor <;> omega
    · simp [Signs, compareLoop, rankLoop, inside]

theorem compare_signs (a b : Text) : Signs (compare m a b) (rank m a) (rank m b) :=
  compareLoop_signs a b m.stringLength 0

end

/-! ### The tree of the ranks -/

section Ranked

variable {Val : Type} (rank : Key → Nat)

def rankedLeaf (leaf : LeafNode Val) : LeafNode Val :=
  { leaf with keys := leaf.keys.map (Option.map rank) }

def rankedTree : Nat → Tree → Tree
  | d + 1, .inner numKeys keys children =>
    .inner numKeys (keys.map (Option.map rank)) (children.map (Option.map (rankedTree d)))
  | _, tree => tree

def ranked (s : State Val) : State Val where
  heap := { leaf := fun id => rankedLeaf rank (s.heap.leaf id), next := s.heap.next }
  root := rankedTree rank s.depth s.root
  depth := s.depth

variable {α β : Type}

theorem read_map_map (f : α → β) (slots : List (Option α)) (i : Nat) :
    read (slots.map (Option.map f)) i = (read slots i).map f := by
  simp only [Slots.read, List.getElem?_map]
  cases slots[i]? with
  | none => rfl
  | some slot => cases slot <;> rfl

theorem scan_map (f : α → β) (slots : List (Option α)) (p : β → Bool) (k n : Nat) :
    scan (slots.map (Option.map f)) p k n = scan slots (fun x => p (f x)) k n := by
  induction n generalizing k with
  | zero => rfl
  | succ n ih =>
    rw [scan, scan, read_map_map]
    cases read slots k with
    | none => rfl
    | some x => simp [ih]

theorem rankedLeaf_entries (leaf : LeafNode Val) :
    (rankedLeaf rank leaf).entries = leaf.entries.map fun entry => (rank entry.1, entry.2) := by
  have keys : ∀ slots : List (Option Key),
      (slots.map (Option.map rank)).filterMap id = (slots.filterMap id).map rank := by
    intro slots
    rw [List.filterMap_map, List.map_filterMap]
    rfl
  rw [LeafNode.entries, LeafNode.entries, rankedLeaf, ← List.map_take, keys, List.zip_map_left]
  rfl

theorem rankedTree_leaves (d : Nat) (tree : Tree) :
    leavesOf d (rankedTree rank d tree) = leavesOf d tree := by
  induction d generalizing tree with
  | zero => cases tree <;> rfl
  | succ d ih =>
    cases tree with
    | leaf id => rfl
    | inner numKeys keys children =>
      rw [rankedTree, leavesOf, leavesOf, ← List.map_take, List.flatMap_map]
      congr 1
      funext child
      cases child with
      | none => rfl
      | some child => exact ih child

theorem ranked_contents (s : State Val) :
    (ranked rank s).contents = s.contents.map fun entry => (rank entry.1, entry.2) := by
  have leaves : (ranked rank s).leaves = s.leaves := rankedTree_leaves rank s.depth s.root
  rw [State.contents, State.contents, leaves, List.map_flatMap]
  congr 1
  funext id
  exact rankedLeaf_entries rank (s.heap.leaf id)

end Ranked

/-! ### The search for a leaf -/

section

variable (m : Strings)

def findLeaf (key : Text) : Nat → Tree → Option LeafId
  | 0, .leaf id => some id
  | d + 1, .inner numKeys keys children => do
      let k ← scan keys (fun separator => 0 ≤ compare m key separator) 0 numKeys
      let child ← read children k
      findLeaf key d child
  | _, _ => none

theorem findLeaf_ranked (key : Text) (d : Nat) (tree : Tree) :
    BPlusTree.findLeaf (rank m key) d (rankedTree (rank m) d tree) = findLeaf m key d tree := by
  induction d generalizing tree with
  | zero => cases tree <;> rfl
  | succ d ih =>
    cases tree with
    | leaf id => rfl
    | inner numKeys keys children =>
      have passes : (fun separator => decide (rank m separator ≤ rank m key)) =
          fun separator => decide (0 ≤ compare m key separator) := by
        funext separator
        simp [(compare_signs key separator).1]
      rw [rankedTree, BPlusTree.findLeaf, findLeaf, scan_map, passes]
      cases scan keys (fun separator => decide (0 ≤ compare m key separator)) 0 numKeys with
      | none => rfl
      | some k =>
        simp only [Option.bind_eq_bind, Option.bind_some, read_map_map]
        cases read children k with
        | none => rfl
        | some child => simp [ih]

end

/-! ### The order of the strings -/

section Order

variable {m : Strings}

def zeroTail : List UInt8 → List UInt8
  | [] => []
  | byte :: rest => byte :: if byte = 0 then List.replicate rest.length 0 else zeroTail rest

def bytes (m : Strings) (a : Text) : List UInt8 := (List.range m.stringLength).map (m.byte a)

def zeroed (m : Strings) (a : Text) : List UInt8 :=
  (bytes m a).take 5 ++ (zeroTail (((bytes m a).drop 5).take 16) ++ zeroTail ((bytes m a).drop 21))

def ahead (m : Strings) (a : Text) (i : Nat) : List UInt8 :=
  if i < 5 then ((bytes m a).drop i).take (5 - i) ++
    (zeroTail (((bytes m a).drop 5).take 16) ++ zeroTail ((bytes m a).drop 21))
  else if i < 21 then
    zeroTail (((bytes m a).drop i).take (21 - i)) ++ zeroTail ((bytes m a).drop 21)
  else zeroTail ((bytes m a).drop i)

variable {i : Nat} {sign : Int} {a b : List UInt8}

theorem bytes_drop (a : Text) (inside : i < m.stringLength) :
    (bytes m a).drop i = m.byte a i :: (bytes m a).drop (i + 1) := by
  rw [List.drop_eq_getElem_cons (by simpa [bytes] using inside)]
  simp [bytes]

theorem ahead_end (a : Text) (done : ¬ i < m.stringLength) : ahead m a i = [] := by
  have nothing : ∀ k, i ≤ k → (bytes m a).drop k = [] := fun k _ =>
    List.drop_eq_nil_of_le (by simp only [bytes, List.length_map, List.length_range]; omega)
  have here := nothing i (Nat.le_refl i)
  unfold ahead
  split
  · rw [here, nothing 5 (by omega), nothing 21 (by omega), List.take_nil, List.take_nil]
    rfl
  split
  · rw [here, nothing 21 (by omega), List.take_nil]
    rfl
  · rw [here]
    rfl

theorem ahead_cons (a : Text) (inside : i < m.stringLength) :
    ahead m a i = m.byte a i ::
      if 4 < i ∧ i < 21 ∧ m.byte a i = 0 then
        List.replicate (min (20 - i) (m.stringLength - (i + 1))) 0 ++ ahead m a 21
      else if 20 < i ∧ m.byte a i = 0 then List.replicate (m.stringLength - (i + 1)) 0
      else ahead m a (i + 1) := by
  have length : ((bytes m a).drop (i + 1)).length = m.stringLength - (i + 1) := by simp [bytes]
  have last : ahead m a 21 = zeroTail ((bytes m a).drop 21) := rfl
  by_cases early : i < 5
  · rw [if_neg (by omega), if_neg (by omega), ahead, if_pos early, bytes_drop a inside,
      show 5 - i = 5 - (i + 1) + 1 by omega, List.take_succ_cons, List.cons_append, ahead]
    by_cases next : i + 1 < 5
    · rw [if_pos next]
    · obtain rfl : i = 4 := by omega
      rfl
  by_cases middle : i < 21
  · rw [ahead, if_neg early, if_pos middle, bytes_drop a inside,
      show 21 - i = 20 - i + 1 by omega, List.take_succ_cons, zeroTail, List.length_take, length,
      List.cons_append]
    by_cases zero : m.byte a i = 0
    · rw [if_pos zero, if_pos ⟨by omega, middle, zero⟩, last]
    rw [if_neg zero, if_neg (by simp [zero]), if_neg (by simp [zero]), ahead, if_neg (by omega)]
    by_cases next : i + 1 < 21
    · rw [if_pos next, show 21 - (i + 1) = 20 - i by omega]
    · obtain rfl : i = 20 := by omega
      rfl
  · rw [ahead, if_neg early, if_neg middle, bytes_drop a inside, zeroTail, length]
    by_cases zero : m.byte a i = 0
    · rw [if_pos zero, if_neg (fun skips => middle skips.2.1), if_pos ⟨by omega, zero⟩]
    · rw [if_neg zero, if_neg (by simp [zero]), if_neg (by simp [zero]), ahead, if_neg (by omega),
        if_neg (by omega)]

structure Lex (sign : Int) (a b : List UInt8) : Prop where
  less : sign < 0 ↔ a < b
  equal : sign = 0 ↔ a = b
  greater : 0 < sign ↔ b < a

theorem Lex.same (a : List UInt8) : Lex 0 a a := by
  constructor <;> simp

theorem Lex.cons (lex : Lex sign a b) (byte : UInt8) : Lex sign (byte :: a) (byte :: b) := by
  constructor
  · simpa [List.cons_lt_cons_iff] using lex.less
  · simpa using lex.equal
  · simpa [List.cons_lt_cons_iff] using lex.greater

theorem Lex.append (lex : Lex sign a b) (common : List UInt8) :
    Lex sign (common ++ a) (common ++ b) := by
  induction common with
  | nil => exact lex
  | cons byte rest ih => exact ih.cons byte

theorem lex_head {x y : UInt8} (less : x < y) (a b : List UInt8) :
    Lex (-1) (x :: a) (y :: b) ∧ Lex 1 (y :: b) (x :: a) := by
  have up : x :: a < y :: b := List.cons_lt_cons_iff.mpr (Or.inl less)
  have other : ¬ y :: b < x :: a := fun down => List.lt_asymm up down
  have differ : x :: a ≠ y :: b := fun same => List.lt_irrefl _ (same ▸ up)
  exact ⟨⟨by simp [up], by simp [differ], by simp [other]⟩,
    ⟨by simp [other], by simp [differ.symm], by simp [up]⟩⟩

theorem compareLoop_lex (a b : Text) (rounds i : Nat) (enough : m.stringLength ≤ i + rounds) :
    Lex (compareLoop m a b rounds i) (ahead m a i) (ahead m b i) := by
  induction rounds generalizing i with
  | zero =>
    rw [compareLoop, ahead_end a (by omega), ahead_end b (by omega)]
    exact Lex.same []
  | succ rounds ih =>
    rw [compareLoop]
    by_cases inside : i < m.stringLength
    · rw [if_pos inside, ahead_cons a inside, ahead_cons b inside]
      by_cases greater : m.byte b i < m.byte a i
      · rw [if_pos greater]
        exact (lex_head greater _ _).2
      by_cases less : m.byte a i < m.byte b i
      · rw [if_neg greater, if_pos less]
        exact (lex_head less _ _).1
      -- equal bytes: the same is ahead of both
      have same : m.byte b i = m.byte a i :=
        UInt8.le_antisymm (UInt8.not_lt.mp less) (UInt8.not_lt.mp greater)
      rw [if_neg greater, if_neg less, same]
      apply Lex.cons
      by_cases skips : 4 < i ∧ i < 21 ∧ m.byte a i = 0
      · rw [if_pos skips, if_pos skips, if_pos skips]
        exact (ih 21 (by omega)).append _
      rw [if_neg skips, if_neg skips, if_neg skips]
      by_cases ends : 20 < i ∧ m.byte a i = 0
      · rw [if_pos ends, if_pos ends, if_pos ends]
        exact Lex.same _
      · rw [if_neg ends, if_neg ends, if_neg ends]
        exact ih (i + 1) (by omega)
    · rw [if_neg inside, ahead_end a inside, ahead_end b inside]
      exact Lex.same []

theorem compare_preorder (m : Strings) (a b c : Text) :
    ((0 < compare m a b ↔ compare m b a < 0) ∧ (compare m a b = 0 ↔ compare m b a = 0)) ∧
      (compare m a b ≤ 0 → compare m b c ≤ 0 → compare m a c ≤ 0) ∧
      (compare m a b < 0 ↔ zeroed m a < zeroed m b) ∧
      (compare m a b = 0 ↔ zeroed m a = zeroed m b) ∧
      (0 < compare m a b ↔ zeroed m b < zeroed m a) := by
  obtain ⟨ab, ab'⟩ := compare_signs (m := m) a b
  obtain ⟨ba, ba'⟩ := compare_signs (m := m) b a
  obtain ⟨bc, bc'⟩ := compare_signs (m := m) b c
  obtain ⟨ac, ac'⟩ := compare_signs (m := m) a c
  have lex := compareLoop_lex (m := m) a b m.stringLength 0 (by omega)
  exact ⟨⟨by omega, by omega⟩, by omega, lex.less, lex.equal, lex.greater⟩

end Order

end EunoDb.StringKeys
