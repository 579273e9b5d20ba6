import EunoDb.LinkedList
import Mathlib.Algebra.Group.Nat.Defs

/-! `HashTable::Resize` with linked chains. `length_` and `elems_` are `int`, the new length is
`uint32_t`. A read outside the array or an endless loop has no result. Sequence numbers are left
out. -/

namespace EunoDb.HashResize

open LinkedList

abbrev NodeId := Nat

structure Node (Key : Type) where
  hash : UInt64
  next : Option NodeId
  key : Key

structure Table (Key : Type) where
  node : NodeId → Node Key
  list : List (Option NodeId)
  length : Int32
  elems : Int32
  sized : list.length = length.toUInt32.toNat

def grow (elems : UInt32) : Nat → UInt32 → Option UInt32
  | 0, _ => none
  | rounds + 1, newLength =>
    if newLength < elems then grow elems rounds (newLength * 2) else some newLength

variable {Key : Type}

def setNext (node : NodeId → Node Key) (h : NodeId) (next : Option NodeId) : NodeId → Node Key :=
  Function.update node h { node h with next := next }

def relink (newList : List (Option NodeId)) (newLength : UInt32) :
    Nat → Option NodeId → (NodeId → Node Key) → Option (NodeId → Node Key)
  | _, none, node => some node
  | 0, some _, _ => none
  | fuel + 1, some h, node => do
    let ptr ← newList[((node h).hash.toUInt32 &&& (newLength - 1)).toNat]?
    relink newList newLength fuel (node h).next (setNext node h ptr)

def resize (fuel : Nat) (table : Table Key) : Option (Table Key) := do
  let newLength ← grow table.elems.toUInt32 16 16384000
  let newList := List.replicate newLength.toNat none
  let node ← table.list.foldlM (fun node h => relink newList newLength fuel h node) table.node
  some ⟨node, newList, newLength.toInt32, table.elems, by simp [newList]⟩

section GetNode

variable [DecidableEq Key] (hashfunc : Key → UInt64)

def getNodeLoop (node : NodeId → Node Key) (k : Key) : Nat → Option NodeId → Option (Option NodeId)
  | _, none => some none
  | 0, some _ => none
  | fuel + 1, some ptr =>
    if (node ptr).hash ≠ hashfunc k ∨ (node ptr).key ≠ k then
      getNodeLoop node k fuel (node ptr).next
    else some (some ptr)

def getNode (fuel : Nat) (table : Table Key) (k : Key) : Option (Option NodeId) := do
  let h ← table.list[(hashfunc k &&& (table.length - 1).toInt64.toUInt64).toNat]?
  getNodeLoop hashfunc table.node k fuel h

end GetNode

/-! ### What is left -/

def Table.next (table : Table Key) : NodeId → Option NodeId := fun id => (table.node id).next

def Reachable (table : Table Key) (id : NodeId) : Prop :=
  ∃ h ∈ table.list, ∃ nodes, Linked table.next h nodes ∧ id ∈ nodes

def Table.Ends (table : Table Key) (fuel : Nat) : Prop :=
  ∀ h ∈ table.list, ∃ nodes, Linked table.next h nodes ∧ nodes.length ≤ fuel

variable {elems newLength : UInt32} {h : Option NodeId} {nodes : List NodeId} {fuel : Nat}
  {node : NodeId → Node Key} {table : Table Key}

theorem grow_bounded (rounds more : Nat) (newLength : UInt32) (some_ : 0 < newLength.toNat)
    (fits : newLength.toNat * 2 ^ rounds < 2 ^ 32)
    (enough : elems.toNat ≤ newLength.toNat * 2 ^ rounds) :
    ∃ grown, grow elems (rounds + 1 + more) newLength = some grown ∧ 0 < grown.toNat ∧
      grown.toNat ≤ newLength.toNat * 2 ^ rounds := by
  induction rounds generalizing newLength with
  | zero =>
    rw [Nat.pow_zero, Nat.mul_one] at enough ⊢
    refine ⟨newLength, ?_, some_, Nat.le_refl _⟩
    rw [Nat.zero_add, Nat.add_comm, grow, if_neg (UInt32.not_lt.mpr enough)]
  | succ rounds ih =>
    rw [Nat.add_right_comm, grow]
    by_cases less : newLength < elems
    · have twice : (newLength * 2).toNat = newLength.toNat * 2 :=
        (UInt32.toNat_mul ..).trans (Nat.mod_eq_of_lt
          (Nat.lt_of_le_of_lt (Nat.mul_le_mul_left _ (Nat.le_self_pow (by omega) 2)) fits))
      have double : newLength.toNat * 2 ^ (rounds + 1) = (newLength * 2).toNat * 2 ^ rounds := by
        rw [twice, Nat.pow_succ, Nat.mul_assoc, Nat.mul_comm 2]
      rw [double] at fits enough
      rw [if_pos less, double]
      exact ih (newLength * 2) (by omega) fits enough
    · rw [if_neg less]
      exact ⟨newLength, rfl, some_, Nat.le_mul_of_pos_right _ (Nat.two_pow_pos _)⟩

theorem grow_endless (large : 4194304000 < elems) : grow elems 16 16384000 = none := by
  have less : ∀ n : UInt32, n ≤ 4194304000 → n < elems := fun n small =>
    UInt32.lt_of_le_of_lt small large
  repeat rw [grow, if_pos (less _ (by decide))]
  rfl

theorem Linked.cut {next after : NodeId → Option NodeId} (linked : Linked next h nodes)
    (cut : ∀ id, after id = next id ∨ after id = none) :
    ∃ fewer, Linked after h fewer ∧ fewer.length ≤ nodes.length := by
  induction linked with
  | nil => exact ⟨[], .nil, Nat.le_refl _⟩
  | @cons node rest tail ih =>
    obtain ⟨fewer, linked, less⟩ := ih
    rcases cut node with same | none_
    · exact ⟨node :: fewer, .cons (same ▸ linked), Nat.succ_le_succ less⟩
    · exact ⟨[node], .cons (none_ ▸ .nil), by simp⟩

def Cut (node after : NodeId → Node Key) : Prop :=
  ∀ id, (after id).next = (node id).next ∨ (after id).next = none

theorem relink_cuts (some_ : 0 < newLength.toNat)
    (linked : Linked (fun id => (node id).next) h nodes) (enough : nodes.length ≤ fuel) :
    ∃ after, relink (List.replicate newLength.toNat none) newLength fuel h node = some after ∧
      Cut node after := by
  induction fuel generalizing h nodes node with
  | zero =>
    cases linked with
    | nil => exact ⟨node, by rw [relink], fun _ => Or.inl rfl⟩
    | cons => cases enough
  | succ fuel ih =>
    cases linked with
    | nil => exact ⟨node, by rw [relink], fun _ => Or.inl rfl⟩
    | @cons first rest tail =>
      have inside : ((node first).hash.toUInt32 &&& (newLength - 1)).toNat < newLength.toNat := by
        have last : (newLength - 1).toNat = newLength.toNat - 1 :=
          UInt32.toNat_sub_of_le _ _ (UInt32.le_iff_toNat_le.mpr some_)
        rw [UInt32.toNat_and, last]
        exact Nat.lt_of_le_of_lt Nat.and_le_right (Nat.sub_one_lt_of_lt some_)
      have cut : ∀ id, (setNext node first none id).next = (node id).next ∨
          (setNext node first none id).next = none := by
        intro id
        by_cases same : id = first
        · exact Or.inr (by simp [setNext, same])
        · exact Or.inl (by simp [setNext, same])
      obtain ⟨fewer, linked, less⟩ := Linked.cut tail cut
      obtain ⟨after, relinked, later⟩ := ih linked
        (Nat.le_trans less (Nat.le_of_succ_le_succ enough))
      refine ⟨after, ?_, fun id => ?_⟩
      · rw [relink, List.getElem?_replicate, if_pos inside]
        exact relinked
      · rcases later id with same | none_
        · rw [same]
          exact cut id
        · exact Or.inr none_

theorem relinkAll_cuts (some_ : 0 < newLength.toNat) {heads : List (Option NodeId)}
    (ends : ∀ h ∈ heads, ∃ nodes, Linked (fun id => (node id).next) h nodes ∧ nodes.length ≤ fuel) :
    ∃ after, heads.foldlM
      (fun node h => relink (List.replicate newLength.toNat none) newLength fuel h node) node =
        some after := by
  induction heads generalizing node with
  | nil => exact ⟨node, rfl⟩
  | cons h rest ih =>
    obtain ⟨nodes, linked, enough⟩ := ends h List.mem_cons_self
    obtain ⟨middle, relinked, cut⟩ := relink_cuts some_ linked enough
    rw [List.foldlM_cons, relinked]
    refine ih fun other mem => ?_
    obtain ⟨nodes, linked, enough⟩ := ends other (List.mem_cons_of_mem h mem)
    obtain ⟨fewer, linked, less⟩ := Linked.cut linked cut
    exact ⟨fewer, linked, Nat.le_trans less enough⟩

theorem resize_empties (ends : table.Ends fuel)
    (grown : grow table.elems.toUInt32 16 16384000 = some newLength) (some_ : 0 < newLength.toNat) :
    ∃ after, resize fuel table = some after ∧ after.length = newLength.toInt32 ∧
      after.list = List.replicate newLength.toNat none := by
  obtain ⟨node, relinked⟩ := relinkAll_cuts some_ ends
  refine ⟨⟨node, List.replicate newLength.toNat none, newLength.toInt32, table.elems, by simp⟩,
    ?_, rfl, rfl⟩
  rw [resize, grown]
  simp only [Option.bind_eq_bind, Option.bind_some, relinked]

theorem not_reachable {slots : Nat} (empty : table.list = List.replicate slots none) (id : NodeId) :
    ¬ Reachable table id := by
  rintro ⟨h, mem, nodes, linked, inside⟩
  rw [empty] at mem
  rw [List.eq_of_mem_replicate mem] at linked
  rw [linked.eq_nil] at inside
  cases inside

theorem mask_toNat (small : newLength.toNat ≤ 2097152000) (some_ : 0 < newLength.toNat) :
    (newLength.toInt32 - 1).toInt64.toUInt64.toNat = newLength.toNat - 1 := by
  have last : (newLength.toBitVec - 1).toNat = newLength.toNat - 1 :=
    UInt32.toNat_sub_of_le newLength 1 (UInt32.le_iff_toNat_le.mpr some_)
  have positive : (newLength.toBitVec - 1).msb = false := by
    rw [BitVec.msb_eq_false_iff_two_mul_lt, last]
    omega
  change ((newLength.toBitVec - 1).signExtend 64).toNat = _
  rw [BitVec.signExtend_eq_setWidth_of_msb_false positive,
    BitVec.toNat_setWidth_of_le (by decide), last]

theorem getNode_empty [DecidableEq Key] (hashfunc : Key → UInt64) (fuel : Nat)
    (small : newLength.toNat ≤ 2097152000) (some_ : 0 < newLength.toNat)
    (length : table.length = newLength.toInt32)
    (empty : table.list = List.replicate newLength.toNat none) (k : Key) :
    getNode hashfunc fuel table k = some none := by
  have inside : (hashfunc k &&& (table.length - 1).toInt64.toUInt64).toNat < newLength.toNat := by
    rw [UInt64.toNat_and, length, mask_toNat small some_]
    exact Nat.lt_of_le_of_lt Nat.and_le_right (Nat.sub_one_lt_of_lt some_)
  rw [getNode, empty, List.getElem?_replicate, if_pos inside]
  cases fuel <;> rfl

/-- `Resize` returns unless `elems_` as an unsigned number is above 4194304000, in which case
it doubles a length of 0. It leaves every slot empty: every node is still reachable if and
only if there was none, and `GetNode` answers as before if and only if it found nothing. The
second is said for a new length that is a positive `int`. -/
theorem resize_keeps_nothing [DecidableEq Key] (hashfunc : Key → UInt64) (table : Table Key)
    (fuel : Nat) (ends : table.Ends fuel) :
    (4194304000 < table.elems.toUInt32 → resize fuel table = none) ∧
    (table.elems.toUInt32 ≤ 4194304000 → ∃ after, resize fuel table = some after ∧
      ((∀ id, Reachable table id → Reachable after id) ↔ ∀ id, ¬ Reachable table id) ∧
      (table.elems.toUInt32 ≤ 2097152000 →
        ((∀ k, getNode hashfunc fuel after k = getNode hashfunc fuel table k) ↔
          ∀ k, getNode hashfunc fuel table k = some none))) := by
  constructor
  · intro large
    rw [resize, grow_endless large]
    rfl
  · intro small
    obtain ⟨newLength, grown, some_, -⟩ :=
      grow_bounded 8 7 16384000 (by decide) (by decide) (UInt32.le_iff_toNat_le.mp small)
    obtain ⟨after, resized, length, empty⟩ := resize_empties ends grown some_
    refine ⟨after, resized, ⟨fun kept id reached => not_reachable empty id (kept id reached),
      fun none_ id reached => absurd reached (none_ id)⟩, fun smaller => ?_⟩
    obtain ⟨same, grown', -, fits⟩ :=
      grow_bounded 7 8 16384000 (by decide) (by decide) (UInt32.le_iff_toNat_le.mp smaller)
    cases grown.symm.trans grown'
    have answers := getNode_empty hashfunc fuel fits some_ length empty
    exact ⟨fun same k => (same k).symm.trans (answers k),
      fun none_ k => (answers k).trans (none_ k).symm⟩

def noNode : Table Nat := ⟨fun _ => ⟨0, none, 0⟩, List.replicate 8 none, 8, 0, by decide⟩

theorem resize_keeps_nothing_noNode : ∃ after, resize 0 noNode = some after ∧
    ∀ k, getNode Nat.toUInt64 0 after k = getNode Nat.toUInt64 0 noNode k := by
  have ends : noNode.Ends 0 := by
    intro h member
    rw [List.eq_of_mem_replicate member]
    exact ⟨[], .nil, Nat.le_refl _⟩
  obtain ⟨after, resized, -, answers⟩ :=
    (resize_keeps_nothing Nat.toUInt64 noNode 0 ends).2 (by decide)
  exact ⟨after, resized, (answers (by decide)).mpr fun k => getNode_empty _ 0
    (show (8 : UInt32).toNat ≤ _ by decide) (by decide) (by decide) (by decide) k⟩

def oneNode : Table Nat :=
  ⟨fun _ => ⟨7, none, 7⟩, List.replicate 7 none ++ [some 0], 8, 1, by decide⟩

theorem resize_loses_node : ∃ after, resize 1 oneNode = some after ∧
    Reachable oneNode 0 ∧ getNode Nat.toUInt64 1 oneNode 7 = some (some 0) ∧
    ¬ Reachable after 0 ∧ getNode Nat.toUInt64 1 after 7 = some none := by
  have chain : Linked oneNode.next (some 0) [0] := .cons .nil
  have ends : oneNode.Ends 1 := by
    intro h member
    rcases List.mem_append.mp member with empty | last
    · rw [List.eq_of_mem_replicate empty]
      exact ⟨[], .nil, Nat.zero_le _⟩
    · rw [List.mem_singleton.mp last]
      exact ⟨[0], chain, Nat.le_refl _⟩
  obtain ⟨newLength, grown, some_, fits⟩ := grow_bounded 7 8 16384000 (by decide) (by decide)
    (show oneNode.elems.toUInt32.toNat ≤ _ by decide)
  obtain ⟨after, resized, length, empty⟩ := resize_empties ends grown some_
  exact ⟨after, resized, ⟨some 0, by decide, [0], chain, List.mem_singleton_self 0⟩, by decide,
    not_reachable empty 0, getNode_empty _ 1 fits some_ length empty 7⟩

end EunoDb.HashResize
