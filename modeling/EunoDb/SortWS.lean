import EunoDb.GetBatch
import Mathlib.Algebra.Group.Int.Defs

/-! `SortWS` and `SortBatch`, for any bounds. -/

namespace EunoDb.SortWS

open DBTransaction (Batch)

section

variable {Key σ : Type}

structure Rows (σ Key : Type) where
  key : σ → Int → Option Key
  exchange : σ → Int → Int → Option σ
  swap : σ → Int → Int → Option σ

variable (comp : Key → Key → Int) (rows : Rows σ Key)

def partitionLoop (pivotKey : Key) : Nat → Int → Int → σ → Option (σ × Int)
  | 0, _, storeIndex, s => some (s, storeIndex)
  | rounds + 1, i, storeIndex, s => do
      if comp (← rows.key s i) pivotKey ≤ 0 then
        partitionLoop pivotKey rounds (i + 1) (storeIndex + 1) (← rows.swap s storeIndex i)
      else partitionLoop pivotKey rounds (i + 1) storeIndex s

def partition (s : σ) (left right pivotIndex : Int) : Option (σ × Int) := do
  let pivotKey ← rows.key s pivotIndex
  let s ← rows.exchange s pivotIndex right
  let (s, storeIndex) ← partitionLoop comp rows pivotKey (right - left).toNat left left s
  return (← rows.swap s right storeIndex, storeIndex)

def sort : Nat → σ → Int → Int → Option σ
  | 0, _, _, _ => none
  | fuel + 1, s, left, right =>
    if left < right then
      if left + right < 2 ^ 31 then do
        let (s, pivotNewIndex) ← partition comp rows s left right ((left + right).tdiv 2)
        let s ← sort fuel s left (pivotNewIndex - 1)
        sort fuel s (pivotNewIndex + 1) right
      else none
    else some s

end

section

variable {Key Val : Type}

structure WSKV (Key Val : Type) where
  type : Nat
  key : Key
  val : Option Val
  deriving DecidableEq, Repr

structure WSSeqPair where
  wseq : Nat
  seqptr : Nat
  deriving DecidableEq, Repr

structure WriteSet (Key Val : Type) where
  kvs : Array (WSKV Key Val)
  seqs : Array WSSeqPair
  sizes : seqs.size = kvs.size

def cell {α : Type} (array : Array α) (i : Int) : Option α :=
  if i < 0 then none else array[i.toNat]?

def swapWS (ws : WriteSet Key Val) (i j : Int) : Option (WriteSet Key Val) :=
  if i = j then some ws
  else if inside : 0 ≤ i ∧ i.toNat < ws.kvs.size ∧ 0 ≤ j ∧ j.toNat < ws.kvs.size then
    some ⟨ws.kvs.swap i.toNat j.toNat inside.2.1 inside.2.2.2,
      ws.seqs.swap i.toNat j.toNat (ws.sizes ▸ inside.2.1) (ws.sizes ▸ inside.2.2.2),
      by simp [ws.sizes]⟩
  else none

def writeRows : Rows (WriteSet Key Val) Key :=
  ⟨fun ws i => (cell ws.kvs i).map WSKV.key, swapWS, swapWS⟩

def exchangeBatch (bat : Array (Batch Key Val)) (i j : Int) : Option (Array (Batch Key Val)) :=
  if 0 ≤ i ∧ 0 ≤ j then PartitionSort.swap bat i.toNat j.toNat else none

def swapBatch (bat : Array (Batch Key Val)) (i j : Int) : Option (Array (Batch Key Val)) :=
  if i = j then some bat else exchangeBatch bat i j

def batchRows : Rows (Array (Batch Key Val)) Key :=
  ⟨fun bat i => (cell bat i).map Batch.key, exchangeBatch, swapBatch⟩

variable (comp : Key → Key → Int)

def sortWS (ws : WriteSet Key Val) (left right : Int) : Option (WriteSet Key Val) :=
  sort comp writeRows (ws.kvs.size + 1) ws left right

def sortBatch (bat : Array (Batch Key Val)) (left right : Int) : Option (Array (Batch Key Val)) :=
  sort comp batchRows (bat.size + 1) bat left right

end

section Simulation

variable {Key σ β : Type} {comp : Key → Key → Int} {rows : Rows σ Key} {entries : σ → Array β}
  {key : β → Key} {s : σ} {after : Array β}

structure Rows.Like (rows : Rows σ Key) (entries : σ → Array β) (key : β → Key) : Prop where
  reads : ∀ s (i : Nat), rows.key s i = (entries s)[i]?.map key
  exchanges : ∀ {s} {i j : Nat} {after}, PartitionSort.swap (entries s) i j = some after →
    ∃ s', rows.exchange s i j = some s' ∧ entries s' = after
  swaps : ∀ {s} {i j : Nat} {after}, PartitionSort.swap (entries s) i j = some after →
    ∃ s', rows.swap s i j = some s' ∧ entries s' = after

def notAfter (comp : Key → Key → Int) (key : β → Key) (a b : β) : Bool :=
  comp (key a) (key b) ≤ 0

theorem partitionLoop_like (like : rows.Like entries key) {pivot : β} {rounds i storeIndex place : Nat}
    (looped : PartitionSort.partitionLoop (notAfter comp key) pivot rounds i storeIndex (entries s) =
      some (after, place)) :
    ∃ s', partitionLoop comp rows (key pivot) rounds i storeIndex s = some (s', (place : Int)) ∧
      entries s' = after := by
  induction rounds generalizing i storeIndex s with
  | zero =>
    cases looped
    exact ⟨s, rfl, rfl⟩
  | succ rounds ih =>
    obtain ⟨entry, here, looped⟩ := Option.bind_eq_some_iff.mp looped
    have read : rows.key s i = some (key entry) := by rw [like.reads, here, Option.map_some]
    by_cases front : comp (key entry) (key pivot) ≤ 0
    · rw [if_pos (by simpa [notAfter] using front)] at looped
      obtain ⟨next, swapped, looped⟩ := Option.bind_eq_some_iff.mp looped
      obtain ⟨s', swapped', rfl⟩ := like.swaps swapped
      obtain ⟨last, looped', same⟩ := ih looped
      exact ⟨last, by simpa [partitionLoop, read, front, swapped'] using looped', same⟩
    · rw [if_neg (by simpa [notAfter] using front)] at looped
      obtain ⟨last, looped', same⟩ := ih looped
      exact ⟨last, by simpa [partitionLoop, read, front] using looped', same⟩

theorem partition_like (like : rows.Like entries key) {left right pivotIndex place : Nat}
    (parted : PartitionSort.partition (notAfter comp key) (entries s) left right pivotIndex =
      some (after, place)) :
    ∃ s', partition comp rows s left right pivotIndex = some (s', (place : Int)) ∧
      entries s' = after := by
  obtain ⟨pivot, here, parted⟩ := Option.bind_eq_some_iff.mp parted
  obtain ⟨first, swapped, parted⟩ := Option.bind_eq_some_iff.mp parted
  obtain ⟨⟨next, place'⟩, looped, parted⟩ := Option.bind_eq_some_iff.mp parted
  obtain ⟨last, swapped', done⟩ := Option.bind_eq_some_iff.mp parted
  cases done
  have read : rows.key s pivotIndex = some (key pivot) := by rw [like.reads, here, Option.map_some]
  obtain ⟨s₁, exchanged, rfl⟩ := like.exchanges swapped
  obtain ⟨s₂, looped', rfl⟩ := partitionLoop_like like looped
  obtain ⟨s₃, swapped', same⟩ := like.swaps swapped'
  have length : ((right : Int) - left).toNat = right - left := by omega
  exact ⟨s₃, by simp [partition, read, exchanged, length, looped', swapped'], same⟩

theorem sort_like (like : rows.Like entries key) {fuel left : Nat} {right : Int}
    (sorted : PartitionSort.sort (notAfter comp key) fuel (entries s) left right.toNat = some after) :
    ∃ s', sort comp rows fuel s left right = some s' ∧ entries s' = after := by
  induction fuel generalizing s left right after with
  | zero => cases sorted
  | succ fuel ih =>
    by_cases more : left < right.toNat
    · have isNat : right = (right.toNat : Int) := by omega
      generalize right.toNat = right' at isNat more sorted
      subst isNat
      rw [PartitionSort.sort, if_pos more] at sorted
      by_cases fits : left + right' < 2 ^ 31
      · rw [if_pos fits] at sorted
        obtain ⟨⟨parted, place⟩, cut, sorted⟩ := Option.bind_eq_some_iff.mp sorted
        obtain ⟨lower, sorting, sorting'⟩ := Option.bind_eq_some_iff.mp sorted
        obtain ⟨s₁, cut', rfl⟩ := partition_like like cut
        have below : place - 1 = ((place : Int) - 1).toNat := by omega
        rw [below] at sorting
        obtain ⟨s₂, sorting₂, rfl⟩ := ih sorting
        rw [← Int.toNat_natCast right'] at sorting'
        obtain ⟨s₃, sorting₃, same⟩ := ih sorting'
        have middle : ((left : Int) + right').tdiv 2 = ((left + right') / 2 : Nat) := by
          rw [Int.tdiv_eq_ediv_of_nonneg (by omega)]
          omega
        have fits' : (left : Int) + right' < 2 ^ 31 := by omega
        refine ⟨s₃, ?_, same⟩
        rw [sort, if_pos (Int.ofNat_lt.mpr more), if_pos fits', middle, cut']
        simp only [Option.bind_eq_bind, Option.bind_some, sorting₂]
        exact sorting₃
      · rw [if_neg fits] at sorted
        cases sorted
    · rw [PartitionSort.sort, if_neg more] at sorted
      cases sorted
      exact ⟨s, by simp [sort, show ¬ (left : Int) < right by omega], rfl⟩

structure TotalPreorder (comp : Key → Key → Int) : Prop where
  total : ∀ a b, comp a b ≤ 0 ∨ comp b a ≤ 0
  trans : ∀ a b c, comp a b ≤ 0 → comp b c ≤ 0 → comp a c ≤ 0

theorem TotalPreorder.onEntries (order : TotalPreorder comp) (key : β → Key) :
    PartitionSort.TotalPreorder (notAfter comp key) where
  total x y := by simpa [notAfter] using order.total (key x) (key y)
  trans x y z := by simpa [notAfter] using order.trans (key x) (key y) (key z)

def Within (left right : Int) (moved : Equiv.Perm Nat) : Prop :=
  ∀ k : Nat, left ≤ k ∧ k ≤ right ∨ moved k = k

def Ascending (comp : Key → Key → Int) (key : β → Key) (array : Array β) (left right : Int) : Prop :=
  ∀ (i j : Nat) x y, left ≤ i → i < j → j ≤ right → array[i]? = some x → array[j]? = some y →
    comp (key x) (key y) ≤ 0

theorem sort_exact (like : rows.Like entries key) (order : TotalPreorder comp) {fuel : Nat}
    {left right : Int} (bounds : 0 ≤ left ∨ right ≤ left) (inside : right < (entries s).size)
    (short : (entries s).size < 2 ^ 30) (enough : (entries s).size < fuel) :
    ∃ s' moved, sort comp rows fuel s left right = some s' ∧ Within left right moved ∧
      (∀ k, (entries s')[k]? = (entries s)[moved k]?) ∧
      Ascending comp key (entries s') left right := by
  by_cases more : left < right
  · obtain ⟨first, rfl⟩ := Int.eq_ofNat_of_zero_le (by omega : 0 ≤ left)
    have fits : first < right.toNat → right.toNat < (entries s).size := by omega
    obtain ⟨after, sorting, ⟨-, moved, fixed, same⟩, sorted⟩ := PartitionSort.sort_spec
      (notAfter comp key) (by omega : right.toNat - first < fuel) (Or.inl rfl) fits (by omega)
    obtain ⟨s', sorting', rfl⟩ := sort_like like sorting
    refine ⟨s', moved, sorting', fun k => (fixed k).imp_left (by omega), same, ?_⟩
    intro i j x y low less high here there
    have ordered := sorted (order.onEntries key) i j x y (by omega) less (by omega) here there
    simpa [notAfter] using ordered
  · obtain ⟨rest, rfl⟩ := Nat.exists_eq_succ_of_ne_zero (by omega : fuel ≠ 0)
    exact ⟨s, .refl Nat, by simp [sort, more], fun _ => Or.inr rfl, fun _ => rfl,
      fun _ _ _ _ _ _ _ => by omega⟩

end Simulation

section

variable {Key Val : Type} {comp : Key → Key → Int}

theorem cell_natCast {α : Type} (array : Array α) (i : Nat) : cell array i = array[i]? := by
  simp [cell]

theorem swap_self {α : Type} {bat after : Array α} {i : Nat}
    (swapped : PartitionSort.swap bat i i = some after) : after = bat := by
  rw [PartitionSort.swap] at swapped
  split at swapped
  · cases swapped
    apply Array.ext_getElem?
    intro k
    by_cases here : i = k <;> simp [Array.getElem?_swap, here]
  · cases swapped

theorem batchRows_like : (batchRows : Rows (Array (Batch Key Val)) Key).Like id Batch.key where
  reads bat i := congrArg (·.map Batch.key) (cell_natCast bat i)
  exchanges {bat i j after} swapped := ⟨after, by simpa [batchRows, exchangeBatch] using swapped, rfl⟩
  swaps {bat i j after} swapped := by
    by_cases same : i = j
    · subst same
      exact ⟨bat, if_pos rfl, (swap_self swapped).symm⟩
    · have apart : (i : Int) ≠ j := by omega
      exact ⟨after, by simpa [batchRows, swapBatch, exchangeBatch, apart] using swapped, rfl⟩

def WriteSet.entries (ws : WriteSet Key Val) : Array (WSKV Key Val × WSSeqPair) :=
  ws.kvs.zip ws.seqs

theorem WriteSet.entries_size (ws : WriteSet Key Val) : ws.entries.size = ws.kvs.size := by
  simp [entries, ws.sizes]

theorem WriteSet.entries_fst (ws : WriteSet Key Val) : ws.entries.map Prod.fst = ws.kvs :=
  Array.map_fst_zip (Nat.le_of_eq ws.sizes.symm)

theorem WriteSet.entries_snd (ws : WriteSet Key Val) : ws.entries.map Prod.snd = ws.seqs :=
  Array.map_snd_zip (Nat.le_of_eq ws.sizes)

theorem swapWS_like {ws : WriteSet Key Val} {i j : Nat} {after : Array (WSKV Key Val × WSSeqPair)}
    (swapped : PartitionSort.swap ws.entries i j = some after) :
    ∃ ws', swapWS ws i j = some ws' ∧ ws'.entries = after := by
  by_cases same : i = j
  · subst same
    exact ⟨ws, if_pos rfl, (swap_self swapped).symm⟩
  rw [PartitionSort.swap] at swapped
  split at swapped
  case isFalse => cases swapped
  case isTrue inside =>
    cases swapped
    rw [ws.entries_size] at inside
    have apart : (i : Int) ≠ j := by omega
    have inside' : 0 ≤ (i : Int) ∧ (i : Int).toNat < ws.kvs.size ∧ 0 ≤ (j : Int) ∧
        (j : Int).toNat < ws.kvs.size := by omega
    refine ⟨_, by rw [swapWS, if_neg apart, dif_pos inside'], ?_⟩
    apply Array.ext
    · simp [WriteSet.entries]
    intro k _ _
    simp only [WriteSet.entries, Array.getElem_zip, Array.getElem_swap, Int.toNat_natCast]
    split
    · rfl
    · split <;> rfl

theorem writeRows_like :
    (writeRows : Rows (WriteSet Key Val) Key).Like WriteSet.entries fun entry => entry.1.key where
  reads ws i := by
    have entry : cell ws.kvs i = ws.entries[i]?.map Prod.fst := by
      rw [cell_natCast, ← Array.getElem?_map, ws.entries_fst]
    exact (congrArg (·.map WSKV.key) entry).trans (Option.map_map ..)
  exchanges := swapWS_like
  swaps := swapWS_like

theorem sortBatch_whole (comp : Key → Key → Int) {keys : Array (Batch Key Val)}
    (short : keys.size ≤ 2 ^ 30) :
    sortBatch comp keys 0 (keys.size - 1) = DBTransaction.sortBatch comp keys := by
  have last : ((keys.size : Int) - 1).toNat = keys.size - 1 := by omega
  obtain ⟨after, sorting, -⟩ := PartitionSort.sort_spec (notAfter comp Batch.key)
    (by omega : keys.size - 1 - 0 < keys.size + 1) (Or.inl rfl)
    (by omega : 0 < keys.size - 1 → _ < keys.size) short
  rw [← last] at sorting
  obtain ⟨result, sorting', same⟩ := sort_like batchRows_like sorting
  rw [last] at sorting
  exact (sorting'.trans (congrArg some same)).trans sorting.symm

theorem sorts_in_place (order : TotalPreorder comp) :
    (∀ (ws : WriteSet Key Val) (left right : Int), ws.kvs.size < 2 ^ 30 → right < ws.kvs.size →
      0 ≤ left ∨ right ≤ left →
      ∃ after moved, sortWS comp ws left right = some after ∧ Within left right moved ∧
        (∀ k, after.kvs[k]? = ws.kvs[moved k]? ∧ after.seqs[k]? = ws.seqs[moved k]?) ∧
        Ascending comp WSKV.key after.kvs left right) ∧
    ∀ (bat : Array (Batch Key Val)) (left right : Int), bat.size < 2 ^ 30 → right < bat.size →
      0 ≤ left ∨ right ≤ left →
      ∃ after moved, sortBatch comp bat left right = some after ∧ Within left right moved ∧
        (∀ k, after[k]? = bat[moved k]?) ∧ Ascending comp Batch.key after left right := by
  constructor
  · intro ws left right short inside bounds
    rw [← ws.entries_size] at short inside
    obtain ⟨after, moved, sorted, within, same, ascending⟩ := sort_exact writeRows_like order bounds
      inside short (by rw [ws.entries_size]; omega : ws.entries.size < ws.kvs.size + 1)
    refine ⟨after, moved, sorted, within, fun k => ⟨?_, ?_⟩, ?_⟩
    · rw [← after.entries_fst, ← ws.entries_fst, Array.getElem?_map, Array.getElem?_map, same]
    · rw [← after.entries_snd, ← ws.entries_snd, Array.getElem?_map, Array.getElem?_map, same]
    · intro i j x y low less high here there
      rw [← after.entries_fst, Array.getElem?_map, Option.map_eq_some_iff] at here there
      obtain ⟨entry, here, rfl⟩ := here
      obtain ⟨entry', there, rfl⟩ := there
      exact ascending i j entry entry' low less high here there
  · intro bat left right short inside bounds
    exact sort_exact batchRows_like order bounds inside short (Nat.lt_succ_self bat.size)

theorem sub_totalPreorder : TotalPreorder fun a b : Int => a - b where
  total a b := by omega
  trans a b c := by omega

def twoWrites : WriteSet Int Nat where
  kvs := #[⟨1, 7, some 0⟩, ⟨1, 5, some 1⟩]
  seqs := #[⟨1, 0⟩, ⟨1, 8⟩]
  sizes := rfl

theorem sorts_in_place_two :
    ∃ after, sortWS (fun a b => a - b) twoWrites 0 1 = some after ∧
      Ascending (fun a b => a - b) WSKV.key after.kvs 0 1 ∧ after.kvs[0]? = some ⟨1, 5, some 1⟩ := by
  obtain ⟨after, moved, sorted, -, -, ascending⟩ := (sorts_in_place sub_totalPreorder).1 twoWrites 0 1
    (by decide) (by decide) (by decide)
  refine ⟨after, sorted, ascending, ?_⟩
  have computed : (sortWS (fun a b => a - b) twoWrites 0 1).bind (·.kvs[0]?) = some ⟨1, 5, some 1⟩ := by
    decide +kernel
  rw [sorted] at computed
  exact computed

theorem sort_before_array :
    TotalPreorder (fun a b : Int => a - b) ∧
      (∀ fuel, sort (fun a b => a - b) writeRows fuel twoWrites (-1) 1 = none) ∧
      ∀ fuel, sort (fun a b => a - b) batchRows fuel
        #[(⟨7, none, .ok, 0⟩ : Batch Int Nat), ⟨5, none, .ok, 0⟩] (-1) 1 = none := by
  refine ⟨sub_totalPreorder, fun fuel => ?_, fun fuel => ?_⟩ <;> cases fuel <;> rfl

end

end EunoDb.SortWS
