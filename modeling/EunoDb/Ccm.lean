import EunoDb.Execution
import Mathlib.Data.Finset.Card

/-! The mark filter of `CCM` (`util/ccm.h`). `int` and `unsigned` have 32 bits and wrap. Locks and
conflict counters are left out. -/

namespace EunoDb.Ccm

open Execution

abbrev Key := BitVec 64

/-! ### `getIndex` -/

def rsLoop : Nat → Key → BitVec 32 → BitVec 32 → BitVec 32
  | 0, _, _, hash => hash
  | len + 1, str, a, hash =>
    rsLoop len (str + 1) (a * 378551) (((hash * a).setWidth 64 + str).setWidth 32)

def rsHash (str : Key) (len : Nat) : BitVec 32 := rsLoop len str 63689 0

def jsLoop : Nat → Key → BitVec 32 → BitVec 32
  | 0, _, hash => hash
  | len + 1, str, hash =>
    jsLoop len (str + 1)
      (hash ^^^ ((hash <<< 5).setWidth 64 + str + (hash >>> 2).setWidth 64).setWidth 32)

def jsHash (str : Key) (len : Nat) : BitVec 32 := jsLoop len str 1315423911

def generateHashValue (str : Key) (len hasFunIndex : Nat) : BitVec 32 :=
  match hasFunIndex with
  | 0 => rsHash str len
  | 1 => jsHash str len
  | _ => rsHash str len

def getIndex (key : Key) : Nat :=
  let temp := (List.range 6).foldl (fun temp i => temp + generateHashValue key 5 i) 0
  ((temp.toInt.tmod 64 + 64).tmod 64).toNat

theorem getIndex_lt (key : Key) : getIndex key < 64 := by
  have below := Int.tmod_lt_of_pos
    (((List.range 6).foldl (fun temp i => temp + generateHashValue key 5 i) 0).toInt.tmod 64 + 64)
    (show (0 : Int) < 64 by decide)
  exact (Int.toNat_lt' (by decide)).mpr below

/-! ### The filter -/

def isBit (bits : BitVec 64) (index : Nat) : Bool := (bits >>> index) &&& 1#64 = 1#64

def setBit (bits : BitVec 64) (index : Nat) : BitVec 64 := bits ||| (1#64 <<< index)

def unsetBit (bits : BitVec 64) (index : Nat) : BitVec 64 := bits &&& (-1#64 - (1#64 <<< index))

structure CCM where
  markBits : BitVec 64
  markCount : BitVec 32
  deriving DecidableEq, Repr

def clearMarkCount : CCM := ⟨0, 0⟩

def setMarkBits (ccm : CCM) (key : Key) (slot : Nat) : CCM where
  markCount := if isBit key slot then ccm.markCount else ccm.markCount + 1
  markBits := setBit ccm.markBits slot

def unsetMarkBits (ccm : CCM) (key : Key) : CCM where
  markCount := if isBit key (getIndex key) then ccm.markCount - 1 else ccm.markCount
  markBits := unsetBit ccm.markBits (getIndex key)

def isfound (ccm : CCM) (key : Key) : Bool := isBit ccm.markBits (getIndex key)

def skipBF (ccm : CCM) : Bool := 12 ≤ ccm.markCount

theorem isBit_eq (bits : BitVec 64) (index : Nat) : isBit bits index = bits.getLsbD index := by
  rw [isBit, Bool.eq_iff_iff, decide_eq_true_iff]
  constructor
  · intro one
    simpa using congrArg (fun word => word.getLsbD 0) one
  · intro set
    apply BitVec.eq_of_getLsbD_eq
    intro i _
    cases i <;> simp [set]

variable {index : Nat} {ccm : CCM}

theorem isBit_setBit (bits : BitVec 64) (inside : index < 64) (i : Nat) :
    isBit (setBit bits index) i = (isBit bits i || decide (i = index)) := by
  rw [isBit_eq, isBit_eq, setBit, BitVec.getLsbD_or, ← BitVec.twoPow_eq, BitVec.getLsbD_twoPow]
  simp [inside, eq_comm]

theorem isBit_unsetBit (bits : BitVec 64) (inside : index < 64) (i : Nat) :
    isBit (unsetBit bits index) i = (isBit bits i && !decide (i = index)) := by
  rw [isBit_eq, isBit_eq, unsetBit, BitVec.neg_one_eq_allOnes, BitVec.allOnes_sub_eq_not,
    BitVec.getLsbD_and, BitVec.getLsbD_not, ← BitVec.twoPow_eq, BitVec.getLsbD_twoPow]
  by_cases within : i < 64
  · simp [inside, eq_comm, within]
  · simp [BitVec.getLsbD_of_ge bits i (Nat.not_lt.mp within)]

/-! ### Calls -/

inductive Call where
  | set (key : Key)
  | unset (key : Key)
  deriving DecidableEq, Repr

def Call.key : Call → Key
  | .set key | .unset key => key

structure World where
  ccm : CCM := clearMarkCount
  marked : List Key := []
  deriving DecidableEq, Repr

def step (w : World) : Call → Option World
  | .set key => some ⟨setMarkBits w.ccm key (getIndex key), key :: w.marked⟩
  | .unset key => some ⟨unsetMarkBits w.ccm key, w.marked.filter (· ≠ key)⟩

/-! ### The mark count -/

def slots (bits : BitVec 64) : Finset Nat := (Finset.range 64).filter fun i => isBit bits i = true

theorem mem_slots {bits : BitVec 64} (inside : index < 64) :
    index ∈ slots bits ↔ isBit bits index = true := by
  simp [slots, inside]

theorem slots_setBit (bits : BitVec 64) (inside : index < 64) :
    slots (setBit bits index) = insert index (slots bits) := by
  ext i
  by_cases here : i = index <;> simp [slots, isBit_setBit bits inside, here, inside]

theorem slots_unsetBit (bits : BitVec 64) (inside : index < 64) :
    slots (unsetBit bits index) = (slots bits).erase index := by
  ext i
  by_cases here : i = index <;> simp [slots, isBit_unsetBit bits inside, here]

theorem slots_card (bits : BitVec 64) : (slots bits).card ≤ 64 :=
  (Finset.card_filter_le _ _).trans (Finset.card_range 64).le

def Counts (ccm : CCM) : Prop := ccm.markCount.toNat = (slots ccm.markBits).card

def agrees (w : World) (call : Call) : Prop :=
  isBit call.key (getIndex call.key) = isBit w.ccm.markBits (getIndex call.key)

instance (w : World) (call : Call) : Decidable (agrees w call) := inferInstanceAs (Decidable (_ = _))

theorem Counts.set (counts : Counts ccm) (key : Key) {slot : Nat} (inside : slot < 64) :
    isBit key slot = isBit ccm.markBits slot ↔ Counts (setMarkBits ccm key slot) := by
  have small := slots_card ccm.markBits
  have more : (ccm.markCount + 1).toNat = (slots ccm.markBits).card + 1 := by
    rw [BitVec.toNat_add, counts]
    exact Nat.mod_eq_of_lt (by simp; omega)
  rw [Counts, setMarkBits, slots_setBit _ inside, Finset.card_insert_eq_ite,
    if_congr (mem_slots inside) rfl rfl]
  unfold Counts at counts
  cases isBit key slot <;> cases isBit ccm.markBits slot <;>
    simp only [Bool.false_eq_true, if_false, if_true, more, counts, false_iff, reduceCtorEq] <;>
    omega

theorem Counts.unset (counts : Counts ccm) (key : Key) :
    isBit key (getIndex key) = isBit ccm.markBits (getIndex key) ↔
      Counts (unsetMarkBits ccm key) := by
  have inside := getIndex_lt key
  have small := slots_card ccm.markBits
  have some_ : isBit ccm.markBits (getIndex key) = true → 0 < (slots ccm.markBits).card :=
    fun set => Finset.card_pos.mpr ⟨_, (mem_slots inside).mpr set⟩
  have less : (ccm.markCount - 1).toNat = ((slots ccm.markBits).card + (2 ^ 32 - 1)) % 2 ^ 32 := by
    rw [BitVec.toNat_sub, counts, Nat.add_comm]
    rfl
  rw [Counts, unsetMarkBits, slots_unsetBit _ inside, Finset.card_erase_eq_ite,
    if_congr (mem_slots inside) rfl rfl]
  unfold Counts at counts
  cases isBit key (getIndex key) <;> cases set : isBit ccm.markBits (getIndex key) <;>
    simp only [set, Bool.false_eq_true, if_false, if_true, less, counts, true_iff, false_iff,
      reduceCtorEq, true_implies] at some_ ⊢ <;> omega

theorem mark_count_exact (calls : List Call) :
    Each step agrees {} calls ↔ ∀ front, front <+: calls → ∀ w, run step {} front = some w →
      w.ccm.markCount.toNat = (slots w.ccm.markBits).card ∧
        (skipBF w.ccm = true ↔ 12 ≤ (slots w.ccm.markBits).card) := by
  have exact_ : ∀ (w : World) (call : Call), Counts w.ccm →
      ∃ next, step w call = some next ∧ (agrees w call ↔ Counts next.ccm) := by
    intro w call counts
    cases call with
    | set key => exact ⟨_, rfl, counts.set key (getIndex_lt key)⟩
    | unset key => exact ⟨_, rfl, counts.unset key⟩
  have skips : ∀ ccm : CCM, skipBF ccm = true ↔ 12 ≤ ccm.markCount.toNat := fun ccm =>
    decide_eq_true_iff.trans BitVec.le_def
  rw [each_iff exact_ (show Counts clearMarkCount from rfl)]
  refine forall₄_congr fun front _ w _ => ⟨fun counts => ⟨counts, ?_⟩, And.left⟩
  rw [skips, counts]

theorem mark_count_drifts :
    (∃ w, run step {} [.unset (-1)] = some w ∧ w.ccm = ⟨0, 4294967295⟩ ∧ skipBF w.ccm = true) ∧
      ∃ w, run step {} [.set 0, .set 0] = some w ∧ w.ccm.markCount = 2 ∧
        slots w.ccm.markBits = {getIndex 0} :=
  ⟨⟨_, rfl, by decide +kernel, by decide +kernel⟩, ⟨_, rfl, by decide +kernel, by decide +kernel⟩⟩

/-! ### The filter's answers -/

def spares (w : World) : Call → Prop
  | .set _ => True
  | .unset key => ∀ other ∈ w.marked, other ≠ key → getIndex other ≠ getIndex key

instance (w : World) : (call : Call) → Decidable (spares w call)
  | .set _ => isTrue trivial
  | .unset key =>
    inferInstanceAs (Decidable (∀ other ∈ w.marked, other ≠ key → getIndex other ≠ getIndex key))

def Finds (w : World) : Prop := ∀ key ∈ w.marked, isfound w.ccm key = true

theorem isfound_set (ccm : CCM) (key other : Key) :
    isfound (setMarkBits ccm key (getIndex key)) other =
      (isfound ccm other || decide (getIndex other = getIndex key)) :=
  isBit_setBit _ (getIndex_lt key) _

theorem isfound_unset (ccm : CCM) (key other : Key) :
    isfound (unsetMarkBits ccm key) other =
      (isfound ccm other && !decide (getIndex other = getIndex key)) :=
  isBit_unsetBit _ (getIndex_lt key) _

/-- `isfound` is true for the keys whose last call was `set_mark_bits`, after every call of
a sequence, if and only if no call unmarks a key whose slot another one of them has. -/
theorem filter_finds (calls : List Call) :
    Each step spares {} calls ↔ ∀ front, front <+: calls → ∀ w, run step {} front = some w →
      ∀ key ∈ w.marked, isfound w.ccm key = true := by
  refine each_iff (fun w call finds => ?_) (show Finds {} by intro key member; cases member)
  cases call with
  | set key =>
    refine ⟨_, rfl, iff_of_true trivial ?_⟩
    intro other member
    rw [isfound_set]
    rcases List.mem_cons.mp member with rfl | before
    · simp
    · rw [finds other before, Bool.true_or]
  | unset key =>
    refine ⟨_, rfl, ?_⟩
    simp only [List.mem_filter, isfound_unset, decide_eq_true_eq, spares]
    constructor
    · rintro spare other ⟨member, differs⟩
      simp [finds other member, spare other member differs]
    · intro after other member differs same
      have found := after other ⟨member, differs⟩
      simp [same] at found

theorem filter_misses : ∃ w, run step {} [.set 2, .set 7, .unset 7] = some w ∧
    w.marked = [2] ∧ isfound w.ccm 2 = false :=
  ⟨_, rfl, by decide +kernel, by decide +kernel⟩

end EunoDb.Ccm
