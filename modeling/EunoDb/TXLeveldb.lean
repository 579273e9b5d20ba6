import EunoDb.TXSkiplist

/-! `TXLeveldb` over any LevelDB whose `Get` answers what was last put under the very same
key; failing statuses are left out. -/

namespace EunoDb.TXLeveldb

open Function

open LogBytes (lowBytes lowBytes_length)
open TXSkiplist (Bytes encodeVarint32 encodeFixed64 getVarint32Ptr getVarint32Ptr_encode)
open VersionLookups (Seq)

def internalKeySize (key : Bytes) : Nat := key.length + 8

def stored (key : Bytes) (seq : Seq) : Bytes :=
  encodeVarint32 (internalKeySize key) ++ (key ++ encodeFixed64 seq)

def getInternalKey (key : Bytes) (seq : Seq) : Bytes := (stored key seq).take (internalKeySize key)

/-- The `leveldb::DB` underneath, with what is assumed of it. -/
structure LevelDB (σ : Type) where
  put : σ → Bytes → Bytes → σ
  get : σ → Bytes → Option Bytes
  delete : σ → Bytes → σ
  get_put_self : ∀ s key value, get (put s key value) key = some value
  get_put_of_ne : ∀ s key value other, other ≠ key → get (put s key value) other = get s other
  get_delete_self : ∀ s key, get (delete s key) key = none
  get_delete_of_ne : ∀ s key other, other ≠ key → get (delete s key) other = get s other

/-- A map is such a database. -/
def LevelDB.map : LevelDB (Bytes → Option Bytes) where
  put s key value := update s key (some value)
  get s key := s key
  delete s key := update s key none
  get_put_self s key value := update_self key (some value) s
  get_put_of_ne s _ value _ other := update_of_ne other (some value) s
  get_delete_self s key := update_self key none s
  get_delete_of_ne s _ _ other := update_of_ne other none s

variable {σ : Type} (db : LevelDB σ)

def put (s : σ) (key value : Bytes) (seq : Seq) : σ := db.put s (getInternalKey key seq) value

def get (s : σ) (key : Bytes) (seq : Seq) : Option Bytes := db.get s (getInternalKey key seq)

def delete (s : σ) (key : Bytes) (seq : Seq) : σ := db.delete s (getInternalKey key seq)

/-! ### What is left of the sequence number -/

theorem lowBytes_take {count kept : Nat} (fewer : kept ≤ count) (value : Nat) :
    (lowBytes count value).take kept = lowBytes kept value := by
  induction kept generalizing count value with
  | zero => rfl
  | succ kept ih =>
    obtain ⟨count, rfl⟩ : ∃ less, count = less + 1 := ⟨count - 1, by omega⟩
    rw [lowBytes, lowBytes, List.take_succ_cons, ih (by omega)]

theorem lowBytes_eq_iff (count left right : Nat) :
    lowBytes count left = lowBytes count right ↔ left % 256 ^ count = right % 256 ^ count := by
  induction count generalizing left right with
  | zero => simp [lowBytes, Nat.mod_one]
  | succ count ih =>
    have byte : UInt8.ofNat left = UInt8.ofNat right ↔ left % 256 = right % 256 := by
      rw [← UInt8.toNat_inj, UInt8.toNat_ofNat', UInt8.toNat_ofNat']
    have split (n : Nat) : n % 256 ^ (count + 1) = n % 256 + 256 * (n / 256 % 256 ^ count) := by
      rw [Nat.pow_succ, Nat.mul_comm, Nat.mod_mul]
    have small := Nat.mod_lt left (show 0 < 256 by decide)
    have small' := Nat.mod_lt right (show 0 < 256 by decide)
    rw [lowBytes, lowBytes, List.cons.injEq, byte, ih, split, split]
    omega

def lengthSize (key : Bytes) : Nat := (encodeVarint32 (internalKeySize key)).length

theorem lengthSize_bounds (key : Bytes) : 1 ≤ lengthSize key ∧ lengthSize key ≤ 5 := by
  unfold lengthSize encodeVarint32
  dsimp only
  split <;> [simp; skip]
  split <;> [simp; skip]
  split <;> [simp; skip]
  split <;> simp

def surviving (key : Bytes) (seq : Seq) : Nat := seq.val % 256 ^ (8 - lengthSize key)

theorem stored_length (key : Bytes) (seq : Seq) :
    (stored key seq).length = internalKeySize key + lengthSize key := by
  rw [stored, List.length_append, List.length_append, encodeFixed64, lowBytes_length, lengthSize,
    internalKeySize, Nat.add_comm]

theorem getInternalKey_eq (key : Bytes) (seq : Seq) :
    getInternalKey key seq =
      encodeVarint32 (internalKeySize key) ++ (key ++ lowBytes (8 - lengthSize key) seq.val) := by
  have ⟨_, short⟩ := lengthSize_bounds key
  have room : internalKeySize key = lengthSize key + (key.length + (8 - lengthSize key)) := by
    rw [internalKeySize]
    omega
  rw [getInternalKey, stored]
  nth_rewrite 1 [room]
  rw [lengthSize, List.take_length_add_append, List.take_length_add_append, encodeFixed64,
    lowBytes_take (by omega)]

theorem getInternalKey_inj {key other : Bytes} (fits : key.length < 2 ^ 32 - 8)
    (fits' : other.length < 2 ^ 32 - 8) (seq otherSeq : Seq) :
    getInternalKey key seq = getInternalKey other otherSeq ↔
      key = other ∧ surviving key seq = surviving key otherSeq := by
  rw [getInternalKey_eq, getInternalKey_eq]
  constructor
  · intro same
    -- the length in front says where the key ends
    have read := congrArg getVarint32Ptr same
    rw [getVarint32Ptr_encode (by rw [internalKeySize]; omega),
      getVarint32Ptr_encode (by rw [internalKeySize]; omega)] at read
    simp only [Option.some.injEq, Prod.mk.injEq, internalKeySize, Nat.add_right_cancel_iff] at read
    obtain ⟨rfl, survived⟩ := List.append_inj read.2 read.1
    exact ⟨rfl, (lowBytes_eq_iff _ _ _).mp survived⟩
  · rintro ⟨rfl, survived⟩
    rw [(lowBytes_eq_iff _ _ _).mpr survived]

/-- What is stored reaches one to five bytes past the buffer, for every key, and as many
bytes of the sequence number are not in the internal key. Two versions are kept apart
if and only if their keys differ or the bytes left of their sequence numbers do: otherwise a
`Put` or a `Delete` of the one is one of the other. -/
theorem versions_apart (key : Bytes) (seq : Seq) (fits : key.length < 2 ^ 32 - 8) :
    (internalKeySize key < (stored key seq).length ∧
      (stored key seq).length ≤ internalKeySize key + 5) ∧
    ∀ (other : Bytes) (otherSeq : Seq), other.length < 2 ^ 32 - 8 →
      (getInternalKey key seq ≠ getInternalKey other otherSeq ↔
        key ≠ other ∨ surviving key seq ≠ surviving key otherSeq) ∧
      ∀ (s : σ) (value : Bytes),
        (get db (put db s key value seq) other otherSeq =
          if key ≠ other ∨ surviving key seq ≠ surviving key otherSeq then get db s other otherSeq
          else some value) ∧
        get db (delete db s key seq) other otherSeq =
          if key ≠ other ∨ surviving key seq ≠ surviving key otherSeq then get db s other otherSeq
          else none := by
  have ⟨long, short⟩ := lengthSize_bounds key
  rw [stored_length]
  refine ⟨by omega, fun other otherSeq fits' => ?_⟩
  have apart : getInternalKey key seq ≠ getInternalKey other otherSeq ↔
      key ≠ other ∨ surviving key seq ≠ surviving key otherSeq := by
    rw [ne_eq, getInternalKey_inj fits fits', Decidable.not_and_iff_not_or_not]
  refine ⟨apart, fun s value => ?_⟩
  by_cases differ : key ≠ other ∨ surviving key seq ≠ surviving key otherSeq
  · have elsewhere := (apart.mpr differ).symm
    rw [if_pos differ, if_pos differ]
    exact ⟨db.get_put_of_ne s _ _ _ elsewhere, db.get_delete_of_ne s _ _ elsewhere⟩
  · have same := not_not.mp (mt apart.mp differ)
    rw [if_neg differ, if_neg differ, get, get, ← same]
    exact ⟨db.get_put_self s _ _, db.get_delete_self s _⟩

theorem versions_apart_low :
    getInternalKey [1] 1 ≠ getInternalKey [1] 2 :=
  ((versions_apart .map [1] 1 (by decide)).2 [1] 2 (by decide)).1.mpr (Or.inr (by decide))

/-- With the empty key, nine bytes are stored into a buffer of eight, and the versions 0
and 2 ^ 56 have one internal key: what is put under the one is got under the other. -/
theorem versions_collide :
    internalKeySize [] = 8 ∧ (stored [] 0).length = 9 ∧
      getInternalKey [] 0 = getInternalKey [] (Fin.ofNat _ (2 ^ 56)) ∧
      get .map (put .map (fun _ => none) [] [7] 0) [] (Fin.ofNat _ (2 ^ 56)) = some [7] := by
  decide +kernel

end EunoDb.TXLeveldb
