import EunoDb.LogBytes
import EunoDb.VersionLookups

/-! `TXSkiplist`, a skip list of buffers. Lengths are `uint32_t`. Reading past the end of a buffer
has no result. `NotFound` is `none`. -/

namespace EunoDb.TXSkiplist

open Execution LockfreeInsert LockfreeStore
open LogBytes (lowBytes ofLowBytes lowBytes_length ofLowBytes_lowBytes)
open SkipInsert (NodeId)
open VersionLookups (Seq)

abbrev Bytes := List UInt8

/-! ### `util/coding` -/

def encodeVarint32 (size : Nat) : Bytes :=
  let v := size % 2 ^ 32
  if v < 2 ^ 7 then [.ofNat v]
  else if v < 2 ^ 14 then [.ofNat (v ||| 128), .ofNat (v >>> 7)]
  else if v < 2 ^ 21 then [.ofNat (v ||| 128), .ofNat (v >>> 7 ||| 128), .ofNat (v >>> 14)]
  else if v < 2 ^ 28 then
    [.ofNat (v ||| 128), .ofNat (v >>> 7 ||| 128), .ofNat (v >>> 14 ||| 128), .ofNat (v >>> 21)]
  else
    [.ofNat (v ||| 128), .ofNat (v >>> 7 ||| 128), .ofNat (v >>> 14 ||| 128),
      .ofNat (v >>> 21 ||| 128), .ofNat (v >>> 28)]

def varintLoop : Nat → Nat → Nat → Bytes → Option (Nat × Bytes)
  | rounds + 1, shift, result, byte :: rest =>
    if byte.toNat &&& 128 ≠ 0 then
      varintLoop rounds (shift + 7) (result ||| (byte.toNat &&& 127) <<< shift) rest
    else some ((result ||| byte.toNat <<< shift) % 2 ^ 32, rest)
  | _, _, _, _ => none

def getVarint32Ptr (p : Bytes) : Option (Nat × Bytes) := varintLoop 5 0 0 p

def encodeFixed64 (value : Seq) : Bytes := lowBytes 8 value.val

def decodeFixed64 (ptr : Bytes) : Seq := Fin.ofNat _ (ofLowBytes (ptr.take 8))

def getLengthPrefixedSlice (data : Bytes) : Option Bytes := do
  let (len, p) ← getVarint32Ptr data
  if len ≤ p.length then some (p.take len) else none

/-! ### What is encoded is read back -/

theorem or_continue (w : Nat) : (UInt8.ofNat (w ||| 128)).toNat = w % 128 + 128 := by
  have small : ∀ x < 256, x ||| 128 = x % 128 + 128 := by decide +kernel
  rw [UInt8.toNat_ofNat']
  have mod : (w ||| 128) % 2 ^ 8 = w % 256 ||| 128 := Nat.or_mod_two_pow
  rw [mod, small _ (Nat.mod_lt _ (by decide)), Nat.mod_mod_of_dvd _ (by decide)]

variable {result shift rounds : Nat}

theorem or_shifted (below : result < 2 ^ shift) (group : Nat) :
    result ||| group <<< shift = result + group * 2 ^ shift := by
  rw [Nat.or_comm, ← Nat.shiftLeft_add_eq_or_of_lt below, Nat.shiftLeft_eq, Nat.add_comm]

theorem varintLoop_continue (w : Nat) (rest : Bytes) (below : result < 2 ^ shift) :
    varintLoop (rounds + 1) shift result (.ofNat (w ||| 128) :: rest) =
      varintLoop rounds (shift + 7) (result + w % 128 * 2 ^ shift) rest := by
  have bits : ∀ r < 128, (r + 128) &&& 128 ≠ 0 ∧ (r + 128) &&& 127 = r := by decide +kernel
  have ⟨more, low⟩ := bits (w % 128) (Nat.mod_lt _ (by decide))
  rw [varintLoop, or_continue, if_pos more, low, or_shifted below]

theorem varintLoop_last {w : Nat} (rest : Bytes) (below : result < 2 ^ shift) (small : w < 128) :
    varintLoop (rounds + 1) shift result (.ofNat w :: rest) =
      some ((result + w * 2 ^ shift) % 2 ^ 32, rest) := by
  have bits : ∀ r < 128, r &&& 128 = 0 := by decide +kernel
  have byte : (UInt8.ofNat w).toNat = w := by
    rw [UInt8.toNat_ofNat']
    exact Nat.mod_eq_of_lt (by omega)
  rw [varintLoop, byte, if_neg (by simp [bits w small]), or_shifted below]

theorem getVarint32Ptr_encode {size : Nat} (fits : size < 2 ^ 32) (rest : Bytes) :
    getVarint32Ptr (encodeVarint32 size ++ rest) = some (size, rest) := by
  have shifts : ∀ k, size >>> k = size / 2 ^ k := Nat.shiftRight_eq_div_pow size
  simp only [getVarint32Ptr, encodeVarint32, Nat.mod_eq_of_lt fits, shifts]
  -- one case for each number of groups
  split
  · rw [List.singleton_append, varintLoop_last _ (by decide) (by omega)]
    congr 2
    omega
  split
  · rw [List.cons_append, List.singleton_append, varintLoop_continue _ _ (by decide),
      varintLoop_last _ (by omega) (by omega)]
    congr 2
    omega
  split
  · simp only [List.cons_append, List.nil_append]
    rw [varintLoop_continue _ _ (by decide), varintLoop_continue _ _ (by omega),
      varintLoop_last _ (by omega) (by omega)]
    congr 2
    omega
  split
  · simp only [List.cons_append, List.nil_append]
    rw [varintLoop_continue _ _ (by decide), varintLoop_continue _ _ (by omega),
      varintLoop_continue _ _ (by omega), varintLoop_last _ (by omega) (by omega)]
    congr 2
    omega
  · simp only [List.cons_append, List.nil_append]
    rw [varintLoop_continue _ _ (by decide), varintLoop_continue _ _ (by omega),
      varintLoop_continue _ _ (by omega), varintLoop_continue _ _ (by omega),
      varintLoop_last _ (by omega) (by omega)]
    congr 2
    omega

theorem getLengthPrefixedSlice_encode {slice : Bytes} (fits : slice.length < 2 ^ 32) :
    getLengthPrefixedSlice (encodeVarint32 slice.length ++ slice) = some slice := by
  simp [getLengthPrefixedSlice, getVarint32Ptr_encode fits]

theorem decodeFixed64_encode (value : Seq) (rest : Bytes) :
    decodeFixed64 (encodeFixed64 value ++ rest) = value := by
  have length : (encodeFixed64 value).length = 8 := lowBytes_length 8 _
  have first : (encodeFixed64 value ++ rest).take 8 = encodeFixed64 value := by
    rw [List.take_append_of_le_length (le_of_eq length.symm), ← length, List.take_length]
  have read : ofLowBytes (encodeFixed64 value) = value.val :=
    ofLowBytes_lowBytes 8 _ value.isLt
  rw [decodeFixed64, first, read]
  exact Fin.ext (Nat.mod_eq_of_lt value.isLt)

/-! ### The table -/

structure UserKey where
  bytes : Bytes

def tag (seq : Seq) : Seq := Fin.ofNat _ (seq.val <<< 8 ||| 1)

def seqOf (tag : Seq) : Seq := Fin.ofNat _ (tag.val >>> 8)

def maxTag : Seq := Fin.ofNat _ (0xffffff ||| 1)

def buffer (key : UserKey) (tag : Seq) (rest : Bytes) : Bytes :=
  encodeVarint32 (key.bytes.length + 8) ++ (key.bytes ++ (encodeFixed64 tag ++ rest))

def parts (entry : Bytes) : Option (UserKey × Seq × Bytes) := do
  let (keyLength, keyPtr) ← getVarint32Ptr entry
  if 8 ≤ keyLength ∧ keyLength ≤ keyPtr.length then
    some (⟨keyPtr.take (keyLength - 8)⟩, decodeFixed64 (keyPtr.drop (keyLength - 8)),
      keyPtr.drop keyLength)
  else none

def internalKey (entry : Bytes) : Option (UserKey × Seq) :=
  (parts entry).map fun (key, tag, _) => (key, tag)

structure PutCall where
  key : UserKey
  value : Bytes
  seq : Seq
  height : Nat
  node : NodeId

def PutCall.entry (call : PutCall) : Bytes :=
  buffer call.key (tag call.seq) (encodeVarint32 call.value.length ++ call.value)

-- the list compares what `KeyComparator` decodes from the buffers
section

variable [LinearOrder UserKey] {cmp : Comparator UserKey} (fuel : Nat)
  (s : Store (Rank cmp Seq) Bytes)

def put (call : PutCall) : Option (Store (Rank cmp Seq) Bytes) := do
  let (key, tag) ← internalKey call.entry
  LockfreeStore.put fuel s ⟨⟨rank key tag, call.height, call.node⟩, call.entry⟩

def seekEntry (entry : Bytes) : Option (Option Bytes) := do
  let (key, tag) ← internalKey entry
  return (← seek fuel s.list (rank key tag)).map s.entry

def get (key : UserKey) (seq : Seq) : Option (Option Bytes) := do
  match ← seekEntry fuel s (buffer key (tag seq) []) with
  | none => return none
  | some entry =>
    let (user, found, behind) ← parts entry
    if cmp.compare user key = 0 then
      if found ≠ tag seq then return none
      else return some (← getLengthPrefixedSlice behind)
    else return none

def getMaxSeq (key : UserKey) : Option (Option Seq) := do
  match ← seekEntry fuel s (buffer key maxTag []) with
  | none => return none
  | some entry =>
    let (user, found, _) ← parts entry
    if cmp.compare user key = 0 then return some (seqOf found) else return none

end

/-! ### What the buffers hold -/

def UserKey.Fits (key : UserKey) : Prop := key.bytes.length + 8 < 2 ^ 32

instance (key : UserKey) : Decidable key.Fits := inferInstanceAs (Decidable (_ < _))

variable {key : UserKey}

theorem parts_buffer (fits : key.Fits) (tag : Seq) (rest : Bytes) :
    parts (buffer key tag rest) = some (key, tag, rest) := by
  have tagLength : (encodeFixed64 tag).length = 8 := lowBytes_length 8 _
  have behind : (key.bytes ++ (encodeFixed64 tag ++ rest)).drop (key.bytes.length + 8) = rest := by
    rw [← List.append_assoc, ← tagLength, ← List.length_append, List.drop_left]
  simp [parts, buffer, getVarint32Ptr_encode fits, tagLength, behind, decodeFixed64_encode]

theorem internalKey_buffer (fits : key.Fits) (tag : Seq) (rest : Bytes) :
    internalKey (buffer key tag rest) = some (key, tag) := by
  rw [internalKey, parts_buffer fits, Option.map_some]

end EunoDb.TXSkiplist
