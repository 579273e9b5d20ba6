import EunoDb.LogBuffer
import Mathlib.Algebra.Group.Nat.Defs

/-! The bytes `PutRecord` writes. A copy that leaves `temp` or the buffer, and a full buffer, are
errors. -/

namespace EunoDb.LogBytes

open LogBuffer

/-! ### Words and variable-length numbers -/

def lowBytes : Nat → Nat → List UInt8
  | 0, _ => []
  | count + 1, value => UInt8.ofNat value :: lowBytes count (value / 256)

def ofLowBytes : List UInt8 → Nat
  | [] => 0
  | byte :: rest => byte.toNat + 256 * ofLowBytes rest

theorem lowBytes_length (count value : Nat) : (lowBytes count value).length = count := by
  induction count generalizing value with
  | zero => rfl
  | succ count ih => rw [lowBytes, List.length_cons, ih]

theorem ofLowBytes_lowBytes (count value : Nat) (fits : value < 256 ^ count) :
    ofLowBytes (lowBytes count value) = value := by
  induction count generalizing value with
  | zero =>
    rw [Nat.pow_zero] at fits
    exact (Nat.lt_one_iff.mp fits).symm
  | succ count ih =>
    have rest : value / 256 < 256 ^ count := by
      rw [Nat.pow_succ] at fits
      exact Nat.div_lt_of_lt_mul (by rwa [Nat.mul_comm] at fits)
    rw [lowBytes, ofLowBytes, ih _ rest, UInt8.toNat_ofNat']
    exact Nat.mod_add_div value 256

def word (value : UInt64) : List UInt8 := lowBytes 8 value.toNat

theorem shiftRight_seven (value : UInt64) : (value >>> 7).toNat = value.toNat / 128 := by
  rw [UInt64.toNat_shiftRight]
  exact Nat.shiftRight_eq_div_pow _ _

def writeUvint64 (value : UInt64) : List UInt8 :=
  if 0x7F < value then (value.toUInt8 &&& 0x7F ||| 0x80) :: writeUvint64 (value >>> 7)
  else [value.toUInt8 &&& 0x7F]
termination_by value.toNat
decreasing_by
  rename_i large
  have positive : 127 < value.toNat := large
  rw [shiftRight_seven]
  exact Nat.div_lt_self (by omega) (by decide)

theorem uvint64Size_le (fuel value : Nat) : ∀ size, value < 128 ^ (size + 1) →
    uvint64Size fuel value ≤ size + 1 := by
  induction fuel generalizing value with
  | zero =>
    intro size _
    exact Nat.le_add_left _ _
  | succ fuel ih =>
    intro size small
    rw [uvint64Size]
    split
    · rename_i large
      cases size with
      | zero => omega
      | succ size =>
        have rest : value / 128 < 128 ^ (size + 1) := by
          rw [Nat.pow_succ] at small
          exact Nat.div_lt_of_lt_mul (by rwa [Nat.mul_comm] at small)
        have shorter := ih (value / 128) size rest
        omega
    · exact Nat.le_add_left _ _

variable {value : UInt64} {vlen : Nat} {schemas : Nat → Nat}

structure Call where
  tabid : Nat
  key : UInt64
  seqno : UInt64
  value : UInt64
  object : List UInt8
  stack : Nat → UInt8 := fun _ => 0

structure Logged where
  tabid : Nat
  key : UInt64
  seqno : UInt64
  value : Option (List UInt8)
  deriving DecidableEq, Repr

def Call.logged (call : Call) : Logged :=
  ⟨call.tabid, call.key, call.seqno, if call.value = 0 then none else some call.object⟩

def Call.record (call : Call) (vlen : Nat) : Record :=
  ⟨call.tabid, call.key, call.seqno, if call.value = 0 then none else some call.value, vlen⟩

def Call.copied (call : Call) (vlen : Nat) : List UInt8 :=
  (List.range vlen).map fun i => (word call.value).getD i (call.stack (i - 8))

def nulval : UInt64 := -1

def Call.valueBytes (call : Call) (vlen : Nat) : List UInt8 :=
  if call.value = 0 then word nulval else call.copied vlen

inductive Overrun where
  | temp
  | buf
  | full
  deriving DecidableEq, Repr

def memcpy (buf bytes : List UInt8) : Except Overrun (List UInt8) :=
  if buf.length + bytes.length ≤ bsize then .ok (buf ++ bytes) else .error .buf

def tempSize : Nat := 8

def storeTemp (bytes : List UInt8) : Except Overrun (List UInt8) :=
  if bytes.length ≤ tempSize then .ok bytes else .error .temp

def putRecord (buf : List UInt8) (call : Call) (vlen : Nat) : Except Overrun (List UInt8) := do
  let buf ← memcpy buf (word call.key)
  let temp ← storeTemp (writeUvint64 call.seqno)
  let buf ← memcpy buf temp
  let buf ← memcpy buf (call.valueBytes vlen)
  if buf.length < bsize then pure buf else throw .full

def Call.bytes (call : Call) (vlen : Nat) : List UInt8 :=
  word call.key ++ (writeUvint64 call.seqno ++ call.valueBytes vlen)

variable {buf after : List UInt8} {call : Call} {calls : List Call}

def Call.width (call : Call) (vlen : Nat) : Nat := if call.value = 0 then 8 else vlen

/-- Byte `i` of what stands for the value: ones for a deletion, and for a put the pointer and what
follows it on the stack. -/
def Call.byte (call : Call) (i : Nat) : UInt8 :=
  if call.value = 0 then 0xFF
  else if i < 8 then UInt8.ofNat (call.value.toNat / 256 ^ i) else call.stack (i - 8)

/-- The same pointers to other objects, in another table. -/
def moved : List Call :=
  [⟨2, 7, 300, 5, word 9, fun _ => 0⟩, ⟨2, 7, 301, 0, [], fun _ => 0⟩]

end EunoDb.LogBytes
