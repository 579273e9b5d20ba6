import EunoDb.Memstore

/-! What a reader takes from a record. -/

namespace EunoDb.Visibility

open Memstore

def live : Value → Option Ptr
  | .pointer object => some object
  | .logicalDelete => none
  | .haveRemoved => none

structure Version where
  counter : Nat
  value : Value
  deriving DecidableEq, Repr

structure Record where
  counter : Nat := 0
  value : Value := .logicalDelete
  oldVersions : List Version := []
  deriving DecidableEq, Repr

def scanVersions (oldsnapshot : Nat) : List Version → Option Version
  | [] => none
  | version :: older =>
    if oldsnapshot < version.counter then scanVersions oldsnapshot older else some version

def scanMemNode (oldsnapshot : Nat) : Option Record → Option Ptr
  | none => none
  | some record =>
    if record.counter ≤ oldsnapshot then live record.value
    else
      (scanVersions oldsnapshot record.oldVersions).bind fun version =>
        if version.counter ≤ oldsnapshot then live version.value else none

/-! ### What a snapshot sees -/

def Record.versions (record : Record) : List Version :=
  ⟨record.counter, record.value⟩ :: record.oldVersions

def Record.visibleAt (snapshot : Nat) (record : Record) : Option Ptr :=
  (record.versions.find? fun version => version.counter ≤ snapshot).bind fun version =>
    live version.value

theorem scanVersions_eq_find (snapshot : Nat) (versions : List Version) :
    scanVersions snapshot versions =
      versions.find? fun version => decide (version.counter ≤ snapshot) := by
  induction versions with
  | nil => rfl
  | cons version older ih =>
    by_cases young : snapshot < version.counter
    · simp [scanVersions, young, Nat.not_le.mpr young, ih]
    · simp [scanVersions, young, Nat.not_lt.mp young]

@[simp]
theorem scanMemNode_some (snapshot : Nat) (record : Record) :
    scanMemNode snapshot (some record) = record.visibleAt snapshot := by
  by_cases current : record.counter ≤ snapshot
  · simp [scanMemNode, Record.visibleAt, Record.versions, current]
  simp only [scanMemNode, Record.visibleAt, Record.versions, current, if_false,
    scanVersions_eq_find, decide_false, Bool.false_eq_true, not_false_eq_true,
    List.find?_cons_of_neg]
  cases found : record.oldVersions.find? fun version => decide (version.counter ≤ snapshot) with
  | none => rfl
  | some version =>
    have seen : version.counter ≤ snapshot := by simpa using List.find?_some found
    simp [seen]

end EunoDb.Visibility
