import Mathlib.Data.List.Lex
import EunoDb.TXSkiplist

/-! What `TXSkiplist` finds after any sequence of puts. -/

namespace EunoDb.TXSkiplist

open Execution LockfreeInsert LockfreeStore
open SkipInsert (NodeId)
open VersionLookups (Seq)

/-! ### Tags -/

variable {seq other : Seq} {call : PutCall}

section

variable (short : seq.val < 2 ^ 56)

include short

theorem tag_val : (tag seq).val = seq.val * 256 + 1 := by
  have joined : seq.val <<< 8 ||| 1 = seq.val * 256 + 1 := by
    rw [← Nat.shiftLeft_add_eq_or_of_lt (by decide), Nat.shiftLeft_eq]
  rw [tag, joined, Fin.val_ofNat]
  exact Nat.mod_eq_of_lt (by omega)

theorem tag_inj (short' : other.val < 2 ^ 56) : tag seq = tag other ↔ seq = other := by
  rw [Fin.ext_iff, tag_val short, tag_val short', Fin.ext_iff]
  omega

theorem tag_le (short' : other.val < 2 ^ 56) : tag seq ≤ tag other ↔ seq ≤ other := by
  rw [Fin.le_def, tag_val short, tag_val short', Fin.le_def]
  omega

theorem tag_le_maxTag : tag seq ≤ maxTag ↔ seq.val < 2 ^ 16 := by
  have max : maxTag.val = 0xffffff := rfl
  rw [Fin.le_def, tag_val short, max]
  omega

theorem seqOf_tag : seqOf (tag seq) = seq := by
  apply Fin.ext
  rw [seqOf, Fin.val_ofNat, tag_val short, Nat.shiftRight_eq_div_pow]
  have := seq.isLt
  omega

end

/-! ### What was put -/

structure PutCall.Fits (call : PutCall) : Prop where
  key : call.key.Fits
  value : call.value.length < 2 ^ 32
  seq : call.seq.val < 2 ^ 56

instance (call : PutCall) : Decidable call.Fits :=
  decidable_of_iff (call.key.Fits ∧ call.value.length < 2 ^ 32 ∧ call.seq.val < 2 ^ 56)
    ⟨fun h => ⟨h.1, h.2.1, h.2.2⟩, fun h => ⟨h.key, h.value, h.seq⟩⟩

def valueOf (entry : Bytes) : Option Bytes := do
  let (_, _, behind) ← parts entry
  getLengthPrefixedSlice behind

theorem parts_entry (fits : call.Fits) : parts call.entry =
    some (call.key, tag call.seq, encodeVarint32 call.value.length ++ call.value) :=
  parts_buffer fits.key _ _

theorem valueOf_entry (fits : call.Fits) : valueOf call.entry = some call.value := by
  rw [valueOf, parts_entry fits]
  exact getLengthPrefixedSlice_encode fits.value

section

variable [LinearOrder UserKey] {cmp : Comparator UserKey}

def PutCall.toPut (call : PutCall) : Put (Rank cmp Seq) Bytes :=
  ⟨⟨rank call.key (tag call.seq), call.height, call.node⟩, call.entry⟩

def stored (cmp : Comparator UserKey) (calls : List PutCall) : List (Rank cmp Seq × Bytes) :=
  entries (calls.map PutCall.toPut)

def firstValue (calls : List PutCall) (key : UserKey) (seq : Seq) : Option Bytes :=
  (calls.find? fun call => decide (call.key = key ∧ call.seq = seq)).map PutCall.value

variable {call : PutCall} {fuel : Nat} {s : Store (Rank cmp Seq) Bytes} {calls : List PutCall}
  {seq : Seq} {key : UserKey}

theorem put_eq (fits : call.Fits) : put fuel s call = LockfreeStore.put fuel s call.toPut := by
  simp only [put, PutCall.entry, internalKey_buffer fits.key]
  rfl

def Supplied (s : Store (Rank cmp Seq) Bytes) (call : PutCall) : Prop :=
  LockfreeStore.Supplied s call.toPut

instance (s : Store (Rank cmp Seq) Bytes) (call : PutCall) : Decidable (Supplied s call) :=
  inferInstanceAs (Decidable (LockfreeStore.Supplied _ _))

theorem run_puts (fits : ∀ call ∈ calls, call.Fits) (supplied : Each (put fuel) Supplied s calls) :
    run (put fuel) s calls = run (LockfreeStore.put fuel) s (calls.map PutCall.toPut) ∧
      Each (LockfreeStore.put fuel) LockfreeStore.Supplied s (calls.map PutCall.toPut) := by
  induction calls generalizing s with
  | nil => exact ⟨rfl, trivial⟩
  | cons call rest ih =>
    have same : put fuel s call = LockfreeStore.put fuel s call.toPut :=
      put_eq (fits call List.mem_cons_self)
    have later : ∀ next, LockfreeStore.put fuel s call.toPut = some next → _ := fun next taken =>
      ih (fun call mem => fits call (List.mem_cons_of_mem _ mem))
        (supplied.2 next (same.trans taken))
    refine ⟨?_, supplied.1, fun next taken => (later next taken).2⟩
    simp only [run, List.map_cons, same]
    cases taken : LockfreeStore.put fuel s call.toPut with
    | none => rfl
    | some next => exact (later next taken).1

theorem lookup_stored (fits : ∀ call ∈ calls, call.Fits) (key : UserKey)
    (short : seq.val < 2 ^ 56) : (stored cmp calls).lookup (rank key (tag seq)) =
      (calls.find? fun call => decide (call.key = key ∧ call.seq = seq)).map PutCall.entry := by
  induction calls with
  | nil => rfl
  | cons call rest ih =>
    have later := ih fun call mem => fits call (List.mem_cons_of_mem _ mem)
    have same : (rank key (tag seq) : Rank cmp Seq) = call.toPut.key ↔ call.key = key ∧ call.seq = seq := by
      rw [PutCall.toPut, rank_inj, tag_inj short (fits call List.mem_cons_self).seq]
      exact and_congr eq_comm eq_comm
    have unfolded : stored cmp (call :: rest) = (call.toPut.key, call.entry) :: stored cmp rest := rfl
    by_cases isCall : call.key = key ∧ call.seq = seq
    · have equal := same.mpr isCall
      simp [unfolded, equal, isCall]
    · have different : ((rank key (tag seq) : Rank cmp Seq) == call.toPut.key) = false := by
        simpa using fun equal => isCall (same.mp equal)
      simp [unfolded, List.lookup_cons, different, isCall, later]

variable {lists : Nat → List NodeId} {calls : List PutCall}

theorem entry_call (holds : Holds s lists (stored cmp calls)) {x : NodeId} (mem : x ∈ lists 0) :
    ∃ call ∈ calls, s.entry x = call.entry ∧
      s.list.memory.key x = rank call.key (tag call.seq) := by
  obtain ⟨before, after, split, -⟩ := List.lookup_eq_some_iff.mp (holds.stored x mem)
  have inside : (s.list.memory.key x, s.entry x) ∈ stored cmp calls := by simp [split]
  simp only [stored, entries, List.map_map, List.mem_map, Function.comp_apply] at inside
  obtain ⟨call, isCall, pair⟩ := inside
  exact ⟨call, isCall, (congrArg Prod.snd pair).symm, (congrArg Prod.fst pair).symm⟩

theorem firstValue_eq (cmp : Comparator UserKey) (fits : ∀ call ∈ calls, call.Fits) (key : UserKey)
    (short : seq.val < 2 ^ 56) :
    firstValue calls key seq = ((stored cmp calls).lookup (rank key (tag seq))).bind valueOf := by
  rw [lookup_stored fits key short, firstValue]
  cases found : calls.find? fun call => decide (call.key = key ∧ call.seq = seq) with
  | none => rfl
  | some call => exact (valueOf_entry (fits call (List.mem_of_find?_eq_some found))).symm

/-! ### `Seek` -/

theorem seekEntry_buffer (fits : key.Fits) {t : Seq} {answer : Option NodeId}
    (sought : seek fuel s.list (rank key t) = some answer) :
    seekEntry fuel s (buffer key t []) = some (answer.map s.entry) := by
  simp [seekEntry, internalKey_buffer fits, sought]

theorem get_eq (holds : Holds s lists (stored cmp calls))
    (fits : ∀ call ∈ calls, call.Fits) (enough : kMaxHeight + (stored cmp calls).length < fuel)
    (keyFits : key.Fits) (short : seq.val < 2 ^ 56) :
    get fuel s key seq = some (firstValue calls key seq) := by
  have few := holds.length
  obtain ⟨answer, sought, first⟩ := seek_answers holds.good
    (by omega : kMaxHeight + (lists 0).length < fuel) (rank key (tag seq))
  have read := seekEntry_buffer keyFits sought
  have looked : VersionLookups.get fuel s key (tag seq) = _ :=
    VersionLookups.get_eq holds enough key (tag seq)
  rw [firstValue_eq cmp fits key short]
  cases answer with
  | none =>
    have missing : (stored cmp calls).lookup (rank key (tag seq)) = none := by
      simpa [VersionLookups.get, sought] using looked.symm
    simp [get, read, missing]
  | some x =>
    obtain ⟨call, mem, isEntry, isKey⟩ := entry_call holds first.1
    have split := parts_entry (fits call mem)
    have resKey : (s.list.memory.key x).key = call.key := congrArg Rank.key isKey
    have resTag : (s.list.memory.key x).version = tag call.seq := congrArg Rank.version isKey
    by_cases same : call.key = key
    · have hit : cmp.compare key key = 0 := (cmp.same _ _).mpr rfl
      by_cases isTag : tag call.seq = tag seq
      · have found : (stored cmp calls).lookup (rank key (tag seq)) = some call.entry := by
          simpa [VersionLookups.get, sought, resKey, resTag, same, isTag, hit, isEntry]
            using looked.symm
        have value := getLengthPrefixedSlice_encode (fits call mem).value
        simp [get, read, isEntry, split, same, hit, isTag, found, valueOf_entry (fits call mem),
          value]
      · have missing : (stored cmp calls).lookup (rank key (tag seq)) = none := by
          simpa [VersionLookups.get, sought, resKey, resTag, same, Ne.symm isTag, hit]
            using looked.symm
        simp [get, read, isEntry, split, same, hit, isTag, missing]
    · have miss : cmp.compare key call.key ≠ 0 := fun zero => same ((cmp.same _ _).mp zero).symm
      have miss' : cmp.compare call.key key ≠ 0 := fun zero => same ((cmp.same _ _).mp zero)
      have missing : (stored cmp calls).lookup (rank key (tag seq)) = none := by
        simpa [VersionLookups.get, sought, resKey, miss] using looked.symm
      simp [get, read, isEntry, split, miss', missing]

def IsMaxShort (calls : List PutCall) (key : UserKey) : Option Seq → Prop
  | some m => (∃ call ∈ calls, call.key = key ∧ call.seq = m) ∧ m.val < 2 ^ 16 ∧
      ∀ call ∈ calls, call.key = key → call.seq.val < 2 ^ 16 → call.seq ≤ m
  | none => ∀ call ∈ calls, call.key = key → 2 ^ 16 ≤ call.seq.val

theorem call_node (holds : Holds s lists (stored cmp calls)) (mem : call ∈ calls) :
    ∃ node ∈ lists 0, (s.list.memory.key node).key = call.key ∧
      (s.list.memory.key node).version = tag call.seq := by
  apply holds.node
  have some_ : ((stored cmp calls).lookup (rank call.key (tag call.seq))).isSome :=
    List.lookup_isSome_iff.mpr ⟨(call.toPut.key, call.entry), by
      simp only [stored, entries, List.map_map, List.mem_map]
      exact ⟨call, mem, rfl⟩, by simp [PutCall.toPut]⟩
  exact Option.isSome_iff_ne_none.mp some_

theorem getMaxSeq_answers (holds : Holds s lists (stored cmp calls))
    (fits : ∀ call ∈ calls, call.Fits) (enough : kMaxHeight + (stored cmp calls).length < fuel)
    (keyFits : key.Fits) :
    ∃ answer, getMaxSeq fuel s key = some answer ∧ IsMaxShort calls key answer := by
  have few := holds.length
  obtain ⟨answer, sought, first⟩ := seek_answers holds.good
    (by omega : kMaxHeight + (lists 0).length < fuel) (rank key maxTag)
  have read := seekEntry_buffer keyFits sought
  rcases seek_version first with ⟨x, inside, rfl, isKey, notNewer, newest⟩ | ⟨other, newer⟩
  · obtain ⟨call, mem, isEntry, isRank⟩ := entry_call holds inside
    have short := (fits call mem).seq
    have resTag : (s.list.memory.key x).version = tag call.seq := congrArg Rank.version isRank
    have same : call.key = key := (congrArg Rank.key isRank).symm.trans isKey
    have hit : cmp.compare key key = 0 := (cmp.same _ _).mpr rfl
    refine ⟨some call.seq, ?_, ⟨call, mem, same, rfl⟩, ?_, ?_⟩
    · simp [getMaxSeq, read, isEntry, parts_entry (fits call mem), same, hit, seqOf_tag short]
    · exact (tag_le_maxTag short).mp (resTag ▸ notNewer)
    intro later member' same' small
    obtain ⟨node, inside', isKey', isTag⟩ := call_node holds member'
    have short' := (fits later member').seq
    have le := newest node inside' (isKey'.trans same') (isTag ▸ (tag_le_maxTag short').mpr small)
    rw [isTag, resTag] at le
    exact (tag_le short' short).mp le
  · refine ⟨none, ?_, fun call mem same => ?_⟩
    · cases answer with
      | none => simp [getMaxSeq, read]
      | some x =>
        obtain ⟨call, mem, isEntry, isRank⟩ := entry_call holds first.1
        have different : call.key ≠ key := fun same =>
          other x rfl ((congrArg Rank.key isRank).trans same)
        have miss : cmp.compare call.key key ≠ 0 := fun zero => different ((cmp.same _ _).mp zero)
        simp [getMaxSeq, read, isEntry, parts_entry (fits call mem), miss]
    · obtain ⟨node, inside, isKey, isTag⟩ := call_node holds mem
      have greater := newer node inside (isKey.trans same)
      rw [isTag] at greater
      by_contra small
      have notGreater := (tag_le_maxTag (fits call mem).seq).mpr (not_le.mp small)
      exact absurd notGreater (not_le.mpr greater)

/-- After any sequence of puts with lengths that fit, `Get` finds exactly what was put, and
`GetMaxSeq` the greatest sequence number of a key that has none from `2 ^ 16` on. -/
theorem lookups_exact_short (cmp : Comparator UserKey)
    (memory : SkipLevels.Memory NodeId (Rank cmp Seq)) (entry : NodeId → Bytes)
    (calls : List PutCall) (fits : ∀ call ∈ calls, call.Fits) (fuel : Nat)
    (enough : kMaxHeight + calls.length < fuel)
    (supplied : Each (put fuel) Supplied ⟨create memory, entry⟩ calls) :
    ∃ s, run (put fuel) ⟨create memory, entry⟩ calls = some s ∧
      ∀ key : UserKey, key.Fits →
        (∀ seq : Seq, seq.val < 2 ^ 56 →
          get fuel s key seq = some (firstValue calls key seq)) ∧
        ((∃ answer, getMaxSeq fuel s key = some answer ∧
            match answer with
            | some m => (∃ call ∈ calls, call.key = key ∧ call.seq = m) ∧
                ∀ call ∈ calls, call.key = key → call.seq ≤ m
            | none => ∀ call ∈ calls, call.key ≠ key) ↔
          ∀ call ∈ calls, call.key = key → call.seq.val < 2 ^ 16) := by
  obtain ⟨same, supplied'⟩ := run_puts fits supplied
  obtain ⟨s, lists, ran, holds⟩ := (create_holds memory entry).run supplied' (by simpa using enough)
  have short : kMaxHeight + (stored cmp calls).length < fuel := by simpa [stored, entries] using enough
  refine ⟨s, same.trans ran, fun key keyFits => ⟨fun seq => get_eq holds fits short keyFits, ?_⟩⟩
  obtain ⟨answer, returned, isMax⟩ := getMaxSeq_answers holds fits short keyFits
  rw [returned]
  simp only [Option.some.injEq, exists_eq_left']
  cases answer with
  | none =>
    refine ⟨fun absent call member isKey => absurd isKey (absent call member), ?_⟩
    intro below call member isKey
    exact absurd (isMax call member isKey) (not_le.mpr (below call member isKey))
  | some m =>
    refine ⟨fun greatest call member isKey => ?_, fun below => ⟨isMax.1, fun call member isKey => ?_⟩⟩
    · exact lt_of_le_of_lt (greatest.2 call member isKey) isMax.2.1
    · exact isMax.2.2 call member isKey (below call member isKey)

end

/-! ### Byte strings in their usual order -/

@[reducible]
def bytewise : LinearOrder UserKey :=
  LinearOrder.lift' (fun key => key.bytes.map UInt8.toNat) fun _ _ same =>
    congrArg UserKey.mk (List.map_injective_iff.mpr (fun _ _ => UInt8.toNat_inj.mp) same)

section

local instance : LinearOrder UserKey := bytewise

def bytewiseComparator : Comparator UserKey where
  compare a b := if a < b then -1 else if b < a then 1 else 0
  less a b := by
    split
    · simp [*]
    · split <;> simp [*]
  same a b := by
    split
    · simp [ne_of_lt, *]
    · split
      · simp [ne_of_gt, *]
      · simp [le_antisymm (not_lt.mp ‹_›) (not_lt.mp ‹_›)]

def empty : Store (Rank bytewiseComparator Seq) Bytes :=
  ⟨create ⟨fun _ => rank ⟨[]⟩ ⟨0, Nat.two_pow_pos 64⟩, fun _ _ => some 3⟩, fun _ => []⟩

theorem lookups_exact_short_three :
    let calls : List PutCall := [⟨⟨[97]⟩, [1], 65535, 3, 1⟩, ⟨⟨[97]⟩, [2], 7, 1, 2⟩,
      ⟨⟨[97]⟩, [3], 7, 2, 3⟩]
    ∃ s, run (put 16) empty calls = some s ∧
      get 16 s ⟨[97]⟩ 7 = some (some [2]) ∧
      getMaxSeq 16 s ⟨[97]⟩ = some (some 65535) := by
  intro calls
  obtain ⟨s, ran, found⟩ := lookups_exact_short bytewiseComparator
    ⟨fun _ => rank ⟨[]⟩ 0, fun _ _ => some 3⟩ (fun _ => []) calls (by decide) 16 (by decide)
    (by decide +kernel)
  obtain ⟨values, -⟩ := found ⟨[97]⟩ (by decide)
  have first : firstValue calls ⟨[97]⟩ 7 = some [2] := by decide +kernel
  refine ⟨s, ran, first ▸ values 7 (by decide), ?_⟩
  cases ran
  decide +kernel

theorem getMaxSeq_misses :
    ∃ s, run (put 16) empty [⟨⟨[97]⟩, [1], 65535, 3, 1⟩, ⟨⟨[97]⟩, [2], 65536, 1, 2⟩,
        ⟨⟨[98]⟩, [3], 65536, 2, 3⟩] = some s ∧
      getMaxSeq 16 s ⟨[97]⟩ = some (some 65535) ∧
      getMaxSeq 16 s ⟨[98]⟩ = some none ∧
      get 16 s ⟨[98]⟩ 65536 = some (some [3]) := by
  refine ⟨_, rfl, ?_, ?_, ?_⟩ <;> decide +kernel

end

end EunoDb.TXSkiplist
