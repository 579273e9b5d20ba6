import EunoDb.LockfreeStore
import Mathlib.Algebra.Group.Nat.Defs

/-! `TXMemStore` over its skip list, used by one thread. `NotFound` is `none`. -/

namespace EunoDb.VersionLookups

open Execution LockfreeInsert LockfreeStore
open SkipInsert (NodeId head)

abbrev Seq := Fin (2 ^ 64)

def maxSeq : Seq := Fin.last _

theorem le_maxSeq (seq : Seq) : seq ≤ maxSeq := Fin.le_last seq

section

variable {Key Val : Type} [LinearOrder Key] {cmp : Comparator Key}

structure PutCall (Key Val : Type) where
  k : Key
  val : Val
  seq : Seq
  height : Nat
  node : NodeId

def PutCall.toPut (call : PutCall Key Val) : Put (Rank cmp Seq) Val :=
  ⟨⟨rank call.k call.seq, call.height, call.node⟩, call.val⟩

variable (fuel : Nat) (s : Store (Rank cmp Seq) Val)

def get (k : Key) (seq : Seq) : Option (Option Val) := do
  match ← seek fuel s.list (rank k seq) with
  | none => return none
  | some x =>
    let res := s.list.memory.key x
    if cmp.compare k res.key = 0 then
      if seq ≠ res.version then return none else return some (s.entry x)
    else return none

def getMaxSeq (k : Key) : Option (Option Seq) := do
  match ← seek fuel s.list (rank k maxSeq) with
  | none => return none
  | some x =>
    let res := s.list.memory.key x
    if cmp.compare k res.key = 0 then return some res.version else return none

end

/-! ### What the store is for -/

section

variable {Key Val : Type} [LinearOrder Key] {cmp : Comparator Key} {fuel : Nat}
  {s : Store (Rank cmp Seq) Val} {lists : Nat → List NodeId} {all : List (Rank cmp Seq × Val)}

theorem get_eq (holds : Holds s lists all) (enough : kMaxHeight + all.length < fuel) (k : Key)
    (seq : Seq) : get fuel s k seq = some (all.lookup (rank k seq)) := by
  have short := holds.length
  obtain ⟨answer, sought, first⟩ := seek_answers holds.good
    (by omega : kMaxHeight + (lists 0).length < fuel) (rank k seq)
  rcases seek_version first with ⟨x, mem, rfl, isKey, notNewer, newest⟩ | ⟨other, newer⟩
  · have hit : cmp.compare k (s.list.memory.key x).key = 0 := (cmp.same _ _).mpr isKey.symm
    by_cases exact_ : seq = (s.list.memory.key x).version
    · have stored := holds.stored x mem
      rw [Rank.eq_rank isKey exact_.symm] at stored
      simp [get, sought, hit, stored, ← exact_]
    -- the newest version that is not newer is another one, so this one is not there
    have missing : all.lookup (rank k seq) = none := by
      by_contra stored
      obtain ⟨node, inside, isKey', isVersion⟩ := holds.node stored
      have le := newest node inside isKey' (le_of_eq isVersion)
      exact exact_ (le_antisymm (isVersion ▸ le) notNewer)
    simp [get, sought, hit, exact_, missing]
  · have missing : all.lookup (rank k seq) = none := by
      by_contra stored
      obtain ⟨node, inside, isKey, isVersion⟩ := holds.node stored
      exact absurd (newer node inside isKey) (isVersion ▸ lt_irrefl _)
    cases answer with
    | none => simp [get, sought, missing]
    | some x =>
      have miss : cmp.compare k (s.list.memory.key x).key ≠ 0 :=
        fun zero => other x rfl ((cmp.same _ _).mp zero).symm
      simp [get, sought, miss, missing]

def IsMaxSeq (all : List (Rank cmp Seq × Val)) (k : Key) : Option Seq → Prop
  | some m => all.lookup (rank k m) ≠ none ∧ ∀ seq, all.lookup (rank k seq) ≠ none → seq ≤ m
  | none => ∀ seq, all.lookup (rank k seq) = none

theorem getMaxSeq_answers (holds : Holds s lists all) (enough : kMaxHeight + all.length < fuel)
    (k : Key) : ∃ answer, getMaxSeq fuel s k = some answer ∧ IsMaxSeq all k answer := by
  have short := holds.length
  obtain ⟨answer, sought, first⟩ := seek_answers holds.good
    (by omega : kMaxHeight + (lists 0).length < fuel) (rank k maxSeq)
  rcases seek_version first with ⟨x, mem, rfl, isKey, -, newest⟩ | ⟨other, newer⟩
  · have hit : cmp.compare k (s.list.memory.key x).key = 0 := (cmp.same _ _).mpr isKey.symm
    refine ⟨some (s.list.memory.key x).version, by simp [getMaxSeq, sought, hit], ?_, ?_⟩
    · rw [← Rank.eq_rank isKey rfl, holds.stored x mem]
      exact nofun
    · intro seq stored
      obtain ⟨node, inside, isKey', isVersion⟩ := holds.node stored
      exact isVersion ▸ newest node inside isKey' (le_maxSeq _)
  have missing : ∀ seq, all.lookup (rank k seq) = none := by
    intro seq
    by_contra stored
    obtain ⟨node, inside, isKey, isVersion⟩ := holds.node stored
    exact absurd (newer node inside isKey) (not_lt.mpr (le_maxSeq _))
  refine ⟨none, ?_, missing⟩
  cases answer with
  | none => simp [getMaxSeq, sought]
  | some x =>
    have miss : cmp.compare k (s.list.memory.key x).key ≠ 0 :=
      fun zero => other x rfl ((cmp.same _ _).mp zero).symm
    simp [getMaxSeq, sought, miss]

theorem lookup_iff_mem (distinct : (all.map Prod.fst).Nodup) (key : Rank cmp Seq) (v : Val) :
    all.lookup key = some v ↔ (key, v) ∈ all := by
  induction all with
  | nil => simp
  | cons first rest ih =>
    obtain ⟨other, w⟩ := first
    obtain ⟨fresh, distinct'⟩ := List.nodup_cons.mp distinct
    by_cases same : key = other
    · subst same
      have notLater : (key, v) ∉ rest := fun later =>
        fresh (List.mem_map.mpr ⟨(key, v), later, rfl⟩)
      simp [notLater, eq_comm]
    · have different : (key == other) = false := by simpa using same
      simp [List.lookup_cons, different, same, ih distinct']

def stored (cmp : Comparator Key) (calls : List (PutCall Key Val)) : List (Rank cmp Seq × Val) :=
  entries (calls.map PutCall.toPut)

/-- After any sequence of puts with different pairs of key and sequence number, `Get` finds
exactly what was put and `GetMaxSeq` the greatest sequence number of a key. -/
theorem lookups_exact (cmp : Comparator Key) (memory : SkipLevels.Memory NodeId (Rank cmp Seq))
    (entry : NodeId → Val) (calls : List (PutCall Key Val))
    (distinct : (calls.map fun call => (call.k, call.seq)).Nodup) (fuel : Nat)
    (enough : kMaxHeight + calls.length < fuel)
    (supplied : Each (put fuel) Supplied ⟨create memory, entry⟩ (calls.map PutCall.toPut)) :
    ∃ s, run (put fuel) ⟨create memory, entry⟩ (calls.map PutCall.toPut) = some s ∧
      (∀ k seq, ∃ answer, get fuel s k seq = some answer ∧
        ∀ v, answer = some v ↔ ∃ call ∈ calls, call.k = k ∧ call.seq = seq ∧ call.val = v) ∧
      ∀ k, ∃ answer, getMaxSeq fuel s k = some answer ∧
        match answer with
        | some m => (∃ call ∈ calls, call.k = k ∧ call.seq = m) ∧
            ∀ call ∈ calls, call.k = k → call.seq ≤ m
        | none => ∀ call ∈ calls, call.k ≠ k := by
  obtain ⟨s, lists, ran, holds⟩ := (create_holds memory entry).run supplied (by simpa using enough)
  have listed : stored cmp calls = calls.map fun call => (rank call.k call.seq, call.val) := by
    simp [stored, entries, PutCall.toPut]
  have distinct' : ((stored cmp calls).map Prod.fst).Nodup := by
    have injective : Function.Injective fun pair : Key × Seq => (rank pair.1 pair.2 : Rank cmp Seq) :=
      fun _ _ same => Prod.ext (rank_inj.mp same).1 (rank_inj.mp same).2
    have ranks := distinct.map injective
    rw [listed, List.map_map]
    rw [List.map_map] at ranks
    exact ranks
  have looked : ∀ k seq v, (stored cmp calls).lookup (rank k seq) = some v ↔
      ∃ call ∈ calls, call.k = k ∧ call.seq = seq ∧ call.val = v := by
    intro k seq v
    rw [lookup_iff_mem distinct', listed, List.mem_map]
    simp only [Prod.mk.injEq, rank_inj, and_assoc]
  have present : ∀ call ∈ calls, (stored cmp calls).lookup (rank call.k call.seq) ≠ none := by
    intro call member
    rw [(looked call.k call.seq call.val).mpr ⟨call, member, rfl, rfl, rfl⟩]
    simp
  have short : kMaxHeight + (stored cmp calls).length < fuel := by simpa [listed] using enough
  refine ⟨s, ran, fun k seq => ⟨_, get_eq holds short k seq, looked k seq⟩, fun k => ?_⟩
  obtain ⟨answer, returned, isMax⟩ := getMaxSeq_answers holds short k
  refine ⟨answer, returned, ?_⟩
  cases answer with
  | none => exact fun call member isKey => present call member (isKey ▸ isMax call.seq)
  | some m =>
    obtain ⟨v, isValue⟩ := Option.ne_none_iff_exists'.mp isMax.1
    obtain ⟨call, member, isKey, isSeq, -⟩ := (looked k m v).mp isValue
    exact ⟨⟨call, member, isKey, isSeq⟩,
      fun call member isKey => isMax.2 call.seq (isKey ▸ present call member)⟩

end

def difference : Comparator Nat where
  compare a b := (a : Int) - b
  less a b := by omega
  same a b := by omega

theorem lookups_exact_three :
    let start : Store (Rank difference Seq) Nat :=
      ⟨create ⟨fun _ => rank 0 0, fun _ _ => some 3⟩, fun _ => 0⟩
    let calls : List (PutCall Nat Nat) := [⟨1, 10, 5, 3, 1⟩, ⟨1, 11, 7, 1, 2⟩, ⟨1, 12, 6, 2, 3⟩]
    ∃ s, run (put 16) start (calls.map PutCall.toPut) = some s ∧
      (∃ answer, get 16 s 1 6 = some answer ∧
        ∀ v, answer = some v ↔ ∃ call ∈ calls, call.k = 1 ∧ call.seq = 6 ∧ call.val = v) ∧
      getMaxSeq 16 s 1 = some (some 7) := by
  intro start calls
  obtain ⟨s, ran, found, -⟩ := lookups_exact difference ⟨fun _ => rank 0 0, fun _ _ => some 3⟩
    (fun _ => 0) calls (by decide) 16 (by decide) (by decide +kernel)
  refine ⟨s, ran, found 1 6, ?_⟩
  cases ran
  rfl

end EunoDb.VersionLookups
