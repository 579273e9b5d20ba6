import Mathlib.Data.List.Perm.Subperm
import Mathlib.Data.Prod.Lex
import EunoDb.LockfreeInsert

/-! Versions in a `LockfreeSkipList`, put there by one thread. -/

namespace EunoDb.LockfreeStore

open Execution LockfreeInsert
open SkipInsert (NodeId head)

/-! ### Entries -/

structure Store (K E : Type) where
  list : State K
  entry : NodeId → E

structure Put (K E : Type) extends Input K where
  entry : E

section Entries

variable {K E : Type} [LinearOrder K]

def put (fuel : Nat) (s : Store K E) (p : Put K E) : Option (Store K E) :=
  (insert fuel s.list p.toInput).map fun (list, linked) =>
    ⟨list, if linked then Function.update s.entry p.node p.entry else s.entry⟩

def Supplied (s : Store K E) (p : Put K E) : Prop :=
  (1 ≤ p.height ∧ p.height ≤ kMaxHeight) ∧ s.list.allocated p.node = false

instance (s : Store K E) (p : Put K E) : Decidable (Supplied s p) :=
  inferInstanceAs (Decidable (_ ∧ _))

def entries (puts : List (Put K E)) : List (K × E) := puts.map fun p => (p.key, p.entry)

structure Holds (s : Store K E) (lists : Nat → List NodeId) (all : List (K × E)) : Prop where
  good : Good s.list lists
  stored : ∀ node ∈ lists 0, all.lookup (s.list.memory.key node) = some (s.entry node)
  found : ∀ key entry, all.lookup key = some entry →
    ∃ node ∈ lists 0, s.list.memory.key node = key
  length : (lists 0).length ≤ all.length

variable {s : Store K E} {lists : Nat → List NodeId} {all : List (K × E)} {fuel : Nat}

theorem lookup_snoc (all : List (K × E)) (other : K) (e : E) (key : K) :
    (all ++ [(other, e)]).lookup key = (all.lookup key).or (if key = other then some e else none) := by
  rw [List.lookup_append]
  by_cases same : key = other
  · simp [same]
  · have different : (key == other) = false := by simpa using same
    simp [List.lookup_cons, same, different]

theorem Holds.put (holds : Holds s lists all) {p : Put K E} (supplied : Supplied s p)
    (enough : kMaxHeight + all.length < fuel) :
    ∃ after longer, put fuel s p = some after ∧
      Holds after longer (all ++ [(p.key, p.entry)]) := by
  have short := holds.length
  obtain ⟨list, linked, longer, inserted, good, inserts⟩ := insert_inserts holds.good supplied.2
    supplied.1.1 supplied.1.2 (by omega : kMaxHeight + (lists 0).length < fuel)
  refine ⟨⟨list, if linked then Function.update s.entry p.node p.entry else s.entry⟩, longer,
    by simp [LockfreeStore.put, inserted], ?_⟩
  cases inserts with
  | present mem isKey same memory =>
    subst same
    refine ⟨good, fun node inside => ?_, fun key entry isEntry => ?_, ?_⟩
    · simp [lookup_snoc, memory, holds.stored node inside]
    · rw [lookup_snoc] at isEntry
      cases before : all.lookup key with
      | some old =>
        obtain ⟨node, inside, isNode⟩ := holds.found key old before
        exact ⟨node, inside, (congrFun (congrArg _ memory) node).trans isNode⟩
      | none =>
        simp only [before, Option.none_or] at isEntry
        split at isEntry
        · rename_i isPut
          exact ⟨_, mem, by rw [isPut, ← isKey, ← memory]⟩
        · cases isEntry
    · rw [List.length_append]
      omega
  | added absent fresh members isKey keys =>
    have missing : all.lookup p.key = none := by
      by_contra present
      obtain ⟨entry, isEntry⟩ := Option.ne_none_iff_exists'.mp present
      obtain ⟨node, inside, isNode⟩ := holds.found p.key entry isEntry
      exact absent node inside isNode
    refine ⟨good, fun node inside => ?_, fun key entry isEntry => ?_, ?_⟩
    · rcases (members node).mp inside with was | rfl
      · have other : node ≠ p.node := fun same => fresh (same ▸ was)
        simp [lookup_snoc, keys node was, holds.stored node was, other]
      · simp [lookup_snoc, isKey, missing]
    · rw [lookup_snoc] at isEntry
      cases before : all.lookup key with
      | some old =>
        obtain ⟨node, inside, isNode⟩ := holds.found key old before
        exact ⟨node, (members node).mpr (.inl inside), (keys node inside).trans isNode⟩
      | none =>
        simp only [before, Option.none_or] at isEntry
        split at isEntry
        · rename_i isPut
          exact ⟨p.node, (members p.node).mpr (.inr rfl), isKey.trans isPut.symm⟩
        · cases isEntry
    · have inside : longer 0 ⊆ p.node :: lists 0 := fun node mem =>
        List.mem_cons.mpr ((members node).mp mem).symm
      have length := ((good.levels.linked 0).nodup.subperm inside).length_le
      rw [List.length_cons] at length
      simp only [List.length_append, List.length_singleton]
      omega

theorem Holds.run {puts : List (Put K E)} (holds : Holds s lists all)
    (supplied : Each (LockfreeStore.put fuel) Supplied s puts)
    (enough : kMaxHeight + all.length + puts.length < fuel) :
    ∃ final longer, run (LockfreeStore.put fuel) s puts = some final ∧
      Holds final longer (all ++ entries puts) := by
  induction puts generalizing s lists all with
  | nil => exact ⟨s, lists, rfl, by simpa [entries] using holds⟩
  | cons p rest ih =>
    simp only [List.length_cons] at enough
    obtain ⟨next, longer, taken, holds'⟩ :=
      holds.put supplied.1 (by omega : kMaxHeight + all.length < fuel)
    obtain ⟨final, lists', ran, holds''⟩ := ih holds' (supplied.2 next taken) (by
      simp only [List.length_append, List.length_singleton]
      omega)
    refine ⟨final, lists', (run_cons ..).mpr ⟨next, taken, ran⟩, ?_⟩
    simpa [entries] using holds''

theorem create_holds (memory : SkipLevels.Memory NodeId K) (entry : NodeId → E) :
    Holds ⟨create memory, entry⟩ (fun _ => []) [] :=
  ⟨create_good memory, nofun, nofun, Nat.le_refl 0⟩

end Entries

/-! ### Versions -/

section Versions

variable {Key N E : Type} [LinearOrder Key]

/-- The comparator that a user hands to a store, of some total order of the keys. -/
structure Comparator (Key : Type) [LinearOrder Key] where
  compare : Key → Key → Int
  less : ∀ a b, compare a b < 0 ↔ a < b
  same : ∀ a b, compare a b = 0 ↔ a = b

/-- A key with a version. The list orders them by `compareKeys`: newer versions come first. -/
def Rank (_ : Comparator Key) (N : Type) : Type := Key ×ₗ Nᵒᵈ

variable {cmp : Comparator Key}

def rank (key : Key) (version : N) : Rank cmp N := toLex (key, OrderDual.toDual version)

def Rank.pair (r : Rank cmp N) : Key × Nᵒᵈ := ofLex r

def Rank.key (r : Rank cmp N) : Key := r.pair.1

def Rank.version (r : Rank cmp N) : N := OrderDual.ofDual r.pair.2

theorem rank_inj {key other : Key} {version older : N} :
    (rank key version : Rank cmp N) = rank other older ↔ key = other ∧ version = older := by
  constructor
  · intro same
    exact ⟨congrArg Rank.key same, congrArg Rank.version same⟩
  · rintro ⟨rfl, rfl⟩
    rfl

theorem Rank.eq_rank {r : Rank cmp N} {key : Key} {version : N} (isKey : r.key = key)
    (isVersion : r.version = version) : r = rank key version := by
  rw [← isKey, ← isVersion]
  rfl

variable [LinearOrder N]

instance : PartialOrder (Rank cmp N) := inferInstanceAs (PartialOrder (Key ×ₗ Nᵒᵈ))

theorem Rank.le_iff {first second : Rank cmp N} : first ≤ second ↔
    first.key < second.key ∨ first.key = second.key ∧ second.version ≤ first.version :=
  Prod.Lex.toLex_le_toLex

theorem Rank.lt_iff {first second : Rank cmp N} : first < second ↔
    first.key < second.key ∨ first.key = second.key ∧ second.version < first.version :=
  Prod.Lex.toLex_lt_toLex

def compareKeys (a b : Rank cmp N) : Int :=
  let r := cmp.compare a.key b.key
  if r = 0 then
    if b.version < a.version then -1 else if a.version < b.version then 1 else 0
  else r

theorem compareKeys_order (a b : Rank cmp N) :
    (compareKeys a b < 0 ↔ a < b) ∧ (compareKeys a b = 0 ↔ a = b) := by
  have equal : a = b ↔ a.key = b.key ∧ a.version = b.version := rank_inj
  rw [Rank.lt_iff, equal]
  by_cases same : a.key = b.key
  · have zero : cmp.compare b.key b.key = 0 := (cmp.same _ _).mpr rfl
    simp only [compareKeys, same, zero, if_true, true_and, lt_irrefl, false_or]
    rcases lt_trichotomy a.version b.version with less | isVersion | greater
    · simp [less, not_lt.mpr (le_of_lt less), ne_of_lt less]
    · simp [isVersion]
    · simp [greater, ne_of_gt greater]
  · have nonzero : cmp.compare a.key b.key ≠ 0 := fun zero => same ((cmp.same _ _).mp zero)
    simp [compareKeys, nonzero, same, cmp.less]

-- every comparison and every test for equality in the list is a call of `compareKeys`
instance : LinearOrder (Rank cmp N) where
  le_total := (inferInstance : LinearOrder (Key ×ₗ Nᵒᵈ)).le_total
  toDecidableLT a b := decidable_of_iff _ (compareKeys_order a b).1
  toDecidableEq a b := decidable_of_iff _ (compareKeys_order a b).2
  toDecidableLE a b := decidable_of_iff (compareKeys a b < 0 ∨ compareKeys a b = 0)
    ((or_congr (compareKeys_order a b).1 (compareKeys_order a b).2).trans le_iff_lt_or_eq.symm)

variable {s : State (Rank cmp N)} {nodes : List NodeId} {key : Key} {version : N}

theorem seek_version {answer : Option NodeId} (first : IsFirst s nodes (rank key version) answer) :
    (∃ x ∈ nodes, answer = some x ∧ (s.memory.key x).key = key ∧
      (s.memory.key x).version ≤ version ∧
      ∀ node ∈ nodes, (s.memory.key node).key = key → (s.memory.key node).version ≤ version →
        (s.memory.key node).version ≤ (s.memory.key x).version) ∨
    (∀ x, answer = some x → (s.memory.key x).key ≠ key) ∧
      ∀ node ∈ nodes, (s.memory.key node).key = key → version < (s.memory.key node).version := by
  have after : ∀ node, rank key version ≤ s.memory.key node ↔ key < (s.memory.key node).key ∨
      key = (s.memory.key node).key ∧ (s.memory.key node).version ≤ version :=
    fun node => Rank.le_iff
  cases answer with
  | none =>
    refine .inr ⟨nofun, fun node mem same => ?_⟩
    by_contra notNewer
    exact absurd (first node mem)
      (not_lt.mpr ((after node).mpr (.inr ⟨same.symm, not_lt.mp notNewer⟩)))
  | some x =>
    obtain ⟨mem, notSmaller, least⟩ := first
    rcases (after x).mp notSmaller with later | ⟨same, notNewer⟩
    · -- the first position that is not smaller has a later key
      refine .inr ⟨fun other isOther => ?_, fun node inside isKey => ?_⟩
      · cases isOther
        exact ne_of_gt later
      by_contra notNewer
      have le := least node inside ((after node).mpr (.inr ⟨isKey.symm, not_lt.mp notNewer⟩))
      rcases Rank.le_iff.mp le with earlier | ⟨sameKey, -⟩
      · exact lt_irrefl key (isKey ▸ later.trans earlier)
      · exact absurd (sameKey.trans isKey) (ne_of_gt later)
    · refine .inl ⟨x, mem, rfl, same.symm, notNewer, fun node inside isKey notNewer' => ?_⟩
      have le := least node inside ((after node).mpr (.inr ⟨isKey.symm, notNewer'⟩))
      rcases Rank.le_iff.mp le with earlier | ⟨-, older⟩
      · exact absurd (isKey.trans same) (ne_of_gt earlier)
      · exact older

theorem Holds.node {s : Store (Rank cmp N) E} {lists : Nat → List NodeId}
    {all : List (Rank cmp N × E)} (holds : Holds s lists all)
    (stored : all.lookup (rank key version) ≠ none) :
    ∃ node ∈ lists 0, (s.list.memory.key node).key = key ∧
      (s.list.memory.key node).version = version := by
  obtain ⟨entry, isEntry⟩ := Option.ne_none_iff_exists'.mp stored
  obtain ⟨node, mem, isRank⟩ := holds.found _ entry isEntry
  exact ⟨node, mem, by rw [isRank]; rfl, by rw [isRank]; rfl⟩

end Versions

end EunoDb.LockfreeStore
