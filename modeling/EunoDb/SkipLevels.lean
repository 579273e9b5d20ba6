import Mathlib.Data.List.Sort
import EunoDb.LinkedList

/-! Lists in increasing order over one another. Nodes are only ever added. -/

namespace EunoDb.SkipLevels

open LinkedList

variable {N K : Type}

structure Memory (N K : Type) where
  key : N → K
  next : N → Nat → Option N

def Memory.setNext [DecidableEq N] (memory : Memory N K) (node : N) (level : Nat)
    (target : Option N) : Memory N K :=
  { memory with
    next := Function.update memory.next node (Function.update (memory.next node) level target) }

section SetNext

variable [DecidableEq N] (memory : Memory N K) (node : N) (level : Nat) (target : Option N)

@[simp]
theorem setNext_same : (memory.setNext node level target).next node level = target := by
  simp [Memory.setNext]

theorem setNext_node {other : N} (different : other ≠ node) :
    (memory.setNext node level target).next other = memory.next other := by
  simp [Memory.setNext, different]

theorem setNext_level (other : N) {elsewhere : Nat} (different : elsewhere ≠ level) :
    (memory.setNext node level target).next other elsewhere = memory.next other elsewhere := by
  by_cases same : other = node
  · subst same
    simp [Memory.setNext, different]
  · rw [setNext_node memory node level target same]

@[simp]
theorem setNext_key : (memory.setNext node level target).key = memory.key := rfl

end SetNext

variable [LinearOrder K]

structure Levels (memory : Memory N K) (head : N) (lists : Nat → List N) : Prop where
  linked : ∀ level, Linked (memory.next · level) (memory.next head level) (lists level)
  head : ∀ level, head ∉ lists level
  ordered : ∀ level, (lists level).Pairwise fun first second => memory.key first < memory.key second
  below : ∀ level, ∀ node ∈ lists (level + 1), node ∈ lists level

def On (head : N) (lists : Nat → List N) (level : Nat) (node : N) : Prop :=
  node = head ∨ node ∈ lists level

def Before (memory : Memory N K) (head node : N) (key : K) : Prop :=
  node = head ∨ memory.key node < key

section Positions

variable {memory : Memory N K} {head node : N} {lists : Nat → List N} {level : Nat}

section

variable (levels : Levels memory head lists)

include levels

theorem Levels.bottom (mem : node ∈ lists level) : node ∈ lists 0 := by
  induction level with
  | zero => exact mem
  | succ level ih => exact ih (levels.below level node mem)

theorem Levels.sublist (level : Nat) : (lists (level + 1)).Sublist (lists level) := by
  have antisymm : Std.Antisymm fun first second : N => memory.key first < memory.key second :=
    ⟨fun _ _ less greater => absurd less (lt_asymm greater)⟩
  exact List.sublist_of_subperm_of_pairwise
    (List.subperm_of_subset (levels.linked (level + 1)).nodup (levels.below level))
    (levels.ordered (level + 1)) (levels.ordered level)

theorem Levels.unique_key {other : N} (first : node ∈ lists level) (second : other ∈ lists level)
    (same : memory.key node = memory.key other) : node = other := by
  have keys : ((lists level).map memory.key).Nodup :=
    List.pairwise_map.mpr ((levels.ordered level).imp ne_of_lt)
  exact List.inj_on_of_nodup_map keys first second same

theorem Levels.split (on : On head lists level node) :
    ∃ passed rest, lists level = passed ++ rest ∧
      Linked (memory.next · level) (memory.next node level) rest ∧
      (∀ other ∈ passed, other = node ∨ memory.key other < memory.key node) ∧
      (∀ other ∈ rest, Before memory head node (memory.key other)) ∧
      (node = head ∧ passed = [] ∨ ∃ front, passed = front ++ [node]) := by
  rcases on with rfl | mem
  · exact ⟨[], lists level, rfl, levels.linked level, nofun, fun _ _ => .inl rfl, .inl ⟨rfl, rfl⟩⟩
  obtain ⟨front, rest, shape, linked⟩ := (levels.linked level).suffix mem
  have ordered := levels.ordered level
  rw [shape, List.pairwise_append, List.pairwise_cons] at ordered
  obtain ⟨-, ⟨later, -⟩, earlier⟩ := ordered
  refine ⟨front ++ [node], rest, by rw [shape, List.append_assoc]; rfl, linked.tail, ?_, ?_,
    .inr ⟨front, rfl⟩⟩
  · intro other passed
    rcases List.mem_append.mp passed with inFront | last
    · exact .inr (earlier other inFront node List.mem_cons_self)
    · exact .inl (List.mem_singleton.mp last)
  · exact fun other inRest => .inr (later other inRest)

theorem Levels.next_mem (on : On head lists level node) {target : N}
    (link : memory.next node level = some target) :
    target ∈ lists level ∧ Before memory head node (memory.key target) := by
  obtain ⟨passed, rest, shape, linked, -, later, -⟩ := levels.split on
  rw [link] at linked
  have first := linked.head_eq
  cases rest with
  | nil => cases first
  | cons found rest =>
    cases first
    rw [shape]
    exact ⟨List.mem_append_right _ List.mem_cons_self, later _ List.mem_cons_self⟩

theorem Levels.next_least (on : On head lists level node) {other : N} (mem : other ∈ lists level)
    (before : Before memory head node (memory.key other)) :
    ∃ target, memory.next node level = some target ∧
      (target = other ∨ memory.key target < memory.key other) := by
  obtain ⟨passed, rest, shape, linked, earlier, -, last⟩ := levels.split on
  have ordered := levels.ordered level
  have notHead := levels.head level
  rw [shape] at mem ordered notHead
  have inRest : other ∈ rest := by
    rcases List.mem_append.mp mem with isPassed | inRest
    · rcases before with rfl | less
      · rcases last with ⟨-, rfl⟩ | ⟨front, rfl⟩
        · cases isPassed
        · exact absurd (by simp) notHead
      · rcases earlier other isPassed with rfl | greater
        · exact absurd less (lt_irrefl _)
        · exact absurd less (lt_asymm greater)
    · exact inRest
  cases rest with
  | nil => cases inRest
  | cons target rest =>
    refine ⟨target, linked.head_eq, ?_⟩
    rcases List.mem_cons.mp inRest with rfl | later
    · exact .inl rfl
    · rw [List.pairwise_append, List.pairwise_cons] at ordered
      exact .inr (ordered.2.1.1 other later)

theorem Levels.congr {after : Memory N K} (key : ∀ node ∈ lists 0, after.key node = memory.key node)
    (next : ∀ level node, On head lists level node → after.next node level = memory.next node level) :
    Levels after head lists where
  linked level := by
    rw [next level head (.inl rfl)]
    exact (levels.linked level).congr fun node mem => next level node (.inr mem)
  head := levels.head
  ordered level := by
    refine (levels.ordered level).imp_of_mem ?_
    intro first second inFirst inSecond less
    rwa [key first (levels.bottom inFirst), key second (levels.bottom inSecond)]
  below := levels.below

theorem Levels.link [DecidableEq N] (on : On head lists level node) {new : N} (notHead : new ≠ head)
    (absent : new ∉ lists level) (ready : memory.next new level = memory.next node level)
    (before : Before memory head node (memory.key new))
    (after : ∀ target, memory.next node level = some target → memory.key new < memory.key target)
    (supported : ∀ lower, level = lower + 1 → new ∈ lists lower) :
    ∃ longer, Levels (memory.setNext node level (some new)) head longer ∧
      ∀ other elsewhere, other ∈ longer elsewhere ↔
        other ∈ lists elsewhere ∨ elsewhere = level ∧ other = new := by
  obtain ⟨passed, rest, shape, linked, earlier, later, last⟩ := levels.split on
  have members : ∀ other elsewhere,
      other ∈ Function.update lists level (passed ++ new :: rest) elsewhere ↔
        other ∈ lists elsewhere ∨ elsewhere = level ∧ other = new := by
    intro other elsewhere
    by_cases same : elsewhere = level
    · subst same
      rw [Function.update_self, shape]
      simp only [List.mem_append, List.mem_cons, true_and]
      tauto
    · rw [Function.update_of_ne same]
      simp [same]
  refine ⟨Function.update lists level (passed ++ new :: rest), ⟨?_, ?_, ?_, ?_⟩, members⟩
  · intro elsewhere
    by_cases same : elsewhere = level
    · subst same
      rw [Function.update_self]
      have links := levels.linked elsewhere
      rw [shape] at links absent
      have newNode : new ≠ node := by
        rintro rfl
        rcases last with ⟨isHead, -⟩ | ⟨front, rfl⟩
        · exact notHead isHead
        · exact absent (by simp)
      have link : (memory.setNext node elsewhere (some new)).next new elsewhere =
          memory.next node elsewhere := by
        rw [setNext_node _ _ _ _ newNode, ready]
      have others : ∀ other, other ≠ node →
          (memory.setNext node elsewhere (some new)).next other elsewhere =
            memory.next other elsewhere := by
        intro other different
        rw [setNext_node _ _ _ _ different]
      have noHead := levels.head elsewhere
      rw [shape] at noHead
      rcases last with ⟨rfl, rfl⟩ | ⟨front, rfl⟩
      · rw [setNext_same]
        refine linked.push link fun other mem => others other ?_
        rintro rfl
        exact noHead mem
      have different : head ≠ node := by
        rintro rfl
        exact noHead (by simp)
      rw [others head different, List.append_assoc]
      rw [List.append_assoc] at links absent
      exact links.insertAfter absent link (setNext_same ..) fun other _ => others other
    · rw [Function.update_of_ne same, setNext_level _ _ _ _ _ same]
      exact (levels.linked elsewhere).congr fun other _ => setNext_level _ _ _ _ _ same
  · intro elsewhere mem
    rcases (members head elsewhere).mp mem with was | ⟨-, isNew⟩
    · exact levels.head elsewhere was
    · exact notHead isNew.symm
  · intro elsewhere
    by_cases same : elsewhere = level
    · subst same
      rw [Function.update_self]
      have ordered := levels.ordered elsewhere
      have noHead := levels.head elsewhere
      rw [shape, List.pairwise_append] at ordered
      rw [shape] at noHead
      obtain ⟨front, back, across⟩ := ordered
      have greater : ∀ other ∈ rest, memory.key new < memory.key other := by
        intro other mem
        cases rest with
        | nil => cases mem
        | cons target rest =>
          have least := after target linked.head_eq
          rcases List.mem_cons.mp mem with rfl | behind
          · exact least
          · exact lt_trans least ((List.pairwise_cons.mp back).1 other behind)
      have less : ∀ other ∈ passed, memory.key other < memory.key new := by
        intro other mem
        rcases before with rfl | beforeNew
        · rcases last with ⟨-, rfl⟩ | ⟨front, rfl⟩
          · cases mem
          · exact absurd (by simp) noHead
        · rcases earlier other mem with rfl | smaller
          · exact beforeNew
          · exact lt_trans smaller beforeNew
      refine List.pairwise_append.mpr ⟨front, List.pairwise_cons.mpr ⟨greater, back⟩, ?_⟩
      intro other mem behind isBehind
      rcases List.mem_cons.mp isBehind with rfl | inRest
      · exact less other mem
      · exact across other mem behind inRest
    · rw [Function.update_of_ne same]
      exact levels.ordered elsewhere
  · intro elsewhere other mem
    rw [members] at mem ⊢
    rcases mem with was | ⟨isLevel, rfl⟩
    · exact .inl (levels.below elsewhere other was)
    · exact .inl (supported elsewhere isLevel.symm)

end

end Positions

end EunoDb.SkipLevels
