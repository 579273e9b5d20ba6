import EunoDb.Execution
import EunoDb.SkipInsert

/-! `LockfreeSkipList::Insert`, interleaved at single loads, stores and compare-and-swaps.
`LocalCursor` is off. `compare_` is a linear order. Nodes are never freed. -/

namespace EunoDb.LockfreeSkipList

open Execution LinkedList SkipLevels SkipInsert Function

def kMaxHeight : Nat := 12

inductive Pc (Key : Type) where
  | idle
  | loadFirst (call : Call Key)
  | loadSecond (call : Call Key)
  | storeMax (call : Call Key) (from_ : Nat)
  | find (call : Call Key) (from_ : Nat)
  | walk (call : Call Key) (phase : Phase)
  | newNode (call : Call Key)

structure World (Key : Type) where
  memory : Memory NodeId Key
  maxHeight : Nat := 1
  allocated : NodeId → Bool := fun node => node == head
  pc : ThreadId → Pc Key := fun _ => .idle
  linked : List (Nat × NodeId) := []
  inserted : List Key := []

variable {Key : Type}

def initial (memory : Memory NodeId Key) : World Key where
  memory := { memory with next := update memory.next head fun _ => none }

inductive Act (Key : Type) where
  | insert (t : ThreadId) (key : Key) (height : Nat)
  | new (t : ThreadId) (node : NodeId)
  | advance (t : ThreadId)
  deriving DecidableEq

def World.setPc (w : World Key) (t : ThreadId) (pc : Pc Key) : World Key :=
  { w with pc := update w.pc t pc }

def World.newNode (w : World Key) (t : ThreadId) (call : Call Key) (node : NodeId) : World Key :=
  { w with
    memory := { w.memory with key := update w.memory.key node call.key }
    allocated := update w.allocated node true }.setPc t (.walk call (.loadSucc node 0))

def World.settle (w : World Key) (t : ThreadId) (call : Call Key) : Outcome Key → World Key
  | .stay memory call phase => { w with memory := memory }.setPc t (.walk call phase)
  | .found _ => w.setPc t .idle
  | .missing call => w.setPc t (.newNode call)
  | .duplicate _ _ => w.setPc t .idle
  | .linked memory node i =>
    let w := { w with memory := memory, linked := w.linked ++ [(i, node)] }
    if i + 1 < call.height then w.setPc t (.walk call (.loadSucc node (i + 1)))
    else w.setPc t .idle

section Steps

variable [LinearOrder Key]

def advance (w : World Key) (t : ThreadId) : Option (World Key) :=
  match w.pc t with
  | .loadFirst call =>
    if call.height > w.maxHeight then some (w.setPc t (.loadSecond call))
    else some (w.setPc t (.find call call.height))
  | .loadSecond call => some (w.setPc t (.storeMax (fill call w.maxHeight) w.maxHeight))
  | .storeMax call from_ =>
    some ({ w with maxHeight := call.height }.setPc t (.find call from_))
  | .find call _ =>
    some (w.setPc t (.walk { call with searched := w.maxHeight } (.load (w.maxHeight - 1) head)))
  | .walk call phase => (access w.memory call phase).map (w.settle t call)
  | _ => none

def step (w : World Key) : Act Key → Option (World Key)
  | .insert t key height =>
    match w.pc t with
    | .idle =>
      if 1 ≤ height ∧ height ≤ kMaxHeight then
        some ({ w with inserted := w.inserted ++ [key] }.setPc t
          (.loadFirst ⟨key, fun _ => none, height, 0⟩))
      else none
    | _ => none
  | .new t node =>
    match w.pc t with
    | .newNode call => if w.allocated node then none else some (w.newNode t call node)
    | _ => none
  | .advance t => advance w t

structure Correct (w : World Key) : Prop where
  assigned : ∀ t call phase, w.pc t = .walk call phase → ¬ phase.Unassigned call
  levels : ∃ lists, Levels w.memory head lists ∧
    (∀ level, (lists (level + 1)).Sublist (lists level)) ∧
    (∀ entry ∈ w.linked, entry.2 ∈ lists entry.1) ∧
    ((∀ t, w.pc t = .idle) → ∀ key, key ∈ (lists 0).map w.memory.key ↔ key ∈ w.inserted)

end Steps

def Pc.Covered (maxHeight : Nat) : Pc Key → Prop
  | .find call from_ => min call.height from_ ≤ maxHeight
  | _ => True

def Covered (w : World Key) : Act Key → Prop
  | .advance t => (w.pc t).Covered w.maxHeight
  | _ => True

instance (maxHeight : Nat) : (pc : Pc Key) → Decidable (pc.Covered maxHeight)
  | .find call from_ => inferInstanceAs (Decidable (min call.height from_ ≤ maxHeight))
  | .idle => isTrue trivial
  | .loadFirst _ => isTrue trivial
  | .loadSecond _ => isTrue trivial
  | .storeMax _ _ => isTrue trivial
  | .walk _ _ => isTrue trivial
  | .newNode _ => isTrue trivial

instance (w : World Key) : (act : Act Key) → Decidable (Covered w act)
  | .advance t => inferInstanceAs (Decidable ((w.pc t).Covered w.maxHeight))
  | .insert _ _ _ => isTrue trivial
  | .new _ _ => isTrue trivial

/-! ### What holds of the list and of every thread -/

def Pc.node : Pc Key → Option NodeId
  | .walk _ phase => phase.node
  | _ => none

def Pc.key : Pc Key → Option Key
  | .idle => none
  | .loadFirst call => some call.key
  | .loadSecond call => some call.key
  | .storeMax call _ => some call.key
  | .find call _ => some call.key
  | .walk call _ => some call.key
  | .newNode call => some call.key

def AssignedFrom (call : Call Key) (from_ : Nat) : Prop :=
  ∀ i < call.height, from_ ≤ i → call.preds i ≠ none

variable [LinearOrder Key]

def Known (memory : Memory NodeId Key) (lists : Nat → List NodeId) : Pc Key → Prop
  | .idle => True
  | .loadFirst call => Placed memory lists call ∧ 1 ≤ call.height ∧ AssignedFrom call call.height
  | .loadSecond call => Placed memory lists call ∧ 1 ≤ call.height
  | .storeMax call from_ => Placed memory lists call ∧ 1 ≤ call.height ∧ AssignedFrom call from_
  | .find call from_ => Placed memory lists call ∧ 1 ≤ call.height ∧ AssignedFrom call from_
  | .walk call phase => Placed memory lists call ∧ Fact memory lists call phase ∧
      1 ≤ call.height ∧ AssignedFrom call call.searched
  | .newNode call => Placed memory lists call ∧ 1 ≤ call.height ∧ AssignedFrom call 0

theorem known_stable : Stable Pc.node (Known : Memory NodeId Key → _ → Pc Key → Prop) := by
  intro mine memory after lists longer pc known levels extends_ foreign
  cases pc with
  | idle => trivial
  | loadFirst call | loadSecond call | storeMax call from_ | find call from_ | newNode call =>
    exact ⟨known.1.mono levels extends_, known.2⟩
  | walk call phase =>
    exact ⟨known.1.mono levels extends_, known.2.1.mono levels extends_ known.1 foreign, known.2.2⟩

structure Keys (memory : Memory NodeId Key) (lists : Nat → List NodeId) (pc : ThreadId → Pc Key)
    (inserted : List Key) : Prop where
  origin : ∀ node ∈ lists 0, memory.key node ∈ inserted
  running : ∀ t key, (pc t).key = some key → key ∈ inserted
  present : ∀ key ∈ inserted, (∃ node ∈ lists 0, memory.key node = key) ∨ ∃ t, (pc t).key = some key

structure Inv (w : World Key) (lists : Nat → List NodeId) : Prop where
  calls : Calls Pc.node Known w.memory lists w.allocated w.linked w.pc
  keys : Keys w.memory lists w.pc w.inserted

section Invariant

variable {w : World Key} {lists : Nat → List NodeId} {t : ThreadId}

omit [LinearOrder Key] in
theorem Keys.change {mine : Option NodeId} {memory after : Memory NodeId Key}
    {longer : Nat → List NodeId} {pc : ThreadId → Pc Key} {p : Pc Key} {inserted : List Key}
    (keys : Keys memory lists pc inserted) (extends_ : Extends mine memory lists after longer)
    (origin : ∀ node ∈ longer 0, node ∈ lists 0 ∨ (pc t).key = some (after.key node))
    (own : p.key = (pc t).key ∨
      p.key = none ∧ ∀ key, (pc t).key = some key → ∃ node ∈ longer 0, after.key node = key) :
    Keys after longer (update pc t p) inserted := by
  have stays : ∀ key, (∃ node ∈ lists 0, memory.key node = key) →
      ∃ node ∈ longer 0, after.key node = key := by
    rintro key ⟨node, mem, isKey⟩
    exact ⟨node, extends_.grows 0 node mem, by rw [extends_.key node (.inl mem), isKey]⟩
  constructor
  · intro node mem
    rcases origin node mem with was | new
    · rw [extends_.key node (.inl was)]
      exact keys.origin node was
    · exact keys.running t _ new
  · intro u key isKey
    by_cases same : u = t
    · rw [same, update_self] at isKey
      rcases own with goes | ⟨ended, -⟩
      · exact keys.running t key (goes.symm.trans isKey)
      · cases ended.symm.trans isKey
    · rw [update_of_ne same] at isKey
      exact keys.running u key isKey
  · intro key mem
    rcases keys.present key mem with inList | ⟨u, isKey⟩
    · exact .inl (stays key inList)
    by_cases same : u = t
    · subst same
      rcases own with goes | ⟨-, returns⟩
      · exact .inr ⟨u, by rw [update_self, goes, isKey]⟩
      · exact .inl (returns key isKey)
    · exact .inr ⟨u, by rw [update_of_ne same, isKey]⟩

theorem Inv.go (inv : Inv w lists) {pc : Pc Key} (known : Known w.memory lists pc)
    (node : pc.node = none) (key : pc.key = (w.pc t).key) : Inv (w.setPc t pc) lists := by
  have same : Extends none w.memory lists w.memory lists := .refl
  exact ⟨inv.calls.go known_stable known (by simp [node]),
    inv.keys.change same (fun node mem => .inl mem) (.inl key)⟩

theorem Inv.return_ (inv : Inv w lists) {node : NodeId} (mem : node ∈ lists 0)
    (isKey : (w.pc t).key = some (w.memory.key node)) : Inv (w.setPc t .idle) lists := by
  have same : Extends none w.memory lists w.memory lists := .refl
  refine ⟨inv.calls.go known_stable trivial nofun,
    inv.keys.change same (fun node mem => .inl mem) (.inr ⟨rfl, ?_⟩)⟩
  exact fun key is => ⟨node, mem, Option.some.inj (isKey.symm.trans is)⟩

variable {call : Call Key} {w' : World Key}

section

variable (inv : Inv w lists)

include inv

theorem Inv.settle {phase : Phase} {outcome : Outcome Key} (isPc : w.pc t = .walk call phase)
    (leads : Leads w.memory lists call phase outcome) :
    ∃ longer, Inv (w.settle t call outcome) longer := by
  have owns : (w.pc t).node = phase.node := by rw [isPc]; rfl
  have hasKey : (w.pc t).key = some call.key := by rw [isPc]; rfl
  obtain ⟨placed, -, positive, assigned⟩ : Known w.memory lists (.walk call phase) :=
    isPc ▸ inv.calls.known t
  cases outcome with
  | stay memory call' phase' =>
    obtain ⟨levels, extends_, placed', fact, goes⟩ := leads
    have known : Known memory lists (.walk call' phase') := by
      refine ⟨placed', fact, goes.height ▸ positive, fun i below above => ?_⟩
      exact goes.assigned i (assigned i (goes.height ▸ below) (goes.searched ▸ above))
    rw [← owns] at extends_
    refine ⟨lists, inv.calls.stay known_stable levels extends_ known ?_,
      inv.keys.change extends_ (fun node mem => .inl mem) (.inl ?_)⟩
    · exact fun node isNode => owns.trans (goes.node.symm.trans isNode)
    · rw [hasKey, Pc.key, goes.key]
  | found node => exact ⟨lists, inv.return_ leads.1 (by rw [hasKey, leads.2])⟩
  | missing call' =>
    obtain ⟨placed, filled, rfl⟩ := leads
    have all : AssignedFrom call' 0 := by
      intro i below _
      by_cases searched : i < call'.searched
      · exact filled i (Nat.zero_le i) searched
      · exact assigned i below (Nat.not_lt.mp searched)
    have known : Known w.memory lists (.newNode call') := ⟨placed, positive, all⟩
    exact ⟨lists, inv.go known rfl hasKey.symm⟩
  | duplicate node succ =>
    obtain ⟨-, -, -, mem, key⟩ := leads
    exact ⟨lists, inv.return_ mem (by rw [hasKey, key])⟩
  | linked memory node i =>
    obtain ⟨longer, levels, extends_, isNode, key, notHead, below, members, all⟩ := leads
    have owned : (w.pc t).node = some node := owns.trans isNode
    have mem : node ∈ longer i := (members i).mpr (Nat.lt_succ_self i)
    have origin : ∀ other ∈ longer 0,
        other ∈ lists 0 ∨ (w.pc t).key = some (memory.key other) := by
      intro other isMember
      refine (extends_.only 0 other isMember).imp_right fun isNode => ?_
      rw [hasKey, ← Option.some.inj isNode, key]
    unfold World.settle
    simp only
    split
    · rename_i more
      have linking : Linking memory longer call node (i + 1) := ⟨notHead, key, more, members, all⟩
      have known : Known memory longer (.walk call (.loadSucc node (i + 1))) :=
        ⟨placed.mono inv.calls.sound.levels extends_, linking, positive, assigned⟩
      exact ⟨longer, inv.calls.link known_stable owned levels extends_ mem known
        fun other isOther => isOther, inv.keys.change extends_ origin (.inl hasKey.symm)⟩
    · refine ⟨longer, inv.calls.link known_stable owned levels extends_ mem trivial nofun,
        inv.keys.change extends_ origin (.inr ⟨rfl, fun other isKey => ?_⟩)⟩
      exact ⟨node, (members 0).mpr (Nat.succ_pos i), key.trans (Option.some.inj (hasKey.symm.trans isKey))⟩

theorem Inv.newNode {node : NodeId} (isPc : w.pc t = .newNode call)
    (free : w.allocated node = false) : Inv (w.newNode t call node) lists := by
  obtain ⟨placed, positive, assigned⟩ : Known w.memory lists (.newNode call) :=
    isPc ▸ inv.calls.known t
  have others : ∀ other, other ≠ node →
      (w.newNode t call node).memory.key other = w.memory.key other := by
    intro other different
    simp [World.newNode, World.setPc, different]
  obtain ⟨levels, extends_⟩ := inv.calls.sound.malloc_extends free others fun _ _ => rfl
  have linking : Linking (w.newNode t call node).memory lists call node 0 :=
    inv.calls.sound.linking free (by simp [World.newNode, World.setPc]) positive
      fun i below => assigned i below (Nat.zero_le i)
  have known : Known (w.newNode t call node).memory lists (.walk call (.loadSucc node 0)) :=
    ⟨placed.mono inv.calls.sound.levels extends_, linking, positive,
      fun i below _ => assigned i below (Nat.zero_le i)⟩
  refine ⟨inv.calls.malloc known_stable free levels extends_ known rfl,
    inv.keys.change extends_ (fun node mem => .inl mem) (.inl ?_)⟩
  rw [isPc]
  rfl

theorem Inv.advance (covered : Covered w (.advance t)) (taken : advance w t = some w') :
    ∃ longer, Inv w' longer := by
  have known := inv.calls.known t
  unfold LockfreeSkipList.advance at taken
  unfold Covered at covered
  cases isPc : w.pc t with
  | idle | newNode call => simp [isPc] at taken
  | loadFirst call =>
    rw [isPc] at known
    simp only [isPc] at taken
    split at taken
    · cases taken
      exact ⟨lists, inv.go ⟨known.1, known.2.1⟩ rfl (by rw [isPc]; rfl)⟩
    · cases taken
      exact ⟨lists, inv.go known rfl (by rw [isPc]; rfl)⟩
  | loadSecond call =>
    rw [isPc] at known
    simp only [isPc] at taken
    cases taken
    refine ⟨lists, inv.go ⟨known.1.fill _, known.2, fun i below above => ?_⟩ rfl (by rw [isPc]; rfl)⟩
    simp only [fill] at below ⊢
    rw [if_pos ⟨above, below⟩]
    exact Option.some_ne_none _
  | storeMax call from_ =>
    rw [isPc] at known
    simp only [isPc] at taken
    cases taken
    have stored : Inv { w with maxHeight := call.height } lists := ⟨inv.calls, inv.keys⟩
    have next : Known w.memory lists (.find call from_) := known
    exact ⟨lists, stored.go next rfl (by rw [isPc]; rfl)⟩
  | find call from_ =>
    rw [isPc] at known
    simp only [isPc, Pc.Covered] at covered
    simp only [isPc] at taken
    cases taken
    obtain ⟨placed, positive, assigned⟩ := known
    refine ⟨lists, inv.go ⟨placed, ⟨fun i above below => ?_, .inl rfl, .inl rfl⟩, positive,
      fun i below above => assigned i below ?_⟩ rfl (by rw [isPc]; rfl)⟩
    · exact absurd (Nat.lt_of_lt_of_le below (by simp only; omega)) (Nat.not_lt.mpr above)
    · simp only at below above
      omega
  | walk call phase =>
    rw [isPc] at known
    obtain ⟨outcome, accessed, leads⟩ := access_leads inv.calls.sound.levels known.1 known.2.1
    simp only [isPc, accessed, Option.map_some, Option.some.injEq] at taken
    exact taken ▸ inv.settle isPc leads

theorem Inv.insert {key : Key} {height : Nat} (isPc : w.pc t = .idle) (positive : 1 ≤ height) :
    Inv ({ w with inserted := w.inserted ++ [key] }.setPc t
      (.loadFirst ⟨key, fun _ => none, height, 0⟩)) lists where
  calls := inv.calls.go known_stable
    ⟨nofun, positive, fun i below above => absurd below (Nat.not_lt.mpr above)⟩ nofun
  keys :=
    { origin := fun node mem => List.mem_append_left _ (inv.keys.origin node mem)
      running := by
        intro u other isKey
        by_cases same : u = t
        · simp only [World.setPc, same, update_self, Pc.key, Option.some.injEq] at isKey
          exact List.mem_append_right _ (List.mem_singleton.mpr isKey.symm)
        · simp only [World.setPc, update_of_ne same] at isKey
          exact List.mem_append_left _ (inv.keys.running u other isKey)
      present := by
        intro other mem
        rcases List.mem_append.mp mem with was | last
        · refine (inv.keys.present other was).imp_right ?_
          rintro ⟨u, isKey⟩
          have different : u ≠ t := by
            rintro rfl
            rw [isPc] at isKey
            cases isKey
          exact ⟨u, by simpa [World.setPc, different] using isKey⟩
        · exact .inr ⟨t, by simp [World.setPc, Pc.key, List.mem_singleton.mp last]⟩ }

theorem Inv.step {act : Act Key} (covered : Covered w act) (taken : step w act = some w') :
    ∃ longer, Inv w' longer := by
  cases act with
  | insert t key height =>
    simp only [LockfreeSkipList.step] at taken
    split at taken
    · rename_i isPc
      split at taken
      · rename_i bounds
        cases taken
        exact ⟨lists, inv.insert isPc bounds.1⟩
      · cases taken
    · cases taken
  | new t node =>
    simp only [LockfreeSkipList.step] at taken
    split at taken
    · rename_i call isPc
      split at taken
      · cases taken
      · rename_i free
        cases taken
        exact ⟨lists, inv.newNode isPc (by simpa using free)⟩
    · cases taken
  | advance t => exact inv.advance covered taken

end

theorem Inv.initial (memory : Memory NodeId Key) : Inv (initial memory) fun _ => [] where
  calls := ⟨.empty fun level => by simp [LockfreeSkipList.initial], fun _ => trivial⟩
  keys := ⟨nofun, nofun, nofun⟩

theorem Inv.correct (inv : Inv w lists) : Correct w where
  assigned t call phase isPc := by
    obtain ⟨placed, fact, -⟩ : Known w.memory lists (.walk call phase) := isPc ▸ inv.calls.known t
    exact assigned_of_fact inv.calls.sound.levels placed fact
  levels := by
    refine ⟨lists, inv.calls.sound.levels, inv.calls.sound.levels.sublist, inv.calls.sound.linked, ?_⟩
    intro allIdle key
    constructor
    · intro mem
      obtain ⟨node, inList, rfl⟩ := List.mem_map.mp mem
      exact inv.keys.origin node inList
    intro mem
    rcases inv.keys.present key mem with ⟨node, inList, isKey⟩ | ⟨t, isKey⟩
    · exact List.mem_map.mpr ⟨node, inList, isKey⟩
    · rw [allIdle t] at isKey
      cases isKey

end Invariant

/-- In every interleaving in which each predecessor that is linked behind was assigned, the list is
ordered and its upper levels are sublists, and every finished insertion is in it. -/
theorem insert_correct (memory : Memory NodeId Key) (acts : List (Act Key)) (w : World Key)
    (covered : Each step Covered (initial memory) acts)
    (reached : run step (initial memory) acts = some w) : Correct w := by
  have preserved : ∀ (state : World Key) act next, (∃ lists, Inv state lists) →
      Covered state act → step state act = some next → ∃ lists, Inv next lists := by
    rintro state act next ⟨lists, inv⟩ good taken
    exact inv.step good taken
  obtain ⟨lists, inv⟩ := run_preserves preserved ⟨_, Inv.initial memory⟩ covered reached
  exact inv.correct

def accesses (t : ThreadId) (count : Nat) : List (Act Nat) := List.replicate count (.advance t)

/-- Thread 1 searches before thread 0 has linked its node, and has to search again. -/
def twoInserts : List (Act Nat) :=
  [.insert 0 5 2] ++ accesses 0 9 ++ [.new 0 1] ++ accesses 0 2 ++ [.insert 1 7 1] ++ accesses 1 7 ++
    [.new 1 2] ++ accesses 1 1 ++ accesses 0 8 ++ accesses 1 11

theorem insert_correct_two :
    ∃ w, run step (initial ⟨fun _ => 0, fun _ _ => some 9⟩) twoInserts = some w ∧
      w.linked = [(0, 1), (1, 1), (0, 2)] ∧ Correct w := by
  have finished : (checkedRun step Covered (initial ⟨fun _ => 0, fun _ _ => some 9⟩)
      twoInserts).map World.linked = some [(0, 1), (1, 1), (0, 2)] := by decide +kernel
  obtain ⟨w, reached, linked⟩ := Option.map_eq_some_iff.mp finished
  obtain ⟨reached, covered⟩ := checkedRun_iff.mp reached
  exact ⟨w, reached, linked, insert_correct _ _ w covered reached⟩

def loweredBetween : List (Act Nat) :=
  [.insert 1 7 2] ++ accesses 1 2 ++ [.insert 2 9 5] ++ accesses 2 3 ++ [.insert 0 5 4] ++
    accesses 0 1 ++ accesses 1 1 ++ accesses 0 6 ++ [.new 0 1] ++ accesses 0 10

theorem insert_unassigned :
    ∃ w call phase, run step (initial ⟨fun _ => 0, fun _ _ => some 9⟩) loweredBetween = some w ∧
      w.pc 0 = .walk call phase ∧ phase.Unassigned call :=
  ⟨_, _, _, rfl, rfl, rfl⟩

end EunoDb.LockfreeSkipList
