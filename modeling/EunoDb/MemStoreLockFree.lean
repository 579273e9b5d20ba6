import EunoDb.Execution
import EunoDb.SkipInsert

/-! `GetWithInsertLockFree`, interleaved at single loads, stores and compare-and-swaps. `NewNode`
returns any unused memory, with whatever was in it. -/

namespace EunoDb.MemStoreLockFree

open Execution LinkedList SkipLevels SkipInsert Function

def kMaxHeight : Nat := 16

inductive Pc (Key : Type) where
  | idle
  | find (key : Key)
  | walk (call : Call Key) (phase : Phase)
  | randomHeight (call : Call Key)
  | loadMax (call : Call Key)
  | casMax (call : Call Key) (maxh : Nat)
  | newNode (call : Call Key)

structure World (Key : Type) where
  memory : Memory NodeId Key
  maxHeight : Nat := 1
  allocated : NodeId → Bool := fun node => node == head
  pc : ThreadId → Pc Key := fun _ => .idle
  linked : List (Nat × NodeId) := []
  returned : List (Key × NodeId) := []

variable {Key : Type}

def initial (memory : Memory NodeId Key) : World Key where
  memory := { memory with next := update memory.next head fun _ => none }

inductive Act (Key : Type) where
  | getWithInsert (t : ThreadId) (key : Key)
  | randomHeight (t : ThreadId) (height : Nat)
  | malloc (t : ThreadId) (node : NodeId)
  | advance (t : ThreadId)
  deriving DecidableEq

def World.setPc (w : World Key) (t : ThreadId) (pc : Pc Key) : World Key :=
  { w with pc := update w.pc t pc }

def World.return_ (w : World Key) (t : ThreadId) (key : Key) (node : NodeId) : World Key :=
  { w.setPc t .idle with returned := w.returned ++ [(key, node)] }

def World.newNode (w : World Key) (t : ThreadId) (call : Call Key) (node : NodeId) : World Key :=
  let memory := { w.memory with key := update w.memory.key node call.key }
  { w with
    memory := memory.setNext node 0 none
    allocated := update w.allocated node true }.setPc t (.walk call (.loadSucc node 0))

def World.settle (w : World Key) (t : ThreadId) (call : Call Key) : Outcome Key → World Key
  | .stay memory call phase => { w with memory := memory }.setPc t (.walk call phase)
  | .found node => w.return_ t call.key node
  | .missing call => w.setPc t (.randomHeight call)
  | .duplicate node succ =>
    { w with allocated := update w.allocated node false }.return_ t call.key succ
  | .linked memory node i =>
    let w := { w with memory := memory, linked := w.linked ++ [(i, node)] }
    if i + 1 < call.height then w.setPc t (.walk call (.loadSucc node (i + 1)))
    else w.return_ t call.key node

section Steps

variable [LinearOrder Key]

def advance (w : World Key) (t : ThreadId) : Option (World Key) :=
  match w.pc t with
  | .find key =>
    some (w.setPc t (.walk ⟨key, fun _ => none, 0, w.maxHeight⟩ (.load (w.maxHeight - 1) head)))
  | .walk call phase => (access w.memory call phase).map (w.settle t call)
  | .loadMax call =>
    if call.height > w.maxHeight then some (w.setPc t (.casMax call w.maxHeight))
    else some (w.setPc t (.newNode (fill call w.maxHeight)))
  | .casMax call maxh =>
    if w.maxHeight = maxh then
      some ({ w with maxHeight := call.height }.setPc t (.newNode (fill call maxh)))
    else some (w.setPc t (.loadMax call))
  | _ => none

def step (w : World Key) : Act Key → Option (World Key)
  | .getWithInsert t key =>
    match w.pc t with
    | .idle => some (w.setPc t (.find key))
    | _ => none
  | .randomHeight t height =>
    match w.pc t with
    | .randomHeight call =>
      if 1 ≤ height ∧ height ≤ kMaxHeight then
        some (w.setPc t (.loadMax { call with height := height }))
      else none
    | _ => none
  | .malloc t node =>
    match w.pc t with
    | .newNode call => if w.allocated node then none else some (w.newNode t call node)
    | _ => none
  | .advance t => advance w t

end Steps

structure Correct [LinearOrder Key] (w : World Key) : Prop where
  assigned : ∀ t call phase, w.pc t = .walk call phase → ¬ phase.Unassigned call
  levels : ∃ lists, Levels w.memory head lists ∧ (∀ entry ∈ w.linked, entry.2 ∈ lists entry.1) ∧
    ∀ node, w.allocated node = false → ∀ level, node ∉ lists level
  sameNode : ∀ first ∈ w.returned, ∀ second ∈ w.returned, first.1 = second.1 → first.2 = second.2

def Pc.Covered (maxHeight : Nat) : Pc Key → Prop
  | .loadMax call => call.height ≤ maxHeight → call.height ≤ call.searched
  | .casMax call maxh => maxHeight = maxh → maxh ≤ call.searched
  | _ => True

def Covered (w : World Key) : Act Key → Prop
  | .advance t => (w.pc t).Covered w.maxHeight
  | _ => True

instance (maxHeight : Nat) : (pc : Pc Key) → Decidable (pc.Covered maxHeight)
  | .loadMax call =>
    inferInstanceAs (Decidable (call.height ≤ maxHeight → call.height ≤ call.searched))
  | .casMax call maxh => inferInstanceAs (Decidable (maxHeight = maxh → maxh ≤ call.searched))
  | .idle => isTrue trivial
  | .find _ => isTrue trivial
  | .walk _ _ => isTrue trivial
  | .randomHeight _ => isTrue trivial
  | .newNode _ => isTrue trivial

instance (w : World Key) : (act : Act Key) → Decidable (Covered w act)
  | .advance t => inferInstanceAs (Decidable ((w.pc t).Covered w.maxHeight))
  | .getWithInsert _ _ => isTrue trivial
  | .randomHeight _ _ => isTrue trivial
  | .malloc _ _ => isTrue trivial

/-! ### What holds of the list and of every thread -/

def Pc.node : Pc Key → Option NodeId
  | .walk _ phase => phase.node
  | _ => none

variable [LinearOrder Key]

def Known (memory : Memory NodeId Key) (lists : Nat → List NodeId) : Pc Key → Prop
  | .idle => True
  | .find _ => True
  | .walk call phase => Placed memory lists call ∧ Fact memory lists call phase
  | .randomHeight call => Placed memory lists call ∧ Filled call 0
  | .loadMax call => Placed memory lists call ∧ Filled call 0 ∧ 1 ≤ call.height
  | .casMax call maxh => Placed memory lists call ∧ Filled call 0 ∧ 1 ≤ call.height ∧
      maxh < call.height
  | .newNode call => Placed memory lists call ∧ 1 ≤ call.height ∧
      ∀ i < call.height, call.preds i ≠ none

structure Inv (w : World Key) (lists : Nat → List NodeId) : Prop where
  calls : Calls Pc.node Known w.memory lists w.allocated w.linked w.pc
  returned : Answers w.memory lists w.returned

theorem known_stable : Stable Pc.node (Known : Memory NodeId Key → _ → Pc Key → Prop) := by
  intro mine memory after lists longer pc known levels extends_ foreign
  cases pc with
  | idle | find key => trivial
  | walk call phase =>
    exact ⟨known.1.mono levels extends_, known.2.mono levels extends_ known.1 foreign⟩
  | randomHeight call | loadMax call | casMax call maxh | newNode call =>
    exact ⟨known.1.mono levels extends_, known.2⟩

section Invariant

variable {w : World Key} {lists : Nat → List NodeId} {t : ThreadId}

theorem Inv.go (inv : Inv w lists) {pc : Pc Key} (known : Known w.memory lists pc)
    (node : ∀ node, pc.node = some node → (w.pc t).node = some node) :
    Inv (w.setPc t pc) lists :=
  ⟨inv.calls.go known_stable known node, inv.returned⟩

theorem Inv.return_ (inv : Inv w lists) {key : Key} {node : NodeId} (mem : node ∈ lists 0)
    (isKey : w.memory.key node = key) : Inv (w.return_ t key node) lists := by
  have gone : Inv (w.setPc t .idle) lists := inv.go trivial nofun
  exact ⟨gone.calls, inv.returned.add mem isKey⟩

variable {call : Call Key} {w' : World Key}

theorem Inv.settle (inv : Inv w lists) {phase : Phase} {outcome : Outcome Key}
    (isPc : w.pc t = .walk call phase) (leads : Leads w.memory lists call phase outcome) :
    ∃ longer, Inv (w.settle t call outcome) longer := by
  have owns : (w.pc t).node = phase.node := by rw [isPc]; rfl
  cases outcome with
  | stay memory call' phase' =>
    obtain ⟨levels, extends_, placed, fact, goes⟩ := leads
    have known : Known memory lists (.walk call' phase') := ⟨placed, fact⟩
    rw [← owns] at extends_
    refine ⟨lists, inv.calls.stay known_stable levels extends_ known ?_,
      inv.returned.mono extends_⟩
    exact fun node isNode => owns.trans (goes.node.symm.trans isNode)
  | found node => exact ⟨lists, inv.return_ leads.1 leads.2⟩
  | missing call' =>
    obtain ⟨placed, filled, -⟩ := leads
    have known : Known w.memory lists (.randomHeight call') := ⟨placed, filled⟩
    exact ⟨lists, inv.go known nofun⟩
  | duplicate node succ =>
    obtain ⟨isNode, notHead, unlinked, mem, key⟩ := leads
    exact ⟨lists, inv.calls.free known_stable (owns.trans isNode) unlinked notHead trivial rfl,
      inv.returned.add mem key⟩
  | linked memory node i =>
    obtain ⟨longer, levels, extends_, isNode, key, notHead, below, members, assigned⟩ := leads
    have owned : (w.pc t).node = some node := owns.trans isNode
    have mem : node ∈ longer i := (members i).mpr (Nat.lt_succ_self i)
    obtain ⟨placed, -⟩ : Known w.memory lists (.walk call phase) := isPc ▸ inv.calls.known t
    unfold World.settle
    simp only
    split
    · rename_i more
      have linking : Linking memory longer call node (i + 1) :=
        ⟨notHead, key, more, members, assigned⟩
      have known : Known memory longer (.walk call (.loadSucc node (i + 1))) :=
        ⟨placed.mono inv.calls.sound.levels extends_, linking⟩
      exact ⟨longer, inv.calls.link known_stable owned levels extends_ mem known
        fun other isOther => isOther, inv.returned.mono extends_⟩
    · exact ⟨longer, inv.calls.link known_stable owned levels extends_ mem trivial nofun,
        (inv.returned.mono extends_).add ((members 0).mpr (Nat.succ_pos i)) key⟩

omit [LinearOrder Key] in
theorem fill_assigned {maxh : Nat} (filled : Filled call 0)
    (covered : call.height ≤ maxh → call.height ≤ call.searched)
    (reached : maxh < call.height → maxh ≤ call.searched) (i : Nat) (below : i < call.height) :
    (fill call maxh).preds i ≠ none := by
  simp only [fill]
  split
  · exact Option.some_ne_none _
  · exact filled i (Nat.zero_le i) (by omega)

theorem Inv.newNode (inv : Inv w lists) {node : NodeId} (isPc : w.pc t = .newNode call)
    (free : w.allocated node = false) : Inv (w.newNode t call node) lists := by
  obtain ⟨placed, positive, assigned⟩ : Known w.memory lists (.newNode call) :=
    isPc ▸ inv.calls.known t
  have others : ∀ other, other ≠ node →
      (w.newNode t call node).memory.key other = w.memory.key other := by
    intro other different
    simp [World.newNode, World.setPc, different]
  have links : ∀ other, other ≠ node →
      (w.newNode t call node).memory.next other = w.memory.next other :=
    fun other different => setNext_node _ _ _ _ different
  obtain ⟨levels, extends_⟩ := inv.calls.sound.malloc_extends free others links
  have linking : Linking (w.newNode t call node).memory lists call node 0 :=
    inv.calls.sound.linking free (by simp [World.newNode, World.setPc]) positive assigned
  have known : Known (w.newNode t call node).memory lists (.walk call (.loadSucc node 0)) :=
    ⟨placed.mono inv.calls.sound.levels extends_, linking⟩
  exact ⟨inv.calls.malloc known_stable free levels extends_ known rfl, inv.returned.mono extends_⟩

theorem Inv.advance (inv : Inv w lists) (covered : Covered w (.advance t))
    (taken : advance w t = some w') : ∃ longer, Inv w' longer := by
  have known := inv.calls.known t
  unfold MemStoreLockFree.advance at taken
  unfold Covered at covered
  cases isPc : w.pc t with
  | idle | randomHeight call | newNode call => simp [isPc] at taken
  | find key =>
    simp only [isPc] at taken
    cases taken
    refine ⟨lists, inv.go ⟨nofun, fun i from_ below => ?_, .inl rfl, .inl rfl⟩ nofun⟩
    exact absurd (Nat.lt_of_lt_of_le below (by simp only; omega)) (Nat.not_lt.mpr from_)
  | walk call phase =>
    rw [isPc] at known
    obtain ⟨outcome, accessed, leads⟩ := access_leads inv.calls.sound.levels known.1 known.2
    simp only [isPc, accessed, Option.map_some, Option.some.injEq] at taken
    exact taken ▸ inv.settle isPc leads
  | loadMax call =>
    rw [isPc] at known
    simp only [isPc, Pc.Covered] at covered
    simp only [isPc] at taken
    obtain ⟨placed, filled, positive⟩ := known
    split at taken
    · rename_i higher
      cases taken
      exact ⟨lists, inv.go ⟨placed, filled, positive, higher⟩ nofun⟩
    · rename_i lower
      cases taken
      refine ⟨lists, inv.go ⟨Placed.fill placed _, positive, ?_⟩ nofun⟩
      exact fill_assigned filled covered fun below => absurd below lower
  | casMax call maxh =>
    rw [isPc] at known
    simp only [isPc, Pc.Covered] at covered
    simp only [isPc] at taken
    obtain ⟨placed, filled, positive, higher⟩ := known
    split at taken
    · rename_i same
      cases taken
      have raised : Inv { w with maxHeight := call.height } lists :=
        ⟨inv.calls, inv.returned⟩
      refine ⟨lists, raised.go ⟨Placed.fill placed _, positive, ?_⟩ nofun⟩
      exact fill_assigned filled (fun below => absurd higher (Nat.not_lt.mpr below))
        fun _ => covered same
    · cases taken
      exact ⟨lists, inv.go ⟨placed, filled, positive⟩ nofun⟩

theorem Inv.step (inv : Inv w lists) {act : Act Key} (covered : Covered w act)
    (taken : step w act = some w') : ∃ longer, Inv w' longer := by
  cases act with
  | getWithInsert t key =>
    simp only [MemStoreLockFree.step] at taken
    split at taken
    · cases taken
      exact ⟨lists, inv.go trivial nofun⟩
    · cases taken
  | randomHeight t height =>
    have known := inv.calls.known t
    simp only [MemStoreLockFree.step] at taken
    split at taken
    · rename_i call isPc
      rw [isPc] at known
      split at taken
      · rename_i bounds
        cases taken
        exact ⟨lists, inv.go ⟨known.1, known.2, bounds.1⟩ nofun⟩
      · cases taken
    · cases taken
  | malloc t node =>
    simp only [MemStoreLockFree.step] at taken
    split at taken
    · rename_i call isPc
      split at taken
      · cases taken
      · rename_i free
        cases taken
        exact ⟨lists, inv.newNode isPc (by simpa using free)⟩
    · cases taken
  | advance t => exact inv.advance covered taken

theorem Inv.initial (memory : Memory NodeId Key) : Inv (initial memory) fun _ => [] where
  calls := ⟨.empty fun level => by simp [MemStoreLockFree.initial], fun _ => trivial⟩
  returned := nofun

theorem Inv.correct (inv : Inv w lists) : Correct w where
  assigned t call phase isPc := by
    obtain ⟨placed, fact⟩ : Known w.memory lists (.walk call phase) := isPc ▸ inv.calls.known t
    exact assigned_of_fact inv.calls.sound.levels placed fact
  levels := ⟨lists, inv.calls.sound.levels, inv.calls.sound.linked, fun node => inv.calls.sound.unlinked⟩
  sameNode first inFirst second inSecond same := by
    obtain ⟨mem, key⟩ := inv.returned first inFirst
    obtain ⟨member', key'⟩ := inv.returned second inSecond
    exact inv.calls.sound.levels.unique_key mem member' (by rw [key, key', same])

end Invariant

/-- Whatever the interleaving, what is linked stays linked and a key has one node, if searches cover
the levels of their nodes. -/
theorem lockfree_correct (memory : Memory NodeId Key) (acts : List (Act Key)) (w : World Key)
    (covered : Each step Covered (initial memory) acts)
    (reached : run step (initial memory) acts = some w) : Correct w := by
  have preserved : ∀ (state : World Key) act next, (∃ lists, Inv state lists) →
      Covered state act → step state act = some next → ∃ lists, Inv next lists := by
    rintro state act next ⟨lists, inv⟩ good taken
    exact inv.step good taken
  obtain ⟨lists, inv⟩ := run_preserves preserved ⟨_, Inv.initial memory⟩ covered reached
  exact inv.correct

def accesses (t : ThreadId) (count : Nat) : List (Act Nat) := List.replicate count (.advance t)

/-- Both threads miss the key; thread 1 then finds the node of thread 0. -/
def insertAndFind : List (Act Nat) :=
  [.getWithInsert 0 5] ++ accesses 0 4 ++ [.getWithInsert 1 5] ++ accesses 1 4 ++
    [.randomHeight 0 2] ++ accesses 0 2 ++ [.malloc 0 1, .randomHeight 1 1] ++ accesses 1 1 ++
    [.malloc 1 2] ++ accesses 0 10 ++ accesses 1 2

theorem lockfree_correct_found :
    ∃ w, run step (initial ⟨fun _ => 0, fun _ _ => some 9⟩) insertAndFind = some w ∧
      w.returned = [(5, 1), (5, 1)] ∧ Correct w := by
  have finished : (checkedRun step Covered (initial ⟨fun _ => 0, fun _ _ => some 9⟩)
      insertAndFind).map World.returned = some [(5, 1), (5, 1)] := by decide +kernel
  obtain ⟨w, reached, returned⟩ := Option.map_eq_some_iff.mp finished
  obtain ⟨reached, covered⟩ := checkedRun_iff.mp reached
  exact ⟨w, reached, returned, lockfree_correct _ _ w covered reached⟩

def raisedBetween : List (Act Nat) :=
  [.getWithInsert 0 5] ++ accesses 0 4 ++ [.getWithInsert 1 7] ++ accesses 1 4 ++
    [.randomHeight 1 3] ++ accesses 1 2 ++ [.randomHeight 0 2] ++ accesses 0 1 ++ [.malloc 0 1] ++
    accesses 0 5

theorem lockfree_unassigned :
    ∃ w call phase, run step (initial ⟨fun _ => 0, fun _ _ => some 9⟩) raisedBetween = some w ∧
      w.pc 0 = .walk call phase ∧ phase.Unassigned call :=
  ⟨_, _, _, rfl, rfl, rfl⟩

end EunoDb.MemStoreLockFree
