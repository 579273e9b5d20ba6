import EunoDb.SkipLevels

/-! What the two lock-free insertions share. A phase is the next access to shared memory; two
reads of one key are one. Reading an unassigned element of `preds` has no successor. -/

namespace EunoDb.SkipInsert

open LinkedList SkipLevels

abbrev NodeId := Nat

def head : NodeId := 0

structure Call (Key : Type) where
  key : Key
  preds : Nat → Option NodeId := fun _ => none
  height : Nat := 0
  searched : Nat := 0

inductive Phase where
  -- FindGreaterOrEqual
  | load (level : Nat) (x : NodeId)
  | compare (level : Nat) (x : NodeId) (next : Option NodeId)
  | test (x : Option NodeId)
  -- linking the node at level `i`
  | loadSucc (node : NodeId) (i : Nat)
  | compareSucc (node : NodeId) (i : Nat) (succ : Option NodeId)
  | loadNext (node : NodeId) (i : Nat) (succ : Option NodeId)
  | storeNext (node : NodeId) (i : Nat) (succ value : Option NodeId)
  | cas (node : NodeId) (i : Nat) (succ : Option NodeId)
  deriving DecidableEq, Repr

inductive Outcome (Key : Type) where
  | stay (memory : Memory NodeId Key) (call : Call Key) (phase : Phase)
  /-- The search has found the key. -/
  | found (node : NodeId)
  | missing (call : Call Key)
  /-- The key was found where the node should be linked. -/
  | duplicate (node succ : NodeId)
  /-- The node is linked at level `i`; there may be more. -/
  | linked (memory : Memory NodeId Key) (node : NodeId) (i : Nat)

variable {Key : Type} [LinearOrder Key]

def Call.setPred (call : Call Key) (level : Nat) (x : NodeId) : Call Key :=
  { call with preds := Function.update call.preds level (some x) }

def fill (call : Call Key) (from_ : Nat) : Call Key :=
  { call with preds := fun i => if from_ ≤ i ∧ i < call.height then some head else call.preds i }

def descend (call : Call Key) (x : NodeId) (next : Option NodeId) : Nat → Call Key × Phase
  | 0 => (call.setPred 0 x, .test next)
  | level + 1 => (call.setPred (level + 1) x, .load level x)

def compareNext (memory : Memory NodeId Key) (call : Call Key) (level : Nat) (x : NodeId) :
    Option NodeId → Call Key × Phase
  | none => descend call x none level
  | some next =>
    if memory.key next < call.key then (call, .load level next)
    else descend call x (some next) level

def testFound (memory : Memory NodeId Key) (call : Call Key) : Option NodeId → Outcome Key
  | none => .missing call
  | some x => if call.key = memory.key x then .found x else .missing call

def compareSucc (memory : Memory NodeId Key) (call : Call Key) (node : NodeId) (i : Nat) :
    Option NodeId → Outcome Key
  | none => .stay memory call (.loadNext node i none)
  | some succ =>
    if memory.key succ < call.key then .stay memory (call.setPred i succ) (.loadSucc node i)
    else if call.key = memory.key succ then .duplicate node succ
    else .stay memory call (.loadNext node i (some succ))

def access (memory : Memory NodeId Key) (call : Call Key) : Phase → Option (Outcome Key)
  | .load level x => some (.stay memory call (.compare level x (memory.next x level)))
  | .compare level x next =>
    let (call, phase) := compareNext memory call level x next
    some (.stay memory call phase)
  | .test x => some (testFound memory call x)
  | .loadSucc node i => do
      let pred ← call.preds i
      return .stay memory call (.compareSucc node i (memory.next pred i))
  | .compareSucc node i succ => some (compareSucc memory call node i succ)
  | .loadNext node i succ => do
      let pred ← call.preds i
      return .stay memory call (.storeNext node i succ (memory.next pred i))
  | .storeNext node i succ value =>
    some (.stay (memory.setNext node i value) call (.cas node i succ))
  | .cas node i succ => do
      let pred ← call.preds i
      if memory.next pred i = succ then
        return .linked (memory.setNext pred i (some node)) node i
      else
        return .stay memory call (.loadSucc node i)

def Phase.node : Phase → Option NodeId
  | .load _ _ => none
  | .compare _ _ _ => none
  | .test _ => none
  | .loadSucc node _ => some node
  | .compareSucc node _ _ => some node
  | .loadNext node _ _ => some node
  | .storeNext node _ _ _ => some node
  | .cas node _ _ => some node

def Phase.Unassigned (call : Call Key) : Phase → Prop
  | .loadSucc _ i => call.preds i = none
  | .loadNext _ i _ => call.preds i = none
  | .cas _ i _ => call.preds i = none
  | _ => False

/-! ### What the loops know -/

def Placed (memory : Memory NodeId Key) (lists : Nat → List NodeId) (call : Call Key) : Prop :=
  ∀ i pred, call.preds i = some pred → On head lists i pred ∧ Before memory head pred call.key

def Filled (call : Call Key) (level : Nat) : Prop :=
  ∀ i, level ≤ i → i < call.searched → call.preds i ≠ none

structure Linking (memory : Memory NodeId Key) (lists : Nat → List NodeId) (call : Call Key)
    (node : NodeId) (i : Nat) : Prop where
  notHead : node ≠ head
  key : memory.key node = call.key
  level : i < call.height
  levels : ∀ level, node ∈ lists level ↔ level < i
  assigned : ∀ level < call.height, call.preds level ≠ none

def Behind (memory : Memory NodeId Key) (lists : Nat → List NodeId) (i : Nat) (pred : NodeId)
    (succ : Option NodeId) : Prop :=
  ∀ node, succ = some node → node ∈ lists i ∧ Before memory head pred (memory.key node)

def Separated (memory : Memory NodeId Key) (lists : Nat → List NodeId) (i : Nat) (pred : NodeId)
    (succ : Option NodeId) : Prop :=
  ∃ between ∈ lists i, Before memory head pred (memory.key between) ∧
    ∀ node, succ = some node → memory.key between < memory.key node

structure Chosen (memory : Memory NodeId Key) (lists : Nat → List NodeId) (call : Call Key)
    (i : Nat) (succ : Option NodeId) (pred : NodeId) : Prop where
  isPred : call.preds i = some pred
  behind : Behind memory lists i pred succ
  greater : ∀ node, succ = some node → call.key < memory.key node

def Fact (memory : Memory NodeId Key) (lists : Nat → List NodeId) (call : Call Key) : Phase → Prop
  | .load level x => Filled call (level + 1) ∧ On head lists level x ∧
      Before memory head x call.key
  | .compare level x next => Filled call (level + 1) ∧ On head lists level x ∧
      Before memory head x call.key ∧ ∀ node, next = some node → node ∈ lists level
  | .test x => Filled call 0 ∧ ∀ node, x = some node → node ∈ lists 0
  | .loadSucc node i => Linking memory lists call node i
  | .compareSucc node i succ => Linking memory lists call node i ∧
      ∃ pred, call.preds i = some pred ∧ Behind memory lists i pred succ
  | .loadNext node i succ => Linking memory lists call node i ∧
      ∃ pred, Chosen memory lists call i succ pred
  | .storeNext node i succ value => Linking memory lists call node i ∧
      ∃ pred, Chosen memory lists call i succ pred ∧
        (value = succ ∨ Separated memory lists i pred succ)
  | .cas node i succ => Linking memory lists call node i ∧
      ∃ pred, Chosen memory lists call i succ pred ∧
        (memory.next node i = succ ∨ Separated memory lists i pred succ)

structure Extends (mine : Option NodeId) (memory : Memory NodeId Key) (lists : Nat → List NodeId)
    (after : Memory NodeId Key) (longer : Nat → List NodeId) : Prop where
  grows : ∀ level node, node ∈ lists level → node ∈ longer level
  only : ∀ level node, node ∈ longer level → node ∈ lists level ∨ mine = some node
  key : ∀ node, node ∈ lists 0 ∨ mine ≠ some node → after.key node = memory.key node
  next : ∀ node level, mine ≠ some node → node ≠ head → node ∉ lists level →
    after.next node level = memory.next node level

section Monotone

variable {mine : Option NodeId} {memory after : Memory NodeId Key}
  {lists longer : Nat → List NodeId} {call : Call Key} {i : Nat} {node pred : NodeId}
  {succ : Option NodeId}

omit [LinearOrder Key] in
theorem Extends.refl : Extends mine memory lists memory lists where
  grows _ _ mem := mem
  only _ _ mem := .inl mem
  key _ _ := rfl
  next _ _ _ _ _ := rfl

omit [LinearOrder Key] in
theorem on_kept (on : On head lists i node) (extends_ : Extends mine memory lists after longer) :
    On head longer i node :=
  on.imp_right (extends_.grows i node)

omit [LinearOrder Key] in
theorem Linking.mono (linking : Linking memory lists call node i)
    (extends_ : Extends mine memory lists after longer) (foreign : mine ≠ some node) :
    Linking after longer call node i where
  notHead := linking.notHead
  key := by rw [extends_.key node (.inr foreign), linking.key]
  level := linking.level
  levels level := by
    rw [← linking.levels level]
    refine ⟨fun mem => ?_, extends_.grows level node⟩
    exact (extends_.only level node mem).resolve_right foreign
  assigned := linking.assigned

variable (levels : Levels memory head lists) (extends_ : Extends mine memory lists after longer)

include levels extends_

theorem key_kept (mem : node ∈ lists i) : after.key node = memory.key node :=
  extends_.key node (.inl (levels.bottom mem))

theorem before_kept {key : Key} (on : On head lists i node) (before : Before memory head node key) :
    Before after head node key := by
  rcases before with rfl | less
  · exact .inl rfl
  · rcases on with rfl | mem
    · exact .inl rfl
    · exact .inr (by rwa [key_kept levels extends_ mem])

theorem Placed.mono (placed : Placed memory lists call) : Placed after longer call := by
  intro i pred isPred
  obtain ⟨on, before⟩ := placed i pred isPred
  exact ⟨on_kept on extends_, before_kept levels extends_ on before⟩

theorem Behind.mono (behind : Behind memory lists i pred succ) (on : On head lists i pred) :
    Behind after longer i pred succ := by
  intro node isNode
  obtain ⟨mem, before⟩ := behind node isNode
  refine ⟨extends_.grows i node mem, ?_⟩
  rw [key_kept levels extends_ mem]
  exact before_kept levels extends_ on before

theorem Separated.mono (separated : Separated memory lists i pred succ)
    (on : On head lists i pred) (behind : Behind memory lists i pred succ) :
    Separated after longer i pred succ := by
  obtain ⟨between, mem, before, less⟩ := separated
  refine ⟨between, extends_.grows i between mem, ?_, ?_⟩
  · rw [key_kept levels extends_ mem]
    exact before_kept levels extends_ on before
  · intro node isNode
    rw [key_kept levels extends_ mem, key_kept levels extends_ (behind node isNode).1]
    exact less node isNode

theorem Chosen.mono (chosen : Chosen memory lists call i succ pred)
    (placed : Placed memory lists call) : Chosen after longer call i succ pred where
  isPred := chosen.isPred
  behind := chosen.behind.mono levels extends_ (placed i pred chosen.isPred).1
  greater node isNode := by
    rw [key_kept levels extends_ (chosen.behind node isNode).1]
    exact chosen.greater node isNode

theorem Fact.mono {phase : Phase} (fact : Fact memory lists call phase)
    (placed : Placed memory lists call) (foreign : ∀ node, phase.node = some node → mine ≠ some node) :
    Fact after longer call phase := by
  cases phase with
  | load level x =>
    obtain ⟨filled, on, before⟩ := fact
    exact ⟨filled, on_kept on extends_, before_kept levels extends_ on before⟩
  | compare level x next =>
    obtain ⟨filled, on, before, target⟩ := fact
    exact ⟨filled, on_kept on extends_, before_kept levels extends_ on before,
      fun node isNext => extends_.grows level node (target node isNext)⟩
  | test x =>
    obtain ⟨filled, target⟩ := fact
    exact ⟨filled, fun node isNode => extends_.grows 0 node (target node isNode)⟩
  | loadSucc node i => exact Linking.mono fact extends_ (foreign node rfl)
  | compareSucc node i succ =>
    obtain ⟨linking, pred, isPred, behind⟩ := fact
    exact ⟨linking.mono extends_ (foreign node rfl), pred, isPred,
      behind.mono levels extends_ (placed i pred isPred).1⟩
  | loadNext node i succ =>
    obtain ⟨linking, pred, chosen⟩ := fact
    exact ⟨linking.mono extends_ (foreign node rfl), pred,
      chosen.mono levels extends_ placed⟩
  | storeNext node i succ value =>
    obtain ⟨linking, pred, chosen, read⟩ := fact
    exact ⟨linking.mono extends_ (foreign node rfl), pred,
      chosen.mono levels extends_ placed, read.imp_right fun separated =>
        separated.mono levels extends_ (placed i pred chosen.isPred).1 chosen.behind⟩
  | cas node i succ =>
    obtain ⟨linking, pred, chosen, stored⟩ := fact
    have unlinked : node ∉ lists i := fun mem =>
      Nat.lt_irrefl i ((linking.levels i).mp mem)
    have kept : after.next node i = memory.next node i :=
      extends_.next node i (foreign node rfl) linking.notHead unlinked
    refine ⟨linking.mono extends_ (foreign node rfl), pred,
      chosen.mono levels extends_ placed, ?_⟩
    rw [kept]
    exact stored.imp_right fun separated =>
      separated.mono levels extends_ (placed i pred chosen.isPred).1 chosen.behind

end Monotone

/-! ### Stores -/

section Stores

variable {memory : Memory NodeId Key} {lists : Nat → List NodeId} {node : NodeId} {i : Nat}

theorem store_extends (levels : Levels memory head lists) (notHead : node ≠ head)
    (unlinked : node ∉ lists i) (value : Option NodeId) :
    Levels (memory.setNext node i value) head lists ∧
      Extends (some node) memory lists (memory.setNext node i value) lists ∧
      ∀ level other, On head lists level other →
        (memory.setNext node i value).next other level = memory.next other level := by
  have elsewhere : ∀ other level, ¬ (other = node ∧ level = i) →
      (memory.setNext node i value).next other level = memory.next other level := by
    intro other level different
    by_cases same : level = i
    · exact congrFun (setNext_node memory node i value fun isNode => different ⟨isNode, same⟩) level
    · exact setNext_level memory node i value other same
  have position : ∀ level other, On head lists level other →
      (memory.setNext node i value).next other level = memory.next other level := by
    intro level other on
    refine elsewhere other level ?_
    rintro ⟨rfl, rfl⟩
    exact on.elim notHead unlinked
  refine ⟨levels.congr (fun _ _ => rfl) position, ⟨?_, ?_, ?_, ?_⟩, position⟩
  · exact fun _ _ mem => mem
  · exact fun _ _ mem => .inl mem
  · exact fun _ _ => rfl
  · exact fun other level foreign _ _ =>
      elsewhere other level fun same => foreign (congrArg some same.1.symm)

theorem link_extends {pred : NodeId} (levels : Levels memory head lists)
    (on : On head lists i pred) (notHead : node ≠ head) (unlinked : ∀ level, node ∈ lists level ↔ level < i)
    (ready : memory.next node i = memory.next pred i)
    (before : Before memory head pred (memory.key node))
    (after : ∀ target, memory.next pred i = some target → memory.key node < memory.key target) :
    ∃ longer, Levels (memory.setNext pred i (some node)) head longer ∧
      Extends (some node) memory lists (memory.setNext pred i (some node)) longer ∧
      ∀ level, node ∈ longer level ↔ level < i + 1 := by
  have absent : node ∉ lists i := fun mem => Nat.lt_irrefl i ((unlinked i).mp mem)
  have supported : ∀ lower, i = lower + 1 → node ∈ lists lower :=
    fun lower isNext => (unlinked lower).mpr (by omega)
  obtain ⟨longer, levels', members⟩ := levels.link on notHead absent ready before after supported
  refine ⟨longer, levels', ⟨?_, ?_, ?_, ?_⟩, ?_⟩
  · exact fun level other mem => (members other level).mpr (.inl mem)
  · intro level other mem
    refine ((members other level).mp mem).imp_right ?_
    rintro ⟨-, rfl⟩
    rfl
  · exact fun _ _ => rfl
  · intro other level _ notHead notLinked
    by_cases isLevel : level = i
    · subst isLevel
      have different : other ≠ pred := by
        rintro rfl
        exact on.elim notHead notLinked
      rw [setNext_node _ _ _ _ different]
    · exact setNext_level _ _ _ _ _ isLevel
  · intro level
    rw [members, unlinked, Nat.lt_succ_iff_lt_or_eq, and_iff_left rfl]

end Stores

/-! ### One access -/

structure Goes (call : Call Key) (phase : Phase) (call' : Call Key) (phase' : Phase) : Prop where
  key : call'.key = call.key
  height : call'.height = call.height
  searched : call'.searched = call.searched
  assigned : ∀ i, call.preds i ≠ none → call'.preds i ≠ none
  node : phase'.node = phase.node

def Leads (memory : Memory NodeId Key) (lists : Nat → List NodeId) (call : Call Key)
    (phase : Phase) : Outcome Key → Prop
  | .stay after call' phase' => Levels after head lists ∧
      Extends phase.node memory lists after lists ∧ Placed after lists call' ∧
      Fact after lists call' phase' ∧ Goes call phase call' phase'
  | .found node => node ∈ lists 0 ∧ memory.key node = call.key
  | .missing call' => Placed memory lists call' ∧ Filled call' 0 ∧ call' = call
  | .duplicate node succ => phase.node = some node ∧ node ≠ head ∧
      (∀ level, node ∉ lists level) ∧ succ ∈ lists 0 ∧ memory.key succ = call.key
  | .linked after node i => ∃ longer, Levels after head longer ∧
      Extends (some node) memory lists after longer ∧ phase.node = some node ∧
      after.key node = call.key ∧ node ≠ head ∧ i < call.height ∧
      (∀ level, node ∈ longer level ↔ level < i + 1) ∧
      ∀ level < call.height, call.preds level ≠ none

section Access

variable {memory : Memory NodeId Key} {lists : Nat → List NodeId} {call : Call Key}

variable {phase : Phase} {level i : Nat} {x pred : NodeId} {succ : Option NodeId}

variable {phase' : Phase} {next : Option NodeId}

omit [LinearOrder Key] in
theorem Goes.refl (node : phase'.node = phase.node) :
    Goes call phase call phase' :=
  ⟨rfl, rfl, rfl, fun _ isAssigned => isAssigned, node⟩

omit [LinearOrder Key] in
theorem setPred_assigned (level : Nat) (x : NodeId) (i : Nat) (assigned : call.preds i ≠ none) :
    (call.setPred level x).preds i ≠ none := by
  by_cases same : i = level
  · simp [Call.setPred, same]
  · simpa [Call.setPred, same] using assigned

omit [LinearOrder Key] in
theorem Goes.setPred (level : Nat) (x : NodeId) (node : phase'.node = phase.node) :
    Goes call phase (call.setPred level x) phase' :=
  ⟨rfl, rfl, rfl, setPred_assigned level x, node⟩

theorem Placed.setPred (placed : Placed memory lists call) (on : On head lists level x)
    (before : Before memory head x call.key) : Placed memory lists (call.setPred level x) := by
  intro i pred isPred
  by_cases same : i = level
  · subst same
    simp only [Call.setPred, Function.update_self, Option.some.injEq] at isPred
    exact isPred ▸ ⟨on, before⟩
  · simp only [Call.setPred, Function.update_of_ne same] at isPred
    exact placed i pred isPred

theorem Placed.fill (placed : Placed memory lists call) (from_ : Nat) :
    Placed memory lists (fill call from_) := by
  intro i pred isPred
  simp only [SkipInsert.fill] at isPred
  split at isPred
  · cases isPred
    exact ⟨.inl rfl, .inl rfl⟩
  · exact placed i pred isPred

omit [LinearOrder Key] in
theorem Filled.setPred (filled : Filled call (level + 1)) (x : NodeId) :
    Filled (call.setPred level x) level := by
  intro i from_ below
  by_cases same : i = level
  · simp [Call.setPred, same]
  · exact setPred_assigned level x i (filled i (by omega) below)

variable (levels : Levels memory head lists) (placed : Placed memory lists call)

include levels placed

theorem descend_leads (fact : Fact memory lists call (.compare level x next)) :
    Leads memory lists call (.compare level x next)
      (.stay memory (descend call x next level).1 (descend call x next level).2) := by
  obtain ⟨filled, on, before, target⟩ := fact
  have placed' := placed.setPred on before
  have filled' := filled.setPred x
  cases level with
  | zero => exact ⟨levels, .refl, placed', ⟨filled', target⟩, .setPred 0 x rfl⟩
  | succ level =>
    refine ⟨levels, .refl, placed', ⟨filled', ?_, before⟩, .setPred _ x rfl⟩
    exact on.imp_right (levels.below level x)

theorem compare_leads (fact : Fact memory lists call (.compare level x next)) :
    Leads memory lists call (.compare level x next)
      (.stay memory (compareNext memory call level x next).1
        (compareNext memory call level x next).2) := by
  cases next with
  | none => exact descend_leads levels placed fact
  | some next =>
    by_cases less : memory.key next < call.key
    · rw [compareNext, if_pos less]
      obtain ⟨filled, -, -, target⟩ := fact
      exact ⟨levels, .refl, placed, ⟨filled, .inr (target next rfl), .inr less⟩, .refl rfl⟩
    · rw [compareNext, if_neg less]
      exact descend_leads levels placed fact

omit levels in
theorem test_leads {x : Option NodeId} (fact : Fact memory lists call (.test x)) :
    Leads memory lists call (.test x) (testFound memory call x) := by
  obtain ⟨filled, target⟩ := fact
  cases x with
  | none => exact ⟨placed, filled, rfl⟩
  | some x =>
    by_cases same : call.key = memory.key x
    · rw [testFound, if_pos same]
      exact ⟨target x rfl, same.symm⟩
    · rw [testFound, if_neg same]
      exact ⟨placed, filled, rfl⟩

theorem compareSucc_leads {node : NodeId} (fact : Fact memory lists call (.compareSucc node i succ)) :
    Leads memory lists call (.compareSucc node i succ) (compareSucc memory call node i succ) := by
  obtain ⟨linking, pred, isPred, behind⟩ := fact
  cases succ with
  | none =>
    have chosen : Chosen memory lists call i none pred := ⟨isPred, nofun, nofun⟩
    exact ⟨levels, .refl, placed, ⟨linking, pred, chosen⟩, .refl rfl⟩
  | some succ =>
    have mem := (behind succ rfl).1
    by_cases less : memory.key succ < call.key
    · rw [compareSucc, if_pos less]
      have linking' : Linking memory lists (call.setPred i succ) node i :=
        { linking with
          assigned := fun level below => setPred_assigned i succ level (linking.assigned level below) }
      exact ⟨levels, .refl, placed.setPred (.inr mem) (.inr less), linking', .setPred i succ rfl⟩
    by_cases same : call.key = memory.key succ
    · rw [compareSucc, if_neg less, if_pos same]
      -- A node of this key above level 0 is on level 0, where it would be the call's own.
      have first : i = 0 := by
        by_contra above
        have own : node ∈ lists 0 := (linking.levels 0).mpr (Nat.pos_of_ne_zero above)
        have isSucc : node = succ :=
          levels.unique_key own (levels.bottom mem) (linking.key.trans same)
        exact Nat.lt_irrefl i ((linking.levels i).mp (isSucc ▸ mem))
      refine ⟨rfl, linking.notHead, fun level isLinked => ?_, levels.bottom mem, same.symm⟩
      exact absurd ((linking.levels level).mp isLinked) (by omega)
    · rw [compareSucc, if_neg less, if_neg same]
      have greater : call.key < memory.key succ := lt_of_le_of_ne (not_lt.mp less) same
      have chosen : Chosen memory lists call i (some succ) pred :=
        ⟨isPred, behind, fun other isOther => Option.some.inj isOther ▸ greater⟩
      exact ⟨levels, .refl, placed, ⟨linking, pred, chosen⟩, .refl rfl⟩

theorem loadNext_reads (chosen : Chosen memory lists call i succ pred) :
    memory.next pred i = succ ∨ Separated memory lists i pred succ := by
  have on := (placed i pred chosen.isPred).1
  cases link : memory.next pred i with
  | none =>
    left
    cases succ with
    | none => rfl
    | some succ =>
      obtain ⟨mem, before⟩ := chosen.behind succ rfl
      obtain ⟨target, isTarget, -⟩ := levels.next_least on mem before
      cases link.symm.trans isTarget
  | some found =>
    obtain ⟨mem, before⟩ := levels.next_mem on link
    cases succ with
    | none => exact .inr ⟨found, mem, before, nofun⟩
    | some succ =>
      obtain ⟨target, isTarget, least⟩ :=
        levels.next_least on (chosen.behind succ rfl).1 (chosen.behind succ rfl).2
      obtain rfl := Option.some.inj (link.symm.trans isTarget)
      rcases least with rfl | less
      · exact .inl rfl
      · exact .inr ⟨found, mem, before, fun other isOther => Option.some.inj isOther ▸ less⟩

omit placed in
theorem separated_ne (on : On head lists i pred) (separated : Separated memory lists i pred succ) :
    memory.next pred i ≠ succ := by
  obtain ⟨between, mem, before, less⟩ := separated
  obtain ⟨target, isTarget, least⟩ := levels.next_least on mem before
  intro same
  have greater := less target (same.symm.trans isTarget)
  rcases least with rfl | smaller
  · exact lt_irrefl _ greater
  · exact lt_asymm greater smaller

theorem storeNext_leads {node : NodeId} {value : Option NodeId}
    (fact : Fact memory lists call (.storeNext node i succ value)) :
    Leads memory lists call (.storeNext node i succ value)
      (.stay (memory.setNext node i value) call (.cas node i succ)) := by
  obtain ⟨linking, pred, chosen, read⟩ := fact
  have unlinked : node ∉ lists i := fun mem => Nat.lt_irrefl i ((linking.levels i).mp mem)
  obtain ⟨levels', extends_, -⟩ := store_extends levels linking.notHead unlinked value
  -- Nothing the call knows is about the link that was stored.
  have linking' : Linking (memory.setNext node i value) lists call node i :=
    ⟨linking.notHead, linking.key, linking.level, linking.levels, linking.assigned⟩
  refine ⟨levels', extends_, placed, ⟨linking', pred, ⟨chosen.isPred, chosen.behind,
    chosen.greater⟩, ?_⟩, .refl rfl⟩
  rw [setNext_same]
  exact read

theorem cas_leads {node : NodeId} (linking : Linking memory lists call node i)
    (chosen : Chosen memory lists call i succ pred)
    (stored : memory.next node i = succ ∨ Separated memory lists i pred succ)
    (same : memory.next pred i = succ) :
    Leads memory lists call (.cas node i succ)
      (.linked (memory.setNext pred i (some node)) node i) := by
  obtain ⟨on, before⟩ := placed i pred chosen.isPred
  have ready : memory.next node i = memory.next pred i := by
    rw [same]
    exact stored.resolve_right fun separated => separated_ne levels on separated same
  have after : ∀ target, memory.next pred i = some target → memory.key node < memory.key target := by
    intro target isTarget
    rw [linking.key]
    exact chosen.greater target (same.symm.trans isTarget)
  obtain ⟨longer, levels', extends_, members⟩ :=
    link_extends levels on linking.notHead linking.levels ready (linking.key ▸ before) after
  exact ⟨longer, levels', extends_, rfl, linking.key, linking.notHead, linking.level, members,
    linking.assigned⟩

theorem access_leads (fact : Fact memory lists call phase) :
    ∃ outcome, access memory call phase = some outcome ∧ Leads memory lists call phase outcome := by
  cases phase with
  | load level x =>
    obtain ⟨filled, on, before⟩ := fact
    refine ⟨_, rfl, levels, .refl, placed, ⟨filled, on, before, ?_⟩, .refl rfl⟩
    exact fun node link => (levels.next_mem on link).1
  | compare level x next => exact ⟨_, rfl, compare_leads levels placed fact⟩
  | test x => exact ⟨_, rfl, test_leads placed fact⟩
  | loadSucc node i =>
    obtain ⟨pred, isPred⟩ := Option.ne_none_iff_exists'.mp
      (Linking.assigned fact i (Linking.level fact))
    have on := (placed i pred isPred).1
    have behind : Behind memory lists i pred (memory.next pred i) :=
      fun target link => levels.next_mem on link
    refine ⟨.stay memory call (.compareSucc node i (memory.next pred i)), ?_, levels, .refl, placed,
      ⟨fact, pred, isPred, behind⟩, .refl rfl⟩
    simp [access, isPred]
  | compareSucc node i succ => exact ⟨_, rfl, compareSucc_leads levels placed fact⟩
  | loadNext node i succ =>
    obtain ⟨linking, pred, chosen⟩ := fact
    refine ⟨.stay memory call (.storeNext node i succ (memory.next pred i)), ?_, levels, .refl,
      placed, ⟨linking, pred, chosen, loadNext_reads levels placed chosen⟩, .refl rfl⟩
    simp [access, chosen.isPred]
  | storeNext node i succ value => exact ⟨_, rfl, storeNext_leads levels placed fact⟩
  | cas node i succ =>
    obtain ⟨linking, pred, chosen, stored⟩ := fact
    by_cases same : memory.next pred i = succ
    · refine ⟨_, ?_, cas_leads levels placed linking chosen stored same⟩
      simp [access, chosen.isPred, same]
    · refine ⟨.stay memory call (.loadSucc node i), ?_, levels, .refl, placed, linking, .refl rfl⟩
      simp [access, chosen.isPred, same]

theorem assigned_of_fact (fact : Fact memory lists call phase) : ¬ phase.Unassigned call := by
  intro unassigned
  obtain ⟨outcome, accessed, -⟩ := access_leads levels placed fact
  cases phase <;> simp_all [access, Phase.Unassigned]

end Access

/-! ### The list and all calls -/

abbrev ThreadId := Nat

structure Sound (memory : Memory NodeId Key) (lists : Nat → List NodeId)
    (allocated : NodeId → Bool) (owner : ThreadId → Option NodeId) (linked : List (Nat × NodeId)) :
    Prop where
  levels : Levels memory head lists
  apart : ∀ t u node, owner t = some node → owner u = some node → t = u
  own : ∀ t node, owner t = some node → allocated node = true
  headUsed : allocated head = true
  members : ∀ node ∈ lists 0, allocated node = true
  linked : ∀ entry ∈ linked, entry.2 ∈ lists entry.1

section Sound

variable {memory after : Memory NodeId Key} {lists longer : Nat → List NodeId}
  {allocated : NodeId → Bool} {owner : ThreadId → Option NodeId} {linked : List (Nat × NodeId)}
  {t : ThreadId} {node : NodeId}

theorem Sound.empty {memory : Memory NodeId Key} (empty : ∀ level, memory.next head level = none) :
    Sound memory (fun _ => []) (fun node => node == head) (fun _ => none) [] where
  levels :=
    { linked := fun level => by
        rw [empty level]
        exact .nil
      head := fun _ => List.not_mem_nil
      ordered := fun _ => .nil
      below := nofun }
  apart := nofun
  own := nofun
  headUsed := rfl
  members := nofun
  linked := nofun

section

variable (sound : Sound memory lists allocated owner linked)

include sound

theorem Sound.stay (levels : Levels after head lists) : Sound after lists allocated owner linked :=
  { sound with levels := levels }

theorem Sound.foreign {u : ThreadId} (other : u ≠ t) (node : NodeId) (owns : owner u = some node) :
    owner t ≠ some node :=
  fun again => other (sound.apart u t node owns again)

theorem Sound.release {rest : Option NodeId}
    (keeps : ∀ node, rest = some node → owner t = some node) :
    Sound memory lists allocated (Function.update owner t rest) linked := by
  have was : ∀ u node, Function.update owner t rest u = some node → owner u = some node := by
    intro u node owns
    by_cases same : u = t
    · subst same
      rw [Function.update_self] at owns
      exact keeps node owns
    · rwa [Function.update_of_ne same] at owns
  exact
    { sound with
      apart := fun u v node first second => sound.apart u v node (was u node first) (was v node second)
      own := fun u node owns => sound.own u node (was u node owns) }

theorem Sound.link (levels : Levels after head longer)
    (extends_ : Extends (some node) memory lists after longer) (owns : owner t = some node)
    {i : Nat} (mem : node ∈ longer i) :
    Sound after longer allocated owner (linked ++ [(i, node)]) where
  levels := levels
  apart := sound.apart
  own := sound.own
  headUsed := sound.headUsed
  members other isMember := by
    rcases extends_.only 0 other isMember with was | isNode
    · exact sound.members other was
    · exact Option.some.inj isNode ▸ sound.own t node owns
  linked entry isLinked := by
    rcases List.mem_append.mp isLinked with was | last
    · exact extends_.grows _ _ (sound.linked entry was)
    · rw [List.mem_singleton.mp last]
      exact mem

theorem Sound.unlinked (free : allocated node = false) (level : Nat) :
    node ∉ lists level := fun mem =>
  absurd (sound.members node (sound.levels.bottom mem)) (by simp [free])

theorem Sound.malloc_extends (free : allocated node = false)
    (key : ∀ other, other ≠ node → after.key other = memory.key other)
    (next : ∀ other, other ≠ node → after.next other = memory.next other) :
    Levels after head lists ∧ Extends (some node) memory lists after lists := by
  have different : ∀ level other, On head lists level other → other ≠ node := by
    rintro level other on rfl
    rcases on with rfl | mem
    · exact absurd sound.headUsed (by simp [free])
    · exact sound.unlinked free level mem
  constructor
  · refine sound.levels.congr (fun other mem => key other (different 0 other (.inr mem))) ?_
    intro level other on
    rw [next other (different level other on)]
  constructor
  · exact fun _ _ mem => mem
  · exact fun _ _ mem => .inl mem
  · rintro other (mem | foreign)
    · exact key other (different 0 other (.inr mem))
    · exact key other fun same => foreign (congrArg some same.symm)
  · intro other level foreign _ _
    rw [next other fun same => foreign (congrArg some same.symm)]

theorem Sound.linking {call : Call Key} (free : allocated node = false)
    (key : after.key node = call.key) (positive : 1 ≤ call.height)
    (assigned : ∀ level < call.height, call.preds level ≠ none) :
    Linking after lists call node 0 where
  notHead := by
    rintro rfl
    exact absurd sound.headUsed (by simp [free])
  key := key
  level := positive
  levels level := iff_of_false (sound.unlinked free level) (Nat.not_lt_zero level)
  assigned := assigned

theorem Sound.malloc (free : allocated node = false) (levels : Levels after head lists) :
    Sound after lists (Function.update allocated node true)
      (Function.update owner t (some node)) linked := by
  have still : ∀ other, allocated other = true → Function.update allocated node true other = true := by
    intro other was
    by_cases same : other = node
    · simp [same]
    · rwa [Function.update_of_ne same]
  have none_owns : ∀ u, owner u ≠ some node := fun u owns =>
    absurd (sound.own u node owns) (by simp [free])
  constructor
  · exact levels
  · intro u v other first second
    by_cases isU : u = t <;> by_cases isV : v = t
    · rw [isU, isV]
    · rw [isU, Function.update_self] at first
      rw [Function.update_of_ne isV] at second
      exact absurd second (Option.some.inj first ▸ none_owns v)
    · rw [isV, Function.update_self] at second
      rw [Function.update_of_ne isU] at first
      exact absurd first (Option.some.inj second ▸ none_owns u)
    · rw [Function.update_of_ne isU] at first
      rw [Function.update_of_ne isV] at second
      exact sound.apart u v other first second
  · intro u other owns
    by_cases isU : u = t
    · rw [isU, Function.update_self] at owns
      rw [← Option.some.inj owns, Function.update_self]
    · rw [Function.update_of_ne isU] at owns
      exact still other (sound.own u other owns)
  · exact still _ sound.headUsed
  · exact fun other mem => still other (sound.members other mem)
  · exact sound.linked

theorem Sound.free (owns : owner t = some node) (unlinked : ∀ level, node ∉ lists level)
    (notHead : node ≠ head) :
    Sound memory lists (Function.update allocated node false) (Function.update owner t none)
      linked := by
  have still : ∀ other, other ≠ node → allocated other = true →
      Function.update allocated node false other = true := by
    intro other different was
    rwa [Function.update_of_ne different]
  have released : Sound memory lists allocated (Function.update owner t none) linked :=
    sound.release nofun
  constructor
  · exact sound.levels
  · exact released.apart
  · intro u other isOwner
    refine still other ?_ (released.own u other isOwner)
    rintro rfl
    by_cases isU : u = t
    · rw [isU, Function.update_self] at isOwner
      cases isOwner
    · rw [Function.update_of_ne isU] at isOwner
      exact isU (sound.apart u t other isOwner owns)
  · exact still _ (Ne.symm notHead) sound.headUsed
  · intro other mem
    refine still other ?_ (sound.members other mem)
    rintro rfl
    exact unlinked 0 mem
  · exact sound.linked

end

end Sound

def Answers (memory : Memory NodeId Key) (lists : Nat → List NodeId)
    (returned : List (Key × NodeId)) : Prop :=
  ∀ entry ∈ returned, entry.2 ∈ lists 0 ∧ memory.key entry.2 = entry.1

variable {memory : Memory NodeId Key} {lists : Nat → List NodeId} {returned : List (Key × NodeId)}

omit [LinearOrder Key] in
theorem Answers.mono {mine : Option NodeId} {after : Memory NodeId Key} {longer : Nat → List NodeId}
    (answers : Answers memory lists returned) (extends_ : Extends mine memory lists after longer) :
    Answers after longer returned := by
  intro entry mem
  obtain ⟨inList, key⟩ := answers entry mem
  exact ⟨extends_.grows 0 _ inList, by rw [extends_.key _ (.inl inList), key]⟩

omit [LinearOrder Key] in
theorem Answers.add {node : NodeId} {key : Key} (answers : Answers memory lists returned)
    (mem : node ∈ lists 0) (isKey : memory.key node = key) :
    Answers memory lists (returned ++ [(key, node)]) := by
  intro entry isEntry
  rcases List.mem_append.mp isEntry with was | last
  · exact answers entry was
  · rw [List.mem_singleton.mp last]
    exact ⟨mem, isKey⟩

/-! A program gives each thread a state of its own type `P`: `nodeOf` is the node that the
thread has allocated, `Known` what it knows of the list. -/

section Calls

variable {P : Type} {nodeOf : P → Option NodeId}
  {Known : Memory NodeId Key → (Nat → List NodeId) → P → Prop}

def Stable (nodeOf : P → Option NodeId)
    (Known : Memory NodeId Key → (Nat → List NodeId) → P → Prop) : Prop :=
  ∀ {mine memory after lists longer p}, Known memory lists p → Levels memory head lists →
    Extends mine memory lists after longer → (∀ node, nodeOf p = some node → mine ≠ some node) →
    Known after longer p

structure Calls (nodeOf : P → Option NodeId)
    (Known : Memory NodeId Key → (Nat → List NodeId) → P → Prop) (memory : Memory NodeId Key)
    (lists : Nat → List NodeId) (allocated : NodeId → Bool) (linked : List (Nat × NodeId))
    (pc : ThreadId → P) : Prop where
  sound : Sound memory lists allocated (fun t => nodeOf (pc t)) linked
  known : ∀ t, Known memory lists (pc t)

variable {memory after : Memory NodeId Key} {lists longer : Nat → List NodeId}
  {allocated : NodeId → Bool} {linked : List (Nat × NodeId)} {pc : ThreadId → P} {t : ThreadId}
  {p : P} {node : NodeId}

theorem owner_update (pc : ThreadId → P) (t : ThreadId) (p : P) :
    (fun u => nodeOf (Function.update pc t p u)) =
      Function.update (fun u => nodeOf (pc u)) t (nodeOf p) := by
  funext u
  by_cases same : u = t
  · subst same
    simp
  · simp [same]

section

variable (calls : Calls nodeOf Known memory lists allocated linked pc)
  (stable : Stable nodeOf Known)

include calls stable

theorem Calls.others {mine : Option NodeId} (extends_ : Extends mine memory lists after longer)
    (foreign : ∀ u, u ≠ t → ∀ node, nodeOf (pc u) = some node → mine ≠ some node)
    (known : Known after longer p) (u : ThreadId) :
    Known after longer (Function.update pc t p u) := by
  by_cases same : u = t
  · rw [same, Function.update_self]
    exact known
  · rw [Function.update_of_ne same]
    exact stable (calls.known u) calls.sound.levels extends_ (foreign u same)

theorem Calls.stay (levels : Levels after head lists)
    (extends_ : Extends (nodeOf (pc t)) memory lists after lists) (known : Known after lists p)
    (keeps : ∀ node, nodeOf p = some node → nodeOf (pc t) = some node) :
    Calls nodeOf Known after lists allocated linked (Function.update pc t p) where
  sound := by
    rw [owner_update]
    exact (calls.sound.stay levels).release keeps
  known := calls.others stable extends_ (fun _ => calls.sound.foreign) known

theorem Calls.go (known : Known memory lists p)
    (keeps : ∀ node, nodeOf p = some node → nodeOf (pc t) = some node) :
    Calls nodeOf Known memory lists allocated linked (Function.update pc t p) :=
  calls.stay stable calls.sound.levels .refl known keeps

theorem Calls.link (owns : nodeOf (pc t) = some node) (levels : Levels after head longer)
    (extends_ : Extends (some node) memory lists after longer) {i : Nat} (mem : node ∈ longer i)
    (known : Known after longer p) (keeps : ∀ other, nodeOf p = some other → some node = some other) :
    Calls nodeOf Known after longer allocated (linked ++ [(i, node)]) (Function.update pc t p) where
  sound := by
    have added : Sound after longer allocated (fun u => nodeOf (pc u)) (linked ++ [(i, node)]) :=
      calls.sound.link levels extends_ owns mem
    rw [owner_update]
    exact added.release fun other isOther => owns.trans (keeps other isOther)
  known := by
    refine calls.others stable extends_ ?_ known
    intro u other isU isOwner
    rw [← owns]
    exact calls.sound.foreign other isU isOwner

theorem Calls.malloc (free : allocated node = false) (levels : Levels after head lists)
    (extends_ : Extends (some node) memory lists after lists) (known : Known after lists p)
    (owns : nodeOf p = some node) :
    Calls nodeOf Known after lists (Function.update allocated node true) linked
      (Function.update pc t p) where
  sound := by
    rw [owner_update, owns]
    exact calls.sound.malloc free levels
  known := by
    refine calls.others stable extends_ ?_ known
    rintro u - other isOwner same
    have used := calls.sound.own u other isOwner
    rw [← Option.some.inj same, free] at used
    cases used

theorem Calls.free (owns : nodeOf (pc t) = some node) (unlinked : ∀ level, node ∉ lists level)
    (notHead : node ≠ head) (known : Known memory lists p) (none_ : nodeOf p = none) :
    Calls nodeOf Known memory lists (Function.update allocated node false) linked
      (Function.update pc t p) where
  sound := by
    rw [owner_update, none_]
    exact calls.sound.free owns unlinked notHead
  known := (calls.go stable known fun other isOther => by simp [none_] at isOther).known

end

end Calls

end EunoDb.SkipInsert
