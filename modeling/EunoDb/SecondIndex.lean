import EunoDb.BPlusLookup
import EunoDb.Execution

/-! The entry points over `Get_sec`. Using a spare node sets it to `NULL`. `memnode` and `valid`
are left out. -/

namespace EunoDb.SecondIndex

open Slots BPlusTree Execution Function

abbrev NodeId := Nat
abbrev WrapperId := Nat

structure MemNodeWrapper where
  id : WrapperId
  key : Key
  deriving DecidableEq

structure SecondNode where
  seq : Nat := 0
  wrappers : List MemNodeWrapper := []

structure Index where
  tree : State (Option NodeId) := {}
  node : NodeId → SecondNode := fun _ => {}
  localinit : Bool := false
  dummyval : Option NodeId := none
  dummywrapper : Option WrapperId := none
  nodes : NodeId := 0
  wrappers : WrapperId := 0

def Index.newNode (s : Index) : Index :=
  { s with dummyval := some s.nodes, nodes := s.nodes + 1 }

def Index.newWrapper (s : Index) : Index :=
  { s with dummywrapper := some s.wrappers, wrappers := s.wrappers + 1 }

def Index.refill (s : Index) : Index :=
  let s := if s.dummyval = none then s.newNode else s
  if s.dummywrapper = none then s.newWrapper else s

def threadLocalInit (s : Index) : Index :=
  if s.localinit then s else { s.newWrapper.newNode with localinit := true }

def present (s : State (Option NodeId)) (key : Key) : Option Bool := do
  let id ← findLeaf key s.depth s.root
  let leaf := s.heap.leaf id
  let k ← scan leaf.keys (fun other => other < key) 0 leaf.numKeys
  if k < leaf.numKeys then (Slots.read leaf.keys k).map (· == key) else some false

def Index.getSec (s : Index) (key : Key) : Option (Index × Option NodeId) := do
  let known ← present s.tree key
  let (tree, val) ← BPlusTree.getSec s.tree key s.dummyval
  return ({ s with tree := tree, dummyval := if known then s.dummyval else none }, val)

def insertSec (s : Index) (secn : Option NodeId) (prikey : Key) : Option (Index × WrapperId) := do
  let id ← secn
  let node := s.node id
  match node.wrappers.find? (fun wrapper => wrapper.key == prikey) with
  | some wrapper => return (s, wrapper.id)
  | none =>
    let spare ← s.dummywrapper
    let node : SecondNode := ⟨node.seq + 1, ⟨spare, prikey⟩ :: node.wrappers⟩
    return ({ s with node := update s.node id node, dummywrapper := none }, spare)

inductive Call where
  | get (seckey : Key)
  | getWithInsert (seckey prikey : Key)
  deriving DecidableEq

def Call.seckey : Call → Key
  | get seckey => seckey
  | getWithInsert seckey _ => seckey

inductive Answer where
  | node (secn : Option NodeId)
  | wrapper (wrapper : WrapperId) (secn : Option NodeId)

def Answer.secn : Answer → Option NodeId
  | node secn => secn
  | wrapper _ secn => secn

def get (s : Index) (seckey : Key) : Option (Index × Answer) := do
  let (s, secn) ← (threadLocalInit s).getSec seckey
  return (s, .node secn)

def getWithInsert (s : Index) (seckey prikey : Key) : Option (Index × Answer) := do
  let (s, secn) ← (threadLocalInit s).getSec seckey
  let (s, wrapper) ← insertSec s secn prikey
  return (s.refill, .wrapper wrapper secn)

def call (s : Index) : Call → Option (Index × Answer)
  | .get seckey => get s seckey
  | .getWithInsert seckey prikey => getWithInsert s seckey prikey

structure World where
  index : Index := {}
  log : List (Call × Answer) := []

def step (w : World) (c : Call) : Option World :=
  (call w.index c).map fun (s, answer) => ⟨s, w.log ++ [(c, answer)]⟩

def Supplied (w : World) (c : Call) : Prop :=
  (threadLocalInit w.index).dummyval ≠ none ∨ present w.index.tree c.seckey = some true

instance (w : World) (c : Call) : Decidable (Supplied w c) :=
  inferInstanceAs (Decidable (_ ∨ _))

structure Yields (w : World) : Prop where
  nonNull : ∀ entry ∈ w.log, entry.2.secn ≠ none
  sameNode : ∀ first ∈ w.log, ∀ second ∈ w.log,
    first.2.secn = second.2.secn ↔ first.1.seckey = second.1.seckey
  once : ∀ entry ∈ w.log, ∀ id, entry.2.secn = some id →
    ((w.index.node id).wrappers.map MemNodeWrapper.key).Nodup ∧
      ∀ prikey, prikey ∈ (w.index.node id).wrappers.map MemNodeWrapper.key ↔
        .getWithInsert entry.1.seckey prikey ∈ w.log.map Prod.fst
  counted : ∀ entry ∈ w.log, ∀ id, entry.2.secn = some id →
    (w.index.node id).seq = (w.index.node id).wrappers.length

/-! ### The tree as a map -/

theorem present_eq {s : State (Option NodeId)} {rows : List (Row (Option NodeId))}
    (represents : Represents s rows) (key : Key) :
    ∃ known, present s key = some known ∧ (known = true ↔ ∃ val, (key, val) ∈ contents rows) := by
  obtain ⟨front, row, back, rfl, found, inRow⟩ := represents.descend key
  have holds := represents.layout.holds row (by simp)
  have ordered := represents.layout.ordered row (by simp)
  obtain ⟨before, after, shape, below, above⟩ := ordered.cut_lt key
  rw [shape] at holds
  have stops := holds.search_lt below above
  cases after with
  | nil =>
    have atEnd : ¬ before.length < (s.heap.leaf row.id).numKeys := by
      rw [holds.num, List.append_nil]
      exact Nat.lt_irrefl _
    refine ⟨false, by simp [present, found, stops, atEnd], ?_⟩
    simp only [inRow, shape, List.append_nil, Bool.false_eq_true, false_iff, not_exists]
    exact fun val mem => Nat.lt_irrefl key (below _ mem)
  | cons entry after =>
    have inside : before.length < (s.heap.leaf row.id).numKeys := by
      rw [holds.num, List.length_append, List.length_cons]
      omega
    have tested := holds.at.1
    refine ⟨entry.1 == key, by simp [present, found, stops, inside, tested], ?_⟩
    have stored := ordered.lookup shape below (above entry List.mem_cons_self)
    simp only [inRow, stored, beq_iff_eq]
    constructor
    · intro same
      exact ⟨entry.2, by rw [← same]⟩
    · rintro ⟨val, rfl⟩
      rfl

structure Maps (s : Index) (assigned : Key → NodeId → Prop) (inserted : Key → Key → Prop) :
    Prop where
  tree : ∃ rows, Represents s.tree rows ∧
    ∀ key val, (key, val) ∈ contents rows ↔ ∃ id, val = some id ∧ assigned key id
  allocated : ∀ key id, assigned key id → id < s.nodes ∧ s.dummyval ≠ some id
  injective : ∀ key other id, assigned key id → assigned other id → key = other
  once : ∀ key id, assigned key id → ((s.node id).wrappers.map MemNodeWrapper.key).Nodup ∧
    ∀ prikey, prikey ∈ (s.node id).wrappers.map MemNodeWrapper.key ↔ inserted key prikey
  counted : ∀ key id, assigned key id → (s.node id).seq = (s.node id).wrappers.length
  unused : ∀ id, (∀ key, ¬ assigned key id) → s.node id = {}
  spare : ∀ id, s.dummyval = some id → id < s.nodes
  known : ∀ key prikey, inserted key prikey → ∃ id, assigned key id

variable {s : Index} {assigned : Key → NodeId → Prop} {inserted : Key → Key → Prop}

variable {key : Key} {id : NodeId} {answer : Answer} {w : World} {c : Call}

section

variable (maps : Maps s assigned inserted)

include maps

theorem Maps.functional {other : NodeId} (first : assigned key id) (second : assigned key other) :
    id = other := by
  obtain ⟨rows, represents, values⟩ := maps.tree
  exact Option.some.inj (represents.functional ((values key _).mpr ⟨id, rfl, first⟩)
    ((values key _).mpr ⟨other, rfl, second⟩))

theorem Maps.newNode : Maps s.newNode assigned inserted where
  tree := maps.tree
  allocated key id isNode := by
    have used := (maps.allocated key id isNode).1
    exact ⟨Nat.lt_succ_of_lt used, fun same => Nat.ne_of_gt used (Option.some.inj same)⟩
  injective := maps.injective
  once := maps.once
  counted := maps.counted
  unused := maps.unused
  spare id isSpare := by
    cases isSpare
    exact Nat.lt_succ_self _
  known := maps.known

theorem Maps.newWrapper : Maps s.newWrapper assigned inserted :=
  ⟨maps.tree, maps.allocated, maps.injective, maps.once, maps.counted, maps.unused, maps.spare,
    maps.known⟩

theorem Maps.refill : Maps s.refill assigned inserted := by
  have nodes : Maps (if s.dummyval = none then s.newNode else s) assigned inserted := by
    split
    · exact maps.newNode
    · exact maps
  rw [Index.refill]
  generalize (if s.dummyval = none then s.newNode else s) = filled at nodes
  split
  · exact nodes.newWrapper
  · exact nodes

end

theorem Index.refill_dummywrapper (s : Index) : s.refill.dummywrapper ≠ none := by
  rw [Index.refill]
  generalize (if s.dummyval = none then s.newNode else s) = filled
  split
  · nofun
  · assumption

section

variable (maps : Maps s assigned inserted)

include maps

theorem Maps.threadLocalInit : Maps (threadLocalInit s) assigned inserted := by
  rw [SecondIndex.threadLocalInit]
  split
  · exact maps
  · have renewed := maps.newWrapper.newNode
    exact ⟨renewed.tree, renewed.allocated, renewed.injective, renewed.once, renewed.counted,
      renewed.unused, renewed.spare, renewed.known⟩

theorem Maps.congr {assigned' : Key → NodeId → Prop} {inserted' : Key → Key → Prop}
    (nodes : ∀ key id, assigned' key id ↔ assigned key id)
    (keys : ∀ key prikey, inserted' key prikey ↔ inserted key prikey) :
    Maps s assigned' inserted' := by
  have sameNodes : assigned' = assigned := funext fun key => funext fun id => propext (nodes key id)
  have sameKeys : inserted' = inserted := funext fun key => funext fun p => propext (keys key p)
  rw [sameNodes, sameKeys]
  exact maps

theorem Maps.getSec_known (isKnown : present s.tree key = some true) :
    ∃ tree id, s.getSec key = some ({ s with tree := tree }, some id) ∧ assigned key id ∧
      Maps { s with tree := tree } assigned inserted := by
  obtain ⟨rows, represents, values⟩ := maps.tree
  obtain ⟨known, tested, exact_⟩ := present_eq represents key
  cases tested.symm.trans isKnown
  obtain ⟨next, found, rows', returned, represents', outcome⟩ :=
    represents.insert key s.dummyval
  rcases outcome with ⟨mem, same⟩ | ⟨-, absent, -⟩
  · obtain ⟨id, rfl, isNode⟩ := (values key found).mp mem
    refine ⟨next, id, by simp [Index.getSec, isKnown, returned], isNode, ?_⟩
    exact ⟨⟨rows', represents', by rw [same]; exact values⟩, maps.allocated, maps.injective,
      maps.once, maps.counted, maps.unused, maps.spare, maps.known⟩
  · obtain ⟨val, mem⟩ := exact_.mp rfl
    exact absurd mem (absent val)

theorem Maps.getSec_new {spare : NodeId} (isNew : present s.tree key ≠ some true)
    (supplied : s.dummyval = some spare) :
    ∃ tree, s.getSec key = some ({ s with tree := tree, dummyval := none }, some spare) ∧
      Maps { s with tree := tree, dummyval := none }
        (fun other id => assigned other id ∨ other = key ∧ id = spare) inserted := by
  obtain ⟨rows, represents, values⟩ := maps.tree
  obtain ⟨known, tested, exact_⟩ := present_eq represents key
  obtain rfl : known = false := by
    cases known with
    | false => rfl
    | true => exact absurd tested isNew
  obtain ⟨next, found, rows', returned, represents', outcome⟩ :=
    represents.insert key s.dummyval
  have unassigned : ∀ id, ¬ assigned key id := fun id isNode => by
    have stored := exact_.mpr ⟨_, (values key _).mpr ⟨id, rfl, isNode⟩⟩
    cases stored
  have fresh : ∀ other, ¬ assigned other spare := fun other isNode =>
    (maps.allocated other spare isNode).2 supplied
  rcases outcome with ⟨mem, -⟩ | ⟨rfl, -, added⟩
  · obtain ⟨id, -, isNode⟩ := (values key found).mp mem
    exact absurd isNode (unassigned id)
  rw [supplied] at returned added
  refine ⟨next, by simp [Index.getSec, tested, returned, supplied], ?_⟩
  refine
    { tree := ⟨rows', represents', fun other val => ?_⟩
      allocated := ?_
      injective := ?_
      once := ?_
      counted := ?_
      unused := fun id free => maps.unused id fun other isNode => free other (.inl isNode)
      spare := fun id isSpare => nomatch isSpare
      known := ?_ }
  · rw [added, values, Prod.mk.injEq]
    constructor
    · rintro (⟨rfl, rfl⟩ | ⟨id, rfl, isNode⟩)
      · exact ⟨spare, rfl, .inr ⟨rfl, rfl⟩⟩
      · exact ⟨id, rfl, .inl isNode⟩
    · rintro ⟨id, rfl, isNode | ⟨rfl, rfl⟩⟩
      · exact .inr ⟨id, rfl, isNode⟩
      · exact .inl ⟨rfl, rfl⟩
  · rintro other id (isNode | ⟨-, rfl⟩)
    · exact ⟨(maps.allocated other id isNode).1, nofun⟩
    · exact ⟨maps.spare id supplied, nofun⟩
  · rintro first second id (isFirst | ⟨rfl, rfl⟩) (isSecond | ⟨rfl, same⟩)
    · exact maps.injective first second id isFirst isSecond
    · exact absurd (same ▸ isFirst) (fresh first)
    · exact absurd isSecond (fresh second)
    · rfl
  · rintro other id (isNode | ⟨rfl, rfl⟩)
    · exact maps.once other id isNode
    have empty := maps.unused id fresh
    refine ⟨by simp [empty], fun prikey => ?_⟩
    simp only [empty, List.map_nil, List.not_mem_nil, false_iff]
    intro isIn
    obtain ⟨node, isNode⟩ := maps.known _ _ isIn
    exact unassigned node isNode
  · rintro other id (isNode | ⟨rfl, rfl⟩)
    · exact maps.counted other id isNode
    · simp [maps.unused id fresh]
  · intro other prikey isIn
    obtain ⟨id, isNode⟩ := maps.known other prikey isIn
    exact ⟨id, .inl isNode⟩

theorem Maps.getSec (key : Key) (supplied : s.dummyval ≠ none ∨ present s.tree key = some true) :
    ∃ next id, s.getSec key = some (next, some id) ∧
      Maps next (fun other node => assigned other node ∨ other = key ∧ node = id) inserted ∧
      next.dummywrapper = s.dummywrapper ∧ next.localinit = s.localinit := by
  by_cases known : present s.tree key = some true
  · obtain ⟨tree, id, returned, isNode, after⟩ := maps.getSec_known known
    refine ⟨_, id, returned, after.congr (fun other node => ?_) (fun _ _ => Iff.rfl), rfl, rfl⟩
    constructor
    · rintro (isOther | ⟨rfl, rfl⟩)
      · exact isOther
      · exact isNode
    · exact .inl
  · obtain ⟨spare, isSpare⟩ := Option.ne_none_iff_exists'.mp (supplied.resolve_right known)
    obtain ⟨tree, returned, after⟩ := maps.getSec_new known isSpare
    exact ⟨_, spare, returned, after, rfl, rfl⟩

theorem Maps.insertSec (isNode : assigned key id) (prikey : Key) (wrapper : s.dummywrapper ≠ none) :
    ∃ next found, insertSec s (some id) prikey = some (next, found) ∧
      Maps next assigned (fun other p => inserted other p ∨ other = key ∧ p = prikey) ∧
      next.localinit = s.localinit := by
  obtain ⟨distinct, exactly⟩ := maps.once key id isNode
  cases searched : (s.node id).wrappers.find? (fun wrapper => wrapper.key == prikey) with
  | some found =>
    have isIn : inserted key prikey := by
      have same : found.key = prikey := by simpa using List.find?_some searched
      rw [← exactly, ← same]
      exact List.mem_map_of_mem (List.mem_of_find?_eq_some searched)
    refine ⟨s, found.id, by simp [SecondIndex.insertSec, searched], ?_, rfl⟩
    refine maps.congr (fun _ _ => Iff.rfl) fun other p => ?_
    constructor
    · rintro (isOther | ⟨rfl, rfl⟩)
      · exact isOther
      · exact isIn
    · exact .inl
  | none =>
    obtain ⟨spare, isSpare⟩ := Option.ne_none_iff_exists'.mp wrapper
    have absent : prikey ∉ (s.node id).wrappers.map MemNodeWrapper.key := by
      intro mem
      obtain ⟨found, inside, same⟩ := List.mem_map.mp mem
      have differs := List.find?_eq_none.mp searched found inside
      simp [same] at differs
    have linked : SecondIndex.insertSec s (some id) prikey = some ({ s with
        node := update s.node id
          ⟨(s.node id).seq + 1, ⟨spare, prikey⟩ :: (s.node id).wrappers⟩
        dummywrapper := none }, spare) := by
      simp [SecondIndex.insertSec, searched, isSpare]
    refine ⟨_, spare, linked, ?_, rfl⟩
    -- only the node of this secondary key has changed
    have elsewhere : ∀ other node, assigned other node → node ≠ id → ∀ p,
        inserted other p ∨ other = key ∧ p = prikey ↔ inserted other p := by
      intro other node isOther different p
      refine ⟨fun either => either.resolve_right ?_, .inl⟩
      rintro ⟨rfl, -⟩
      exact different (maps.functional isOther isNode)
    refine
      { tree := maps.tree
        allocated := maps.allocated
        injective := maps.injective
        once := fun other node isOther => ?_
        counted := fun other node isOther => ?_
        unused := fun node free => ?_
        spare := maps.spare
        known := ?_ }
    · by_cases same : node = id
      · subst same
        obtain rfl := maps.injective other key node isOther isNode
        simp only [update_self, List.map_cons, List.nodup_cons, List.mem_cons]
        refine ⟨⟨absent, distinct⟩, fun p => ?_⟩
        rw [exactly p]
        simp [or_comm]
      · simp only [update_of_ne same, elsewhere other node isOther same]
        exact maps.once other node isOther
    · by_cases same : node = id
      · subst same
        simp [maps.counted key node isNode]
      · simpa only [update_of_ne same] using maps.counted other node isOther
    · have different : node ≠ id := by
        rintro rfl
        exact free key isNode
      simpa only [update_of_ne different] using maps.unused node free
    · rintro other p (isIn | ⟨rfl, -⟩)
      · exact maps.known other p isIn
      · exact ⟨id, isNode⟩

end

/-! ### Sequences of calls -/

def assignedIn (log : List (Call × Answer)) (key : Key) (id : NodeId) : Prop :=
  ∃ entry ∈ log, entry.1.seckey = key ∧ entry.2.secn = some id

def insertedIn (log : List (Call × Answer)) (key prikey : Key) : Prop :=
  .getWithInsert key prikey ∈ log.map Prod.fst

theorem assignedIn_append (log : List (Call × Answer)) (c : Call) (returned : answer.secn = some id)
    (key : Key) (node : NodeId) :
    assignedIn (log ++ [(c, answer)]) key node ↔
      assignedIn log key node ∨ key = c.seckey ∧ node = id := by
  simp only [assignedIn, List.mem_append, List.mem_singleton, or_and_right, exists_or,
    exists_eq_left, returned, Option.some.injEq]
  simp only [eq_comm]

structure Sound (w : World) : Prop where
  maps : Maps w.index (assignedIn w.log) (insertedIn w.log)
  nonNull : ∀ entry ∈ w.log, entry.2.secn ≠ none
  wrapper : w.index.localinit = true → w.index.dummywrapper ≠ none

theorem Sound.initial : Sound {} where
  maps := by
    refine ⟨⟨_, empty_represents, fun key val => ?_⟩, ?_, ?_, ?_, ?_, fun _ _ => rfl, nofun, ?_⟩
    all_goals simp [assignedIn, insertedIn, contents]
  nonNull := nofun
  wrapper := nofun

theorem threadLocalInit_localinit (s : Index) : (threadLocalInit s).localinit = true := by
  rw [threadLocalInit]
  split
  · assumption
  · rfl

theorem threadLocalInit_tree (s : Index) : (threadLocalInit s).tree = s.tree := by
  rw [threadLocalInit]
  split <;> rfl

theorem Sound.ready (sound : Sound w) : (threadLocalInit w.index).dummywrapper ≠ none := by
  rw [threadLocalInit]
  split
  · rename_i done
    exact sound.wrapper done
  · nofun

theorem nonNull_append {log : List (Call × Answer)} (before : ∀ entry ∈ log, entry.2.secn ≠ none)
    (returned : answer.secn = some id) : ∀ entry ∈ log ++ [(c, answer)], entry.2.secn ≠ none := by
  intro entry mem
  rcases List.mem_append.mp mem with earlier | last
  · exact before entry earlier
  · rw [List.mem_singleton.mp last, returned]
    nofun

theorem Sound.call (sound : Sound w) (supplied : Supplied w c) :
    ∃ next, step w c = some next ∧ Sound next := by
  have ready := sound.ready
  have supply : (threadLocalInit w.index).dummyval ≠ none ∨
      present (threadLocalInit w.index).tree c.seckey = some true := by
    rw [threadLocalInit_tree]
    exact supplied
  obtain ⟨s, id, found, maps, sameWrapper, sameInit⟩ :=
    sound.maps.threadLocalInit.getSec c.seckey supply
  rw [← sameWrapper] at ready
  rw [threadLocalInit_localinit] at sameInit
  cases c with
  | get seckey =>
    have returned : get w.index seckey = some (s, .node (some id)) := by
      rw [get, show (threadLocalInit w.index).getSec seckey = _ from found]
      rfl
    refine ⟨_, by rw [step, SecondIndex.call, returned]; rfl, ?_, ?_, fun _ => ready⟩
    · refine maps.congr (assignedIn_append w.log (.get seckey) rfl) fun key prikey => ?_
      simp [insertedIn]
    · exact nonNull_append sound.nonNull rfl
  | getWithInsert seckey prikey =>
    obtain ⟨s', wrapper, linked, maps', sameInit'⟩ :=
      maps.insertSec (.inr ⟨rfl, rfl⟩) prikey ready
    have keys : ∀ key p, insertedIn (w.log ++ [(.getWithInsert seckey prikey,
        .wrapper wrapper (some id))]) key p ↔
          insertedIn w.log key p ∨ key = seckey ∧ p = prikey := by
      simp [insertedIn]
    have nodes := assignedIn_append w.log (.getWithInsert seckey prikey)
      (show (Answer.wrapper wrapper (some id)).secn = some id from rfl)
    have returned : getWithInsert w.index seckey prikey =
        some (s'.refill, .wrapper wrapper (some id)) := by
      rw [getWithInsert, show (threadLocalInit w.index).getSec seckey = _ from found]
      simp [linked]
    refine ⟨_, by rw [step, SecondIndex.call, returned]; rfl, ?_, ?_, ?_⟩
    · exact (maps'.congr nodes keys).refill
    · exact nonNull_append sound.nonNull rfl
    · exact fun _ => s'.refill_dummywrapper

theorem Sound.yields (sound : Sound w) : Yields w where
  nonNull := sound.nonNull
  sameNode first isFirst second isSecond := by
    obtain ⟨id, isId⟩ := Option.ne_none_iff_exists'.mp (sound.nonNull first isFirst)
    obtain ⟨other, isOther⟩ := Option.ne_none_iff_exists'.mp (sound.nonNull second isSecond)
    rw [isId, isOther, Option.some.injEq]
    constructor
    · rintro rfl
      exact sound.maps.injective _ _ id ⟨first, isFirst, rfl, isId⟩ ⟨second, isSecond, rfl, isOther⟩
    · intro sameKey
      exact sound.maps.functional ⟨first, isFirst, rfl, isId⟩ ⟨second, isSecond, sameKey.symm, isOther⟩
  once entry mem id isNode := sound.maps.once _ id ⟨entry, mem, rfl, isNode⟩
  counted entry mem id isNode := sound.maps.counted _ id ⟨entry, mem, rfl, isNode⟩

/-- Calls return; those with one key share a node, which holds each primary key once. -/
theorem calls_yield {calls : List Call} (supplied : Each step Supplied {} calls) :
    ∃ w, run step {} calls = some w ∧ Yields w := by
  obtain ⟨w, ran, sound⟩ := run_total (fun _ _ sound supplied => sound.call supplied)
    Sound.initial supplied
  exact ⟨w, ran, sound.yields⟩

theorem calls_yield_refilled : ∃ w,
    run step {} [.get 1, .getWithInsert 1 10, .getWithInsert 2 10, .getWithInsert 2 11, .get 2] =
      some w ∧ Yields w :=
  calls_yield (by decide +kernel)

theorem get_null :
    (∃ w, run step {} [.get 1, .get 2] = some w ∧
      w.log.map (fun entry => entry.2.secn) = [some 0, none]) ∧
    run step {} [.get 1, .getWithInsert 2 10] = none :=
  ⟨⟨_, rfl, rfl⟩, rfl⟩

end EunoDb.SecondIndex
