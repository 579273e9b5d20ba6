import EunoDb.Execution
import EunoDb.HashTable
import EunoDb.LinkedList

/-! `GetNode` and `GetNodeWithInsert`, interleaved at single loads, stores and compare-and-swaps.
`compare_` is equality of keys. -/

namespace EunoDb.HashChain

open Execution LinkedList Function
open HashTable (NodeId)

abbrev ThreadId := Nat

structure Node (Key : Type) where
  key : Key
  hash : Option UInt64 := none
  next : Option NodeId := none
  seq : Option Nat := none

structure Call (Key : Type) where
  key : Key
  tmp : Option NodeId
  earlier : List (Key × NodeId)

inductive Pc (Key : Type) where
  | idle
  | readHead (call : Call Key)
  | testHash (call : Call Key) (oldv : Option NodeId) (ptr : NodeId)
  | testKey (call : Call Key) (oldv : Option NodeId) (ptr : NodeId)
  | advance (call : Call Key) (oldv : Option NodeId) (ptr : NodeId)
  | setSeq (call : Call Key) (oldv : Option NodeId) (tmp : NodeId)
  | setNull (call : Call Key) (oldv : Option NodeId) (tmp : NodeId)
  | setHash (call : Call Key) (oldv : Option NodeId) (tmp : NodeId)
  | rereadHead (call : Call Key) (oldv : Option NodeId) (tmp : NodeId)
  | setNext (call : Call Key) (oldv : Option NodeId) (tmp : NodeId) (second : Option NodeId)
  | cas (call : Call Key) (oldv : Option NodeId) (tmp : NodeId)

structure Found (Key : Type) where
  key : Key
  earlier : List (Key × NodeId)
  result : Option NodeId

structure World (Key : Type) where
  head : Nat → Option NodeId := fun _ => none
  node : NodeId → Option (Node Key) := fun _ => none
  allocated : NodeId := 0
  pc : ThreadId → Pc Key := fun _ => .idle
  linked : List NodeId := []
  inserted : List (Key × NodeId) := []
  found : List (Found Key) := []

variable {Key : Type}

def World.setPc (w : World Key) (t : ThreadId) (pc : Pc Key) : World Key :=
  { w with pc := update w.pc t pc }

@[simp]
theorem setPc_same (w : World Key) (t : ThreadId) (pc : Pc Key) : (w.setPc t pc).pc t = pc :=
  update_self ..

theorem setPc_other (w : World Key) {t other : ThreadId} (pc : Pc Key) (different : other ≠ t) :
    (w.setPc t pc).pc other = w.pc other :=
  update_of_ne different ..

def World.setNode (w : World Key) (id : NodeId) (node : Node Key) : World Key :=
  { w with node := update w.node id (some node) }

def World.answer (w : World Key) (t : ThreadId) (call : Call Key) (ptr : NodeId) : World Key :=
  match call.tmp with
  | some _ => { w.setPc t .idle with inserted := w.inserted ++ [(call.key, ptr)] }
  | none => { w.setPc t .idle with found := w.found ++ [⟨call.key, call.earlier, some ptr⟩] }

def World.arrive (w : World Key) (t : ThreadId) (call : Call Key) (oldv ptr : Option NodeId) :
    World Key :=
  match ptr, call.tmp with
  | some ptr, _ => w.setPc t (.testHash call oldv ptr)
  | none, some tmp => w.setPc t (.setSeq call oldv tmp)
  | none, none => { w.setPc t .idle with found := w.found ++ [⟨call.key, call.earlier, none⟩] }

inductive Act (Key : Type) where
  | getNode (t : ThreadId) (key : Key)
  | getNodeWithInsert (t : ThreadId) (key : Key)
  | advance (t : ThreadId)

section Steps

variable [DecidableEq Key] (hashfunc : Key → UInt64)

def access (w : World Key) (t : ThreadId) : Option (World Key) :=
  match w.pc t with
  | .idle => none
  | .readHead call =>
    let oldv := w.head (HashTable.slot (hashfunc call.key))
    some (w.arrive t call oldv oldv)
  | .testHash call oldv ptr => do
      let node ← w.node ptr
      let hash ← node.hash
      if hash ≠ hashfunc call.key then
        return w.setPc t (.advance call oldv ptr)
      else
        return w.setPc t (.testKey call oldv ptr)
  | .testKey call oldv ptr => do
      let node ← w.node ptr
      if node.key ≠ call.key then
        return w.setPc t (.advance call oldv ptr)
      else
        return w.answer t call ptr
  | .advance call oldv ptr => do
      let node ← w.node ptr
      return w.arrive t call oldv node.next
  | .setSeq call oldv tmp => do
      let node ← w.node tmp
      return (w.setNode tmp { node with seq := some 0 }).setPc t (.setNull call oldv tmp)
  | .setNull call oldv tmp => do
      let node ← w.node tmp
      return (w.setNode tmp { node with next := none }).setPc t (.setHash call oldv tmp)
  | .setHash call oldv tmp => do
      let node ← w.node tmp
      return (w.setNode tmp { node with hash := some (hashfunc call.key) }).setPc t
        (.rereadHead call oldv tmp)
  | .rereadHead call oldv tmp =>
    some (w.setPc t (.setNext call oldv tmp (w.head (HashTable.slot (hashfunc call.key)))))
  | .setNext call oldv tmp second => do
      let node ← w.node tmp
      return (w.setNode tmp { node with next := second }).setPc t (.cas call oldv tmp)
  | .cas call oldv tmp =>
    let slot := HashTable.slot (hashfunc call.key)
    if w.head slot = oldv then
      some (World.answer { w with
        head := update w.head slot (some tmp)
        linked := w.linked ++ [tmp] } t call tmp)
    else
      some (w.setPc t (.readHead call))

def step (w : World Key) : Act Key → Option (World Key)
  | .getNode t key =>
    match w.pc t with
    | .idle => some (w.setPc t (.readHead ⟨key, none, w.inserted⟩))
    | _ => none
  | .getNodeWithInsert t key =>
    match w.pc t with
    | .idle => some ({ w.setNode w.allocated { key := key } with
        allocated := w.allocated + 1 }.setPc t (.readHead ⟨key, some w.allocated, w.inserted⟩))
    | _ => none
  | .advance t => access hashfunc w t

end Steps

def World.nextOf (w : World Key) (id : NodeId) : Option NodeId := (w.node id).bind Node.next

def World.keyOf (w : World Key) (id : NodeId) : Option Key := (w.node id).map Node.key

def World.Chain (w : World Key) (slot : Nat) (nodes : List NodeId) : Prop :=
  Linked w.nextOf (w.head slot) nodes

structure Correct (hashfunc : Key → UInt64) (w : World Key) : Prop where
  unique : ∀ slot, ∃ nodes, w.Chain slot nodes ∧ (nodes.map w.keyOf).Nodup
  reachable : ∀ id ∈ w.linked, ∃ key nodes, w.keyOf id = some key ∧
    w.Chain (HashTable.slot (hashfunc key)) nodes ∧ id ∈ nodes
  sameNode : ∀ first ∈ w.inserted, ∀ second ∈ w.inserted, first.1 = second.1 → first.2 = second.2
  finds : ∀ found ∈ w.found, ∀ earlier ∈ found.earlier, earlier.1 = found.key →
    found.result = some earlier.2

/-! ### Chains grow at their head -/

structure Grows (w w' : World Key) : Prop where
  chain : ∀ slot nodes, w.Chain slot nodes → ∃ front, w'.Chain slot (front ++ nodes)
  node : ∀ slot nodes, w.Chain slot nodes → ∀ id ∈ nodes, w'.node id = w.node id
  inserted : ∀ entry ∈ w.inserted, entry ∈ w'.inserted

def Seen (w : World Key) (slot : Nat) (ptr : Option NodeId) (nodes : List NodeId) : Prop :=
  ∃ newer, w.Chain slot (newer ++ nodes) ∧ Linked w.nextOf ptr nodes

variable {w w' : World Key} {id : NodeId}

theorem nextOf_congr (same : w'.node id = w.node id) : w'.nextOf id = w.nextOf id := by
  rw [World.nextOf, World.nextOf, same]

theorem keyOf_congr (same : w'.node id = w.node id) : w'.keyOf id = w.keyOf id := by
  rw [World.keyOf, World.keyOf, same]

variable {slot : Nat} {nodes : List NodeId}

theorem Seen.mono {ptr : Option NodeId} (seen : Seen w slot ptr nodes) (grows : Grows w w') :
    Seen w' slot ptr nodes ∧ ∀ id ∈ nodes, w'.node id = w.node id := by
  obtain ⟨newer, chain, links⟩ := seen
  obtain ⟨front, chain'⟩ := grows.chain slot _ chain
  have same : ∀ id ∈ nodes, w'.node id = w.node id := fun id mem =>
    grows.node slot _ chain id (List.mem_append_right _ mem)
  refine ⟨⟨front ++ newer, by rw [List.append_assoc]; exact chain', ?_⟩, same⟩
  exact links.congr fun id mem => nextOf_congr (same id mem)

theorem Grows.same (head : w'.head = w.head) (node : w'.node = w.node)
    (inserted : ∀ entry ∈ w.inserted, entry ∈ w'.inserted) : Grows w w' where
  chain slot nodes chain := by
    refine ⟨[], ?_⟩
    rw [List.nil_append, World.Chain, head]
    exact chain.congr fun id _ => nextOf_congr (congrFun node id)
  node _ _ _ id _ := congrFun node id
  inserted := inserted

def Private (w : World Key) (id : NodeId) : Prop := ∀ slot nodes, w.Chain slot nodes → id ∉ nodes

theorem Grows.store {node : Node Key} (hidden : Private w id) (head : w'.head = w.head)
    (stored : w'.node = update w.node id (some node)) (inserted : w'.inserted = w.inserted) :
    Grows w w' := by
  have same : ∀ slot nodes, w.Chain slot nodes → ∀ other ∈ nodes, w'.node other = w.node other := by
    intro slot nodes chain other mem
    have different : other ≠ id := fun same => hidden slot nodes chain (same ▸ mem)
    rw [stored, update_of_ne different]
  refine ⟨fun slot nodes chain => ⟨[], ?_⟩, same, fun entry mem => inserted ▸ mem⟩
  rw [List.nil_append, World.Chain, head]
  exact chain.congr fun other mem => nextOf_congr (same slot nodes chain other mem)

theorem chain_of_store {node : Node Key} (hidden : Private w id)
    (chains : ∀ slot, ∃ nodes, w.Chain slot nodes) (head : w'.head = w.head)
    (stored : w'.node = update w.node id (some node)) (chain : w'.Chain slot nodes) :
    w.Chain slot nodes := by
  obtain ⟨old, isOld⟩ := chains slot
  have kept : w'.Chain slot old := by
    rw [World.Chain, head]
    refine isOld.congr fun other mem => nextOf_congr ?_
    have different : other ≠ id := fun same => hidden slot old isOld (same ▸ mem)
    rw [stored, update_of_ne different]
  rw [chain.unique kept]
  exact isOld

/-! ### What holds of the table and of every thread -/

variable (hashfunc : Key → UInt64)

def Reached (w : World Key) (call : Call Key) (oldv ptr : Option NodeId) : Prop :=
  ∃ passed rest, Seen w (HashTable.slot (hashfunc call.key)) oldv (passed ++ rest) ∧
    Linked w.nextOf ptr rest ∧ (∀ id ∈ passed, w.keyOf id ≠ some call.key) ∧
    ∀ entry ∈ call.earlier, entry.1 = call.key → entry.2 ∈ passed ++ rest

def Absent (w : World Key) (call : Call Key) (oldv : Option NodeId) : Prop :=
  ∃ older, Seen w (HashTable.slot (hashfunc call.key)) oldv older ∧
    ∀ id ∈ older, w.keyOf id ≠ some call.key

def Reread (w : World Key) (call : Call Key) (oldv second : Option NodeId) : Prop :=
  ∃ newer older, Seen w (HashTable.slot (hashfunc call.key)) second (newer ++ older) ∧
    Linked w.nextOf oldv older

def Own (w : World Key) (call : Call Key) (tmp : NodeId) (stored : Node Key → Prop) : Prop :=
  call.tmp = some tmp ∧ ∃ node, w.node tmp = some node ∧ node.key = call.key ∧ stored node

def Begun (w : World Key) (call : Call Key) : Prop :=
  (∀ entry ∈ call.earlier, entry ∈ w.inserted) ∧
    ∀ tmp, call.tmp = some tmp → Own w call tmp fun _ => True

def Fact (w : World Key) : Pc Key → Prop
  | .idle => True
  | .readHead call => Begun w call
  | .testHash call oldv ptr => Begun w call ∧ Reached hashfunc w call oldv (some ptr)
  | .testKey call oldv ptr => Begun w call ∧ Reached hashfunc w call oldv (some ptr)
  | .advance call oldv ptr => Begun w call ∧ Reached hashfunc w call oldv (some ptr) ∧
      w.keyOf ptr ≠ some call.key
  | .setSeq call oldv tmp => Begun w call ∧ Absent hashfunc w call oldv ∧ Own w call tmp fun _ => True
  | .setNull call oldv tmp => Begun w call ∧ Absent hashfunc w call oldv ∧ Own w call tmp fun _ => True
  | .setHash call oldv tmp => Begun w call ∧ Absent hashfunc w call oldv ∧ Own w call tmp fun _ => True
  | .rereadHead call oldv tmp => Begun w call ∧ Absent hashfunc w call oldv ∧
      Own w call tmp fun node => node.hash = some (hashfunc call.key)
  | .setNext call oldv tmp second => Begun w call ∧ Absent hashfunc w call oldv ∧
      Reread hashfunc w call oldv second ∧
      Own w call tmp fun node => node.hash = some (hashfunc call.key)
  | .cas call oldv tmp => Begun w call ∧ Absent hashfunc w call oldv ∧
      ∃ second, Reread hashfunc w call oldv second ∧
        Own w call tmp fun node => node.hash = some (hashfunc call.key) ∧ node.next = second

def Pc.owner : Pc Key → Option NodeId
  | .idle => none
  | .readHead call => call.tmp
  | .testHash call _ _ => call.tmp
  | .testKey call _ _ => call.tmp
  | .advance call _ _ => call.tmp
  | .setSeq call _ _ => call.tmp
  | .setNull call _ _ => call.tmp
  | .setHash call _ _ => call.tmp
  | .rereadHead call _ _ => call.tmp
  | .setNext call _ _ _ => call.tmp
  | .cas call _ _ => call.tmp

section Monotone

variable {hashfunc} {w w' : World Key} {call : Call Key} {oldv ptr : Option NodeId}

theorem Reached.mono (reached : Reached hashfunc w call oldv ptr) (grows : Grows w w') :
    Reached hashfunc w' call oldv ptr := by
  obtain ⟨passed, rest, seen, links, without, earlier⟩ := reached
  obtain ⟨seen', same⟩ := seen.mono grows
  refine ⟨passed, rest, seen', links.congr fun id mem => nextOf_congr (same id ?_),
    fun id mem => ?_, earlier⟩
  · exact List.mem_append_right _ mem
  · rw [keyOf_congr (same id (List.mem_append_left _ mem))]
    exact without id mem

theorem Absent.mono (absent : Absent hashfunc w call oldv) (grows : Grows w w') :
    Absent hashfunc w' call oldv := by
  obtain ⟨older, seen, without⟩ := absent
  obtain ⟨seen', same⟩ := seen.mono grows
  refine ⟨older, seen', fun id mem => ?_⟩
  rw [keyOf_congr (same id mem)]
  exact without id mem

theorem Reread.mono (reread : Reread hashfunc w call oldv ptr) (grows : Grows w w') :
    Reread hashfunc w' call oldv ptr := by
  obtain ⟨newer, older, seen, links⟩ := reread
  obtain ⟨seen', same⟩ := seen.mono grows
  exact ⟨newer, older, seen', links.congr fun id mem =>
    nextOf_congr (same id (List.mem_append_right _ mem))⟩

theorem Own.congr {tmp : NodeId} {stored : Node Key → Prop} (own : Own w call tmp stored)
    (same : ∀ id, call.tmp = some id → w'.node id = w.node id) : Own w' call tmp stored := by
  obtain ⟨isTmp, node, found, facts⟩ := own
  exact ⟨isTmp, node, (same tmp isTmp).trans found, facts⟩

theorem Begun.mono (begun : Begun w call) (grows : Grows w w')
    (same : ∀ id, call.tmp = some id → w'.node id = w.node id) : Begun w' call :=
  ⟨fun entry mem => grows.inserted entry (begun.1 entry mem),
    fun tmp isTmp => (begun.2 tmp isTmp).congr same⟩

variable {pc : Pc Key} {id : NodeId}

theorem Fact.mono (fact : Fact hashfunc w pc) (grows : Grows w w')
    (same : ∀ id, pc.owner = some id → w'.node id = w.node id) : Fact hashfunc w' pc := by
  cases pc with
  | idle => trivial
  | readHead call => exact Begun.mono fact grows same
  | testHash call oldv ptr | testKey call oldv ptr =>
    exact ⟨fact.1.mono grows same, fact.2.mono grows⟩
  | advance call oldv ptr =>
    obtain ⟨begun, reached, other⟩ := fact
    refine ⟨begun.mono grows same, reached.mono grows, ?_⟩
    obtain ⟨passed, rest, seen, links, -⟩ := reached
    obtain ⟨-, kept⟩ := seen.mono grows
    have inside : ptr ∈ passed ++ rest := by
      refine List.mem_append_right _ (List.mem_of_mem_head? ?_)
      exact links.head_eq.symm
    rw [keyOf_congr (kept ptr inside)]
    exact other
  | setSeq call oldv tmp | setNull call oldv tmp | setHash call oldv tmp
  | rereadHead call oldv tmp =>
    exact ⟨fact.1.mono grows same, fact.2.1.mono grows, fact.2.2.congr same⟩
  | setNext call oldv tmp second =>
    exact ⟨fact.1.mono grows same, fact.2.1.mono grows, fact.2.2.1.mono grows,
      fact.2.2.2.congr same⟩
  | cas call oldv tmp =>
    obtain ⟨begun, absent, second, reread, own⟩ := fact
    exact ⟨begun.mono grows same, absent.mono grows, second, reread.mono grows, own.congr same⟩

theorem Begun.owned (begun : Begun w call) (owns : call.tmp = some id) : w.node id ≠ none := by
  obtain ⟨-, node, found, -⟩ := begun.2 id owns
  rw [found]
  nofun

theorem Fact.owned (fact : Fact hashfunc w pc) (owns : pc.owner = some id) : w.node id ≠ none := by
  cases pc with
  | idle => cases owns
  | readHead call => exact Begun.owned fact owns
  | _ => exact fact.1.owned owns

end Monotone

def Placed (w : World Key) (slot : Nat) (id : NodeId) : Prop :=
  ∃ node, w.node id = some node ∧ node.hash = some (hashfunc node.key) ∧
    HashTable.slot (hashfunc node.key) = slot

structure Inv (w : World Key) : Prop where
  chains : ∀ slot, ∃ nodes, w.Chain slot nodes ∧ ∀ id ∈ nodes, Placed hashfunc w slot id
  distinct : ∀ slot nodes, w.Chain slot nodes → (nodes.map w.keyOf).Nodup
  hidden : ∀ t id, (w.pc t).owner = some id → Private w id
  apart : ∀ t t' id, (w.pc t).owner = some id → (w.pc t').owner = some id → t = t'
  allocated : ∀ id, w.node id ≠ none → id < w.allocated
  fact : ∀ t, Fact hashfunc w (w.pc t)
  linked : ∀ id ∈ w.linked, ∃ slot nodes, w.Chain slot nodes ∧ id ∈ nodes
  inserted : ∀ entry ∈ w.inserted, ∃ nodes,
    w.Chain (HashTable.slot (hashfunc entry.1)) nodes ∧ entry.2 ∈ nodes ∧
      w.keyOf entry.2 = some entry.1
  finds : ∀ found ∈ w.found, ∀ earlier ∈ found.earlier, earlier.1 = found.key →
    found.result = some earlier.2

variable {hashfunc} {w : World Key}

theorem Inv.initial : Inv hashfunc ({} : World Key) where
  chains _ := ⟨[], .nil, nofun⟩
  distinct slot nodes chain := by
    rw [show nodes = [] from chain.eq_nil]
    exact .nil
  hidden := nofun
  apart := nofun
  allocated _ some_ := absurd rfl some_
  fact _ := trivial
  linked := nofun
  inserted := nofun
  finds := nofun

variable {nodes : List NodeId} {t : ThreadId} {call : Call Key} {oldv : Option NodeId}

variable {id tmp : NodeId} {w' : World Key}

section

variable (inv : Inv hashfunc w)

include inv

theorem Inv.unique {slot : Nat} (chain : w.Chain slot nodes) {other : NodeId} (first : id ∈ nodes)
    (second : other ∈ nodes) (same : w.keyOf id = w.keyOf other) :
    id = other :=
  List.inj_on_of_nodup_map (inv.distinct slot nodes chain) first second same

theorem Inv.correct : Correct hashfunc w where
  unique slot := by
    obtain ⟨nodes, chain, -⟩ := inv.chains slot
    exact ⟨nodes, chain, inv.distinct slot nodes chain⟩
  reachable id isLinked := by
    obtain ⟨slot, nodes, chain, mem⟩ := inv.linked id isLinked
    obtain ⟨others, again, placed⟩ := inv.chains slot
    obtain rfl := chain.unique again
    obtain ⟨node, found, -, rfl⟩ := placed id mem
    exact ⟨node.key, nodes, by rw [World.keyOf, found]; rfl, chain, mem⟩
  sameNode first isFirst second isSecond sameKey := by
    obtain ⟨nodes, chain, mem, key⟩ := inv.inserted first isFirst
    obtain ⟨others, again, member', key'⟩ := inv.inserted second isSecond
    rw [← sameKey] at again key'
    obtain rfl := chain.unique again
    exact inv.unique chain mem member' (key.trans key'.symm)
  finds := inv.finds

theorem Inv.move (t : ThreadId) (pc : Pc Key) (fact : Fact hashfunc w pc)
    (owner : ∀ id, pc.owner = some id → (w.pc t).owner = some id) :
    Inv hashfunc (w.setPc t pc) := by
  have owners : ∀ other id, ((w.setPc t pc).pc other).owner = some id →
      (w.pc other).owner = some id := by
    intro other id owns
    by_cases same : other = t
    · subst same
      rw [setPc_same] at owns
      exact owner id owns
    · rwa [setPc_other w pc same] at owns
  exact
    { chains := inv.chains
      distinct := inv.distinct
      hidden := fun other id owns => inv.hidden other id (owners other id owns)
      apart := fun first second id isFirst isSecond =>
        inv.apart first second id (owners first id isFirst) (owners second id isSecond)
      allocated := inv.allocated
      fact := by
        intro other
        have grows : Grows w (w.setPc t pc) := .same rfl rfl fun _ mem => mem
        by_cases same : other = t
        · subst same
          rw [setPc_same]
          exact fact.mono grows fun _ _ => rfl
        · rw [setPc_other w pc same]
          exact (inv.fact other).mono grows fun _ _ => rfl
      linked := inv.linked
      inserted := inv.inserted
      finds := inv.finds }

theorem Inv.go {before : Pc Key} (isPc : w.pc t = before) (pc : Pc Key) (fact : Fact hashfunc w pc)
    (owner : pc.owner = before.owner) :
    Inv hashfunc (w.setPc t pc) :=
  inv.move t pc fact fun _ owns => by rw [isPc, ← owner, owns]

theorem Inv.recordInserted (entry : Key × NodeId)
    (right : ∃ nodes, w.Chain (HashTable.slot (hashfunc entry.1)) nodes ∧ entry.2 ∈ nodes ∧
      w.keyOf entry.2 = some entry.1) :
    Inv hashfunc { w with inserted := w.inserted ++ [entry] } :=
  { inv with
    fact := fun t => (inv.fact t).mono
      (.same rfl rfl fun _ mem => List.mem_append_left _ mem) fun _ _ => rfl
    inserted := by
      intro other mem
      rcases List.mem_append.mp mem with earlier | last
      · exact inv.inserted other earlier
      · rw [List.mem_singleton.mp last]
        exact right }

theorem Inv.recordFound (found : Found Key)
    (right : ∀ earlier ∈ found.earlier, earlier.1 = found.key → found.result = some earlier.2) :
    Inv hashfunc { w with found := w.found ++ [found] } :=
  { inv with
    fact := fun t => (inv.fact t).mono (.same rfl rfl fun _ mem => mem) fun _ _ => rfl
    finds := by
      intro other mem
      rcases List.mem_append.mp mem with earlier | last
      · exact inv.finds other earlier
      · rw [List.mem_singleton.mp last]
        exact right }

theorem Inv.answer {ptr : NodeId} (chain : w.Chain (HashTable.slot (hashfunc call.key)) nodes)
    (mem : ptr ∈ nodes) (key : w.keyOf ptr = some call.key)
    (earlier : ∀ entry ∈ call.earlier, entry ∈ w.inserted) :
    Inv hashfunc (w.answer t call ptr) := by
  rw [World.answer]
  cases call.tmp with
  | some tmp =>
    have recorded := inv.recordInserted (call.key, ptr) ⟨nodes, chain, mem, key⟩
    exact recorded.move t .idle trivial nofun
  | none =>
    have recorded := inv.recordFound ⟨call.key, call.earlier, some ptr⟩ (by
      intro entry isEarlier sameKey
      obtain ⟨others, again, inside, entryKey⟩ := inv.inserted entry (earlier entry isEarlier)
      simp only at sameKey
      rw [sameKey] at again entryKey
      obtain rfl := chain.unique again
      rw [inv.unique chain mem inside (key.trans entryKey.symm)])
    exact recorded.move t .idle trivial nofun

end

theorem setPc_answer (w : World Key) (t : ThreadId) (call : Call Key) (ptr : NodeId) :
    (w.setPc t .idle).answer t call ptr = w.answer t call ptr := by
  cases isTmp : call.tmp <;> simp [World.answer, isTmp, World.setPc]

theorem Inv.arrive (inv : Inv hashfunc w) {ptr : Option NodeId} (begun : Begun w call)
    (reached : Reached hashfunc w call oldv ptr)
    (owner : ∀ id, call.tmp = some id → (w.pc t).owner = some id) :
    Inv hashfunc (w.arrive t call oldv ptr) := by
  cases ptr with
  | some ptr => exact inv.move t (.testHash call oldv ptr) ⟨begun, reached⟩ owner
  | none =>
    obtain ⟨passed, rest, seen, links, without, earlier⟩ := reached
    obtain rfl := links.eq_nil
    rw [List.append_nil] at seen earlier
    cases isTmp : call.tmp with
    | some tmp =>
      simp only [World.arrive, isTmp]
      exact inv.move t (.setSeq call oldv tmp)
        ⟨begun, ⟨passed, seen, without⟩, begun.2 tmp isTmp⟩ owner
    | none =>
      simp only [World.arrive, isTmp]
      have recorded := inv.recordFound ⟨call.key, call.earlier, none⟩ (by
        intro entry isEarlier sameKey
        obtain ⟨-, -, -, key⟩ := inv.inserted entry (begun.1 entry isEarlier)
        exact absurd (key.trans (congrArg some sameKey))
          (without entry.2 (earlier entry isEarlier sameKey)))
      exact recorded.move t .idle trivial nofun

theorem Inv.change (inv : Inv hashfunc w) (t : ThreadId) (grows : Grows w w')
    (chains : ∀ slot, ∃ nodes, w'.Chain slot nodes ∧ (∀ id ∈ nodes, Placed hashfunc w' slot id) ∧
      (nodes.map w'.keyOf).Nodup) (others : ∀ other, other ≠ t → w'.pc other = w.pc other)
    (foreign : ∀ other, other ≠ t → ∀ id, (w.pc other).owner = some id →
      w'.node id = w.node id ∧ Private w' id) (own : ∀ id, (w'.pc t).owner = some id →
      Private w' id ∧ ∀ other, other ≠ t → (w.pc other).owner ≠ some id)
    (fact : Fact hashfunc w' (w'.pc t)) (allocated : ∀ id, w'.node id ≠ none → id < w'.allocated)
    (linked : ∀ id ∈ w'.linked, id ∈ w.linked ∨ ∃ slot nodes, w'.Chain slot nodes ∧ id ∈ nodes)
    (inserted : w'.inserted = w.inserted) (found : w'.found = w.found) : Inv hashfunc w' where
  chains slot := by
    obtain ⟨nodes, chain, placed, -⟩ := chains slot
    exact ⟨nodes, chain, placed⟩
  distinct slot nodes chain := by
    obtain ⟨others, again, -, distinct⟩ := chains slot
    rwa [chain.unique again]
  hidden other id owns := by
    by_cases same : other = t
    · exact (own id (same ▸ owns)).1
    · rw [others other same] at owns
      exact (foreign other same id owns).2
  apart first second id isFirst isSecond := by
    by_cases one : first = t
    · by_cases two : second = t
      · exact one.trans two.symm
      · rw [others second two] at isSecond
        exact absurd isSecond ((own id (one ▸ isFirst)).2 second two)
    · rw [others first one] at isFirst
      by_cases two : second = t
      · exact absurd isFirst ((own id (two ▸ isSecond)).2 first one)
      · rw [others second two] at isSecond
        exact inv.apart first second id isFirst isSecond
  allocated := allocated
  fact other := by
    by_cases same : other = t
    · exact same ▸ fact
    · rw [others other same]
      exact (inv.fact other).mono grows fun id owns => (foreign other same id owns).1
  linked id isLinked := by
    rcases linked id isLinked with earlier | now
    · obtain ⟨slot, nodes, chain, mem⟩ := inv.linked id earlier
      obtain ⟨front, chain'⟩ := grows.chain slot nodes chain
      exact ⟨slot, _, chain', List.mem_append_right _ mem⟩
    · exact now
  inserted entry mem := by
    rw [inserted] at mem
    obtain ⟨nodes, chain, inside, key⟩ := inv.inserted entry mem
    obtain ⟨front, chain'⟩ := grows.chain _ nodes chain
    refine ⟨_, chain', List.mem_append_right _ inside, ?_⟩
    rw [keyOf_congr (grows.node _ nodes chain entry.2 inside), key]
  finds := found ▸ inv.finds

theorem Inv.store (inv : Inv hashfunc w) (t : ThreadId) {node : Node Key} (hidden : Private w id)
    (notOthers : ∀ other, other ≠ t → (w.pc other).owner ≠ some id) (head : w'.head = w.head)
    (stored : w'.node = update w.node id (some node))
    (others : ∀ other, other ≠ t → w'.pc other = w.pc other)
    (owner : ∀ mine, (w'.pc t).owner = some mine → mine = id)
    (fact : Grows w w' → Fact hashfunc w' (w'.pc t)) (bound : id < w'.allocated)
    (allocated : w.allocated ≤ w'.allocated) (linked : w'.linked = w.linked)
    (inserted : w'.inserted = w.inserted) (found : w'.found = w.found) : Inv hashfunc w' := by
  have grows : Grows w w' := .store hidden head stored inserted
  have someChain : ∀ slot, ∃ nodes, w.Chain slot nodes := by
    intro slot
    obtain ⟨nodes, chain, -⟩ := inv.chains slot
    exact ⟨nodes, chain⟩
  have back : ∀ {other}, Private w other → Private w' other := fun isHidden slot nodes chain =>
    isHidden slot nodes (chain_of_store hidden someChain head stored chain)
  refine inv.change t grows ?_ others ?_ ?_ (fact grows) ?_ (fun _ => linked ▸ .inl) inserted found
  · intro slot
    obtain ⟨nodes, chain, placed⟩ := inv.chains slot
    have same := grows.node slot nodes chain
    have chain' : w'.Chain slot nodes := by
      rw [World.Chain, head]
      exact chain.congr fun other mem => nextOf_congr (same other mem)
    refine ⟨nodes, chain', fun other mem => ?_, ?_⟩
    · rw [Placed, same other mem]
      exact placed other mem
    · rw [List.map_congr_left fun other mem => keyOf_congr (same other mem)]
      exact inv.distinct slot nodes chain
  · intro other different mine owns
    have notId : mine ≠ id := fun same => notOthers other different (same ▸ owns)
    exact ⟨by rw [stored, update_of_ne notId], back (inv.hidden other mine owns)⟩
  · intro mine owns
    rw [owner mine owns]
    exact ⟨back hidden, notOthers⟩
  · intro other exists_
    by_cases same : other = id
    · exact same ▸ bound
    · rw [stored, update_of_ne same] at exists_
      exact Nat.lt_of_lt_of_le (inv.allocated other exists_) allocated

theorem head_unchanged {second : Option NodeId}
    (chain : w.Chain (HashTable.slot (hashfunc call.key)) nodes)
    (isHead : w.head (HashTable.slot (hashfunc call.key)) = oldv)
    (reread : Reread hashfunc w call oldv second) : second = oldv := by
  obtain ⟨newer, older, ⟨newest, again, links⟩, below⟩ := reread
  have shape : nodes = newest ++ (newer ++ older) := chain.unique again
  rw [← isHead] at below
  have isOlder : nodes = older := Linked.unique chain below
  obtain ⟨rfl, rfl⟩ : newest = [] ∧ newer = [] := by
    have lengths := congrArg List.length (isOlder.symm.trans shape)
    simp only [List.length_append] at lengths
    exact ⟨List.eq_nil_of_length_eq_zero (by omega), List.eq_nil_of_length_eq_zero (by omega)⟩
  rw [links.head_eq, ← isHead, below.head_eq]
  rfl

theorem Inv.link (inv : Inv hashfunc w) (isPc : w.pc t = .cas call oldv tmp)
    (isHead : w.head (HashTable.slot (hashfunc call.key)) = oldv) :
    Inv hashfunc (World.answer { w with
      head := update w.head (HashTable.slot (hashfunc call.key)) (some tmp)
      linked := w.linked ++ [tmp] } t call tmp) := by
  have fact := inv.fact t
  rw [isPc] at fact
  obtain ⟨begun, ⟨absentNodes, ⟨-, -, absentLinks⟩, without⟩, second, reread, isTmp, node, found, key,
    hash, next⟩ := fact
  obtain ⟨nodes, chain, placed⟩ := inv.chains (HashTable.slot (hashfunc call.key))
  obtain rfl := head_unchanged chain isHead reread
  have owns : (w.pc t).owner = some tmp := by
    rw [isPc]
    exact isTmp
  have hidden := inv.hidden t tmp owns
  have isAbsent : nodes = absentNodes := by
    refine Linked.unique chain ?_
    rw [isHead]
    exact absentLinks
  subst isAbsent
  -- the slot with the new node, and the thread out of the call
  generalize isSlot : HashTable.slot (hashfunc call.key) = slot at chain placed isHead without
  let after : World Key := World.setPc { w with
    head := update w.head slot (some tmp), linked := w.linked ++ [tmp] } t .idle
  have pushed : after.Chain slot (tmp :: nodes) := by
    have atSlot : after.head slot = some tmp := update_self ..
    rw [World.Chain, atSlot]
    refine .cons ?_
    have nextTmp : after.nextOf tmp = w.head slot := by
      rw [isHead, ← next]
      exact congrArg (fun node => Option.bind node Node.next) found
    rw [nextTmp]
    exact chain
  have kept : ∀ other, other ≠ slot → ∀ list, after.Chain other list ↔ w.Chain other list := by
    intro other different list
    have sameHead : after.head other = w.head other := update_of_ne different ..
    rw [World.Chain, sameHead]
    rfl
  have grows : Grows w after := by
    refine ⟨fun other list isChain => ?_, fun _ _ _ _ _ => rfl, fun _ mem => mem⟩
    by_cases same : other = slot
    · subst same
      exact ⟨[tmp], by rw [isChain.unique chain]; exact pushed⟩
    · exact ⟨[], (kept other same list).mpr isChain⟩
  have moved : Inv hashfunc after := by
    refine inv.change t grows ?_ ?_ ?_ ?_ ?_ inv.allocated ?_ rfl rfl
    · intro other
      by_cases same : other = slot
      · subst same
        refine ⟨_, pushed, fun id mem => ?_, ?_⟩
        · rcases List.mem_cons.mp mem with rfl | older
          · exact ⟨node, found, by rw [hash, key], by rw [key, isSlot]⟩
          · exact placed id older
        rw [List.map_cons, List.nodup_cons]
        refine ⟨fun mem => ?_, inv.distinct _ nodes chain⟩
        obtain ⟨id, older, same⟩ := List.mem_map.mp mem
        have isKey : w.keyOf tmp = some call.key := by rw [World.keyOf, found, ← key]; rfl
        exact without id older (Eq.trans same isKey)
      · obtain ⟨list, isChain, all⟩ := inv.chains other
        exact ⟨list, (kept other same list).mpr isChain, all, inv.distinct other list isChain⟩
    · exact fun other different => setPc_other _ _ different
    · intro other different id isOwner
      refine ⟨rfl, fun place list isChain mem => ?_⟩
      by_cases same : place = slot
      · subst same
        rw [isChain.unique pushed] at mem
        rcases List.mem_cons.mp mem with rfl | older
        · exact different (inv.apart other t id isOwner owns)
        · exact inv.hidden other id isOwner _ nodes chain older
      · exact inv.hidden other id isOwner place list ((kept place same list).mp isChain) mem
    · intro id isOwner
      simp [after, Pc.owner] at isOwner
    · simp [after, Fact]
    · intro id mem
      rcases List.mem_append.mp mem with earlier | last
      · exact .inl earlier
      · rw [List.mem_singleton.mp last]
        exact .inr ⟨slot, _, pushed, List.mem_cons_self⟩
  have answered : Inv hashfunc (after.answer t call tmp) := by
    refine moved.answer (by rw [isSlot]; exact pushed) List.mem_cons_self ?_ begun.1
    show w.keyOf tmp = some call.key
    rw [World.keyOf, found, ← key]
    rfl
  rwa [show after.answer t call tmp = _ from setPc_answer _ t call tmp] at answered

theorem Inv.storeOwn (inv : Inv hashfunc w) {stored : Node Key → Prop} {node : Node Key}
    {pc : Pc Key} (isOwner : (w.pc t).owner = call.tmp) (own : Own w call tmp stored)
    (owner : pc.owner = call.tmp) (fact : Grows w ((w.setNode tmp node).setPc t pc) →
      Fact hashfunc ((w.setNode tmp node).setPc t pc) pc) :
    Inv hashfunc ((w.setNode tmp node).setPc t pc) := by
  have owns : (w.pc t).owner = some tmp := isOwner.trans own.1
  obtain ⟨isTmp, before, found, -⟩ := own
  refine inv.store t (inv.hidden t tmp owns) ?_ rfl rfl (fun _ => setPc_other _ _) ?_ ?_ ?_
    (Nat.le_refl _) rfl rfl rfl
  · exact fun other different isOther => different (inv.apart other t tmp isOther owns)
  · intro mine isMine
    rw [setPc_same, owner, isTmp] at isMine
    exact (Option.some.inj isMine).symm
  · rwa [setPc_same]
  · exact inv.allocated tmp (by rw [found]; nofun)

section Stores

variable {t : ThreadId} {call : Call Key} {oldv : Option NodeId} {tmp : NodeId} {node : Node Key}
  {pc : Pc Key}

theorem Begun.stored (begun : Begun w call) (isTmp : call.tmp = some tmp)
    (grows : Grows w ((w.setNode tmp node).setPc t pc)) (key : node.key = call.key) :
    Begun ((w.setNode tmp node).setPc t pc) call := by
  refine ⟨fun entry mem => grows.inserted entry (begun.1 entry mem), fun other isOther => ?_⟩
  cases isTmp.symm.trans isOther
  exact ⟨isTmp, node, update_self .., key, trivial⟩

theorem own_stored (isTmp : call.tmp = some tmp) (key : node.key = call.key)
    {stored : Node Key → Prop} (holds : stored node) :
    Own ((w.setNode tmp node).setPc t pc) call tmp stored :=
  ⟨isTmp, node, update_self .., key, holds⟩

end Stores

section Accesses

variable {t : ThreadId} {call : Call Key} {oldv : Option NodeId} {next : World Key}

variable {pc : Pc Key}

theorem Inv.fact_at (inv : Inv hashfunc w) (isPc : w.pc t = pc) :
    Fact hashfunc w pc :=
  isPc ▸ inv.fact t

variable {ptr tmp : NodeId}

theorem Reached.node (reached : Reached hashfunc w call oldv (some ptr)) :
    ∃ nodes, w.Chain (HashTable.slot (hashfunc call.key)) nodes ∧ ptr ∈ nodes := by
  obtain ⟨passed, rest, ⟨newer, chain, -⟩, links, -⟩ := reached
  refine ⟨_, chain, List.mem_append_right _ (List.mem_append_right _ (List.mem_of_mem_head? ?_))⟩
  exact links.head_eq.symm

theorem Inv.prepare (inv : Inv hashfunc w) {before : Pc Key} {node : Node Key}
    {stored : Node Key → Prop} (after : Node Key → Prop) (isPc : w.pc t = before)
    (isOwner : before.owner = call.tmp) (begun : Begun w call)
    (absent : Absent hashfunc w call oldv) (own : Own w call tmp stored) (key : node.key = call.key)
    (holds : after node) (owner : pc.owner = call.tmp)
    (fact : ∀ w', Begun w' call → Absent hashfunc w' call oldv → Own w' call tmp after →
      Fact hashfunc w' pc) : Inv hashfunc ((w.setNode tmp node).setPc t pc) := by
  refine inv.storeOwn (by rw [isPc, isOwner]) own owner fun grows => ?_
  exact fact _ (begun.stored own.1 grows key) (absent.mono grows) (own_stored own.1 key holds)

variable [DecidableEq Key]

section

variable (inv : Inv hashfunc w) (taken : access hashfunc w t = some next)

include inv taken

theorem Inv.readHead (isPc : w.pc t = .readHead call) : Inv hashfunc next := by
  have begun : Begun w call := inv.fact_at isPc
  simp only [access, isPc] at taken
  cases taken
  obtain ⟨nodes, chain, -⟩ := inv.chains (HashTable.slot (hashfunc call.key))
  refine inv.arrive begun ⟨[], nodes, ⟨[], chain, chain⟩, chain, nofun, ?_⟩
    fun id isTmp => by rw [isPc]; exact isTmp
  -- what was inserted before the call began is in the chain
  intro entry isEarlier sameKey
  obtain ⟨others, again, mem, -⟩ := inv.inserted entry (begun.1 entry isEarlier)
  rw [sameKey] at again
  rw [List.nil_append, chain.unique again]
  exact mem

theorem Inv.testHash (isPc : w.pc t = .testHash call oldv ptr) : Inv hashfunc next := by
  obtain ⟨begun, reached⟩ := inv.fact_at isPc
  simp only [access, isPc, Option.bind_eq_bind, Option.bind_eq_some_iff] at taken
  obtain ⟨node, found, hash, isHash, taken⟩ := taken
  split at taken
  · rename_i differs
    cases taken
    refine inv.go isPc (.advance call oldv ptr) ⟨begun, reached, ?_⟩ rfl
    -- a node of the chain has the hash of its key
    obtain ⟨nodes, chain, mem⟩ := reached.node
    obtain ⟨others, again, placed⟩ := inv.chains (HashTable.slot (hashfunc call.key))
    rw [chain.unique again] at mem
    obtain ⟨same, isNode, hashed, -⟩ := placed ptr mem
    cases found.symm.trans isNode
    rw [World.keyOf, found]
    rintro isKey
    rw [hashed, Option.some.injEq] at isHash
    exact differs (by rw [← isHash, Option.some.inj isKey])
  · cases taken
    exact inv.go isPc (.testKey call oldv ptr) ⟨begun, reached⟩ rfl

theorem Inv.testKey (isPc : w.pc t = .testKey call oldv ptr) : Inv hashfunc next := by
  obtain ⟨begun, reached⟩ := inv.fact_at isPc
  simp only [access, isPc, Option.bind_eq_bind, Option.bind_eq_some_iff] at taken
  obtain ⟨node, found, taken⟩ := taken
  have isKey : w.keyOf ptr = some node.key := by rw [World.keyOf, found]; rfl
  split at taken
  · rename_i differs
    cases taken
    refine inv.go isPc (.advance call oldv ptr) ⟨begun, reached, ?_⟩ rfl
    rw [isKey]
    exact fun same => differs (Option.some.inj same)
  · rename_i same
    cases taken
    rw [not_not] at same
    obtain ⟨nodes, chain, mem⟩ := reached.node
    exact inv.answer chain mem (by rw [isKey, same]) begun.1

theorem Inv.advance (isPc : w.pc t = .advance call oldv ptr) : Inv hashfunc next := by
  obtain ⟨begun, ⟨passed, rest, seen, links, without, earlier⟩, other⟩ := inv.fact_at isPc
  simp only [access, isPc, Option.bind_eq_bind, Option.bind_eq_some_iff] at taken
  obtain ⟨node, found, taken⟩ := taken
  cases taken
  cases links with
  | @cons _ rest tail =>
    have shape : passed ++ ptr :: rest = (passed ++ [ptr]) ++ rest := by simp
    rw [shape] at seen earlier
    refine inv.arrive begun ⟨passed ++ [ptr], rest, seen, ?_, ?_, earlier⟩
      fun id isTmp => by rw [isPc]; exact isTmp
    · rwa [World.nextOf, found] at tail
    intro id mem
    rcases List.mem_append.mp mem with before | last
    · exact without id before
    · rw [List.mem_singleton.mp last]
      exact other

theorem Inv.rereadHead (isPc : w.pc t = .rereadHead call oldv tmp) : Inv hashfunc next := by
  obtain ⟨begun, absent, own⟩ := inv.fact_at isPc
  simp only [access, isPc] at taken
  cases taken
  obtain ⟨older, ⟨newer, chain, below⟩, -⟩ := id absent
  exact inv.go isPc (.setNext call oldv tmp _)
    ⟨begun, absent, ⟨newer, older, ⟨[], chain, chain⟩, below⟩, own⟩ rfl

theorem Inv.setNext {second : Option NodeId} (isPc : w.pc t = .setNext call oldv tmp second) : Inv hashfunc next := by
  obtain ⟨begun, absent, reread, own⟩ := inv.fact_at isPc
  obtain ⟨isTmp, node, found, key, hash⟩ := id own
  simp only [access, isPc, found, Option.bind_eq_bind, Option.bind_some] at taken
  cases taken
  refine inv.storeOwn (by rw [isPc]; rfl) own rfl fun grows => ?_
  have mine : Own ((w.setNode tmp { node with next := second }).setPc t (.cas call oldv tmp)) call tmp
      fun node => node.hash = some (hashfunc call.key) ∧ node.next = second :=
    ⟨isTmp, _, update_self .., key, hash, rfl⟩
  exact ⟨begun.stored isTmp grows key, absent.mono grows, second, reread.mono grows, mine⟩

theorem Inv.cas (isPc : w.pc t = .cas call oldv tmp) : Inv hashfunc next := by
  simp only [access, isPc] at taken
  split at taken
  · rename_i isHead
    cases taken
    exact inv.link isPc isHead
  · cases taken
    exact inv.go isPc (.readHead call) (inv.fact_at isPc).1 rfl

end

end Accesses

theorem Inv.begin (inv : Inv hashfunc w) (t : ThreadId) (key : Key) :
    Inv hashfunc ({ w.setNode w.allocated { key := key } with
      allocated := w.allocated + 1 }.setPc t (.readHead ⟨key, some w.allocated, w.inserted⟩)) := by
  have unused : w.node w.allocated = none := by
    by_contra used
    exact Nat.lt_irrefl _ (inv.allocated _ used)
  have hidden : Private w w.allocated := by
    intro slot nodes chain mem
    obtain ⟨others, again, placed⟩ := inv.chains slot
    rw [chain.unique again] at mem
    obtain ⟨node, found, -⟩ := placed _ mem
    cases unused.symm.trans found
  refine inv.store t hidden ?_ rfl rfl (fun _ => setPc_other _ _) ?_ ?_ (Nat.lt_succ_self _)
    (Nat.le_succ _) rfl rfl rfl
  · intro other different owns
    exact (inv.fact other).owned owns unused
  · intro mine owns
    rw [setPc_same] at owns
    exact (Option.some.inj owns).symm
  intro grows
  rw [setPc_same]
  refine ⟨fun entry mem => mem, fun tmp isTmp => ?_⟩
  cases isTmp
  exact ⟨rfl, _, update_self .., rfl, trivial⟩

variable [DecidableEq Key]

variable {next : World Key}

theorem Inv.access (inv : Inv hashfunc w) {t : ThreadId} (taken : access hashfunc w t = some next) :
    Inv hashfunc next := by
  cases isPc : w.pc t with
  | idle => simp [HashChain.access, isPc] at taken
  | readHead call => exact inv.readHead taken isPc
  | testHash call oldv ptr => exact inv.testHash taken isPc
  | testKey call oldv ptr => exact inv.testKey taken isPc
  | advance call oldv ptr => exact inv.advance taken isPc
  | setSeq call oldv tmp | setNull call oldv tmp =>
    obtain ⟨begun, absent, own⟩ := inv.fact_at isPc
    obtain ⟨-, node, found, key, -⟩ := id own
    simp only [HashChain.access, isPc, found, Option.bind_eq_bind, Option.bind_some] at taken
    cases taken
    exact inv.prepare (fun _ => True) isPc rfl begun absent own key trivial rfl
      fun _ begun absent own => ⟨begun, absent, own⟩
  | setHash call oldv tmp =>
    obtain ⟨begun, absent, own⟩ := inv.fact_at isPc
    obtain ⟨-, node, found, key, -⟩ := id own
    simp only [HashChain.access, isPc, found, Option.bind_eq_bind, Option.bind_some] at taken
    cases taken
    exact inv.prepare (fun node => node.hash = some (hashfunc call.key)) isPc rfl begun absent own
      key rfl rfl fun _ begun absent own => ⟨begun, absent, own⟩
  | rereadHead call oldv tmp => exact inv.rereadHead taken isPc
  | setNext call oldv tmp second => exact inv.setNext taken isPc
  | cas call oldv tmp => exact inv.cas taken isPc

theorem Inv.step (inv : Inv hashfunc w) {act : Act Key} (taken : step hashfunc w act = some next) :
    Inv hashfunc next := by
  cases act with
  | getNode t key =>
    rw [HashChain.step] at taken
    split at taken
    · rename_i isPc
      cases taken
      exact inv.go isPc (.readHead ⟨key, none, w.inserted⟩) ⟨fun _ mem => mem, nofun⟩ rfl
    · cases taken
  | getNodeWithInsert t key =>
    rw [HashChain.step] at taken
    split at taken
    · cases taken
      exact inv.begin t key
    · cases taken
  | advance t => exact inv.access taken

/-- In every state that any interleaving of calls reaches, the chains have no key twice
and no linked node is lost, and the calls have returned the right nodes. -/
theorem chains_correct {acts : List (Act Key)} {w : World Key}
    (reached : run (step hashfunc) {} acts = some w) : Correct hashfunc w := by
  have kept : ∀ (w : World Key) (act : Act Key) (next : World Key), Inv hashfunc w → True →
      step hashfunc w act = some next → Inv hashfunc next :=
    fun _ _ _ inv _ taken => inv.step taken
  exact (run_preserves kept Inv.initial (each_of_forall fun _ _ => trivial) reached).correct

def race : List (Act Nat) :=
  [.getNodeWithInsert 1 7, .getNodeWithInsert 2 7] ++ List.replicate 6 (.advance 1) ++
    List.replicate 6 (.advance 2) ++ [.advance 1] ++ List.replicate 4 (.advance 2) ++
    [.getNode 3 7] ++ List.replicate 3 (.advance 3)

theorem chains_correct_race : ∃ w : World Nat,
    run (step fun key => UInt64.ofNat key) {} race = some w ∧ w.inserted = [(7, 0), (7, 0)] ∧
      Correct (fun key => UInt64.ofNat key) w := by
  obtain ⟨w, ran, log⟩ : ∃ w : World Nat, run (step fun key => UInt64.ofNat key) {} race = some w ∧
      w.inserted = [(7, 0), (7, 0)] := ⟨_, rfl, rfl⟩
  exact ⟨w, ran, log, chains_correct ran⟩

end EunoDb.HashChain
