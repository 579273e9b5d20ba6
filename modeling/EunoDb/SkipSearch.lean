import EunoDb.SkipLevels

/-! Searching and extending a skip list by one thread. -/

namespace EunoDb.SkipSearch

open LinkedList SkipLevels

variable {N K : Type} [LinearOrder K]

structure Trace (N : Type) where
  preds : Nat → Option N := fun _ => none
  succs : Nat → Option N := fun _ => none

def Trace.set (trace : Trace N) (level : Nat) (pred : N) (succ : Option N) : Trace N :=
  ⟨Function.update trace.preds level (some pred), Function.update trace.succs level succ⟩

structure Found (N : Type) where
  trace : Trace N
  last : N
  next : Option N

def search (memory : Memory N K) (key : K) : Nat → Nat → N → Trace N → Option (Found N)
  | 0, _, _, _ => none
  | fuel + 1, level, x, trace =>
    match (memory.next x level).filter fun node => memory.key node < key, level with
    | some next, level => search memory key fuel level next trace
    | none, 0 =>
      let next := memory.next x 0
      some ⟨trace.set 0 x next, x, next⟩
    | none, level + 1 =>
      search memory key fuel level x (trace.set (level + 1) x (memory.next x (level + 1)))

def linkLoop [DecidableEq N] (preds : Nat → Option N) (node : N) :
    Nat → Nat → Memory N K → Option (Memory N K)
  | 0, _, memory => some memory
  | count + 1, i, memory => do
      let pred ← preds i
      linkLoop preds node count (i + 1)
        ((memory.setNext node i (memory.next pred i)).setNext pred i (some node))

def hit (memory : Memory N K) (key : K) (next : Option N) : Option N :=
  next.filter fun x => memory.key x = key

def findSucc (memory : Memory N K) (key : K) (level : Nat) : Nat → N → Option (N × Option N)
  | 0, _ => none
  | fuel + 1, pred =>
    match (memory.next pred level).filter fun node => memory.key node < key with
    | some next => findSucc memory key level fuel next
    | none => some (pred, memory.next pred level)

inductive Swapped (N K : Type) where
  | all (memory : Memory N K)
  /-- The key was found where the node should be linked. -/
  | duplicate (memory : Memory N K) (succ : N)

def casLoop [DecidableEq N] (fuel : Nat) (key : K) (preds : Nat → Option N) (node : N) :
    Nat → Nat → Memory N K → Option (Swapped N K)
  | 0, _, memory => some (.all memory)
  | count + 1, i, memory => do
      let pred ← preds i
      let (pred, succ) ← findSucc memory key i fuel pred
      match hit memory key succ with
      | some x => return .duplicate memory x
      | none =>
        let memory := memory.setNext node i (memory.next pred i)
        if memory.next pred i = succ then
          casLoop fuel key preds node count (i + 1) (memory.setNext pred i (some node))
        else none

def fillHead (head : N) (preds : Nat → Option N) (from_ upto : Nat) : Nat → Option N := fun i =>
  if from_ ≤ i ∧ i < upto then some head else preds i

/-! ### Where a search stops -/

structure Stops (memory : Memory N K) (head : N) (lists : Nat → List N) (key : K) (level : Nat)
    (pred : N) : Prop where
  on : On head lists level pred
  before : Before memory head pred key
  last : ∀ node, memory.next pred level = some node → key ≤ memory.key node

section Search

variable {memory : Memory N K} {head : N} {lists : Nat → List N} {key : K}

def Ahead (memory : Memory N K) (head : N) (lists : Nat → List N) (key : K) (x node : N) : Prop :=
  node ∈ lists 0 ∧ Before memory head x (memory.key node) ∧ memory.key node < key

def Within (memory : Memory N K) (head : N) (lists : Nat → List N) (key : K) (x : N) (n : Nat) :
    Prop :=
  ∃ nodes : List N, nodes.length ≤ n ∧ ∀ node, Ahead memory head lists key x node → node ∈ nodes

theorem within_length (x : N) : Within memory head lists key x (lists 0).length :=
  ⟨lists 0, Nat.le_refl _, fun _ ahead => ahead.1⟩

variable {level top : Nat} {x node : N}

variable {n fuel : Nat} {pred : N} {found : Found N}

theorem Within.next [DecidableEq N] (levels : Levels memory head lists) {next : N}
    (within : Within memory head lists key x n) (on : On head lists level x)
    (link : memory.next x level = some next) (less : memory.key next < key) :
    ∃ m, n = m + 1 ∧ Within memory head lists key next m := by
  obtain ⟨nodes, short, all⟩ := within
  obtain ⟨inLevel, before⟩ := levels.next_mem on link
  have mem := all next ⟨levels.bottom inLevel, before, less⟩
  have shorter := List.length_erase_of_mem mem
  have some_ := List.length_pos_of_mem mem
  refine ⟨n - 1, by omega, nodes.erase next, by omega, fun node ahead => ?_⟩
  obtain ⟨inBottom, behind, isLess⟩ := ahead
  -- the node that was passed is not behind itself
  have greater : memory.key next < memory.key node := by
    rcases behind with isHead | greater
    · exact absurd (isHead ▸ inLevel) (levels.head level)
    · exact greater
  have different : node ≠ next := by
    rintro rfl
    exact lt_irrefl _ greater
  refine (List.mem_erase_of_ne different).mpr (all node ⟨inBottom, ?_, isLess⟩)
  exact before.imp_right fun smaller => lt_trans smaller greater

theorem stops_of_filter (on : On head lists level x) (before : Before memory head x key)
    (stopped : (memory.next x level).filter (fun node => decide (memory.key node < key)) = none) :
    Stops memory head lists key level x := by
  refine ⟨on, before, fun node link => ?_⟩
  rw [link] at stopped
  simpa [Option.filter] using stopped

section

variable (levels : Levels memory head lists)

include levels

theorem on_below (on : On head lists (level + 1) x) :
    On head lists level x :=
  on.imp_right (levels.below level x)

theorem search_stops [DecidableEq N] (trace : Trace N) (on : On head lists level x)
    (before : Before memory head x key) (within : Within memory head lists key x n)
    (enough : level + n < fuel) :
    ∃ found, search memory key fuel level x trace = some found ∧
      (∀ l ≤ level, ∃ pred, found.trace.preds l = some pred ∧
        found.trace.succs l = memory.next pred l ∧ Stops memory head lists key l pred) ∧
      (∀ l, level < l → found.trace.preds l = trace.preds l ∧ found.trace.succs l = trace.succs l) ∧
      found.next = memory.next found.last 0 ∧ Stops memory head lists key 0 found.last := by
  induction fuel generalizing level n x trace with
  | zero => omega
  | succ fuel ih =>
    cases ahead : (memory.next x level).filter fun node => decide (memory.key node < key) with
    | some next =>
      obtain ⟨link, less⟩ := Option.filter_eq_some_iff.mp ahead
      have less : memory.key next < key := by simpa using less
      obtain ⟨m, rfl, fewer⟩ := within.next levels on link less
      have inLevel := (levels.next_mem on link).1
      obtain ⟨found, returned, rest⟩ :=
        ih trace (.inr inLevel) (.inr less) fewer (by omega)
      refine ⟨found, ?_, rest⟩
      rw [← returned]
      cases level <;> simp [search, ahead]
    | none =>
      have stops := stops_of_filter on before ahead
      cases level with
      | zero =>
        refine ⟨⟨trace.set 0 x (memory.next x 0), x, memory.next x 0⟩, by simp [search, ahead],
          ?_, ?_, rfl, stops⟩
        · intro l low
          obtain rfl := Nat.le_zero.mp low
          exact ⟨x, by simp [Trace.set], by simp [Trace.set], stops⟩
        · intro l high
          have different : l ≠ 0 := Nat.ne_of_gt high
          simp [Trace.set, different]
      | succ level =>
        obtain ⟨found, returned, below, above, atNext, atLast⟩ :=
          ih (trace.set (level + 1) x (memory.next x (level + 1)))
            (on_below levels on) before within (by omega)
        refine ⟨found, by simp [search, ahead, returned], ?_, ?_, atNext, atLast⟩
        · intro l low
          rcases Nat.lt_or_ge level l with high | low
          · obtain rfl : l = level + 1 := by omega
            obtain ⟨samePred, sameSucc⟩ := above (level + 1) high
            exact ⟨x, by simp [samePred, Trace.set], by simp [sameSucc, Trace.set], stops⟩
          · exact below l low
        · intro l high
          obtain ⟨samePred, sameSucc⟩ := above l (by omega)
          have different : l ≠ level + 1 := by omega
          simp [samePred, sameSucc, Trace.set, different]

theorem Stops.passed (stops : Stops memory head lists key level pred) (mem : node ∈ lists level)
    (less : memory.key node < key) : pred ∈ lists level ∧ memory.key node ≤ memory.key pred := by
  have notBefore : ¬ Before memory head pred (memory.key node) := by
    intro before
    obtain ⟨target, link, near⟩ := levels.next_least stops.on mem before
    have far := stops.last target link
    rcases near with rfl | nearer
    · exact absurd less (not_lt.mpr far)
    · exact absurd (lt_trans nearer less) (not_lt.mpr far)
  rcases stops.on with isHead | inLevel
  · exact absurd (.inl isHead) notBefore
  · exact ⟨inLevel, not_lt.mp fun greater => notBefore (.inr greater)⟩

theorem Stops.least (stops : Stops memory head lists key level pred) (mem : node ∈ lists level)
    (notLess : key ≤ memory.key node) :
    ∃ next, memory.next pred level = some next ∧ next ∈ lists level ∧
      memory.key next ≤ memory.key node := by
  have before : Before memory head pred (memory.key node) :=
    stops.before.imp_right fun less => lt_of_lt_of_le less notLess
  obtain ⟨next, link, near⟩ := levels.next_least stops.on mem before
  refine ⟨next, link, (levels.next_mem stops.on link).1, ?_⟩
  rcases near with rfl | nearer
  · exact le_rfl
  · exact le_of_lt nearer

end

def Traced (memory : Memory N K) (head : N) (lists : Nat → List N) (key : K) (trace : Trace N)
    (top : Nat) : Prop :=
  ∀ l ≤ top, ∃ pred, trace.preds l = some pred ∧ trace.succs l = memory.next pred l ∧
    Stops memory head lists key l pred

structure Ends (memory : Memory N K) (head : N) (lists : Nat → List N) (key : K) (top : Nat)
    (found : Found N) : Prop where
  traced : Traced memory head lists key found.trace top
  next : found.next = memory.next found.last 0
  stops : Stops memory head lists key 0 found.last

theorem search_ends [DecidableEq N] (levels : Levels memory head lists) (key : K) (trace : Trace N)
    (enough : top + (lists 0).length < fuel) :
    ∃ found, search memory key fuel top head trace = some found ∧
      Ends memory head lists key top found := by
  obtain ⟨found, returned, below, -, next, stops⟩ :=
    search_stops levels trace (.inl rfl) (.inl rfl) (within_length head) enough
  exact ⟨found, returned, below, next, stops⟩

theorem Ends.absent (ends : Ends memory head lists key top found)
    (levels : Levels memory head lists) (miss : hit memory key found.next = none) :
    ∀ node ∈ lists 0, memory.key node ≠ key := by
  intro node mem same
  obtain ⟨next, link, inList, near⟩ := ends.stops.least levels mem (le_of_eq same.symm)
  have far := ends.stops.last next link
  have isKey : memory.key next = key := le_antisymm (near.trans_eq same) far
  rw [ends.next, link] at miss
  simp [hit, isKey] at miss

theorem Ends.hit (ends : Ends memory head lists key top found) (levels : Levels memory head lists)
    (isHit : hit memory key found.next = some x) : x ∈ lists 0 ∧ memory.key x = key := by
  have isNext : found.next = some x ∧ memory.key x = key := by
    simpa [SkipSearch.hit, Option.filter_eq_some_iff] using isHit
  have link := ends.next.symm.trans isNext.1
  exact ⟨(levels.next_mem ends.stops.on link).1, isNext.2⟩

theorem mem_lower (levels : Levels memory head lists) {low high : Nat} (le : low ≤ high)
    (mem : node ∈ lists high) : node ∈ lists low := by
  induction high, le using Nat.le_induction with
  | base => exact mem
  | succ high _ ih => exact ih (levels.below high node mem)

theorem stops_empty (levels : Levels memory head lists) (empty : lists level = []) :
    Stops memory head lists key level head := by
  refine ⟨.inl rfl, .inl rfl, fun node link => ?_⟩
  have linked := (levels.linked level).head_eq
  rw [empty, link] at linked
  cases linked

end Search

/-! ### Linking a node -/

section Link

variable [DecidableEq N] {memory : Memory N K} {head node : N} {lists : Nat → List N}

structure Pending (memory : Memory N K) (head : N) (lists : Nat → List N) (preds : Nat → Option N)
    (node : N) (i count : Nat) : Prop where
  levels : Levels memory head lists
  notHead : node ≠ head
  absent : ∀ level, i ≤ level → node ∉ lists level
  supported : ∀ lower, i = lower + 1 → node ∈ lists lower
  placed : ∀ level, i ≤ level → level < i + count → ∃ pred, preds level = some pred ∧
    On head lists level pred ∧ Before memory head pred (memory.key node) ∧
    ∀ next, memory.next pred level = some next → memory.key node < memory.key next

variable {preds : Nat → Option N} {i count : Nat} {key : K}

theorem Pending.step (pending : Pending memory head lists preds node i (count + 1)) :
    ∃ pred longer, preds i = some pred ∧
      Pending ((memory.setNext node i (memory.next pred i)).setNext pred i (some node)) head longer
        preds node (i + 1) count ∧
      ∀ other level, other ∈ longer level ↔ other ∈ lists level ∨ level = i ∧ other = node := by
  obtain ⟨pred, isPred, on, before, after⟩ := pending.placed i (Nat.le_refl i) (by omega)
  have absent := pending.absent i (Nat.le_refl i)
  have different : pred ≠ node := by
    rintro rfl
    rcases on with isHead | mem
    · exact pending.notHead isHead
    · exact absent mem
  -- the link of the new node is not part of any list yet
  have prepared : Levels (memory.setNext node i (memory.next pred i)) head lists := by
    refine pending.levels.congr (fun _ _ => rfl) fun level other onLevel => ?_
    by_cases same : level = i
    · subst same
      refine congrFun (setNext_node memory node level _ ?_) level
      rintro rfl
      rcases onLevel with isHead | mem
      · exact pending.notHead isHead
      · exact absent mem
    · exact setNext_level memory node i _ other same
  have samePred : (memory.setNext node i (memory.next pred i)).next pred i = memory.next pred i :=
    congrFun (setNext_node memory node i _ different) i
  obtain ⟨longer, levels, members⟩ := prepared.link on pending.notHead absent
    (by rw [samePred, setNext_same]) before (by rw [samePred]; exact after) pending.supported
  refine ⟨pred, longer, isPred, ⟨levels, pending.notHead, ?_, ?_, ?_⟩, members⟩
  · intro level high mem
    rcases (members node level).mp mem with was | ⟨isLevel, -⟩
    · exact pending.absent level (by omega) was
    · omega
  · rintro lower isNext
    obtain rfl : i = lower := by omega
    exact (members node i).mpr (.inr ⟨rfl, rfl⟩)
  intro level low high
  obtain ⟨other, isOther, onOther, beforeOther, afterOther⟩ :=
    pending.placed level (by omega) (by omega)
  have elsewhere : level ≠ i := by omega
  refine ⟨other, isOther, onOther.imp_right fun mem => (members other level).mpr (.inl mem),
    beforeOther, fun next link => afterOther next ?_⟩
  rwa [setNext_level _ _ _ _ _ elsewhere, setNext_level _ _ _ _ _ elsewhere] at link

theorem Pending.linkLoop (pending : Pending memory head lists preds node i count) :
    ∃ after longer, linkLoop preds node count i memory = some after ∧ Levels after head longer ∧
      after.key = memory.key ∧
      ∀ other level, other ∈ longer level ↔
        other ∈ lists level ∨ (i ≤ level ∧ level < i + count) ∧ other = node := by
  induction count generalizing memory lists i with
  | zero =>
    refine ⟨memory, lists, rfl, pending.levels, rfl, fun other level => ?_⟩
    constructor
    · exact .inl
    · rintro (was | ⟨inside, -⟩)
      · exact was
      · omega
  | succ count ih =>
    obtain ⟨pred, longer, isPred, pending', members⟩ := pending.step
    obtain ⟨after, longest, looped, levels, keys, all⟩ := ih pending'
    refine ⟨after, longest, by simp [SkipSearch.linkLoop, isPred, looped], levels, keys, ?_⟩
    intro other level
    rw [all, members, or_assoc]
    refine or_congr_right ?_
    constructor
    · rintro (⟨rfl, rfl⟩ | ⟨inside, rfl⟩)
      · exact ⟨by omega, rfl⟩
      · exact ⟨by omega, rfl⟩
    · rintro ⟨inside, rfl⟩
      by_cases here : level = i
      · exact .inl ⟨here, rfl⟩
      · exact .inr ⟨by omega, rfl⟩

structure Aside (memory after : Memory N K) (node : N) (key : K) : Prop where
  isKey : after.key node = key
  key : ∀ other, other ≠ node → after.key other = memory.key other
  next : ∀ other, other ≠ node → after.next other = memory.next other

variable {after : Memory N K} {height : Nat}

omit [DecidableEq N] in
theorem pending_new (levels : Levels memory head lists) (aside : Aside memory after node key)
    (notHead : node ≠ head) (fresh : node ∉ lists 0)
    (absent : ∀ other ∈ lists 0, memory.key other ≠ key)
    (placed : ∀ level < height, ∃ pred, preds level = some pred ∧
      Stops memory head lists key level pred) : Pending after head lists preds node 0 height := by
  have outside : ∀ level, node ∉ lists level := fun level mem => fresh (levels.bottom mem)
  have other : ∀ level position, On head lists level position → position ≠ node := by
    rintro level position (rfl | mem) rfl
    · exact notHead rfl
    · exact outside level mem
  have keys : ∀ other ∈ lists 0, after.key other = memory.key other := fun position mem =>
    aside.key position (other 0 position (.inr mem))
  refine ⟨levels.congr keys fun level position on =>
    congrFun (aside.next position (other level position on)) level, notHead,
    fun level _ => outside level, fun lower impossible => by omega, fun level _ high => ?_⟩
  obtain ⟨pred, isPred, stops⟩ := placed level (by omega)
  have notNode := other level pred stops.on
  refine ⟨pred, isPred, stops.on, ?_, fun next link => ?_⟩
  · rw [Before, aside.isKey, aside.key pred notNode]
    exact stops.before
  · rw [congrFun (aside.next pred notNode) level] at link
    have inBottom := levels.bottom (levels.next_mem stops.on link).1
    rw [aside.isKey, keys next inBottom]
    exact lt_of_le_of_ne (stops.last next link) (absent next inBottom).symm

omit [LinearOrder K] [DecidableEq N] in
theorem fillHead_of_le (preds : Nat → Option N) {from_ upto : Nat} (le : upto ≤ from_) :
    fillHead head preds from_ upto = preds := by
  funext i
  exact if_neg (by omega)

omit [DecidableEq N] in
theorem placed_fillHead (levels : Levels memory head lists) {trace : Trace N} {maxHeight : Nat}
    (traced : Traced memory head lists key trace (maxHeight - 1))
    (flat : ∀ level, maxHeight ≤ level → lists level = []) (height : Nat) :
    ∀ level < height, ∃ pred, fillHead head trace.preds maxHeight height level = some pred ∧
      Stops memory head lists key level pred := by
  intro level inside
  by_cases above : maxHeight ≤ level
  · exact ⟨head, by simp [fillHead, above, inside], stops_empty levels (flat level above)⟩
  · obtain ⟨pred, isPred, -, stops⟩ := traced level (by omega)
    exact ⟨pred, by simp [fillHead, above, isPred], stops⟩

theorem Pending.casLoop (pending : Pending memory head lists preds node i count) (fuel : Nat) :
    casLoop (fuel + 1) (memory.key node) preds node count i memory =
      (SkipSearch.linkLoop preds node count i memory).map .all := by
  induction count generalizing memory lists i with
  | zero => rfl
  | succ count ih =>
    obtain ⟨pred, isPred, on, before, after⟩ := pending.placed i (Nat.le_refl i) (by omega)
    obtain ⟨pred', longer, isPred', pending', -⟩ := pending.step
    obtain rfl : pred = pred' := Option.some.inj (isPred.symm.trans isPred')
    have different : pred ≠ node := by
      rintro rfl
      rcases on with isHead | mem
      · exact pending.notHead isHead
      · exact pending.absent i (Nat.le_refl i) mem
    have found : findSucc memory (memory.key node) i (fuel + 1) pred =
        some (pred, memory.next pred i) := by
      cases link : memory.next pred i with
      | none => simp [findSucc, link]
      | some next => simp [findSucc, link, Option.filter, lt_asymm (after next link)]
    have misses : SkipSearch.hit memory (memory.key node) (memory.next pred i) = none := by
      cases link : memory.next pred i with
      | none => rfl
      | some next => simp [SkipSearch.hit, ne_of_gt (after next link)]
    have same : (memory.setNext node i (memory.next pred i)).next pred i = memory.next pred i :=
      congrFun (setNext_node memory node i _ different) i
    have rest := ih pending'
    rw [setNext_key, setNext_key] at rest
    simp [SkipSearch.casLoop, SkipSearch.linkLoop, isPred, found, misses, same, rest]

theorem link_new (levels : Levels memory head lists) (aside : Aside memory after node key)
    (notHead : node ≠ head) (fresh : node ∉ lists 0)
    (absent : ∀ other ∈ lists 0, memory.key other ≠ key)
    (placed : ∀ level < height, ∃ pred, preds level = some pred ∧
      Stops memory head lists key level pred) :
    ∃ linked longer, SkipSearch.linkLoop preds node height 0 after = some linked ∧
      (∀ fuel, SkipSearch.casLoop (fuel + 1) key preds node height 0 after = some (.all linked)) ∧
      Levels linked head longer ∧ linked.key = after.key ∧
      ∀ other level, other ∈ longer level ↔ other ∈ lists level ∨ level < height ∧ other = node := by
  have pending := pending_new levels aside notHead fresh absent placed
  obtain ⟨linked, longer, looped, levels', keys, members⟩ := pending.linkLoop
  refine ⟨linked, longer, looped, fun fuel => ?_, levels', keys, fun other level => ?_⟩
  · have swapped := pending.casLoop fuel
    rw [aside.isKey, looped] at swapped
    exact swapped
  · rw [members]
    simp

end Link

end EunoDb.SkipSearch
