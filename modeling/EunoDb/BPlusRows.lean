import EunoDb.BPlusFlat
import EunoDb.BPlusLeaf

/-! The leaves of a tree and what one insertion makes of them. -/

namespace EunoDb.BPlusTree

open Slots

variable {Val : Type}

structure Row (Val : Type) where
  bound : Key
  id : LeafId
  entries : List (Key × Val)

def contents (rows : List (Row Val)) : List (Key × Val) := rows.flatMap Row.entries

/-! ### Links -/

def Linked (heap : Heap Val) : Option LeafId → List LeafId → Option LeafId → Prop
  | _, [], _ => True
  | previous, id :: rest, last => (heap.leaf id).left = previous ∧
      (heap.leaf id).right = rest.head?.or last ∧ Linked heap (some id) rest last

variable {heap heap' : Heap Val} {lower upper before after : List (Key × Val)} {row : Row Val}
  {front back : List (Row Val)} {key : Key}

theorem Linked.append {previous last : Option LeafId} {front back : List LeafId} :
    Linked heap previous (front ++ back) last ↔
      Linked heap previous front (back.head?.or last) ∧
        Linked heap (front.getLast?.or previous) back last := by
  induction front generalizing previous with
  | nil => simp [Linked]
  | cons id front ih =>
    have lastOf : ((id :: front).getLast?).or previous = front.getLast?.or (some id) := by
      cases front with
      | nil => simp
      | cons other front => simp [List.getLast?_cons]
    rw [List.cons_append, Linked, Linked, ih, lastOf, List.head?_append, Option.or_assoc]
    tauto

theorem Linked.congr {previous last : Option LeafId} {ids : List LeafId}
    (linked : Linked heap previous ids last)
    (same : ∀ id ∈ ids, (heap'.leaf id).left = (heap.leaf id).left ∧
      (heap'.leaf id).right = (heap.leaf id).right) : Linked heap' previous ids last := by
  induction ids generalizing previous with
  | nil => trivial
  | cons id ids ih =>
    obtain ⟨left, right, rest⟩ := linked
    obtain ⟨sameLeft, sameRight⟩ := same id List.mem_cons_self
    exact ⟨sameLeft.trans left, sameRight.trans right,
      ih rest fun other mem => same other (List.mem_cons_of_mem id mem)⟩

theorem Linked.divide {id : LeafId} {front back : List LeafId}
    (linked : Linked heap none (front ++ id :: back) none)
    (divided : Divided heap heap' id lower upper) (distinct : (front ++ id :: back).Nodup)
    (used : ∀ other ∈ front ++ id :: back, other ≠ heap.next) :
    Linked heap' none (front ++ id :: heap.next :: back) none := by
  obtain ⟨inFront, left, right, inBack⟩ := Linked.append.mp linked
  rw [Option.or_none] at right
  obtain ⟨-, backDistinct, apart⟩ := List.nodup_append.mp distinct
  obtain ⟨notInBack, backDistinct⟩ := List.nodup_cons.mp backDistinct
  refine Linked.append.mpr ⟨inFront.congr ?_, divided.left.trans left, divided.right,
    divided.newLeft, divided.newRight.trans (by rw [right, Option.or_none]), ?_⟩
  · intro other mem
    have notId := apart other mem id List.mem_cons_self
    have notRight : (heap.leaf id).right ≠ some other := fun isRight =>
      apart other mem other
        (List.mem_cons_of_mem id (List.mem_of_mem_head? (right.symm.trans isRight))) rfl
    rw [divided.others other notId (used other (List.mem_append_left _ mem)) notRight]
    exact ⟨rfl, rfl⟩
  -- only the first leaf of the rest has a new neighbour
  cases back with
  | nil => trivial
  | cons neighbour back =>
    obtain ⟨-, nextRight, rest⟩ := inBack
    have changed := divided.neighbour neighbour right
    refine ⟨by rw [changed], by rw [changed]; exact nextRight, rest.congr ?_⟩
    intro other mem
    have notId : other ≠ id := fun same =>
      notInBack (List.mem_cons_of_mem neighbour (same ▸ mem))
    have notRight : (heap.leaf id).right ≠ some other := fun isRight => by
      cases right.symm.trans isRight
      exact (List.nodup_cons.mp backDistinct).1 mem
    rw [divided.others other notId (used other (by simp [mem])) notRight]
    exact ⟨rfl, rfl⟩

/-! ### The list of leaves -/

def Before (row later : Row Val) : Prop :=
  row.bound < later.bound ∧ (∀ entry ∈ row.entries, entry.1 < later.bound) ∧ row.id ≠ later.id

structure Row.Ordered (row : Row Val) : Prop where
  increasing : row.entries.Pairwise fun earlier later => earlier.1 < later.1
  low : ∀ entry ∈ row.entries, row.bound ≤ entry.1

theorem Row.Ordered.cut (ordered : row.Ordered) (pass : Key → Bool)
    (decreasing : ∀ x y, x < y → pass y = true → pass x = true) :
    ∃ before after, row.entries = before ++ after ∧ (∀ entry ∈ before, pass entry.1 = true) ∧
      ∀ entry ∈ after, pass entry.1 = false :=
  exists_position (fun entry : Key × Val => pass entry.1) row.entries
    (ordered.increasing.imp fun {earlier later} less => decreasing earlier.1 later.1 less)

theorem Row.Ordered.cut_lt (ordered : row.Ordered) (key : Key) :
    ∃ before after, row.entries = before ++ after ∧ (∀ entry ∈ before, entry.1 < key) ∧
      ∀ entry ∈ after, key ≤ entry.1 := by
  obtain ⟨before, after, shape, below, above⟩ := ordered.cut (fun other => other < key) (by
    intro x y less small
    simp only [decide_eq_true_eq] at small ⊢
    exact Nat.lt_trans less small)
  exact ⟨before, after, shape, fun entry mem => by simpa using below entry mem,
    fun entry mem => by simpa using above entry mem⟩

structure Layout (heap : Heap Val) (rows : List (Row Val)) : Prop where
  holds : ∀ row ∈ rows, Holds (heap.leaf row.id) row.entries
  ordered : ∀ row ∈ rows, row.Ordered
  before : rows.Pairwise Before
  used : ∀ row ∈ rows, row.id < heap.next
  linked : Linked heap none (rows.map Row.id) none
  occupied : 2 ≤ rows.length → ∀ row ∈ rows, row.entries ≠ []

theorem Layout.distinct {rows : List (Row Val)} (layout : Layout heap rows) :
    (rows.map Row.id).Nodup :=
  List.pairwise_map.mpr (layout.before.imp fun before => before.2.2)

theorem Layout.placed (layout : Layout heap (front ++ row :: back)) : Placed heap row.id := by
  have linked := layout.linked
  rw [List.map_append, List.map_cons] at linked
  obtain ⟨-, -, right, -⟩ := Linked.append.mp linked
  rw [Option.or_none] at right
  have neighbour : ∀ other, (heap.leaf row.id).right = some other → ∃ later ∈ back, later.id = other := by
    intro other isRight
    exact List.mem_map.mp (List.mem_of_mem_head? (right.symm.trans isRight))
  refine ⟨Nat.ne_of_lt (layout.used row (by simp)), fun itself => ?_, fun fresh => ?_⟩
  · obtain ⟨later, mem, same⟩ := neighbour _ itself
    have apart := (List.pairwise_cons.mp (List.pairwise_append.mp layout.before).2.1).1 later mem
    exact apart.2.2 same.symm
  · obtain ⟨later, mem, same⟩ := neighbour _ fresh
    have := layout.used later (by simp [mem])
    exact Nat.ne_of_lt this same

inductive Outcome (heap : Heap Val) (row : Row Val) (key : Key) (val : Val) :
    Heap Val → Option LeafId → Val → List (Row Val) → Prop
  | present {found : Val} (member : (key, found) ∈ row.entries) :
      Outcome heap row key val heap none found [row]
  | filled {heap' : Heap Val} {before after : List (Key × Val)} (shape : row.entries = before ++ after)
      (below : ∀ entry ∈ before, entry.1 < key) (above : ∀ entry ∈ after, key < entry.1)
      (filled : Filled heap heap' row.id (before ++ (key, val) :: after)) :
      Outcome heap row key val heap' none val
        [⟨row.bound, row.id, before ++ (key, val) :: after⟩]
  | divided {heap' : Heap Val} {before after lower upper : List (Key × Val)} {separator : Key}
      {first : Val} (shape : row.entries = before ++ after)
      (below : ∀ entry ∈ before, entry.1 < key) (above : ∀ entry ∈ after, key < entry.1)
      (join : lower ++ (separator, first) :: upper = before ++ (key, val) :: after)
      (lowerSome : lower ≠ []) (shorter : lower.length < row.entries.length)
      (divided : Divided heap heap' row.id lower ((separator, first) :: upper))
      (seq : (heap'.leaf row.id).seq = (heap.leaf row.id).seq + 1) :
      Outcome heap row key val heap' (some heap.next) val
        [⟨row.bound, row.id, lower⟩, ⟨separator, heap.next, (separator, first) :: upper⟩]

theorem Layout.leafInsert (layout : Layout heap (front ++ row :: back)) (key : Key) (val : Val) :
    ∃ heap' sibling found rows, leafInsert heap row.id key val = some (heap', sibling, found) ∧
      Outcome heap row key val heap' sibling found rows := by
  have holds := layout.holds row (by simp)
  have increasing := (layout.ordered row (by simp)).increasing
  obtain ⟨before, after, shape, below, above⟩ :=
    exists_position (fun entry : Key × Val => decide (entry.1 < key)) row.entries
      (increasing.imp fun {earlier later} less => by
        simp only [decide_eq_true_eq]
        exact fun reached => Nat.lt_trans less reached)
  simp only [decide_eq_true_eq, decide_eq_false_iff_not, Nat.not_lt] at below above
  rw [shape] at holds increasing
  have afterIncreasing := (List.pairwise_append.mp increasing).2.1
  by_cases present : ∃ found rest, after = (key, found) :: rest
  · obtain ⟨found, rest, rfl⟩ := present
    exact ⟨heap, none, found, [row],
      leafInsert_present holds below (List.pairwise_cons.mp afterIncreasing).1 val,
      .present (by rw [shape]; simp)⟩
  have strictly : ∀ entry ∈ after, key < entry.1 := by
    cases after with
    | nil => simp
    | cons first rest =>
      have less : key < first.1 := by
        refine Nat.lt_of_le_of_ne (above first List.mem_cons_self) fun same => ?_
        exact present ⟨first.2, rest, by rw [same]⟩
      intro entry mem
      rcases List.mem_cons.mp mem with rfl | later
      · exact less
      · exact Nat.lt_trans less ((List.pairwise_cons.mp afterIncreasing).1 entry later)
  obtain ⟨heap', sibling, inserted, added⟩ :=
    leafInsert_absent holds below strictly layout.placed val
  cases added with
  | filled filled => exact ⟨heap', none, val, _, inserted, .filled shape below strictly filled⟩
  | @divided lower upper join lowerSome upperSeveral divided seq =>
    cases upper with
    | nil => simp at upperSeveral
    | cons first upper =>
      have shorter : lower.length < row.entries.length := by
        have length := congrArg List.length join
        simp only [List.length_append, List.length_cons] at length upperSeveral
        rw [shape, List.length_append]
        omega
      exact ⟨heap', _, val, _, inserted,
        .divided shape below strictly join lowerSome shorter divided seq⟩

theorem Row.Ordered.insert (ordered : row.Ordered) (val : Val) (low : row.bound ≤ key)
    (shape : row.entries = before ++ after) (below : ∀ entry ∈ before, entry.1 < key)
    (above : ∀ entry ∈ after, key < entry.1) :
    Row.Ordered ⟨row.bound, row.id, before ++ (key, val) :: after⟩ := by
  obtain ⟨increasing, lower⟩ := ordered
  rw [shape] at increasing lower
  obtain ⟨front, back, apart⟩ := List.pairwise_append.mp increasing
  refine ⟨List.pairwise_append.mpr ⟨front, List.pairwise_cons.mpr ⟨above, back⟩, ?_⟩, ?_⟩
  · intro entry inBefore other inAfter
    rcases List.mem_cons.mp inAfter with rfl | later
    · exact below entry inBefore
    · exact apart entry inBefore other later
  intro entry mem
  rcases List.mem_append.mp mem with inBefore | inAfter
  · exact lower entry (List.mem_append_left _ inBefore)
  · rcases List.mem_cons.mp inAfter with rfl | later
    · exact low
    · exact lower entry (List.mem_append_right _ later)

theorem before_replace {changed : Row Val} (ordered : (front ++ row :: back).Pairwise Before)
    (bound : changed.bound = row.bound) (id : changed.id = row.id)
    (high : ∀ other ∈ back, ∀ entry ∈ changed.entries, entry.1 < other.bound) :
    (front ++ changed :: back).Pairwise Before := by
  obtain ⟨inFront, inBack, apart⟩ := List.pairwise_append.mp ordered
  obtain ⟨first, rest⟩ := List.pairwise_cons.mp inBack
  refine List.pairwise_append.mpr ⟨inFront, List.pairwise_cons.mpr ⟨?_, rest⟩, ?_⟩
  · intro other mem
    obtain ⟨less, -, different⟩ := first other mem
    exact ⟨by rw [bound]; exact less, high other mem, by rw [id]; exact different⟩
  intro earlier inFront other mem
  rcases List.mem_cons.mp mem with rfl | later
  · obtain ⟨less, entries, different⟩ := apart earlier inFront row List.mem_cons_self
    exact ⟨by rw [bound]; exact less, by rw [bound]; exact entries, by rw [id]; exact different⟩
  · exact apart earlier inFront other (List.mem_cons_of_mem row later)

theorem before_append {fresh : Row Val} (ordered : (front ++ row :: back).Pairwise Before)
    (first : Before row fresh) (later : ∀ other ∈ back, Before fresh other)
    (new : ∀ other ∈ front, other.id ≠ fresh.id) :
    (front ++ row :: fresh :: back).Pairwise Before := by
  obtain ⟨inFront, inBack, apart⟩ := List.pairwise_append.mp ordered
  obtain ⟨afterRow, rest⟩ := List.pairwise_cons.mp inBack
  refine List.pairwise_append.mpr ⟨inFront, List.pairwise_cons.mpr ⟨?_,
    List.pairwise_cons.mpr ⟨later, rest⟩⟩, ?_⟩
  · intro other mem
    rcases List.mem_cons.mp mem with rfl | inBack
    · exact first
    · exact afterRow other inBack
  intro earlier inFront other mem
  rcases List.mem_cons.mp mem with rfl | mem
  · exact apart earlier inFront _ List.mem_cons_self
  rcases List.mem_cons.mp mem with rfl | inBack
  · obtain ⟨less, entries, -⟩ := apart earlier inFront row List.mem_cons_self
    exact ⟨Nat.lt_trans less first.1, fun entry inside => Nat.lt_trans (entries entry inside) first.1,
      new earlier inFront⟩
  · exact apart earlier inFront other (List.mem_cons_of_mem row inBack)

section

variable (layout : Layout heap (front ++ row :: back))

include layout

theorem Layout.others {other : Row Val} (mem : other ∈ front ∨ other ∈ back) :
    other.id ≠ row.id := by
  obtain ⟨-, inBack, apart⟩ := List.pairwise_append.mp layout.before
  rcases mem with inFront | later
  · exact (apart other inFront row List.mem_cons_self).2.2
  · exact ((List.pairwise_cons.mp inBack).1 other later).2.2.symm

theorem Layout.filled {entries : List (Key × Val)} (filled : Filled heap heap' row.id entries)
    (some_ : entries ≠ []) (ordered : Row.Ordered ⟨row.bound, row.id, entries⟩)
    (high : ∀ other ∈ back, ∀ entry ∈ entries, entry.1 < other.bound) :
    Layout heap' (front ++ ⟨row.bound, row.id, entries⟩ :: back) := by
  have old : ∀ other, other ∈ front ∨ other ∈ back → other ∈ front ++ row :: back := by
    intro other mem
    simp only [List.mem_append, List.mem_cons]
    tauto
  have cases_ : ∀ other ∈ front ++ ⟨row.bound, row.id, entries⟩ :: back,
      other = ⟨row.bound, row.id, entries⟩ ∨ other ∈ front ∨ other ∈ back := by
    intro other mem
    simp only [List.mem_append, List.mem_cons] at mem
    tauto
  refine ⟨?_, ?_, before_replace layout.before rfl rfl high, ?_, ?_, ?_⟩
  · intro other mem
    rcases cases_ other mem with rfl | same
    · exact filled.holds
    · rw [filled.others _ (layout.others same)]
      exact layout.holds other (old other same)
  · intro other mem
    rcases cases_ other mem with rfl | same
    · exact ordered
    · exact layout.ordered other (old other same)
  · intro other mem
    rw [filled.next]
    rcases cases_ other mem with rfl | same
    · exact layout.used row (by simp)
    · exact layout.used other (old other same)
  · have linked := layout.linked
    simp only [List.map_append, List.map_cons] at linked ⊢
    refine linked.congr ?_
    intro id _
    by_cases same : id = row.id
    · rw [same]
      exact ⟨filled.left, filled.right⟩
    · rw [filled.others id same]
      exact ⟨rfl, rfl⟩
  · intro several other mem
    rcases cases_ other mem with rfl | same
    · exact some_
    · refine layout.occupied ?_ other (old other same)
      simpa using several

theorem Layout.divided (divided : Divided heap heap' row.id lower upper) {separator : Key}
    (lowerSome : lower ≠ []) (upperSome : upper ≠ [])
    (ordered : Row.Ordered ⟨row.bound, row.id, lower⟩)
    (newOrdered : Row.Ordered ⟨separator, heap.next, upper⟩) (above : row.bound < separator)
    (between : ∀ entry ∈ lower, entry.1 < separator)
    (high : ∀ other ∈ back, separator < other.bound ∧ ∀ entry ∈ lower ++ upper, entry.1 < other.bound) :
    Layout heap' (front ++ ⟨row.bound, row.id, lower⟩ :: ⟨separator, heap.next, upper⟩ :: back) := by
  have old : ∀ other, other ∈ front ∨ other ∈ back → other ∈ front ++ row :: back := by
    intro other mem
    simp only [List.mem_append, List.mem_cons]
    tauto
  have fresh : ∀ other, other ∈ front ∨ other ∈ back → other.id ≠ heap.next :=
    fun other mem => Nat.ne_of_lt (layout.used other (old other mem))
  have cases_ : ∀ other ∈ front ++ ⟨row.bound, row.id, lower⟩ ::
      ⟨separator, heap.next, upper⟩ :: back,
      other = ⟨row.bound, row.id, lower⟩ ∨ other = ⟨separator, heap.next, upper⟩ ∨
        other ∈ front ∨ other ∈ back := by
    intro other mem
    simp only [List.mem_append, List.mem_cons] at mem
    tauto
  -- the neighbour has a new left link, nothing else
  have kept : ∀ other, other ∈ front ∨ other ∈ back → Holds (heap'.leaf other.id) other.entries := by
    intro other mem
    have holds := layout.holds other (old other mem)
    by_cases isRight : (heap.leaf row.id).right = some other.id
    · rw [divided.neighbour other.id isRight]
      exact holds.congr rfl rfl rfl
    · rw [divided.others other.id (layout.others mem) (fresh other mem) isRight]
      exact holds
  have before : (front ++ ⟨row.bound, row.id, lower⟩ :: ⟨separator, heap.next, upper⟩ :: back).Pairwise
      Before := by
    refine before_append (before_replace layout.before rfl rfl ?_) ?_ ?_ ?_
    · exact fun other mem entry inside =>
        (high other mem).2 entry (List.mem_append_left _ inside)
    · exact ⟨above, between, Nat.ne_of_lt (layout.used row (by simp))⟩
    · intro other mem
      exact ⟨(high other mem).1, fun entry inside =>
        (high other mem).2 entry (List.mem_append_right _ inside), (fresh other (.inr mem)).symm⟩
    · exact fun other mem => fresh other (.inl mem)
  refine ⟨?_, ?_, before, ?_, ?_, ?_⟩
  · intro other mem
    rcases cases_ other mem with rfl | rfl | same
    · exact divided.holds
    · exact divided.newHolds
    · exact kept other same
  · intro other mem
    rcases cases_ other mem with rfl | rfl | same
    · exact ordered
    · exact newOrdered
    · exact layout.ordered other (old other same)
  · intro other mem
    rw [divided.next]
    rcases cases_ other mem with rfl | rfl | same
    · exact Nat.lt_succ_of_lt (layout.used row (by simp))
    · exact Nat.lt_succ_self _
    · exact Nat.lt_succ_of_lt (layout.used other (old other same))
  · have linked := layout.linked
    have distinct := layout.distinct
    simp only [List.map_append, List.map_cons] at linked distinct ⊢
    refine linked.divide divided distinct ?_
    intro id mem
    rw [← List.map_cons, ← List.map_append] at mem
    obtain ⟨other, isRow, rfl⟩ := List.mem_map.mp mem
    exact Nat.ne_of_lt (layout.used other isRow)
  · intro _ other mem
    rcases cases_ other mem with rfl | rfl | same
    · exact lowerSome
    · exact upperSome
    refine layout.occupied ?_ other (old other same)
    simp only [List.length_append, List.length_cons]
    rcases same with inFront | inBack
    · have := List.length_pos_of_mem inFront
      omega
    · have := List.length_pos_of_mem inBack
      omega

end

theorem Outcome.separator_between {separator : Key} {val first : Val}
    (ordered : Row.Ordered ⟨row.bound, row.id, before ++ (key, val) :: after⟩)
    (high : ∀ other ∈ back, ∀ entry ∈ before ++ (key, val) :: after, entry.1 < other.bound)
    (join : lower ++ (separator, first) :: upper = before ++ (key, val) :: after)
    (lowerSome : lower ≠ []) :
    row.bound < separator ∧ (∀ entry ∈ lower, entry.1 < separator) ∧
      ∀ other ∈ back, separator < other.bound := by
  obtain ⟨increasing, low⟩ := ordered
  simp only [← join] at increasing low high
  have between : ∀ entry ∈ lower, entry.1 < separator := fun entry mem =>
    (List.pairwise_append.mp increasing).2.2 entry mem _ List.mem_cons_self
  refine ⟨?_, between, fun other mem => high other mem (separator, first) (by simp)⟩
  obtain ⟨entry, mem⟩ := List.exists_mem_of_ne_nil lower lowerSome
  exact Nat.lt_of_le_of_lt (low entry (List.mem_append_left _ mem)) (between entry mem)

theorem Layout.high (layout : Layout heap (front ++ row :: back)) (val : Val)
    (shape : row.entries = before ++ after) (high : ∀ other ∈ back, key < other.bound) :
    ∀ other ∈ back, ∀ entry ∈ before ++ (key, val) :: after, entry.1 < other.bound := by
  intro other mem entry inside
  have apart := (List.pairwise_cons.mp (List.pairwise_append.mp layout.before).2.1).1 other mem
  rw [List.mem_append, List.mem_cons] at inside
  rcases inside with inBefore | rfl | inAfter
  · exact apart.2.1 entry (by rw [shape]; exact List.mem_append_left _ inBefore)
  · exact high other mem
  · exact apart.2.1 entry (by rw [shape]; exact List.mem_append_right _ inAfter)

theorem Layout.outcome {rows : List (Row Val)} (layout : Layout heap (front ++ row :: back))
    {val found : Val} {sibling : Option LeafId} (low : row.bound ≤ key)
    (high : ∀ other ∈ back, key < other.bound)
    (outcome : Outcome heap row key val heap' sibling found rows) :
    Layout heap' (front ++ rows ++ back) := by
  have ordered := layout.ordered row (by simp)
  rw [List.append_assoc]
  cases outcome with
  | present mem => exact layout
  | filled shape below above filled =>
    exact layout.filled filled (by simp) (ordered.insert val low shape below above)
      (layout.high val shape high)
  | @divided _ before after lower upper separator first shape below above join lowerSome shorter divided seq =>
    have inserted := ordered.insert val low shape below above
    have limits := layout.high val shape high
    obtain ⟨aboveBound, between, belowBack⟩ :=
      Outcome.separator_between inserted limits join lowerSome
    obtain ⟨increasing, lower_⟩ := inserted
    simp only [← join] at increasing lower_ limits
    obtain ⟨inLower, inUpper, apart⟩ := List.pairwise_append.mp increasing
    refine layout.divided divided lowerSome (by simp) ⟨inLower, ?_⟩ ⟨inUpper, ?_⟩ aboveBound between ?_
    · exact fun entry mem => lower_ entry (List.mem_append_left _ mem)
    · intro entry mem
      rcases List.mem_cons.mp mem with rfl | later
      · exact Nat.le_refl _
      · exact Nat.le_of_lt ((List.pairwise_cons.mp inUpper).1 entry later)
    · exact fun other mem => ⟨belowBack other mem, limits other mem⟩

end EunoDb.BPlusTree
