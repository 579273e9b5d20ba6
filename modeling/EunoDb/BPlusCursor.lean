import EunoDb.BPlusIterator

/-! Where the operations of the iterator end, in terms of the list of leaves. -/

namespace EunoDb.BPlusTree

open Slots

variable {Val : Type}

def On (s : State Val) (rows : List (Row Val)) (key : Key) (val : Val) (cursor : Cursor Val) : Prop :=
  ∃ front row back before after, rows = front ++ row :: back ∧
    row.entries = before ++ (key, val) :: after ∧
    cursor = ⟨some row.id, before.length, (s.heap.leaf row.id).seq, key, some val⟩

def Forward (s : State Val) (rows : List (Row Val)) (entries : List (Key × Val))
    (cursor : Cursor Val) : Prop :=
  (entries = [] ∧ cursor.node = none) ∨
    ∃ key val rest, entries = (key, val) :: rest ∧ On s rows key val cursor

def Backward (s : State Val) (rows : List (Row Val)) (entries : List (Key × Val))
    (cursor : Cursor Val) : Prop :=
  (entries = [] ∧ cursor.node = none) ∨
    ∃ key val rest, entries = rest ++ [(key, val)] ∧ On s rows key val cursor

variable {heap : Heap Val} {front back rows : List (Row Val)} {row : Row Val} {s : State Val}
  {before after : List (Key × Val)} {key : Key} {val : Val} {cursor : Cursor Val}

theorem Layout.right (layout : Layout heap (front ++ row :: back)) :
    (heap.leaf row.id).right = (back.map Row.id).head? := by
  have linked := layout.linked
  rw [List.map_append, List.map_cons] at linked
  obtain ⟨-, -, right, -⟩ := Linked.append.mp linked
  rwa [Option.or_none] at right

theorem Layout.left (layout : Layout heap (front ++ row :: back)) :
    (heap.leaf row.id).left = (front.map Row.id).getLast? := by
  have linked := layout.linked
  rw [List.map_append, List.map_cons] at linked
  obtain ⟨-, left, -⟩ := Linked.append.mp linked
  rwa [Option.or_none] at left

section

variable (layout : Layout s.heap (front ++ row :: back))

include layout

theorem Layout.load (shape : row.entries = before ++ (key, val) :: after) (garbage : Key) :
    ∃ cursor, load garbage s row.id before.length = some cursor ∧
      On s (front ++ row :: back) key val cursor := by
  have holds := layout.holds row (by simp)
  rw [shape] at holds
  obtain ⟨keyRead, valueRead⟩ := holds.at
  refine ⟨_, ?_, front, row, back, before, after, rfl, shape, rfl⟩
  rw [BPlusTree.load, Option.join_eq_some_iff.mp keyRead, Option.join_eq_some_iff.mp valueRead]
  rfl

theorem Layout.arrive (shape : row.entries = before ++ after) (garbage : Key) (cursor : Cursor Val) :
    ∃ cursor', arrive garbage s cursor row.id before.length = some cursor' ∧
      Forward s (front ++ row :: back) (after ++ contents back) cursor' := by
  have holds := layout.holds row (by simp)
  have num := holds.num
  rw [shape, List.length_append] at num
  cases after with
  | cons entry after =>
    have inside : ¬ (s.heap.leaf row.id).numKeys ≤ before.length := by
      rw [num]
      simp
    obtain ⟨cursor', loaded, on⟩ := layout.load shape garbage
    exact ⟨cursor', by rw [BPlusTree.arrive, if_neg inside, loaded],
      .inr ⟨entry.1, entry.2, after ++ contents back, rfl, on⟩⟩
  | nil =>
    have past : (s.heap.leaf row.id).numKeys ≤ before.length := by
      rw [num]
      simp
    have right := layout.right
    rw [BPlusTree.arrive, if_pos past, right]
    cases back with
    | nil => exact ⟨_, rfl, .inl ⟨rfl, rfl⟩⟩
    | cons neighbour back =>
      -- the first entry of the next leaf, which has one
      have occupied := layout.occupied (by simp; omega) neighbour (by simp)
      cases found : neighbour.entries with
      | nil => exact absurd found occupied
      | cons entry rest =>
        rw [show front ++ row :: neighbour :: back = (front ++ [row]) ++ neighbour :: back by simp]
          at layout ⊢
        have shape' : neighbour.entries = [] ++ (entry.1, entry.2) :: rest := found
        obtain ⟨cursor', loaded, on⟩ := layout.load shape' garbage
        refine ⟨cursor', loaded, .inr ⟨entry.1, entry.2, rest ++ contents back, ?_, on⟩⟩
        rw [contents_cons, found]
        rfl

theorem Layout.retreat (shape : row.entries = before ++ after) (garbage : Key) (cursor : Cursor Val) :
    ∃ cursor', retreat garbage s cursor row.id before.length = some cursor' ∧
      Backward s (front ++ row :: back) (contents front ++ before) cursor' := by
  rcases List.eq_nil_or_concat before with rfl | ⟨before, entry, rfl⟩
  · have left := layout.left
    rw [List.length_nil, BPlusTree.retreat, left]
    rcases List.eq_nil_or_concat front with rfl | ⟨front, neighbour, rfl⟩
    · exact ⟨_, rfl, .inl ⟨rfl, rfl⟩⟩
    have occupied := layout.occupied (by simp; omega) neighbour (by simp)
    have holds := layout.holds neighbour (by simp)
    rcases List.eq_nil_or_concat neighbour.entries with none | ⟨rest, entry, found⟩
    · exact absurd none occupied
    rw [List.concat_eq_append] at found
    have last : (s.heap.leaf neighbour.id).numKeys = rest.length + 1 := by
      rw [holds.num, found]
      simp
    simp only [List.concat_eq_append, List.append_assoc, List.singleton_append] at layout ⊢
    obtain ⟨cursor', loaded, on⟩ := layout.load found garbage
    refine ⟨cursor', by simp [last, loaded],
      .inr ⟨entry.1, entry.2, contents front ++ rest, ?_, on⟩⟩
    simp [found, contents]
  · rw [List.concat_eq_append] at shape ⊢
    rw [List.append_assoc] at shape
    obtain ⟨cursor', loaded, on⟩ := layout.load shape garbage
    refine ⟨cursor', ?_, .inr ⟨entry.1, entry.2, contents front ++ before, by simp, on⟩⟩
    rw [List.length_append]
    exact loaded

end

theorem Layout.search_round {pass : Key → Bool}
    (decreasing : ∀ x y, x < y → pass y = true → pass x = true)
    (layout : Layout s.heap (front ++ row :: back)) (fuel : Nat) :
    ((∀ entry ∈ row.entries, pass entry.1 = true) ∧
        search s pass (fuel + 1) row.id = match (back.map Row.id).head? with
          | some right => search s pass fuel right
          | none => some (row.id, none)) ∨
      ∃ before key val after, row.entries = before ++ (key, val) :: after ∧
        search s pass (fuel + 1) row.id = some (row.id, some before.length) ∧
        (∀ entry ∈ before, pass entry.1 = true) ∧ pass key = false := by
  have holds := layout.holds row (by simp)
  obtain ⟨before, after, shape, below, above⟩ := (layout.ordered row (by simp)).cut pass decreasing
  have num := holds.num
  rw [shape] at holds num
  have scanned := holds.search below above
  cases after with
  | nil =>
    rw [List.append_nil] at shape num
    refine .inl ⟨by rw [shape]; exact below, ?_⟩
    simp only [search, scanned, Option.bind_eq_bind, Option.bind_some, if_pos num.symm, layout.right]
    rfl
  | cons entry after =>
    have inside : before.length ≠ (s.heap.leaf row.id).numKeys := by
      rw [num]
      simp
    refine .inr ⟨before, entry.1, entry.2, after, shape, ?_, below, above entry List.mem_cons_self⟩
    simp only [search, scanned, Option.bind_eq_bind, Option.bind_some, if_neg inside]
    rfl

theorem Layout.search {pass : Key → Bool}
    (decreasing : ∀ x y, x < y → pass y = true → pass x = true)
    (layout : Layout s.heap (front ++ row :: back)) {fuel : Nat} (enough : back.length < fuel) :
    ((∀ entry ∈ contents (row :: back), pass entry.1 = true) ∧
        ∃ id, search s pass fuel row.id = some (id, none)) ∨
      ∃ middle last rest before key val after, row :: back = middle ++ last :: rest ∧
        last.entries = before ++ (key, val) :: after ∧
        search s pass fuel row.id = some (last.id, some before.length) ∧
        (∀ entry ∈ contents middle ++ before, pass entry.1 = true) ∧ pass key = false := by
  -- on the leaves that are left; those behind the loop join the front
  induction back generalizing front row fuel with
  | nil =>
    obtain ⟨fuel, rfl⟩ := Nat.exists_eq_succ_of_ne_zero (Nat.ne_of_gt enough)
    rcases layout.search_round decreasing fuel with ⟨all, ended⟩ |
      ⟨before, key, val, after, shape, stopped, below, fails⟩
    · exact .inl ⟨by simpa [contents] using all, row.id, ended⟩
    · exact .inr ⟨[], row, [], before, key, val, after, rfl, shape, stopped, below, fails⟩
  | cons neighbour back ih =>
    obtain ⟨fuel, rfl⟩ := Nat.exists_eq_succ_of_ne_zero (Nat.ne_of_gt (Nat.zero_lt_of_lt enough))
    rcases layout.search_round decreasing fuel with ⟨here, on⟩ |
      ⟨before, key, val, after, shape, stopped, below, fails⟩
    · have moved : Layout s.heap ((front ++ [row]) ++ neighbour :: back) := by simpa using layout
      rcases ih moved (by simpa using enough) with ⟨all, id, ended⟩ |
        ⟨middle, last, rest, before, key, val, after, split, shape, stopped, below, fails⟩
      · refine .inl ⟨?_, id, on.trans ended⟩
        intro entry mem
        rw [contents_cons, List.mem_append] at mem
        exact mem.elim (here entry) (all entry)
      · refine .inr ⟨row :: middle, last, rest, before, key, val, after, by rw [split]; rfl, shape,
          on.trans stopped, ?_, fails⟩
        intro entry mem
        rw [contents_cons, List.append_assoc, List.mem_append] at mem
        exact mem.elim (here entry) (below entry)
    · exact .inr ⟨[], row, neighbour :: back, before, key, val, after, rfl, shape, stopped, below,
        fails⟩

/-! ### The operations -/

theorem Represents.seek (represents : Represents s rows) (garbage : Key) (cursor : Cursor Val)
    (key : Key) :
    ∃ cursor' before after, seek garbage s cursor key = some cursor' ∧
      BPlusTree.contents rows = before ++ after ∧ (∀ entry ∈ before, entry.1 < key) ∧
      (∀ entry ∈ after, key ≤ entry.1) ∧ Forward s rows after cursor' := by
  obtain ⟨frontRows, ⟨bound, leaf, entries⟩, backRows, rfl, low, high, found⟩ := represents.findRow key
  have layout := represents.layout
  obtain ⟨before, after, rfl, below, above⟩ :=
    (layout.ordered ⟨bound, leaf, entries⟩ (by simp)).cut_lt key
  have scanned := (layout.holds ⟨bound, leaf, before ++ after⟩ (by simp)).search_lt below above
  obtain ⟨cursor', arrived, forward⟩ := layout.arrive rfl garbage cursor
  refine ⟨cursor', BPlusTree.contents frontRows ++ before, after ++ BPlusTree.contents backRows, ?_, ?_, ?_, ?_, forward⟩
  · simp only [BPlusTree.seek, found, scanned, Option.bind_eq_bind, Option.bind_some]
    exact arrived
  · simp [contents_append, contents_cons]
  · intro entry mem
    rcases List.mem_append.mp mem with inFront | inside
    · exact layout.front_lt low entry inFront
    · exact below entry inside
  intro entry mem
  exact (List.mem_append.mp mem).elim (above entry) fun later =>
    Nat.le_of_lt (layout.back_gt high entry later)

theorem Represents.seekToFirst (represents : Represents s rows)
    (some_ : BPlusTree.contents rows ≠ []) (garbage : Key) :
    ∃ cursor, seekToFirst garbage s = some cursor ∧
      Forward s rows (BPlusTree.contents rows) cursor := by
  have layout := represents.layout
  have first := represents.reads.firstLeaf
  cases rows with
  | nil => exact absurd rfl some_
  | cons row back =>
    cases entries : row.entries with
    | nil =>
      -- an empty leaf is alone
      have alone : back = [] := by
        cases back with
        | nil => rfl
        | cons other back =>
          exact absurd entries (layout.occupied (by simp) row List.mem_cons_self)
      rw [alone] at some_
      simp [BPlusTree.contents, entries] at some_
    | cons entry rest =>
      have shape : row.entries = [] ++ (entry.1, entry.2) :: rest := entries
      have whole : Layout s.heap ([] ++ row :: back) := layout
      obtain ⟨cursor, loaded, on⟩ := whole.load shape garbage
      refine ⟨cursor, ?_, .inr ⟨entry.1, entry.2, rest ++ BPlusTree.contents back, ?_, on⟩⟩
      · simp only [BPlusTree.seekToFirst, first, Option.bind_eq_bind]
        exact loaded
      · rw [contents_cons, entries]
        rfl

theorem Represents.seekToFirst_empty (represents : Represents s rows)
    (empty : BPlusTree.contents rows = []) (garbage : Key) :
    ∃ cursor, BPlusTree.seekToFirst garbage s = some cursor ∧ cursor.valid s = false := by
  have layout := represents.layout
  have first := represents.reads.firstLeaf
  cases rows with
  | nil =>
    obtain ⟨front, row, back, impossible, -⟩ := represents.descend 0
    simp at impossible
  | cons row back =>
    have holds := layout.holds row List.mem_cons_self
    have none_ : row.entries = [] := List.flatMap_eq_nil_iff.mp empty row List.mem_cons_self
    have inKeys : 0 < (s.heap.leaf row.id).keys.length := by
      rw [holds.keysLength, order]
      omega
    have inValues : 0 < (s.heap.leaf row.id).values.length := by
      rw [holds.valuesLength, order]
      omega
    have zero : (s.heap.leaf row.id).numKeys = 0 := by rw [holds.num, none_, List.length_nil]
    have isFirst : firstLeaf s.depth s.root = some row.id := first
    refine ⟨⟨some row.id, 0, (s.heap.leaf row.id).seq, ((s.heap.leaf row.id).keys[0]).getD garbage,
      (s.heap.leaf row.id).values[0]⟩, ?_, ?_⟩
    · simp [BPlusTree.seekToFirst, BPlusTree.load, isFirst, inKeys, inValues]
    · simp [Cursor.valid, zero]

def Behind (s : State Val) (rows : List (Row Val)) (cursor : Cursor Val) : Prop :=
  ∃ front row back val, rows = front ++ row :: back ∧ cursor.node = some row.id ∧
    cursor.seq < (s.heap.leaf row.id).seq ∧ (cursor.key, val) ∈ contents (row :: back)

theorem contents_at (front back : List (Row Val)) {entry : Key × Val}
    (shape : row.entries = before ++ entry :: after) :
    contents (front ++ row :: back) =
      (contents front ++ before) ++ entry :: (after ++ contents back) := by
  rw [contents_append, contents_cons, shape]
  simp

theorem Layout.cut_at (layout : Layout heap rows)
    (shape : contents rows = before ++ (key, val) :: after) :
    (∀ entry ∈ before, entry.1 < key) ∧ ∀ entry ∈ after, key < entry.1 := by
  have increasing := layout.contents_increasing
  rw [shape] at increasing
  obtain ⟨-, later, apart⟩ := List.pairwise_append.mp increasing
  exact ⟨fun entry mem => apart entry mem _ List.mem_cons_self,
    (List.pairwise_cons.mp later).1⟩

theorem Represents.next_on (represents : Represents s rows) (on : On s rows cursor.key val cursor)
    (garbage : Key) :
    ∃ cursor' before after, next garbage s cursor = some (cursor', true) ∧
      BPlusTree.contents rows = before ++ after ∧ (∀ entry ∈ before, entry.1 ≤ cursor.key) ∧
      (∀ entry ∈ after, cursor.key < entry.1) ∧ Forward s rows after cursor' := by
  obtain ⟨front, row, back, before, after, rfl, shape, isCursor⟩ := on
  have layout := represents.layout
  have all := contents_at front back shape
  obtain ⟨below, above⟩ := layout.cut_at all
  have shape' : row.entries = (before ++ [(cursor.key, val)]) ++ after := by
    rw [shape]
    simp
  obtain ⟨cursor', arrived, forward⟩ := layout.arrive shape' garbage cursor
  refine ⟨cursor', BPlusTree.contents front ++ before ++ [(cursor.key, val)],
    after ++ BPlusTree.contents back, ?_, by rw [all]; simp, ?_, above, forward⟩
  · rw [List.length_append] at arrived
    have node : cursor.node = some row.id := by rw [isCursor]
    have seq : (s.heap.leaf row.id).seq = cursor.seq := by rw [isCursor]
    have index : cursor.leafIndex = before.length := by rw [isCursor]
    simp only [BPlusTree.next, node, seq, index, Option.bind_eq_bind, Option.bind_some, if_true]
    rw [show before.length + 1 = before.length + [(cursor.key, val)].length from rfl, arrived]
    rfl
  · intro entry mem
    rcases List.mem_append.mp mem with inBefore | isLast
    · exact Nat.le_of_lt (below entry inBefore)
    · exact Nat.le_of_eq (by rw [List.mem_singleton.mp isLast])

theorem Represents.prev_on (represents : Represents s rows) (on : On s rows cursor.key val cursor)
    (garbage : Key) :
    ∃ cursor' before after, prev garbage s cursor = some (cursor', true) ∧
      BPlusTree.contents rows = before ++ after ∧ (∀ entry ∈ before, entry.1 < cursor.key) ∧
      (∀ entry ∈ after, cursor.key ≤ entry.1) ∧ Backward s rows before cursor' := by
  obtain ⟨front, row, back, before, after, rfl, shape, isCursor⟩ := on
  have layout := represents.layout
  have all := contents_at front back shape
  obtain ⟨below, above⟩ := layout.cut_at all
  obtain ⟨cursor', arrived, backward⟩ := layout.retreat shape garbage cursor
  refine ⟨cursor', _, _, ?_, all, below, ?_, backward⟩
  · have node : cursor.node = some row.id := by rw [isCursor]
    have seq : (s.heap.leaf row.id).seq = cursor.seq := by rw [isCursor]
    have index : cursor.leafIndex = before.length := by rw [isCursor]
    simp only [BPlusTree.prev, node, seq, index, Option.bind_eq_bind, Option.bind_some, if_true,
      arrived]
    rfl
  · intro entry mem
    rcases List.mem_cons.mp mem with rfl | later
    · exact Nat.le_refl _
    · exact Nat.le_of_lt (above entry later)

theorem Represents.search_behind (represents : Represents s (front ++ row :: back))
    (mem : (key, val) ∈ BPlusTree.contents (row :: back)) (pass : Key → Bool)
    (decreasing : ∀ x y, x < y → pass y = true → pass x = true)
    (below : ∀ x, x < key → pass x = true) :
    ((∀ entry ∈ BPlusTree.contents (front ++ row :: back), pass entry.1 = true) ∧
        ∃ id, search s pass s.leaves.length row.id = some (id, none)) ∨
      ∃ frontRows last backRows before found value after,
        front ++ row :: back = frontRows ++ last :: backRows ∧
        last.entries = before ++ (found, value) :: after ∧
        search s pass s.leaves.length row.id = some (last.id, some before.length) ∧
        (∀ entry ∈ BPlusTree.contents frontRows ++ before, pass entry.1 = true) ∧
        pass found = false := by
  have layout := represents.layout
  have low : row.bound ≤ key := (split_by_bound layout.before
    fun other inside => layout.ordered other (List.mem_append_right _ inside)).2 _ mem
  have earlier : ∀ entry ∈ BPlusTree.contents front, pass entry.1 = true :=
    fun entry inFront => below _ (layout.front_lt low entry inFront)
  have enough : back.length < s.leaves.length := by
    rw [represents.leaves]
    simp only [List.length_map, List.length_append, List.length_cons]
    omega
  rcases layout.search decreasing enough with ⟨all, id, ended⟩ |
    ⟨middle, last, rest, before, found, value, after, split, shape, stopped, passed, fails⟩
  · refine .inl ⟨?_, id, ended⟩
    intro entry inside
    rw [contents_append, List.mem_append] at inside
    exact inside.elim (earlier entry) (all entry)
  · refine .inr ⟨front ++ middle, last, rest, before, found, value, after, by rw [split]; simp, shape,
      stopped, ?_, fails⟩
    intro entry inside
    rw [contents_append, List.append_assoc, List.mem_append] at inside
    exact inside.elim (earlier entry) (passed entry)

theorem Represents.next_behind (represents : Represents s rows) (behind : Behind s rows cursor)
    (garbage : Key) :
    ∃ cursor' before after, next garbage s cursor = some (cursor', false) ∧
      BPlusTree.contents rows = before ++ after ∧ (∀ entry ∈ before, entry.1 ≤ cursor.key) ∧
      (∀ entry ∈ after, cursor.key < entry.1) ∧ Forward s rows after cursor' := by
  obtain ⟨front, row, back, val, rfl, node, older, mem⟩ := behind
  have moved : (s.heap.leaf row.id).seq ≠ cursor.seq := (Nat.ne_of_lt older).symm
  rcases represents.search_behind mem (fun other => other ≤ cursor.key)
      (fun x y less => by
        simp only [decide_eq_true_eq]
        exact fun le => Nat.le_of_lt (Nat.lt_of_lt_of_le less le))
      (fun x less => by simpa using Nat.le_of_lt less) with ⟨all, id, ended⟩ |
    ⟨frontRows, last, backRows, before, found, value, after, split, shape, stopped, passed, fails⟩
  · refine ⟨{ cursor with node := none }, BPlusTree.contents (front ++ row :: back), [], ?_, by simp,
      fun entry inside => by simpa using all entry inside, by simp, .inl ⟨rfl, rfl⟩⟩
    simp only [BPlusTree.next, node, Option.bind_eq_bind, Option.bind_some, if_neg moved, ended]
    rfl
  have layout := represents.layout
  rw [split] at layout ⊢
  have all := contents_at frontRows backRows shape
  obtain ⟨-, above⟩ := layout.cut_at all
  have beyond : cursor.key < found := by simpa using fails
  obtain ⟨cursor', arrived, forward⟩ := layout.arrive shape garbage cursor
  refine ⟨cursor', _, _, ?_, all, fun entry inside => by simpa using passed entry inside, ?_, forward⟩
  · simp only [BPlusTree.next, node, Option.bind_eq_bind, Option.bind_some, if_neg moved, stopped,
      arrived]
    rfl
  · intro entry inside
    rcases List.mem_cons.mp inside with rfl | later
    · exact beyond
    · exact Nat.lt_trans beyond (above entry later)

theorem Represents.prev_behind (represents : Represents s rows) (behind : Behind s rows cursor)
    (garbage : Key) :
    ∃ cursor' before after, prev garbage s cursor = some (cursor', false) ∧
      BPlusTree.contents rows = before ++ after ∧ (∀ entry ∈ before, entry.1 < cursor.key) ∧
      (∀ entry ∈ after, cursor.key ≤ entry.1) ∧ Backward s rows before cursor' := by
  obtain ⟨front, row, back, val, rfl, node, older, mem⟩ := behind
  have moved : (s.heap.leaf row.id).seq ≠ cursor.seq := (Nat.ne_of_lt older).symm
  rcases represents.search_behind mem (fun other => other < cursor.key)
      (fun x y less => by
        simp only [decide_eq_true_eq]
        exact Nat.lt_trans less)
      (fun x less => by simpa using less) with ⟨all, id, ended⟩ |
    ⟨frontRows, last, backRows, before, found, value, after, split, shape, stopped, passed, fails⟩
  · -- the key is there, so the loop does not run off the end
    have itself := all (cursor.key, val) (by
      rw [contents_append]
      exact List.mem_append_right _ mem)
    simp at itself
  have layout := represents.layout
  rw [split] at layout ⊢
  have all := contents_at frontRows backRows shape
  obtain ⟨-, above⟩ := layout.cut_at all
  have reached : cursor.key ≤ found := by simpa using fails
  obtain ⟨cursor', arrived, backward⟩ := layout.retreat shape garbage cursor
  refine ⟨cursor', _, _, ?_, all, fun entry inside => by simpa using passed entry inside, ?_, backward⟩
  · simp only [BPlusTree.prev, node, Option.bind_eq_bind, Option.bind_some, if_neg moved, stopped,
      Option.getD_some, arrived]
    rfl
  · intro entry inside
    rcases List.mem_cons.mp inside with rfl | later
    · exact reached
    · exact Nat.le_of_lt (Nat.lt_of_le_of_lt reached (above entry later))

end EunoDb.BPlusTree
