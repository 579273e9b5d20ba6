import EunoDb.BPlusCursor

/-! An iterator among insertions. -/

namespace EunoDb.BPlusTree

open Execution

variable {Val : Type}

structure Positioned (closer : Key → Key → Prop) (w : World Val) (wanted : Key → Prop)
    (cursor : Cursor Val) : Prop where
  valid : cursor.valid w.index = true ↔ ∃ key val, w.inserted.lookup key = some val ∧ wanted key
  meets : cursor.valid w.index = true → wanted cursor.key
  value : cursor.valid w.index = true → cursor.value.isSome ∧
    w.inserted.lookup cursor.key = cursor.value
  closest : cursor.valid w.index = true → ∀ key val, w.inserted.lookup key = some val →
    wanted key → closer cursor.key key

structure Scanned (w : World Val) (low : Key) : Prop where
  increasing : w.visited.Pairwise (· < ·)
  low_le : ∀ key ∈ w.visited, low ≤ key
  complete : ∀ key val, w.present.lookup key = some val → low ≤ key →
    (w.valid = true → key ≤ w.cursor.key) → key ∈ w.visited

structure Correct (garbage : Key) (w : World Val) : Prop where
  seek : ∀ key, ∃ cursor, seek garbage w.index w.cursor key = some cursor ∧
    Positioned (· ≤ ·) w (key ≤ ·) cursor
  seekToFirst : w.inserted ≠ [] → ∃ cursor, seekToFirst garbage w.index = some cursor ∧
    Positioned (· ≤ ·) w (fun _ => True) cursor
  next : w.valid = true → ∃ cursor, next garbage w.index w.cursor = some (cursor, !w.changed) ∧
    Positioned (· ≤ ·) w (w.cursor.key < ·) cursor
  prev : w.valid = true → ∃ cursor, prev garbage w.index w.cursor = some (cursor, !w.changed) ∧
    Positioned (· ≥ ·) w (· < w.cursor.key) cursor
  scan : ∀ low, w.start = some low → Scanned w low

def seeksKeys (w : World Val) : Act Val → Prop
  | .seekToFirst => w.inserted ≠ []
  | _ => True

/-! ### The invariant -/

structure Tracks (w : World Val) (rows : List (Row Val)) : Prop where
  represents : Represents w.index rows
  values : FirstValues rows w.inserted
  cursor : w.cursor.node = none ∨
    (w.changed = false ∧ ∃ val, On w.index rows w.cursor.key val w.cursor) ∨
    (w.changed = true ∧ Behind w.index rows w.cursor)

variable {s : State Val} {rows : List (Row Val)} {row : Row Val} {key low : Key} {val found : Val}
  {cursor : Cursor Val} {w : World Val} {wanted : Key → Prop} {heap heap' : Heap Val}
  {sibling : Option LeafId}

theorem Layout.valid (layout : Layout s.heap rows) (mem : row ∈ rows)
    (some_ : contents rows ≠ []) : 0 < (s.heap.leaf row.id).numKeys := by
  rw [(layout.holds row mem).num]
  refine List.length_pos_iff.mpr ?_
  by_cases several : 2 ≤ rows.length
  · exact layout.occupied several row mem
  -- the only leaf holds all keys
  cases rows with
  | nil => simp at mem
  | cons first rest =>
    cases rest with
    | cons second rest => simp at several
    | nil =>
      rw [List.mem_singleton.mp mem]
      simpa [contents] using some_

theorem On.valid (on : On s rows key val cursor) (layout : Layout s.heap rows) :
    cursor.valid s = true ∧ (key, val) ∈ contents rows ∧ cursor.key = key ∧
      cursor.value = some val := by
  obtain ⟨front, row, back, before, after, rfl, shape, rfl⟩ := on
  have holds := layout.holds row (by simp)
  refine ⟨?_, ?_, rfl, rfl⟩
  · simp only [Cursor.valid, holds.num, shape, List.length_append, List.length_cons,
      decide_eq_true_eq]
    omega
  · rw [contents_at front back shape]
    simp

variable {closer : Key → Key → Prop} {before after entries : List (Key × Val)}

theorem positioned_end (ended : cursor.node = none)
    (none_ : ∀ key val, w.inserted.lookup key = some val → ¬ wanted key) :
    Positioned closer w wanted cursor := by
  have invalid : cursor.valid w.index = false := by simp [Cursor.valid, ended]
  refine ⟨⟨fun isValid => ?_, ?_⟩, fun isValid => ?_, fun isValid => ?_, fun isValid => ?_⟩
  case refine_2 =>
    rintro ⟨key, val, present, isWanted⟩
    exact absurd isWanted (none_ key val present)
  all_goals
    rw [invalid] at isValid
    cases isValid

theorem On.positioned (on : On w.index rows key val cursor) (layout : Layout w.index.heap rows)
    (values : FirstValues rows w.inserted) (isWanted : wanted key)

    (closest : ∀ other value, w.inserted.lookup other = some value → wanted other → closer key other) :
    Positioned closer w wanted cursor := by
  obtain ⟨valid, mem, rfl, isValue⟩ := on.valid layout
  have present := (values _ val).mp mem
  refine ⟨⟨fun _ => ⟨_, val, present, isWanted⟩, fun _ => valid⟩, fun _ => isWanted, fun _ => ?_,
    fun _ => closest⟩
  rw [isValue]
  exact ⟨rfl, present⟩

theorem Forward.positioned (forward : Forward w.index rows after cursor)
    (layout : Layout w.index.heap rows) (values : FirstValues rows w.inserted)
    (shape : contents rows = before ++ after) (below : ∀ entry ∈ before, ¬ wanted entry.1)
    (above : ∀ entry ∈ after, wanted entry.1) : Positioned (· ≤ ·) w wanted cursor := by
  have inAfter : ∀ key val, w.inserted.lookup key = some val → wanted key → (key, val) ∈ after := by
    intro key val present isWanted
    have mem := (values key val).mpr present
    rw [shape, List.mem_append] at mem
    exact mem.resolve_left fun early => below _ early isWanted
  rcases forward with ⟨rfl, ended⟩ | ⟨key, val, rest, rfl, on⟩
  · exact positioned_end ended fun key val present isWanted =>
      List.not_mem_nil (inAfter key val present isWanted)
  refine on.positioned layout values (above _ List.mem_cons_self) ?_
  intro other value present isWanted
  rcases List.mem_cons.mp (inAfter other value present isWanted) with same | later
  · cases same
    exact Nat.le_refl _
  · exact Nat.le_of_lt ((layout.cut_at shape).2 _ later)

theorem Backward.positioned (backward : Backward w.index rows before cursor)
    (layout : Layout w.index.heap rows) (values : FirstValues rows w.inserted)
    (shape : contents rows = before ++ after) (below : ∀ entry ∈ before, wanted entry.1)
    (above : ∀ entry ∈ after, ¬ wanted entry.1) : Positioned (· ≥ ·) w wanted cursor := by
  have inBefore : ∀ key val, w.inserted.lookup key = some val → wanted key → (key, val) ∈ before := by
    intro key val present isWanted
    have mem := (values key val).mpr present
    rw [shape, List.mem_append] at mem
    exact mem.resolve_right fun late => above _ late isWanted
  rcases backward with ⟨rfl, ended⟩ | ⟨key, val, rest, rfl, on⟩
  · exact positioned_end ended fun key val present isWanted =>
      List.not_mem_nil (inBefore key val present isWanted)
  refine on.positioned layout values (below (key, val) (by simp)) ?_
  intro other value present isWanted
  rw [List.append_assoc] at shape
  rcases List.mem_append.mp (inBefore other value present isWanted) with early | last
  · exact Nat.le_of_lt ((layout.cut_at shape).1 _ early)
  · cases List.mem_singleton.mp last
    exact Nat.le_refl _

/-! ### Each operation -/

theorem Tracks.contents_ne_nil (tracks : Tracks w rows) (some_ : w.inserted ≠ []) :
    contents rows ≠ [] := by
  obtain ⟨⟨key, val⟩, rest, shape⟩ := List.exists_cons_of_ne_nil some_
  have mem := (tracks.values key val).mpr (by rw [shape]; simp)
  exact List.ne_nil_of_mem mem

theorem Tracks.moves (tracks : Tracks w rows) (valid : w.valid = true) (garbage : Key) :
    (∃ cursor before after, next garbage w.index w.cursor = some (cursor, !w.changed) ∧
      contents rows = before ++ after ∧ (∀ entry ∈ before, entry.1 ≤ w.cursor.key) ∧
      (∀ entry ∈ after, w.cursor.key < entry.1) ∧ Forward w.index rows after cursor) ∧
    ∃ cursor before after, prev garbage w.index w.cursor = some (cursor, !w.changed) ∧
      contents rows = before ++ after ∧ (∀ entry ∈ before, entry.1 < w.cursor.key) ∧
      (∀ entry ∈ after, w.cursor.key ≤ entry.1) ∧ Backward w.index rows before cursor := by
  rcases tracks.cursor with ended | ⟨same, val, on⟩ | ⟨moved, behind⟩
  · simp [World.valid, Cursor.valid, ended] at valid
  · rw [same]
    exact ⟨tracks.represents.next_on on garbage, tracks.represents.prev_on on garbage⟩
  · rw [moved]
    exact ⟨tracks.represents.next_behind behind garbage,
      tracks.represents.prev_behind behind garbage⟩

def Standing (s : State Val) (rows : List (Row Val)) (cursor : Cursor Val) : Prop :=
  cursor.node = none ∨ ∃ val, On s rows cursor.key val cursor

theorem Forward.standing (forward : Forward s rows entries cursor) (layout : Layout s.heap rows) :
    Standing s rows cursor := by
  rcases forward with ⟨-, ended⟩ | ⟨key, val, rest, -, on⟩
  · exact .inl ended
  · obtain ⟨-, -, rfl, -⟩ := on.valid layout
    exact .inr ⟨val, on⟩

theorem Backward.standing (backward : Backward s rows entries cursor)
    (layout : Layout s.heap rows) : Standing s rows cursor := by
  rcases backward with ⟨-, ended⟩ | ⟨key, val, rest, -, on⟩
  · exact .inl ended
  · obtain ⟨-, -, rfl, -⟩ := on.valid layout
    exact .inr ⟨val, on⟩

section

variable (tracks : Tracks w rows)

include tracks

theorem Tracks.seek (garbage : Key) (key : Key) :
    ∃ cursor, seek garbage w.index w.cursor key = some cursor ∧
      Positioned (· ≤ ·) w (key ≤ ·) cursor ∧ Standing w.index rows cursor := by
  have layout := tracks.represents.layout
  obtain ⟨cursor, before, after, found, shape, below, above, forward⟩ :=
    tracks.represents.seek garbage w.cursor key
  exact ⟨cursor, found, forward.positioned layout tracks.values shape
    (fun entry mem => Nat.not_le.mpr (below entry mem)) above, forward.standing layout⟩

theorem Tracks.seekToFirst (garbage : Key) (some_ : w.inserted ≠ []) :
    ∃ cursor, seekToFirst garbage w.index = some cursor ∧
      Positioned (· ≤ ·) w (fun _ => True) cursor ∧ Standing w.index rows cursor := by
  have layout := tracks.represents.layout
  obtain ⟨cursor, found, forward⟩ :=
    tracks.represents.seekToFirst (tracks.contents_ne_nil some_) garbage
  exact ⟨cursor, found, forward.positioned layout tracks.values (List.nil_append _).symm (by simp)
    (by simp), forward.standing layout⟩

theorem Tracks.next (garbage : Key) (valid : w.valid = true) :
    ∃ cursor, next garbage w.index w.cursor = some (cursor, !w.changed) ∧
      Positioned (· ≤ ·) w (w.cursor.key < ·) cursor ∧ Standing w.index rows cursor := by
  have layout := tracks.represents.layout
  obtain ⟨cursor, before, after, found, shape, below, above, forward⟩ :=
    (tracks.moves valid garbage).1
  exact ⟨cursor, found, forward.positioned layout tracks.values shape
    (fun entry mem => Nat.not_lt.mpr (below entry mem)) above, forward.standing layout⟩

theorem Tracks.prev (garbage : Key) (valid : w.valid = true) :
    ∃ cursor, prev garbage w.index w.cursor = some (cursor, !w.changed) ∧
      Positioned (· ≥ ·) w (· < w.cursor.key) cursor ∧ Standing w.index rows cursor := by
  have layout := tracks.represents.layout
  obtain ⟨cursor, before, after, found, shape, below, above, backward⟩ :=
    (tracks.moves valid garbage).2
  exact ⟨cursor, found, backward.positioned layout tracks.values shape below
    (fun entry mem => Nat.not_lt.mpr (above entry mem)), backward.standing layout⟩

theorem Tracks.position (standing : Standing w.index rows cursor) :
    Tracks (w.position cursor) rows := by
  refine ⟨tracks.represents, tracks.values, ?_⟩
  rcases standing with ended | on
  · exact .inl ended
  · exact .inr (.inl ⟨rfl, on⟩)

end

/-! ### Insertions -/

section

variable (outcome : Outcome heap row key val heap' sibling found rows)

include outcome

theorem Outcome.kept : ∀ entry ∈ row.entries, entry ∈ contents rows := by
  intro entry mem
  cases outcome with
  | present => simpa [contents] using mem
  | filled shape below above filled =>
    rw [shape, List.mem_append] at mem
    simp only [contents, List.flatMap_cons, List.flatMap_nil, List.append_nil, List.mem_append,
      List.mem_cons]
    tauto
  | divided shape below above join lowerSome shorter divided seq =>
    rw [shape, List.mem_append] at mem
    simp only [contents, List.flatMap_cons, List.flatMap_nil, List.append_nil, join,
      List.mem_append, List.mem_cons]
    tauto

theorem Outcome.head :
    ∃ row' rest, rows = row' :: rest ∧ row'.id = row.id ∧
      ((row'.entries = row.entries ∧ (heap'.leaf row.id).seq = (heap.leaf row.id).seq) ∨
        (row'.entries.map Prod.fst ≠ row.entries.map Prod.fst ∧
          (heap.leaf row.id).seq < (heap'.leaf row.id).seq)) := by
  cases outcome with
  | present => exact ⟨row, [], rfl, rfl, .inl ⟨rfl, rfl⟩⟩
  | filled shape below above filled =>
    refine ⟨_, [], rfl, rfl, .inr ⟨fun same => ?_, by rw [filled.seq]; exact Nat.lt_succ_self _⟩⟩
    have length := congrArg List.length same
    simp only [shape, List.length_map, List.length_append, List.length_cons] at length
    omega
  | @divided _ before after lower upper separator first shape below above join lowerSome shorter divided seq =>
    refine ⟨_, _, rfl, rfl, .inr ⟨fun same => ?_, by rw [seq]; exact Nat.lt_succ_self _⟩⟩
    have length := congrArg List.length same
    rw [List.length_map, List.length_map] at length
    exact Nat.ne_of_lt shorter length

theorem Outcome.other {other : LeafId} (different : other ≠ row.id) (used : other ≠ heap.next) :
    (heap'.leaf other).seq = (heap.leaf other).seq := by
  cases outcome with
  | present => rfl
  | filled shape below above filled => rw [filled.others other different]
  | divided shape below above join lowerSome shorter divided seq =>
    by_cases isRight : (heap.leaf row.id).right = some other
    · rw [divided.neighbour other isRight]
    · rw [divided.others other different used isRight]

end

theorem append_cons_cases {α : Type} {front back earlier later : List α} {x y : α}
    (shape : front ++ x :: back = earlier ++ y :: later) :
    (∃ middle, front = earlier ++ y :: middle ∧ later = middle ++ x :: back) ∨
      (front = earlier ∧ x = y ∧ back = later) ∨
      ∃ middle, earlier = front ++ x :: middle ∧ back = middle ++ y :: later := by
  rcases List.append_eq_append_iff.mp shape with ⟨middle, rfl, cut⟩ | ⟨middle, rfl, cut⟩
  · cases middle with
    | nil =>
      simp only [List.nil_append, List.cons.injEq] at cut
      exact .inr (.inl ⟨by simp, cut⟩)
    | cons first middle =>
      simp only [List.cons_append, List.cons.injEq] at cut
      exact .inr (.inr ⟨middle, by rw [cut.1], cut.2⟩)
  · cases middle with
    | nil =>
      simp only [List.nil_append, List.cons.injEq] at cut
      exact .inr (.inl ⟨by simp, cut.1.symm, cut.2.symm⟩)
    | cons first middle =>
      simp only [List.cons_append, List.cons.injEq] at cut
      exact .inl ⟨middle, by rw [cut.1], cut.2⟩

theorem Answers.leaf {next : State Val} {front back : List (Row Val)}
    (answers : Answers s key val next found front row back rows)
    (layout : Layout s.heap (front ++ row :: back)) {earlier later : List (Row Val)}
    {other : Row Val} (shape : front ++ row :: back = earlier ++ other :: later) :
    ∃ earlier' other' later', front ++ rows ++ back = earlier' ++ other' :: later' ∧
      other'.id = other.id ∧
      (∀ entry ∈ BPlusTree.contents (other :: later),
        entry ∈ BPlusTree.contents (other' :: later')) ∧
      ((other'.entries = other.entries ∧
          (next.heap.leaf other.id).seq = (s.heap.leaf other.id).seq) ∨
        (other'.entries.map Prod.fst ≠ other.entries.map Prod.fst ∧
          (s.heap.leaf other.id).seq < (next.heap.leaf other.id).seq)) := by
  obtain ⟨sibling, outcome⟩ := answers.outcome
  have elsewhere : ∀ {row' : Row Val}, row' ∈ front ∨ row' ∈ back →
      (next.heap.leaf row'.id).seq = (s.heap.leaf row'.id).seq := by
    intro row' mem
    refine outcome.other (layout.others mem) (Nat.ne_of_lt (layout.used row' ?_))
    simp only [List.mem_append, List.mem_cons]
    tauto
  rcases append_cons_cases shape with ⟨middle, rfl, rfl⟩ | ⟨rfl, rfl, rfl⟩ | ⟨middle, rfl, rfl⟩
  · refine ⟨earlier, other, middle ++ rows ++ back, by simp, rfl, ?_,
      .inl ⟨rfl, elsewhere (.inl (by simp))⟩⟩
    intro entry mem
    rw [contents_cons, contents_append, contents_cons] at mem
    rw [contents_cons, contents_append, contents_append]
    simp only [List.mem_append] at mem ⊢
    have kept := outcome.kept entry
    tauto
  · obtain ⟨row', rest, rfl, sameId, effect⟩ := outcome.head
    refine ⟨front, row', rest ++ back, by simp, sameId, ?_, effect⟩
    intro entry mem
    rw [contents_cons, List.mem_append] at mem
    rw [← List.cons_append, contents_append, List.mem_append]
    exact mem.imp_left (outcome.kept entry)
  · exact ⟨front ++ rows ++ middle, other, later, by simp, rfl, fun entry mem => mem,
      .inl ⟨rfl, elsewhere (.inr (by simp))⟩⟩

theorem Tracks.valid_iff (tracks : Tracks w rows) : w.valid = true ↔ w.cursor.node ≠ none := by
  have layout := tracks.represents.layout
  rcases tracks.cursor with ended | ⟨-, val, on⟩ | ⟨-, front, row, back, val, rfl, node, -, mem⟩
  · simp [World.valid, Cursor.valid, ended]
  · refine ⟨fun _ => ?_, fun _ => (on.valid layout).1⟩
    obtain ⟨_, row, _, _, _, -, -, isCursor⟩ := on
    rw [isCursor]
    simp
  have some_ : contents (front ++ row :: back) ≠ [] := by
    rw [contents_append]
    exact List.ne_nil_of_mem (List.mem_append_right _ mem)
  have inRows : row ∈ front ++ row :: back := by simp
  have filled := layout.valid inRows some_
  simp [World.valid, Cursor.valid, node, filled]

theorem Tracks.insert (tracks : Tracks w rows) {index : State Val}
    (inserted : getSec w.index key val = some (index, found)) :
    ∃ rows', Tracks { w with
      index := index
      inserted := w.inserted ++ [(key, val)]
      changed := w.changed || w.cursor.keys index != w.cursor.keys w.index } rows' := by
  have layout := tracks.represents.layout
  obtain ⟨front, row, back, next, value, rows', rfl, answers⟩ := tracks.represents.getSec key val
  cases answers.returned.symm.trans inserted
  have layout' := answers.represents.layout
  refine ⟨front ++ rows' ++ back, answers.represents, (tracks.values.step answers layout).1, ?_⟩
  have keysOf : ∀ {heap : Heap Val} {rows : List (Row Val)}, Layout heap rows → ∀ {other}, other ∈ rows →
      (heap.leaf other.id).entries.map Prod.fst = other.entries.map Prod.fst :=
    fun layout _ mem => by rw [(layout.holds _ mem).entries_eq]
  rcases tracks.cursor with ended | ⟨same, value, on⟩ | ⟨moved, behind⟩
  · exact .inl ended
  · obtain ⟨earlier, other, later, before, after, shape, entries, isCursor⟩ := on
    obtain ⟨earlier', other', later', shape', sameId, kept, effect⟩ := answers.leaf layout shape
    have node : w.cursor.node = some other.id := by rw [isCursor]
    have oldKeys : w.cursor.keys w.index = some (other.entries.map Prod.fst) := by
      rw [Cursor.keys, node, Option.map_some, keysOf layout (by rw [shape]; simp)]
    have newKeys : w.cursor.keys index = some (other'.entries.map Prod.fst) := by
      rw [Cursor.keys, node, Option.map_some, ← sameId, keysOf layout' (by rw [shape']; simp)]
    dsimp only
    rw [same, oldKeys, newKeys, Bool.false_or]
    rcases effect with ⟨sameEntries, sameSeq⟩ | ⟨differ, higher⟩
    · refine .inr (.inl ⟨by rw [sameEntries]; simp, value, earlier', other', later', before, after,
        shape', sameEntries.trans entries, ?_⟩)
      rw [sameId, sameSeq]
      exact isCursor
    refine .inr (.inr ⟨by simpa using differ, earlier', other', later', value, shape',
      by rw [sameId]; exact node, ?_, kept _ ?_⟩)
    · rw [sameId, isCursor]
      exact higher
    · rw [contents_cons, entries]
      simp
  · obtain ⟨earlier, other, later, value, shape, node, older, mem⟩ := behind
    obtain ⟨earlier', other', later', shape', sameId, kept, effect⟩ := answers.leaf layout shape
    refine .inr (.inr ⟨by simp [moved], earlier', other', later', value, shape',
      by rw [sameId]; exact node, ?_, kept _ mem⟩)
    rw [sameId]
    rcases effect with ⟨-, sameSeq⟩ | ⟨-, higher⟩
    · rw [sameSeq]
      exact older
    · exact Nat.lt_trans older higher

/-! ### Scans -/

structure Scanning (w : World Val) (low : Key) : Prop where
  scanned : Scanned w low
  reached : w.valid = true → w.cursor.key ∈ w.visited
  behind : w.valid = true → ∀ key ∈ w.visited, key ≤ w.cursor.key
  kept : ∀ key val, w.present.lookup key = some val → w.inserted.lookup key = some val

theorem scanning_begin (positioned : Positioned (· ≤ ·) w (low ≤ ·) cursor) :
    Scanning ((w.begin low).position cursor) low := by
  cases valid : cursor.valid w.index with
  | false =>
    have visited : ((w.begin low).position cursor).visited = [] := by
      simp [World.position, World.begin, valid]
    have ended : ((w.begin low).position cursor).valid = false := valid
    refine ⟨⟨by rw [visited]; exact .nil, by simp [visited], ?_⟩, by simp [ended], by simp [ended],
      fun key val known => known⟩
    intro key val known above _
    have isValid := positioned.valid.mpr ⟨key, val, known, above⟩
    rw [valid] at isValid
    cases isValid
  | true =>
    have visited : ((w.begin low).position cursor).visited = [cursor.key] := by
      simp [World.position, World.begin, valid]
    have isValid : ((w.begin low).position cursor).valid = true := valid
    refine ⟨⟨by rw [visited]; exact List.pairwise_singleton _ _, ?_, ?_⟩, ?_, ?_,
      fun key val known => known⟩
    · intro key mem
      rw [visited, List.mem_singleton] at mem
      rw [mem]
      exact positioned.meets valid
    · intro key val known above inRange
      rw [visited, List.mem_singleton]
      exact Nat.le_antisymm (inRange isValid) (positioned.closest valid key val known above)
    · intro _
      rw [visited]
      exact List.mem_singleton.mpr rfl
    · intro _ key mem
      rw [visited, List.mem_singleton] at mem
      exact Nat.le_of_eq mem

theorem Scanning.next (scanning : Scanning w low) (here : w.valid = true)
    (positioned : Positioned (· ≤ ·) w (w.cursor.key < ·) cursor) :
    Scanning (w.position cursor) low := by
  obtain ⟨⟨increasing, low_le, complete⟩, reached, behind, kept⟩ := scanning
  -- a key of the range is behind the old position, or at the new one
  cases valid : cursor.valid w.index with
  | false =>
    have visited : (w.position cursor).visited = w.visited := by simp [World.position, valid]
    have ended : (w.position cursor).valid = false := valid
    refine ⟨⟨by rw [visited]; exact increasing, by rw [visited]; exact low_le, ?_⟩,
      by simp [ended], by simp [ended], kept⟩
    intro key val known above _
    rw [visited]
    refine complete key val known above fun _ => Nat.le_of_not_lt fun beyond => ?_
    have isValid := positioned.valid.mpr ⟨key, val, kept key val known, beyond⟩
    rw [valid] at isValid
    cases isValid
  | true =>
    have visited : (w.position cursor).visited = w.visited ++ [cursor.key] := by
      simp [World.position, valid]
    have isValid : (w.position cursor).valid = true := valid
    have beyond := positioned.meets valid
    refine ⟨⟨?_, ?_, ?_⟩, ?_, ?_, kept⟩
    · rw [visited]
      refine List.pairwise_append.mpr ⟨increasing, List.pairwise_singleton _ _, ?_⟩
      intro key mem other isNew
      rw [List.mem_singleton.mp isNew]
      exact Nat.lt_of_le_of_lt (behind here key mem) beyond
    · intro key mem
      rw [visited, List.mem_append, List.mem_singleton] at mem
      rcases mem with earlier | rfl
      · exact low_le key earlier
      · exact Nat.le_trans (low_le _ (reached here)) (Nat.le_of_lt beyond)
    · intro key val known above inRange
      rw [visited, List.mem_append, List.mem_singleton]
      rcases Nat.lt_or_ge w.cursor.key key with later | earlier
      · refine .inr (Nat.le_antisymm (inRange isValid) ?_)
        exact positioned.closest valid key val (kept key val known) later
      · exact .inl (complete key val known above fun _ => earlier)
    · intro _
      rw [visited]
      exact List.mem_append_right _ (List.mem_singleton.mpr rfl)
    · intro _ key mem
      rw [visited, List.mem_append, List.mem_singleton] at mem
      rcases mem with earlier | rfl
      · exact Nat.le_of_lt (Nat.lt_of_le_of_lt (behind here key earlier) beyond)
      · exact Nat.le_refl _

/-! ### Runs -/

structure Invariant (w : World Val) : Prop where
  tracks : ∃ rows, Tracks w rows
  scanning : ∀ low, w.start = some low → Scanning w low

theorem Invariant.correct (invariant : Invariant w) (garbage : Key) : Correct garbage w := by
  obtain ⟨⟨rows, tracks⟩, scanning⟩ := invariant
  refine ⟨fun key => ?_, fun some_ => ?_, fun valid => ?_, fun valid => ?_,
    fun low begun => (scanning low begun).scanned⟩
  · obtain ⟨cursor, found, positioned, -⟩ := tracks.seek garbage key
    exact ⟨cursor, found, positioned⟩
  · obtain ⟨cursor, found, positioned, -⟩ := tracks.seekToFirst garbage some_
    exact ⟨cursor, found, positioned⟩
  · obtain ⟨cursor, found, positioned, -⟩ := tracks.next garbage valid
    exact ⟨cursor, found, positioned⟩
  · obtain ⟨cursor, found, positioned, -⟩ := tracks.prev garbage valid
    exact ⟨cursor, found, positioned⟩

theorem Scanning.insert {next : World Val} (scanning : Scanning w low)
    (valid : next.valid = w.valid) (cursor : next.cursor = w.cursor)
    (visited : next.visited = w.visited) (present : next.present = w.present)
    (inserted : next.inserted = w.inserted ++ [(key, val)]) : Scanning next low := by
  obtain ⟨⟨increasing, low_le, complete⟩, reached, behind, kept⟩ := scanning
  refine ⟨⟨?_, ?_, ?_⟩, ?_, ?_, ?_⟩
  · rw [visited]
    exact increasing
  · rw [visited]
    exact low_le
  · rw [visited, present, valid, cursor]
    exact complete
  · rw [visited, valid, cursor]
    exact reached
  · rw [visited, valid, cursor]
    exact behind
  · intro other value known
    rw [present] at known
    rw [inserted, List.lookup_append, kept other value known]
    rfl

theorem Invariant.step {garbage : Key} {after : World Val} {act : Act Val} (invariant : Invariant w)
    (allowed : seeksKeys w act) (taken : step garbage w act = some after) : Invariant after := by
  obtain ⟨⟨rows, tracks⟩, scanning⟩ := invariant
  cases act with
  | insert key val =>
    obtain ⟨⟨index, found⟩, inserted, isNext⟩ := Option.bind_eq_some_iff.mp taken
    obtain ⟨rows', tracks'⟩ := tracks.insert inserted
    cases isNext
    have same := tracks'.valid_iff.trans tracks.valid_iff.symm
    exact ⟨⟨rows', tracks'⟩, fun low begun =>
      (scanning low begun).insert (Bool.eq_iff_iff.mpr same) rfl rfl rfl rfl⟩
  | seek key =>
    obtain ⟨cursor, found, positioned, standing⟩ := tracks.seek garbage key
    have begun : Tracks (w.begin key) rows := ⟨tracks.represents, tracks.values, tracks.cursor⟩
    simp only [BPlusTree.step, found, Option.bind_eq_bind, Option.bind_some] at taken
    cases taken
    refine ⟨⟨rows, begun.position standing⟩, ?_⟩
    rintro low ⟨⟩
    exact scanning_begin positioned
  | seekToFirst =>
    obtain ⟨cursor, found, positioned, standing⟩ := tracks.seekToFirst garbage allowed
    have begun : Tracks (w.begin 0) rows := ⟨tracks.represents, tracks.values, tracks.cursor⟩
    simp only [BPlusTree.step, found, Option.bind_eq_bind, Option.bind_some] at taken
    cases taken
    refine ⟨⟨rows, begun.position standing⟩, ?_⟩
    rintro low ⟨⟩
    have fromZero : Positioned (· ≤ ·) w (0 ≤ ·) cursor := by simpa using positioned
    exact scanning_begin fromZero
  | next =>
    cases valid : w.valid with
    | false => simp [BPlusTree.step, valid] at taken
    | true =>
      obtain ⟨cursor, found, positioned, standing⟩ := tracks.next garbage valid
      simp only [BPlusTree.step, valid, if_true, found, Option.bind_eq_bind, Option.bind_some]
        at taken
      cases taken
      exact ⟨⟨rows, tracks.position standing⟩,
        fun low begun => (scanning low begun).next valid positioned⟩
  | prev =>
    cases valid : w.valid with
    | false => simp [BPlusTree.step, valid] at taken
    | true =>
      obtain ⟨cursor, found, positioned, standing⟩ := tracks.prev garbage valid
      simp only [BPlusTree.step, valid, if_true, found, Option.bind_eq_bind, Option.bind_some]
        at taken
      cases taken
      have placed := tracks.position standing
      refine ⟨⟨rows, placed.represents, placed.values, placed.cursor⟩, ?_⟩
      rintro low ⟨⟩

theorem created_invariant : Invariant ({} : World Val) := by
  refine ⟨⟨_, empty_represents, fun key val => by simp [contents], .inl rfl⟩, ?_⟩
  rintro low ⟨⟩

/-- Unless `SeekToFirst` is run on an empty index the iterator works at every moment of
every run: each operation ends on the right key or at the end, it says whether its leaf
has changed, and a scan has visited all of its range. -/
theorem iterator_correct (garbage : Key) {acts : List (Act Val)} {w : World Val}
    (allowed : Each (step garbage) seeksKeys {} acts) (reached : run (step garbage) {} acts = some w) :
    Correct garbage w :=
  have kept : ∀ (w : World Val) act next, Invariant w → seeksKeys w act →
      step garbage w act = some next → Invariant next :=
    fun _ _ _ invariant allowed taken => invariant.step allowed taken
  (run_preserves kept created_invariant allowed reached).correct garbage

instance (w : World Val) : (act : Act Val) → Decidable (seeksKeys w act)
  | .seekToFirst => inferInstanceAs (Decidable (w.inserted ≠ []))
  | .insert _ _ => inferInstanceAs (Decidable True)
  | .seek _ => inferInstanceAs (Decidable True)
  | .next => inferInstanceAs (Decidable True)
  | .prev => inferInstanceAs (Decidable True)

def overtaken : List (Act Nat) :=
  [.insert 3 30, .insert 5 50, .seekToFirst, .insert 4 40, .next]

theorem iterator_correct_overtaken :
    ∃ w, run (step 100) {} overtaken = some w ∧ w.visited = [3, 4] ∧ Correct 100 w := by
  have visited : (run (step 100) {} overtaken).map World.visited = some [3, 4] := by decide +kernel
  obtain ⟨w, reached, keys⟩ := Option.map_eq_some_iff.mp visited
  exact ⟨w, reached, keys, iterator_correct 100 (by decide +kernel) reached⟩

/-- On an empty index `SeekToFirst` leaves the iterator on the empty leaf with whatever
is in its first slot, here 100. The first insertion makes it valid, and then `Prev` does
not find the 5 that is below 100. -/
theorem prev_misses_key :
    ∃ w : World Nat, run (step 100) {} [.seekToFirst, .insert 5 50] = some w ∧ w.valid = true ∧
      ¬ Correct 100 w := by
  refine ⟨_, rfl, rfl, fun correct => ?_⟩
  obtain ⟨cursor, moved, positioned⟩ := correct.prev rfl
  have ended : cursor.node = none := by
    cases moved
    rfl
  have valid := positioned.valid.mpr ⟨5, 50, rfl, by decide⟩
  simp [Cursor.valid, ended] at valid

end EunoDb.BPlusTree
