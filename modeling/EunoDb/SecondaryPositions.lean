import EunoDb.SecondaryIterator

/-! Where the calls of the secondary iterators end. -/

namespace EunoDb.SecondaryIterator

open BPlusTree SecondIndex IndexRead Visibility ScanLoop Execution

/-! ### The index iterator enumerates -/

section

variable {t : Table} {rows : List (Row (Option NodeId))} {garbage : Key}

def Placed (t : Table) (rows : List (Row (Option NodeId))) (cursor : TreeCursor) : Prop :=
  cursor.valid t.index.tree = true → ∃ val, On t.index.tree rows cursor.key val cursor

variable {cursor : TreeCursor} {val : Option NodeId}

theorem placed_ended (ended : cursor.node = none) : Placed t rows cursor := by
  simp [Placed, Cursor.valid, ended]

theorem entry_ended (ended : cursor.node = none) : entry t.index.tree cursor = none := by
  simp [entry, Cursor.valid, ended]

theorem entry_on (represents : Represents t.index.tree rows) {key : Key}
    (on : On t.index.tree rows key val cursor) : entry t.index.tree cursor = some (key, val) := by
  obtain ⟨valid, -, isKey, isValue⟩ := on.valid represents.layout
  simp [entry, curNode, valid, isKey, isValue]

variable {before after : List Entry}

section

variable (represents : Represents t.index.tree rows)

include represents

theorem yields_forward (forward : Forward t.index.tree rows after cursor)
    (shape : contents rows = before ++ after) :
    Yields (entry t.index.tree) (moveNext t garbage) (Placed t rows) cursor after := by
  induction after generalizing before cursor with
  | nil =>
    obtain ⟨-, ended⟩ | ⟨_, _, _, impossible, -⟩ := forward
    · exact .ended (placed_ended ended) (entry_ended ended)
    · cases impossible
  | cons e rest ih =>
    obtain ⟨impossible, -⟩ | ⟨key, val, rest', isCons, on⟩ := forward
    · cases impossible
    obtain ⟨rfl, rfl⟩ := List.cons.inj isCons
    have isKey : cursor.key = key := (on.valid represents.layout).2.2.1
    subst isKey
    obtain ⟨cursor', before', after', moved, shape', low, high, forward'⟩ :=
      represents.next_on on garbage
    obtain ⟨below, above⟩ := represents.layout.cut_at shape
    have same : (before ++ [(cursor.key, val)]) ++ rest = before' ++ after' := by
      rw [← shape', shape]
      simp
    obtain ⟨-, rfl⟩ := cut_unique (p := fun entry => decide (cursor.key < entry.1)) same
      (by
        intro entry mem
        rcases List.mem_append.mp mem with earlier | here
        · simpa using Nat.le_of_lt (below entry earlier)
        · simp [List.mem_singleton.mp here])
      (by simpa using above) (by simpa using low) (by simpa using high)
    refine .more (fun _ => ⟨val, on⟩) (entry_on represents on) ?_ (ih forward' shape')
    simp [moveNext, moved]

theorem yields_backward (backward : Backward t.index.tree rows before cursor)
    (shape : contents rows = before ++ after) :
    Yields (entry t.index.tree) (movePrev t garbage) (Placed t rows) cursor
      before.reverse := by
  -- on the last entry, where the iterator stands
  induction before using List.reverseRecOn generalizing after cursor with
  | nil =>
    obtain ⟨-, ended⟩ | ⟨_, _, _, impossible, -⟩ := backward
    · exact .ended (placed_ended ended) (entry_ended ended)
    · simp at impossible
  | append_singleton rest e ih =>
    obtain ⟨impossible, -⟩ | ⟨key, val, rest', isLast, on⟩ := backward
    · simp at impossible
    obtain ⟨rfl, same⟩ := List.append_inj' isLast rfl
    obtain rfl := List.singleton_inj.mp same
    have isKey : cursor.key = key := (on.valid represents.layout).2.2.1
    subst isKey
    obtain ⟨cursor', before', after', moved, shape', low, high, backward'⟩ :=
      represents.prev_on on garbage
    rw [List.append_assoc] at shape
    obtain ⟨below, above⟩ := represents.layout.cut_at shape
    obtain ⟨rfl, -⟩ := cut_unique (p := fun entry => decide (cursor.key ≤ entry.1))
      (shape.symm.trans shape') (by simpa using below)
      (by
        intro entry mem
        rcases List.mem_cons.mp mem with rfl | later
        · simp
        · simpa using Nat.le_of_lt (above entry later))
      (by simpa using low) (by simpa using high)
    rw [List.reverse_append, List.reverse_singleton, List.singleton_append]
    refine .more (fun _ => ⟨val, on⟩) (entry_on represents on) ?_ (ih backward' shape')
    simp [movePrev, moved]

theorem seek_yields (garbage : Key) (cursor : TreeCursor) (key : Key) :
    ∃ start, BPlusTree.seek garbage t.index.tree cursor key = some start ∧
      Yields (entry t.index.tree) (moveNext t garbage) (Placed t rows) start
        (t.index.tree.contents.filter fun e => key ≤ e.1) := by
  obtain ⟨start, before, after, found, shape, low, high, forward⟩ :=
    represents.seek garbage cursor key
  refine ⟨start, found, ?_⟩
  rw [represents.contents, shape, filter_cut (by simpa using low) (by simpa using high)]
  exact yields_forward represents forward shape

theorem seekToFirst_yields (garbage : Key) :
    ∃ start, BPlusTree.seekToFirst garbage t.index.tree = some start ∧
      Yields (entry t.index.tree) (moveNext t garbage) (Placed t rows) start
        t.index.tree.contents := by
  rw [represents.contents]
  by_cases empty : contents rows = []
  · obtain ⟨start, found, invalid⟩ := represents.seekToFirst_empty empty garbage
    rw [empty]
    refine ⟨start, found, .ended ?_ ?_⟩
    · intro valid
      exact absurd (invalid.symm.trans valid) Bool.false_ne_true
    · simp [entry, invalid]
  · obtain ⟨start, found, forward⟩ := represents.seekToFirst empty garbage
    exact ⟨start, found, yields_forward represents forward (List.nil_append _).symm⟩

theorem next_yields (garbage : Key) (on : On t.index.tree rows cursor.key val cursor) :
    ∃ start, BPlusTree.next garbage t.index.tree cursor = some (start, true) ∧
      Yields (entry t.index.tree) (moveNext t garbage) (Placed t rows) start
        (t.index.tree.contents.filter fun e => cursor.key < e.1) := by
  obtain ⟨start, before, after, found, shape, low, high, forward⟩ := represents.next_on on garbage
  refine ⟨start, found, ?_⟩
  rw [represents.contents, shape, filter_cut (by simpa using low) (by simpa using high)]
  exact yields_forward represents forward shape

theorem prev_yields (garbage : Key) (on : On t.index.tree rows cursor.key val cursor) :
    ∃ start, BPlusTree.prev garbage t.index.tree cursor = some (start, true) ∧
      Yields (entry t.index.tree) (movePrev t garbage) (Placed t rows) start
        (t.index.tree.contents.filter fun e => e.1 < cursor.key).reverse := by
  obtain ⟨start, before, after, found, shape, low, high, backward⟩ := represents.prev_on on garbage
  refine ⟨start, found, ?_⟩
  rw [represents.contents, shape, List.filter_append, List.filter_eq_self.mpr (by simpa using low),
    List.filter_eq_nil_iff.mpr (by simpa using high), List.append_nil]
  exact yields_backward represents backward shape

end

end

/-! ### What the loops accept -/

def pairs (kvs : KeyValues) : List (Key × Ptr) := kvs.map fun store => (store.key, store.value)

variable {shows : MemNodeWrapper → Option Ptr} {entries : List Entry} {e : Entry}

theorem fill_pairs {read : MemNodeWrapper → Option (Option Ptr)}
    (reads : ∀ mnw, read mnw = some (shows mnw)) (i : Nat) (mnws : List MemNodeWrapper) :
    ∃ kvs, fill read i mnws = some kvs ∧
      pairs kvs = mnws.filterMap fun mnw => (shows mnw).map fun value => (mnw.key, value) := by
  induction mnws generalizing i with
  | nil => exact ⟨[], rfl, rfl⟩
  | cons mnw rest ih =>
    cases shown : shows mnw with
    | none =>
      obtain ⟨kvs, filled, read_⟩ := ih i
      exact ⟨kvs, by simp [fill, reads, shown, filled], by simp [shown, read_]⟩
    | some value =>
      obtain ⟨kvs, filled, read_⟩ := ih (i + 1)
      refine ⟨⟨i, mnw.key, value⟩ :: kvs, by simp [fill, reads, shown, filled], ?_⟩
      rw [List.filterMap_cons, shown, ← read_]
      rfl

def Shows (scan : SecondNode → Nat → Option KeyValues) (shows : MemNodeWrapper → Option Ptr) : Prop :=
  ∀ sn knum, knum ≠ 0 → ∃ kvs, scan sn knum = some kvs ∧
    pairs kvs = sn.wrappers.filterMap fun mnw => (shows mnw).map fun value => (mnw.key, value)

theorem DBTX.scan_shows (t : Table) : Shows (DBTX.scan t) (showsLive t) := by
  intro sn knum some_
  rw [DBTX.scan, scanSecondNode, if_neg some_]
  refine fill_pairs (fun mnw => ?_) 0 sn.wrappers
  by_cases isValid : (t.records.fields mnw.id).valid = true
  · obtain ⟨id, isNode⟩ := Option.ne_none_iff_exists'.mp (t.linked mnw.id isValid)
    simp [readLive, showsLive, isValid, isNode]
  · simp [readLive, showsLive, isValid]

theorem DBROTX.scan_shows (t : Table) (oldsnapshot : Nat) :
    Shows (DBROTX.scan t oldsnapshot) (showsVisible t oldsnapshot) := by
  intro sn knum _
  refine fill_pairs (fun mnw => ?_) 0 sn.wrappers
  cases isNode : (t.records.fields mnw.id).memnode with
  | none => simp [readSnapshot, showsVisible, isNode, scanMemNode]
  | some id => simp [readSnapshot, showsVisible, isNode]

theorem lookup_of_mem (increasing : entries.Pairwise fun earlier later => earlier.1 < later.1)
    (mem : e ∈ entries) : entries.lookup e.1 = some e.2 := by
  induction entries with
  | nil => cases mem
  | cons first rest ih =>
    obtain ⟨low, later⟩ := List.pairwise_cons.mp increasing
    rcases List.mem_cons.mp mem with rfl | inside
    · exact List.lookup_cons_self
    · have differs : (e.1 == first.1) = false := by
        simpa using Nat.ne_of_gt (low e inside)
      rw [List.lookup_cons, differs]
      exact ih later inside

theorem mem_of_lookup {key : Key} {val : Option NodeId} (found : entries.lookup key = some val) :
    (key, val) ∈ entries := by
  induction entries with
  | nil => cases found
  | cons first rest ih =>
    rw [List.lookup_cons] at found
    split at found
    · rename_i same
      cases found
      rw [beq_iff_eq.mp same]
      exact List.mem_cons_self
    · exact List.mem_cons_of_mem _ (ih found)

def NonNull (t : Table) : Prop := ∀ e ∈ t.index.tree.contents, e.2 ≠ none

instance (t : Table) : Decidable (NonNull t) :=
  inferInstanceAs (Decidable (∀ e ∈ t.index.tree.contents, e.2 ≠ none))

theorem Table.increasing (t : Table) :
    t.index.tree.contents.Pairwise fun earlier later => earlier.1 < later.1 := by
  obtain ⟨rows, represents⟩ := t.represents
  rw [represents.contents]
  exact represents.layout.contents_increasing

theorem examine_offers {t : Table} (nonNull : NonNull t)
    {scan : SecondNode → Nat → Option KeyValues} (scans : Shows scan shows)
    (mem : e ∈ t.index.tree.contents) :
    ∃ found, examine t scan e = some found ∧
      offers t shows e.1 = found.map fun found => pairs found.2 := by
  obtain ⟨id, isNode⟩ := Option.ne_none_iff_exists'.mp (nonNull e mem)
  have stored := lookup_of_mem t.increasing mem
  rw [isNode] at stored
  by_cases zero : (t.index.node id).seq = 0
  · -- a node that nothing was inserted under has no wrappers
    have empty : (t.index.node id).wrappers = [] := by
      have counted := t.counted id
      rw [zero] at counted
      exact List.eq_nil_of_length_eq_zero (Nat.le_zero.mp counted)
    exact ⟨none, by simp [examine, isNode, zero], by simp [offers, stored, empty]⟩
  obtain ⟨kvs, scanned, shown⟩ := scans (t.index.node id) (t.index.node id).seq zero
  by_cases any : 0 < kvs.length
  · have some_ : pairs kvs ≠ [] := by
      intro none_
      rw [List.map_eq_nil_iff.mp none_] at any
      exact Nat.lt_irrefl 0 any
    refine ⟨some (id, kvs), by simp [examine, isNode, zero, scanned, any], ?_⟩
    simp [offers, stored, ← shown, some_]
  · have none_ : kvs = [] := List.eq_nil_of_length_eq_zero (Nat.eq_zero_of_not_pos any)
    refine ⟨none, by simp [examine, isNode, zero, scanned, any], ?_⟩
    simp [offers, stored, ← shown, none_, pairs]

/-! ### A loop over an enumeration -/

structure Covers (t : Table) (wanted : Key → Prop) (closer : Key → Key → Prop) (es : List Entry) :
    Prop where
  refl : ∀ key, closer key key
  ordered : es.Pairwise fun first second => closer first.1 second.1
  exactly : ∀ e, e ∈ es ↔ e ∈ t.index.tree.contents ∧ wanted e.1
  short : es.length ≤ t.index.tree.contents.length

theorem Table.covers_up (t : Table) (wanted : Key → Bool) :
    Covers t (fun key => wanted key = true) (· ≤ ·)
      (t.index.tree.contents.filter fun e => wanted e.1) where
  refl := Nat.le_refl
  ordered := (t.increasing.filter _).imp Nat.le_of_lt
  exactly e := by simp [List.mem_filter]
  short := List.length_filter_le ..

theorem Table.covers_down (t : Table) (wanted : Key → Bool) :
    Covers t (fun key => wanted key = true) (· ≥ ·)
      (t.index.tree.contents.filter fun e => wanted e.1).reverse where
  refl := Nat.le_refl
  ordered := List.pairwise_reverse.mpr ((t.increasing.filter _).imp Nat.le_of_lt)
  exactly e := by simp [List.mem_filter]
  short := by
    rw [List.length_reverse]
    exact List.length_filter_le ..

section

variable {t : Table} {rows : List (Row (Option NodeId))} {scan : SecondNode → Nat → Option KeyValues}
  {shows : MemNodeWrapper → Option Ptr} {wanted : Key → Prop} {closer : Key → Key → Prop}
  {es : List Entry}

theorem Covers.inside (covers : Covers t wanted closer es) {e : Entry} (mem : e ∈ es) :
    e ∈ t.index.tree.contents :=
  ((covers.exactly e).mp mem).1

theorem Covers.complete (covers : Covers t wanted closer es) {key : Key} (isWanted : wanted key)
    (offered : offers t shows key ≠ none) : ∃ e ∈ es, e.1 = key := by
  unfold offers at offered
  split at offered
  · rename_i id found
    exact ⟨(key, some id), (covers.exactly _).mpr ⟨mem_of_lookup found, isWanted⟩, rfl⟩
  · exact absurd rfl offered

def firstOffer (t : Table) (shows : MemNodeWrapper → Option Ptr) (es : List Entry) :
    Option (Key × List (Key × Ptr)) :=
  (es.find? fun e => (offers t shows e.1).isSome).bind fun e =>
    (offers t shows e.1).map fun records => (e.1, records)

theorem Covers.lands (covers : Covers t wanted closer es) :
    Lands (offers t shows) wanted closer (firstOffer t shows es) :=
  lands_first covers.refl covers.ordered
    (fun e mem => ⟨((covers.exactly e).mp mem).2, rfl⟩) fun _ isWanted offered =>
      covers.complete isWanted offered

variable {advance : Entry → TreeCursor → Option TreeCursor} {start : TreeCursor} {fuel : Nat}

theorem loop_offers (nonNull : NonNull t) (scans : Shows scan shows)
    (yields : Yields (entry t.index.tree) advance (Placed t rows) start es)
    (inside : ∀ e ∈ es, e ∈ t.index.tree.contents) (enough : es.length < fuel) :
    ∃ last found, loop (entry t.index.tree) advance (examine t scan) fuel start = some (last, found) ∧
      (found ≠ none → ∃ val, On t.index.tree rows last.key val last) ∧
      found.map (fun found => (last.key, pairs found.2)) = firstOffer t shows es := by
  let total (e : Entry) : Option (NodeId × KeyValues) := (examine t scan e).join
  have tested : ∀ e ∈ es, examine t scan e = some (total e) := by
    intro e mem
    obtain ⟨found, examined, -⟩ := examine_offers nonNull scans (inside e mem)
    simp [total, examined]
  have shown : ∀ e ∈ es, offers t shows e.1 = (total e).map fun found => pairs found.2 := by
    intro e mem
    obtain ⟨found, examined, offered⟩ := examine_offers nonNull scans (inside e mem)
    simp [total, examined, offered]
  obtain ⟨last, looped, placed, here⟩ := loop_finds yields tested enough
  refine ⟨last, _, looped, ?_, ?_⟩
  · intro some_
    obtain ⟨found, isFound⟩ := Option.ne_none_iff_exists'.mp some_
    obtain ⟨e, mem, accepted⟩ := List.exists_of_findSome?_eq_some isFound
    apply placed
    by_contra invalid
    have ended : entry t.index.tree last = none := by simp [entry, invalid]
    have none_ := List.find?_eq_none.mp (here.symm.trans ended) e mem
    simp [accepted] at none_
  rcases first_accepted total es with refused | ⟨skipped, e, found, rest, rfl, refused, accepted⟩
  · have nothing : ∀ e ∈ es, ¬ (offers t shows e.1).isSome := by
      intro e mem
      simp [shown e mem, refused e mem]
    rw [List.findSome?_eq_none_iff.mpr refused, firstOffer, List.find?_eq_none.mpr nothing]
    rfl
  have nothing : ∀ e ∈ skipped, ¬ (offers t shows e.1).isSome := by
    intro e mem
    simp [shown e (List.mem_append_left _ mem), refused e mem]
  have isFirst : entry t.index.tree last = some e := by
    rw [here, List.find?_append,
      List.find?_eq_none.mpr fun e mem => by simp [refused e mem]]
    simp [accepted]
  have isKey : last.key = e.1 := by
    rw [entry] at isFirst
    split at isFirst
    · cases isFirst
      rfl
    · cases isFirst
  have offered := shown e (List.mem_append_right _ List.mem_cons_self)
  rw [accepted] at offered
  rw [List.findSome?_append, List.findSome?_eq_none_iff.mpr refused, firstOffer,
    List.find?_append, List.find?_eq_none.mpr nothing]
  simp [accepted, offered, isKey]

def Settled (t : Table) (rows : List (Row (Option NodeId))) (it : Iter) : Prop :=
  it.valid = true → ∃ val, On t.index.tree rows it.iter.key val it.iter

theorem finish_observe (it : Iter) (last : TreeCursor) (found : Option (NodeId × KeyValues)) :
    (it.finish (last, found)).observe = found.map fun found => (last.key, pairs found.2) := by
  cases found <;> rfl

theorem finish_settled (it : Iter) {last : TreeCursor} {found : Option (NodeId × KeyValues)}
    (on : found ≠ none → ∃ val, On t.index.tree rows last.key val last) :
    Settled t rows (it.finish (last, found)) := by
  intro valid
  cases found with
  | none => cases valid
  | some found => exact on nofun

theorem loop_lands (nonNull : NonNull t) (scans : Shows scan shows)
    (yields : Yields (entry t.index.tree) advance (Placed t rows) start es)
    (covers : Covers t wanted closer es) (enough : t.index.tree.contents.length < fuel)
    (it : Iter) :
    ∃ result, loop (entry t.index.tree) advance (examine t scan) fuel start = some result ∧
      Settled t rows (it.finish result) ∧
      Lands (offers t shows) wanted closer (it.finish result).observe := by
  obtain ⟨last, found, looped, on, seen⟩ := loop_offers nonNull scans yields
    (fun _ mem => covers.inside mem) (Nat.lt_of_le_of_lt covers.short enough)
  refine ⟨_, looped, finish_settled it on, ?_⟩
  rw [finish_observe, seen]
  exact covers.lands

end

end EunoDb.SecondaryIterator
