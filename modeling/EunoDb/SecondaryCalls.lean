import EunoDb.SecondaryPositions

/-! Every sequence of calls of the two secondary iterators. -/

namespace EunoDb.SecondaryIterator

open BPlusTree SecondIndex IndexRead Visibility ScanLoop Execution

def passed (t : Table) (shows : MemNodeWrapper → Option Ptr) (es : List Entry) : List Entry :=
  es.takeWhile fun e => (offers t shows e.1).isNone

theorem passed_append {t : Table} {shows : MemNodeWrapper → Option Ptr} {skipped rest : List Entry}
    {e : Entry} (refused : ∀ e ∈ skipped, offers t shows e.1 = none)
    (offered : offers t shows e.1 ≠ none) : passed t shows (skipped ++ e :: rest) = skipped := by
  rw [passed, List.takeWhile_append_of_pos (by simpa using refused)]
  simp [Option.isNone_iff_eq_none, offered]

/-! ### States of the index -/

def Formed (index : Index) : Prop := (∃ rows, Represents index.tree rows) ∧ Counted index

variable {index : Index}

theorem Formed.congr {other : Index} (formed : Formed index) (tree : other.tree = index.tree)
    (node : other.node = index.node) : Formed other := by
  rw [Formed, tree, Counted, node]
  exact formed

theorem Formed.threadLocalInit (formed : Formed index) : Formed (threadLocalInit index) := by
  refine formed.congr (threadLocalInit_tree index) ?_
  rw [SecondIndex.threadLocalInit]
  split <;> rfl

theorem Formed.refill (formed : Formed index) : Formed index.refill := by
  refine formed.congr ?_ (refill_node index)
  rw [Index.refill]
  split <;> split <;> rfl

theorem Formed.getSec {next : Index} {key : Key} {secn : Option NodeId} (formed : Formed index)
    (found : index.getSec key = some (next, secn)) : Formed next := by
  obtain ⟨⟨rows, represents⟩, counted⟩ := formed
  obtain ⟨tree, val, rows', returned, represents', -⟩ := represents.insert key index.dummyval
  simp only [Index.getSec, returned, Option.bind_eq_bind, Option.bind_eq_some_iff] at found
  obtain ⟨known, -, _, isTree, isNext⟩ := found
  cases isTree
  cases isNext
  exact ⟨⟨rows', represents'⟩, counted⟩

theorem Formed.insertSec {next : Index} {secn : Option NodeId} {prikey : Key} {wrapper : WrapperId}
    (formed : Formed index) (inserted : insertSec index secn prikey = some (next, wrapper)) :
    Formed next := by
  refine ⟨?_, formed.2.insertSec inserted⟩
  have same : next.tree = index.tree := by
    simp only [SecondIndex.insertSec, Option.bind_eq_bind, Option.bind_eq_some_iff] at inserted
    obtain ⟨id, rfl, inserted⟩ := inserted
    split at inserted
    · cases inserted
      rfl
    · obtain ⟨spare, -, isNext⟩ := Option.bind_eq_some_iff.mp inserted
      cases isNext
      rfl
  rw [same]
  exact formed.1

theorem Formed.call {next : Index} {c : SecondIndex.Call} {answer : Answer} (formed : Formed index)
    (returned : call index c = some (next, answer)) : Formed next := by
  cases c with
  | get seckey =>
    obtain ⟨⟨s, secn⟩, found, isNext⟩ := Option.bind_eq_some_iff.mp returned
    cases isNext
    exact formed.threadLocalInit.getSec found
  | getWithInsert seckey prikey =>
    obtain ⟨⟨s, secn⟩, found, inserted⟩ := Option.bind_eq_some_iff.mp returned
    obtain ⟨⟨s', wrapper⟩, linked, isNext⟩ := Option.bind_eq_some_iff.mp inserted
    cases isNext
    exact ((formed.threadLocalInit.getSec found).insertSec linked).refill

theorem calls_formed {calls : List SecondIndex.Call} {w : SecondIndex.World}
    (ran : run SecondIndex.step {} calls = some w) : Formed w.index := by
  have all : Each SecondIndex.step (fun _ _ => True) {} calls := each_of_forall fun _ _ => trivial
  have initial : Formed ({} : SecondIndex.World).index :=
    ⟨⟨_, empty_represents⟩, fun _ => Nat.le_refl 0⟩
  have kept : ∀ (w : SecondIndex.World) c next, Formed w.index → True →
      SecondIndex.step w c = some next → Formed next.index := by
    intro w c next formed _ taken
    obtain ⟨⟨index, answer⟩, returned, rfl⟩ := Option.map_eq_some_iff.mp taken
    exact formed.call returned
  exact run_preserves kept initial all ran

def Table.reached (calls : List SecondIndex.Call)
    (ran : (run SecondIndex.step {} calls).isSome) (records : Records)
    (linked : ∀ id, (records.fields id).valid = true → (records.fields id).memnode ≠ none) : Table where
  index := ((run SecondIndex.step {} calls).get ran).index
  records := records
  represents := (calls_formed (Option.some_get ran).symm).1
  counted := (calls_formed (Option.some_get ran).symm).2
  linked := linked

/-! ### `DBTX::SecondaryIndexIterator` -/

namespace DBTX

def Admitted (t : Table) (it : Iter) : Call → Prop
  | .seekToFirst => (∀ e ∈ t.index.tree.contents, offers t (showsLive t) e.1 = none) ∨
      ∀ e ∈ passed t (showsLive t) t.index.tree.contents, seqOf t e ≠ some 0
  | .seek _ => True
  | .next => it.valid = true
  | .prev => it.valid = true

instance (t : Table) (it : Iter) : (call : Call) → Decidable (Admitted t it call)
  | .seekToFirst => inferInstanceAs (Decidable (_ ∨ _))
  | .seek _ => isTrue trivial
  | .next => inferInstanceAs (Decidable (_ = _))
  | .prev => inferInstanceAs (Decidable (_ = _))

section

variable {t : Table} {rows : List (Row (Option NodeId))} {fuel : Nat}

variable {it : Iter} {garbage : Key}

theorem path_cur {it last : TreeCursor} {skipped : List Entry}
    (path : Path (entry t.index.tree) (moveNext t garbage) it skipped last)
    (refreshed : ∀ e ∈ skipped, seqOf t e ≠ some 0) :
    Path (entryCur t) (moveCur t garbage) (it, curNode t.index.tree it) skipped
      (last, curNode t.index.tree last) := by
  induction path with
  | stay => exact .stay
  | move here moved later ih =>
    have now := refreshed _ List.mem_cons_self
    refine .move here ?_ (ih fun e mem => refreshed e (List.mem_cons_of_mem _ mem))
    simp [moveCur, moved, now]

theorem loop_nothing {it : TreeCursor} {es : List Entry}
    (yields : Yields (entry t.index.tree) (moveNext t garbage) (Placed t rows) it es)
    (refused : ∀ e ∈ es, examine t (scan t) e = some none) {cur : Option NodeId}
    (isCur : cur = curNode t.index.tree it ∨ ∃ id, cur = some id ∧ (t.index.node id).seq = 0)
    (enough : es.length < fuel) :
    ∃ place, loop (entryCur t) (moveCur t garbage) (examine t (scan t)) fuel (it, cur) =
      some (place, none) := by
  induction yields generalizing cur fuel with
  | @ended last _ here =>
    obtain ⟨more, rfl⟩ := Nat.exists_eq_add_one_of_ne_zero (Nat.ne_of_gt enough)
    have ended : entryCur t (last, cur) = none := by
      by_cases valid : last.valid t.index.tree = true
      · simp [entry, valid] at here
      · simp [entryCur, valid]
    exact ⟨_, loop_ended ended more⟩
  | @more it next e rest _ here moved later ih =>
    obtain ⟨more, rfl⟩ := Nat.exists_eq_add_one_of_ne_zero (Nat.ne_of_gt (Nat.zero_lt_of_lt enough))
    have valid : it.valid t.index.tree = true := by
      by_contra invalid
      simp [entry, invalid] at here
    have isEntry : e = (it.key, curNode t.index.tree it) := by
      simpa [entry, valid, eq_comm] using here
    have current : entryCur t (it, cur) = some (it.key, cur) := by simp [entryCur, valid]
    have rest_ := fun e mem => refused e (List.mem_cons_of_mem _ mem)
    have shorter : rest.length < more := by simpa using enough
    -- this round looks at `cur_` and refuses it
    have refusedCur : examine t (scan t) (it.key, cur) = some none := by
      rcases isCur with rfl | ⟨id, rfl, zero⟩
      · rw [← isEntry]
        exact refused e List.mem_cons_self
      · simp [examine, zero]
    by_cases zero : seqOf t (it.key, cur) = some 0
    · obtain ⟨id, rfl, isZero⟩ := Option.map_eq_some_iff.mp zero
      obtain ⟨place, looped⟩ := ih rest_ (.inr ⟨id, rfl, isZero⟩) shorter
      have moves : moveNext t garbage (it.key, some id) it = some next := moved
      exact ⟨place, by simp [loop, current, refusedCur, moveCur, moves, zero, looped]⟩
    · obtain ⟨place, looped⟩ := ih rest_ (.inl rfl) shorter
      have moves : moveNext t garbage (it.key, cur) it = some next := moved
      exact ⟨place, by simp [loop, current, refusedCur, moveCur, moves, zero, looped]⟩

theorem loop_cur (nonNull : NonNull t) {start last : TreeCursor}
    {found : Option (NodeId × KeyValues)} (admitted : Admitted t it .seekToFirst)
    (yields : Yields (entry t.index.tree) (moveNext t garbage) (Placed t rows) start
      t.index.tree.contents) (enough : t.index.tree.contents.length < fuel)
    (looped : loop (entry t.index.tree) (moveNext t garbage) (examine t (scan t)) fuel start =
      some (last, found)) :
    ∃ place, loop (entryCur t) (moveCur t garbage) (examine t (scan t)) fuel
        (start, curNode t.index.tree start) = some (place, found) ∧
      (found ≠ none → place.1 = last) := by
  have examined : ∀ e ∈ t.index.tree.contents, ∃ result, examine t (scan t) e = some result ∧
      offers t (showsLive t) e.1 = result.map fun found => pairs found.2 :=
    fun e mem => examine_offers nonNull (scan_shows t) mem
  rcases first_accepted (fun e => offers t (showsLive t) e.1) t.index.tree.contents with
    nothing | ⟨skipped, e, records, rest, shape, nothing, offered⟩
  · have refused : ∀ e ∈ t.index.tree.contents, examine t (scan t) e = some none := by
      intro e mem
      obtain ⟨result, isResult, offered⟩ := examined e mem
      rw [nothing e mem, eq_comm, Option.map_eq_none_iff] at offered
      rw [isResult, offered]
    obtain ⟨place, looped'⟩ := loop_nothing yields refused (.inl rfl) enough
    obtain ⟨last', plain, -⟩ := loop_finds yields refused enough
    rw [looped] at plain
    cases plain
    have none_ : t.index.tree.contents.findSome? (fun _ => (none : Option (NodeId × KeyValues))) =
        none := List.findSome?_eq_none_iff.mpr fun _ _ => rfl
    exact ⟨place, by rw [none_]; exact looped', fun some_ => absurd none_ some_⟩
  have inSkipped : ∀ e ∈ skipped, e ∈ t.index.tree.contents := by
    intro e mem
    rw [shape]
    exact List.mem_append_left _ mem
  have refused : ∀ e ∈ skipped, examine t (scan t) e = some none := by
    intro e mem
    obtain ⟨result, isResult, offered⟩ := examined e (inSkipped e mem)
    rw [nothing e mem, eq_comm, Option.map_eq_none_iff] at offered
    rw [isResult, offered]
  obtain ⟨result, isResult, isOffer⟩ := examined e (by simp [shape])
  rw [offered, eq_comm] at isOffer
  obtain ⟨accepted, rfl, -⟩ := Option.map_eq_some_iff.mp isOffer
  have refreshed : ∀ e ∈ skipped, seqOf t e ≠ some 0 := by
    rcases admitted with none_ | admitted
    · rw [none_ e (by simp [shape])] at offered
      cases offered
    · rw [shape, passed_append nothing (by simp [offered])] at admitted
      exact admitted
  rw [shape] at yields enough
  obtain ⟨stop, path, after⟩ := yields.path
  rw [List.length_append, List.length_cons] at enough
  obtain ⟨more, rfl⟩ : ∃ more, fuel = more + 1 + skipped.length :=
    ⟨fuel - skipped.length - 1, by omega⟩
  rw [loop_path path refused, loop_accepted after.entry_eq isResult] at looped
  cases looped
  have here : entryCur t (last, curNode t.index.tree last) = some e := after.entry_eq
  refine ⟨(last, curNode t.index.tree last), ?_, fun _ => rfl⟩
  rw [loop_path (path_cur path refreshed) refused, loop_accepted here isResult]

section

variable (represents : Represents t.index.tree rows) (nonNull : NonNull t)
  (enough : t.index.tree.contents.length < fuel) (garbage : Key)

include represents nonNull enough

theorem next_lands (settled : Settled t rows it)
    (valid : it.valid = true) :
    ∃ after, next t garbage fuel it = some after ∧ Settled t rows after ∧
      LandsAt t (showsLive t) it .next after := by
  obtain ⟨val, on⟩ := settled valid
  obtain ⟨start, moved, yields⟩ := next_yields represents garbage on
  have covers := t.covers_up fun key => decide (it.iter.key < key)
  obtain ⟨result, looped, after, lands⟩ :=
    loop_lands nonNull (scan_shows t) yields covers enough it
  refine ⟨_, by simp [next, moved, looped], after, ?_⟩
  simpa [LandsAt, Iter.key] using lands

theorem prev_lands (settled : Settled t rows it)
    (valid : it.valid = true) :
    ∃ after, prev t garbage fuel it = some after ∧ Settled t rows after ∧
      LandsAt t (showsLive t) it .prev after := by
  obtain ⟨val, on⟩ := settled valid
  obtain ⟨start, moved, yields⟩ := prev_yields represents garbage on
  have covers := t.covers_down fun key => decide (key < it.iter.key)
  obtain ⟨result, looped, after, lands⟩ :=
    loop_lands nonNull (scan_shows t) yields covers enough it
  refine ⟨_, by simp [prev, moved, looped], after, ?_⟩
  simpa [LandsAt, Iter.key] using lands

theorem seek_lands (it : Iter) (key : Key) :
    ∃ after, seek t garbage fuel it key = some after ∧ Settled t rows after ∧
      LandsAt t (showsLive t) it (.seek key) after := by
  obtain ⟨start, found, yields⟩ := seek_yields represents garbage it.iter key
  have covers := t.covers_up fun other => decide (key ≤ other)
  obtain ⟨result, looped, after, lands⟩ :=
    loop_lands nonNull (scan_shows t) yields covers enough it
  -- an iterator that is not valid has no node either
  have never : ¬ (¬ start.valid t.index.tree = true ∧ curNode t.index.tree start ≠ none) := by
    rintro ⟨invalid, node⟩
    exact node (by simp [curNode, invalid])
  refine ⟨_, by rw [seek, found, Option.bind_eq_bind, Option.bind_some]; simp only [if_neg never, looped]; rfl, after, ?_⟩
  simpa [LandsAt] using lands

theorem seekToFirst_lands
    (admitted : Admitted t it .seekToFirst) :
    ∃ after, seekToFirst t garbage fuel it = some after ∧ Settled t rows after ∧
      LandsAt t (showsLive t) it .seekToFirst after := by
  obtain ⟨start, found, yields⟩ := seekToFirst_yields represents garbage
  have covers := t.covers_up fun _ => true
  rw [List.filter_true] at covers
  obtain ⟨⟨last, result⟩, looped, after, lands⟩ :=
    loop_lands nonNull (scan_shows t) yields covers enough it
  obtain ⟨place, looped', same⟩ := loop_cur nonNull admitted yields enough looped
  have returned : seekToFirst t garbage fuel it = some (it.finish (place.1, result)) := by
    simp [seekToFirst, found, looped']
  cases result with
  | none =>
    rw [finish_observe] at lands
    exact ⟨_, returned, nofun, by simpa [LandsAt, finish_observe] using lands⟩
  | some result =>
    rw [same nofun] at returned
    exact ⟨_, returned, after, by simpa [LandsAt] using lands⟩

theorem step_lands {call : Call}
    (settled : Settled t rows it) (admitted : Admitted t it call) :
    ∃ after, step t garbage fuel it call = some after ∧ Settled t rows after ∧
      LandsAt t (showsLive t) it call after := by
  cases call with
  | seekToFirst => exact seekToFirst_lands represents nonNull enough garbage admitted
  | seek key => exact seek_lands represents nonNull enough garbage it key
  | next =>
    have valid : it.valid = true := admitted
    simp only [step, valid, if_true]
    exact next_lands represents nonNull enough garbage settled valid
  | prev =>
    have valid : it.valid = true := admitted
    simp only [step, valid, if_true]
    exact prev_lands represents nonNull enough garbage settled valid

end

end

/-- Along every sequence of admitted calls each one returns and leaves the iterator on the
closest wanted key that has live records, with these, or invalid if there is none. -/
theorem calls_land (t : Table) (nonNull : NonNull t) (garbage : Key) {fuel : Nat}
    (enough : t.index.tree.contents.length < fuel) {calls : List Call}
    (admitted : Each (step t garbage fuel) (Admitted t) {} calls) :
    ∃ it, run (step t garbage fuel) {} calls = some it ∧
      ∀ call, Admitted t it call → ∃ after, step t garbage fuel it call = some after ∧
        LandsAt t (showsLive t) it call after := by
  obtain ⟨rows, represents⟩ := t.represents
  have initial : Settled t rows {} := nofun
  exact run_then (fun _ _ settled allowed =>
    step_lands represents nonNull enough garbage settled allowed) initial admitted

def emptyFirst : Table :=
  Table.reached [.getWithInsert 2 10, .get 1] rfl
    { fields := fun _ => ⟨some 0, true⟩, record := fun _ => ⟨0, .pointer 5, []⟩ } (by simp)

theorem calls_land_emptyFirst :
    (∃ it, run (step emptyFirst 0 3) {} [.seek 0] = some it ∧ it.observe = some (2, [(10, 5)])) ∧
    ∃ it, run (step emptyFirst 0 3) {} [.seek 0, .prev, .seek 3] = some it ∧
      ∀ call, Admitted emptyFirst it call → ∃ after, step emptyFirst 0 3 it call = some after ∧
        LandsAt emptyFirst (showsLive emptyFirst) it call after :=
  ⟨⟨_, rfl, rfl⟩, calls_land emptyFirst (by decide +kernel) 0 (by decide +kernel) (by decide +kernel)⟩

theorem seekToFirst_misses :
    (∃ it, step emptyFirst 0 3 {} .seekToFirst = some it ∧ it.observe = none) ∧
      offers emptyFirst (showsLive emptyFirst) 2 = some [(10, 5)] :=
  ⟨⟨_, rfl, rfl⟩, rfl⟩

end DBTX

/-! ### `DBROTX::SecondaryIndexIterator` -/

namespace DBROTX

def Admitted (t : Table) (oldsnapshot : Nat) (it : Iter) : Call → Prop
  | .seekToFirst => it.valid = false ∨
      ∃ e ∈ t.index.tree.contents, offers t (showsVisible t oldsnapshot) e.1 ≠ none
  | .seek key => it.valid = false ∨
      ∃ e ∈ t.index.tree.contents, key ≤ e.1 ∧ offers t (showsVisible t oldsnapshot) e.1 ≠ none
  | .next => it.valid = true
  | .prev => it.valid = true ∧
      ∀ e ∈ passed t (showsVisible t oldsnapshot)
        (t.index.tree.contents.filter fun e => e.1 < it.key).reverse, seqOf t e ≠ some 0

instance (t : Table) (oldsnapshot : Nat) (it : Iter) :
    (call : Call) → Decidable (Admitted t oldsnapshot it call)
  | .seekToFirst => inferInstanceAs (Decidable (_ ∨ _))
  | .seek _ => inferInstanceAs (Decidable (_ ∨ _))
  | .next => inferInstanceAs (Decidable (_ = _))
  | .prev => inferInstanceAs (Decidable (_ ∧ _))

section

variable {t : Table} {rows : List (Row (Option NodeId))} {fuel oldsnapshot : Nat}

variable {it : Iter}

theorem finishKept_eq {result : TreeCursor × Option (NodeId × KeyValues)}
    (kept : it.valid = false ∨ result.2 ≠ none) : it.finishKept result = it.finish result := by
  obtain ⟨iter, cur, val, abort⟩ := it
  obtain ⟨last, found⟩ := result
  cases found with
  | some found => rfl
  | none =>
    have invalid : cur = none := by simpa [Iter.valid] using kept
    rw [invalid]
    rfl

theorem finishKept_lands {wanted : Key → Prop} {closer : Key → Key → Prop}
    {shows : MemNodeWrapper → Option Ptr} {result : TreeCursor × Option (NodeId × KeyValues)}
    (lands : Lands (offers t shows) wanted closer (it.finish result).observe)
    (admitted : it.valid = false ∨ ∃ key, wanted key ∧ offers t shows key ≠ none) :
    it.finishKept result = it.finish result := by
  apply finishKept_eq
  rcases admitted with invalid | ⟨key, isWanted, offered⟩
  · exact .inl invalid
  refine .inr fun none_ => ?_
  obtain ⟨last, found⟩ := result
  obtain rfl : found = none := none_
  rw [finish_observe] at lands
  exact offered (lands key isWanted)

section

variable (represents : Represents t.index.tree rows) (nonNull : NonNull t)
  (enough : t.index.tree.contents.length < fuel) (garbage : Key)

include represents nonNull enough

theorem next_lands (settled : Settled t rows it)
    (valid : it.valid = true) :
    ∃ after, next t garbage fuel oldsnapshot it = some after ∧ Settled t rows after ∧
      LandsAt t (showsVisible t oldsnapshot) it .next after := by
  obtain ⟨val, on⟩ := settled valid
  obtain ⟨start, moved, yields⟩ := next_yields represents garbage on
  have covers := t.covers_up fun key => decide (it.iter.key < key)
  obtain ⟨result, looped, after, lands⟩ :=
    loop_lands nonNull (scan_shows t oldsnapshot) yields covers enough it
  refine ⟨_, by simp [next, moved, looped], after, ?_⟩
  simpa [LandsAt, Iter.key] using lands

theorem prev_lands (settled : Settled t rows it)
    (admitted : Admitted t oldsnapshot it .prev) :
    ∃ after, prev t garbage fuel oldsnapshot it = some after ∧ Settled t rows after ∧
      LandsAt t (showsVisible t oldsnapshot) it .prev after := by
  obtain ⟨valid, refreshed⟩ := admitted
  obtain ⟨val, on⟩ := settled valid
  obtain ⟨start, moved, yields⟩ := prev_yields represents garbage on
  have covers := t.covers_down fun key => decide (key < it.iter.key)
  obtain ⟨result, looped, after, lands⟩ :=
    loop_lands nonNull (scan_shows t oldsnapshot) yields covers enough it
  -- the loop turns around at entries with `seq` 0 only
  have turns : loop (entry t.index.tree) (moveBack t garbage) (examine t (scan t oldsnapshot)) fuel
      start = some result := by
    rw [← looped]
    refine loop_congr yields (fun e => (offers t (showsVisible t oldsnapshot) e.1).isNone)
      (fun e mem => ?_) (fun e mem => ?_) fuel
    · obtain ⟨found, examined, offered⟩ :=
        examine_offers nonNull (scan_shows t oldsnapshot) (covers.inside mem)
      exact ⟨found, examined, by simp only [offered, Option.isNone_map]⟩
    · funext iter
      exact if_neg (refreshed e mem)
  refine ⟨_, by simp [prev, moved, turns], after, ?_⟩
  simpa [LandsAt, Iter.key] using lands

theorem seek_lands {key : Key}
    (admitted : Admitted t oldsnapshot it (.seek key)) :
    ∃ after, seek t garbage fuel oldsnapshot it key = some after ∧ Settled t rows after ∧
      LandsAt t (showsVisible t oldsnapshot) it (.seek key) after := by
  obtain ⟨start, found, yields⟩ := seek_yields represents garbage it.iter key
  have covers := t.covers_up fun other => decide (key ≤ other)
  obtain ⟨result, looped, after, lands⟩ :=
    loop_lands nonNull (scan_shows t oldsnapshot) yields covers enough it
  have same := finishKept_lands lands
    (admitted.imp_right fun ⟨e, _, above, offered⟩ => ⟨e.1, by simpa using above, offered⟩)
  refine ⟨_, by simp [seek, found, looped, same], after, ?_⟩
  simpa [LandsAt] using lands

theorem seekToFirst_lands
    (admitted : Admitted t oldsnapshot it .seekToFirst) :
    ∃ after, seekToFirst t garbage fuel oldsnapshot it = some after ∧ Settled t rows after ∧
      LandsAt t (showsVisible t oldsnapshot) it .seekToFirst after := by
  obtain ⟨start, found, yields⟩ := seekToFirst_yields represents garbage
  have covers := t.covers_up fun _ => true
  rw [List.filter_true] at covers
  obtain ⟨result, looped, after, lands⟩ :=
    loop_lands nonNull (scan_shows t oldsnapshot) yields covers enough it
  have same := finishKept_lands lands
    (admitted.imp_right fun ⟨e, _, offered⟩ => ⟨e.1, rfl, offered⟩)
  refine ⟨_, by simp [seekToFirst, found, looped, same], after, ?_⟩
  simpa [LandsAt] using lands

theorem step_lands {call : Call}
    (settled : Settled t rows it) (admitted : Admitted t oldsnapshot it call) :
    ∃ after, step t garbage fuel oldsnapshot it call = some after ∧ Settled t rows after ∧
      LandsAt t (showsVisible t oldsnapshot) it call after := by
  cases call with
  | seekToFirst => exact seekToFirst_lands represents nonNull enough garbage admitted
  | seek key => exact seek_lands represents nonNull enough garbage admitted
  | next =>
    have valid : it.valid = true := admitted
    simp only [step, valid, if_true]
    exact next_lands represents nonNull enough garbage settled valid
  | prev =>
    simp only [step, admitted.1, if_true]
    exact prev_lands represents nonNull enough garbage settled admitted

end

end

/-- Along every sequence of admitted calls each one returns and leaves the iterator on the
closest wanted key that has records its snapshot sees, with these, or invalid if there is
none. -/
theorem calls_land_snapshot (t : Table) (nonNull : NonNull t) (garbage : Key) (oldsnapshot : Nat)
    {fuel : Nat} (enough : t.index.tree.contents.length < fuel) {calls : List Call}
    (admitted : Each (step t garbage fuel oldsnapshot) (Admitted t oldsnapshot) {} calls) :
    ∃ it, run (step t garbage fuel oldsnapshot) {} calls = some it ∧
      ∀ call, Admitted t oldsnapshot it call →
        ∃ after, step t garbage fuel oldsnapshot it call = some after ∧
          LandsAt t (showsVisible t oldsnapshot) it call after := by
  obtain ⟨rows, represents⟩ := t.represents
  have initial : Settled t rows {} := nofun
  exact run_then (fun _ _ settled allowed =>
    step_lands represents nonNull enough garbage settled allowed) initial admitted

def emptyBetween : Table :=
  Table.reached [.getWithInsert 1 10, .getWithInsert 3 11, .getWithInsert 4 12, .get 2] rfl
    { fields := fun id => ⟨some id, true⟩
      record := fun id => ⟨if id = 2 then 1 else 0, .pointer (20 + id), []⟩ } (by simp)

theorem calls_land_emptyBetween :
    (∃ it, run (step emptyBetween 0 5 0) {} [.seekToFirst, .next] = some it ∧
      it.observe = some (3, [(11, 21)])) ∧
    ∃ it, run (step emptyBetween 0 5 0) {} [.seekToFirst, .next, .seek 2, .next, .seek 4] = some it ∧
      ∀ call, Admitted emptyBetween 0 it call →
        ∃ after, step emptyBetween 0 5 0 it call = some after ∧
          LandsAt emptyBetween (showsVisible emptyBetween 0) it call after :=
  ⟨⟨_, rfl, rfl⟩, calls_land_snapshot emptyBetween (by decide +kernel) 0 0 (by decide +kernel)
    (by decide +kernel)⟩

def emptyBehind : Table :=
  Table.reached [.getWithInsert 2 10, .getWithInsert 3 11, .get 1] rfl
    { fields := fun id => ⟨some id, true⟩
      record := fun id => ⟨if id = 0 then 1 else 0, .pointer (20 + id), []⟩ } (by simp)

def onTwo : TreeCursor := ⟨some 0, 1, 3, 2, some (some 0)⟩

def onOne : TreeCursor := ⟨some 0, 0, 3, 1, some (some 2)⟩

theorem prev_endless {it : Iter} (onThree : it.iter = ⟨some 0, 2, 3, 3, some (some 1)⟩) (fuel : Nat) :
    prev emptyBehind 0 fuel 0 it = none := by
  have moved : BPlusTree.prev 0 emptyBehind.index.tree it.iter = some (onTwo, true) := by
    rw [onThree]
    rfl
  have cycle : Path (entry emptyBehind.index.tree) (moveBack emptyBehind 0) onTwo
      [(2, some 0), (1, some 2)] onTwo :=
    .move rfl (show _ = some onOne from rfl) (.move rfl rfl .stay)
  have refused : ∀ e ∈ [((2, some 0) : Entry), (1, some 2)],
      examine emptyBehind (scan emptyBehind 0) e = some none := by
    simp only [List.forall_mem_cons]
    exact ⟨rfl, rfl, nofun⟩
  simp [prev, moved, loop_cycle cycle (List.cons_ne_nil _ _) refused]

/-- Over keys 1 to 4, `Prev` from key 3 comes back to key 3 and does not reach key 1, and a
`Seek` to key 4 leaves the iterator valid although the snapshot sees nothing there. Over
keys 1 to 3, `Prev` from key 3 does not return. -/
theorem prev_stays_and_seek_keeps :
    (∃ it, run (step emptyBetween 0 5 0) {} [.seek 3, .prev] = some it ∧
      it.observe = some (3, [(11, 21)])) ∧
    (∃ it, run (step emptyBetween 0 5 0) {} [.seek 3, .seek 4] = some it ∧ it.valid = true) ∧
    offers emptyBetween (showsVisible emptyBetween 0) 1 = some [(10, 20)] ∧
    (∀ e ∈ emptyBetween.index.tree.contents, 4 ≤ e.1 →
      offers emptyBetween (showsVisible emptyBetween 0) e.1 = none) ∧
    ∃ it, run (step emptyBehind 0 4 0) {} [.seek 3] = some it ∧ it.valid = true ∧
      ∀ fuel, step emptyBehind 0 fuel 0 it .prev = none :=
  ⟨⟨_, rfl, rfl⟩, ⟨_, rfl, rfl⟩, rfl, by decide +kernel, _, rfl, rfl, prev_endless rfl⟩

end DBROTX

end EunoDb.SecondaryIterator
