import EunoDb.CallReturns

/-! A transaction that no other thread disturbs commits, unless it splits a link it recorded. -/

namespace EunoDb.RangeScan

open Execution

variable {Val : Type}

section

variable {w after : World Val}

theorem Placed.returns (placed : Placed w) :
    ∃ count final, run RangeScan.step w (List.replicate count Act.tick) = some final ∧
      final.pc = .idle := by
  induction w using less_wf.induction with
  | _ w ih =>
    by_cases idle : w.pc = .idle
    · exact ⟨0, w, rfl, idle⟩
    obtain ⟨after, taken⟩ := Option.isSome_iff_exists.mp (placed.enabled idle)
    obtain ⟨count, final, finished, last⟩ := ih after (placed.less_tick taken) (placed.tick taken)
    refine ⟨count + 1, final, ?_, last⟩
    rw [List.replicate_succ, run_cons]
    exact ⟨after, taken, finished⟩

/-! ### Links under insertion -/

variable {table : Table Val} {link : Link} {key : Key} {i : IterId} {kind : Kind} {act : Act Val}

theorem next_of_least (ordered : Ordered table) {record : Record Val} (mem : record ∈ table)
    (behind : RangeScan.after link record.key = true)
    (least : ∀ other ∈ table, RangeScan.after link other.key = true → record.key ≤ other.key) :
    next table link = some record.key := by
  cases points : next table link with
  | none => exact absurd behind (by simp [next_eq_none points mem])
  | some key =>
    have above := next_least ordered points mem behind
    obtain ⟨before, first, rest, rfl, rfl, passes, -, -⟩ := next_eq_some ordered points
    have below := least first (by simp) passes
    rw [Nat.le_antisymm above below]

theorem next_of_none (past : ∀ record ∈ table, RangeScan.after link record.key = false) :
    next table link = none := by
  refine Option.map_eq_none_iff.mpr (List.find?_eq_none.mpr ?_)
  intro record mem
  simp [past record mem]

def splits (pair : SuccPair) (key : Key) : Bool :=
  pair.link.any (RangeScan.after · key) && pair.target.all (key < ·)

theorem next_getWithInsert (ordered : Ordered table) {target : Option Key}
    (points : next table link = target)
    (apart : (∃ record ∈ table, record.key = key) ∨ RangeScan.after link key = false ∨
      ∃ other, target = some other ∧ other ≤ key) :
    next (getWithInsert key table) link = target := by
  have kept := (ordered.getWithInsert key).1
  cases target with
  | none =>
    apply next_of_none
    intro record mem
    rcases OrderedList.mem_of_mem_insert mem with rfl | old
    · rcases apart with ⟨same, inTable, rfl⟩ | before | ⟨other, ended, -⟩
      · have past := next_eq_none points inTable
        exact past
      · exact before
      · cases ended
    · exact next_eq_none points old
  | some other =>
    obtain ⟨before, first, rest, split, rfl, passes, -, -⟩ := next_eq_some ordered points
    have mem : first ∈ table := by simp [split]
    apply next_of_least kept (OrderedList.mem_insert_of_mem mem) passes
    intro record inserted behind
    rcases OrderedList.mem_of_mem_insert inserted with rfl | old
    · rcases apart with ⟨same, inTable, rfl⟩ | notBehind | ⟨bound, isTarget, less⟩
      · have above := next_least ordered points inTable behind
        exact above
      · exact absurd behind (by simp [notBehind])
      · cases isTarget
        exact less
    · exact next_least ordered points old behind

/-! ### What was recorded stays true -/

def Linked (w : World Val) (i : IterId) : Prop :=
  ∃ link, (w.iters i).previous = some link ∧ next (w.tables (w.iters i).table) link = (w.iters i).node

def Arrived (w : World Val) : Pc → Prop
  | .less _ key at_ => RangeScan.after at_ key = true
  | .greaterOrEqual i key at_ => RangeScan.after at_ key = true ∧
      ∃ link, (w.iters i).previous = some link ∧ RangeScan.after link key = true ∧
        stepTo (w.tables (w.iters i).table) key link = none
  | .positioned i => Linked w i
  | .looking i kind => kind ≠ .prev → Linked w i
  | .idle | .getting _ _ | .moving _ _ | .back _ _ _ => True

structure Recorded (w : World Val) : Prop where
  seqs : ∀ pair ∈ w.seqs, currentSeq w.tables pair = some pair.seq
  nexts : ∀ pair ∈ w.nexts, ∃ link, pair.link = some link ∧
    next (w.tables pair.table) link = pair.target
  arrived : Arrived w w.pc

theorem Recorded.validate (recorded : Recorded w) : w.validate = some true := by
  have links : ∀ pairs : List SuccPair, (∀ pair ∈ pairs, ∃ link, pair.link = some link ∧
      next (w.tables pair.table) link = pair.target) → validateNexts w.tables pairs = some true := by
    intro pairs
    induction pairs with
    | nil => exact fun _ => rfl
    | cons pair rest ih =>
      intro known
      obtain ⟨link, isLink, points⟩ := known pair List.mem_cons_self
      have later := ih fun other mem => known other (List.mem_cons_of_mem pair mem)
      simp [validateNexts, isLink, points, later]
  have current : (w.seqs.all fun pair => currentSeq w.tables pair == some pair.seq) = true := by
    refine List.all_eq_true.mpr ?_
    intro pair mem
    simp [recorded.seqs pair mem]
  rw [World.validate, if_pos current]
  exact links w.nexts recorded.nexts

theorem Recorded.same (recorded : Recorded w) (tables : after.tables = w.tables)
    (seqs : after.seqs = w.seqs) (nexts : after.nexts = w.nexts) (arrived : Arrived after after.pc) :
    Recorded after where
  seqs := by
    rw [seqs, tables]
    exact recorded.seqs
  nexts := by
    rw [nexts, tables]
    exact recorded.nexts
  arrived := arrived

theorem Recorded.visit (kind : Kind) {record : Record Val} (recorded : Recorded w)
    (node : (w.iters i).node = some key) (linked : Linked w i)
    (found : find (w.tables (w.iters i).table) key = some record) (tables : after.tables = w.tables)
    (seqs : after.seqs = (w.visit i kind key record).seqs)
    (nexts : after.nexts = (w.visit i kind key record).nexts) (arrived : Arrived after after.pc) :
    Recorded after where
  seqs := by
    intro pair mem
    rw [tables]
    rw [seqs] at mem
    rcases List.mem_append.mp mem with old | new
    · exact recorded.seqs pair old
    · obtain rfl := List.mem_singleton.mp new
      simp [currentSeq, found]
  nexts := by
    intro pair mem
    rw [tables]
    rw [nexts] at mem
    simp only [World.visit] at mem
    split at mem
    · exact recorded.nexts pair mem
    rcases List.mem_append.mp mem with old | new
    · exact recorded.nexts pair old
    · obtain rfl := List.mem_singleton.mp new
      rw [← node]
      exact linked
  arrived := arrived

theorem Recorded.look (recorded : Recorded w) (linked : (w.iters i).node ≠ none → Linked w i)
    (taken : w.look i kind = some after) : Recorded after := by
  unfold World.look at taken
  cases node : (w.iters i).node with
  | none =>
    simp only [node] at taken
    cases taken
    exact recorded.same rfl rfl rfl trivial
  | some key =>
    simp only [node, Option.bind_eq_bind, Option.bind_eq_some_iff] at taken
    obtain ⟨record, found, isAfter⟩ := taken
    have isLinked := linked (by simp [node])
    split at isAfter
    · cases isAfter
      exact recorded.visit kind node isLinked found rfl rfl rfl trivial
    · cases isAfter
      exact recorded.visit kind node isLinked found rfl rfl rfl trivial

theorem Recorded.follow (recorded : Recorded w)
    (taken : (w.follow i).map (fun moved => { moved with pc := Pc.looking i kind }) = some after) :
    Recorded after := by
  obtain ⟨moved, followed, rfl⟩ := Option.map_eq_some_iff.mp taken
  obtain ⟨key, -, isMoved⟩ := Option.bind_eq_some_iff.mp followed
  cases isMoved
  refine recorded.same rfl rfl rfl fun _ => ⟨some key, ?_, ?_⟩
  · simp [World.arrive]
  · simp [World.arrive]

def Unsplit (w : World Val) (id : TableId) (key : Key) : Prop :=
  (find (w.tables id) key).isSome ∨ ∀ pair ∈ w.nexts, pair.table = id → splits pair key = false

theorem Recorded.insert {id : TableId} (recorded : Recorded w)
    (ordered : ∀ id, Ordered (w.tables id)) (unsplit : Unsplit w id key)
    (tables : after.tables = w.tables.change id (getWithInsert key)) (seqs : after.seqs = w.seqs)
    (nexts : after.nexts = w.nexts) (arrived : Arrived after after.pc) :
    Recorded after where
  seqs := by
    rw [seqs, tables]
    intro pair mem
    have current := recorded.seqs pair mem
    obtain ⟨record, found, isSeq⟩ := Option.map_eq_some_iff.mp current
    simp only [currentSeq, Tables.change]
    split
    · rename_i same
      subst same
      rw [((ordered _).getWithInsert key).2 _ record found]
      exact congrArg some isSeq
    · exact current
  nexts := by
    rw [nexts, tables]
    intro pair mem
    obtain ⟨link, isLink, points⟩ := recorded.nexts pair mem
    refine ⟨link, isLink, ?_⟩
    simp only [Tables.change]
    split
    · rename_i same
      apply next_getWithInsert (ordered _) points
      rcases unsplit with present | apart
      · obtain ⟨record, found⟩ := Option.isSome_iff_exists.mp present
        obtain ⟨inTable, isKey⟩ := find_eq_some found
        exact Or.inl ⟨record, same ▸ inTable, isKey⟩
      have whole := apart pair mem same
      rw [splits, isLink, Option.any_some, Bool.and_eq_false_iff] at whole
      rcases whole with notBehind | past
      · exact Or.inr (Or.inl notBehind)
      cases target : pair.target with
      | none => simp [target] at past
      | some other =>
        simp only [target, Option.all_some, decide_eq_false_iff_not] at past
        exact Or.inr (Or.inr ⟨other, rfl, Nat.not_lt.mp past⟩)
    · exact points
  arrived := arrived

def Avoids (w : World Val) : Act Val → Prop
  | .create _ _ | .seek _ _ | .seekToFirst _ => True
  | .next i | .prev i => (w.iters i).cur ≠ .null ∧ (w.iters i).node ≠ none
  | .value i => (w.iters i).node ≠ none
  | .get id key => Unsplit w id key
  | .add id key _ _ => ¬ (w.buffer id = none ∧ key = noKey) ∧
      (w.buffer id = some key ∨ Unsplit w id key)
  | .tick =>
    match w.pc with
    | .looking i .prev => (w.iters i).node ≠ none → Linked w i
    | _ => True
  | .begin | .end_ _ | .abort | .insert _ _ | .commit _ => False

theorem after_of_le {other : Key} (before : RangeScan.after link key = true) (bound : key ≤ other) :
    RangeScan.after link other = true := by
  rcases Nat.lt_or_eq_of_le bound with less | rfl
  · exact after_trans before less
  · exact before

theorem stepTo_none_next (ordered : Ordered table) {other : Link}
    (before : RangeScan.after link key = true) (stops : stepTo table key link = none)
    (start : RangeScan.after other key = true) (ends : stepTo table key other = none) :
    next table link = next table other := by
  have bound : ∀ record ∈ table, RangeScan.after other record.key = true → key ≤ record.key := by
    intro record mem behind
    cases points : next table other with
    | none => exact absurd behind (by simp [next_eq_none points mem])
    | some target =>
      exact Nat.le_trans (stepTo_none ends points) (next_least ordered points mem behind)
  symm
  cases points : next table link with
  | none =>
    apply next_of_none
    intro record mem
    by_contra behind
    have inRange := bound record mem (by simpa using behind)
    exact absurd (after_of_le before inRange) (by simp [next_eq_none points mem])
  | some target =>
    have inRange := stepTo_none stops points
    have least := fun record (mem : record ∈ table) behind =>
      next_least ordered points mem (after_of_le before (bound record mem behind))
    obtain ⟨early, first, rest, rfl, rfl, -, -, -⟩ := next_eq_some ordered points
    exact next_of_least ordered (by simp) (after_of_le start inRange) least

section

variable (recorded : Recorded w) (placed : Placed w)

include recorded placed

theorem Recorded.tick (avoids : Avoids w .tick) (taken : w.tick = some after) : Recorded after := by
  have arrived := recorded.arrived
  cases isPc : w.pc with
  | idle => simp [World.tick, isPc] at taken
  | getting id key =>
    simp only [World.tick, isPc, Option.bind_eq_bind, Option.bind_eq_some_iff] at taken
    obtain ⟨record, found, isAfter⟩ := taken
    cases isAfter
    refine ⟨?_, recorded.nexts, trivial⟩
    intro pair mem
    rcases List.mem_append.mp mem with old | new
    · exact recorded.seqs pair old
    · obtain rfl := List.mem_singleton.mp new
      simp [currentSeq, found]
  | less i key at_ =>
    simp only [World.tick, isPc] at taken arrived
    split at taken
    · rename_i further step
      cases taken
      exact recorded.same rfl rfl rfl (stepTo_some step)
    rename_i stops
    cases taken
    refine recorded.same rfl rfl rfl ⟨rfl, at_, ?_, arrived, ?_⟩
    · simp
    · simpa using stops
  | greaterOrEqual i key at_ =>
    simp only [World.tick, isPc] at taken arrived
    obtain ⟨before, link, isPrevious, start, ends⟩ := arrived
    split at taken
    · rename_i further step
      cases taken
      exact recorded.same rfl rfl rfl ⟨stepTo_some step, link, isPrevious, start, ends⟩
    rename_i stops
    cases taken
    refine recorded.same rfl rfl rfl ⟨link, ?_, ?_⟩
    · simp [World.arrive, isPrevious]
    · simpa [World.arrive] using stepTo_none_next (placed.ordered _) start ends before stops
  | positioned i =>
    simp only [World.tick, isPc] at taken arrived
    split at taken
    · rename_i node
      cases taken
      refine ⟨recorded.seqs, ?_, trivial⟩
      intro pair mem
      rcases List.mem_append.mp mem with old | new
      · exact recorded.nexts pair old
      · obtain rfl := List.mem_singleton.mp new
        rw [← node]
        exact arrived
    · exact recorded.look (fun _ => arrived) taken
  | looking i kind =>
    simp only [World.tick, isPc] at taken arrived
    apply recorded.look _ taken
    cases kind with
    | prev => simpa only [Avoids, isPc] using avoids
    | next | seek => exact fun _ => arrived (by simp)
  | moving i kind =>
    cases kind with
    | prev =>
      simp only [World.tick, isPc, Option.bind_eq_bind, Option.bind_eq_some_iff] at taken
      obtain ⟨key, -, isAfter⟩ := taken
      cases isAfter
      exact recorded.same rfl rfl rfl trivial
    | next | seek =>
      simp only [World.tick, isPc] at taken
      exact recorded.follow taken
  | back i key at_ =>
    simp only [World.tick, isPc] at taken
    split at taken
    · cases taken
      exact recorded.same rfl rfl rfl trivial
    · cases taken
      exact recorded.same rfl rfl rfl fun other => absurd rfl other

theorem Recorded.call (idle : w.pc = .idle) (avoids : Avoids w act)
    (taken : call w act = some after) : Recorded after := by
  have free : ∀ state : World Val, Arrived state w.pc := by
    rw [idle]
    exact fun _ => trivial
  cases act with
  | begin | abort | end_ handed | insert id key | commit writes => exact avoids.elim
  | tick => cases taken
  | create i id =>
    cases taken
    exact recorded.same rfl rfl rfl (free _)
  | seek i key =>
    cases taken
    exact recorded.same rfl rfl rfl rfl
  | seekToFirst i =>
    cases taken
    refine recorded.same rfl rfl rfl ⟨none, ?_, ?_⟩
    · simp [World.seekToFirst, World.arrive]
    · simp [World.seekToFirst, World.arrive]
  | next i =>
    simp only [RangeScan.call] at taken
    split at taken
    · cases taken
    · exact recorded.follow taken
  | prev i =>
    simp only [RangeScan.call] at taken
    split at taken
    · cases taken
    · obtain ⟨key, -, isAfter⟩ := Option.bind_eq_some_iff.mp taken
      cases isAfter
      exact recorded.same rfl rfl rfl trivial
  | value i =>
    obtain ⟨key, -, isAfter⟩ := Option.bind_eq_some_iff.mp taken
    cases isAfter
    exact recorded.same rfl rfl rfl (free _)
  | get id key =>
    cases taken
    unfold World.get
    split
    · exact recorded
    · exact recorded.insert placed.ordered avoids rfl rfl rfl trivial
  | add id key value fills =>
    simp only [RangeScan.call, World.add] at taken
    split at taken
    · cases taken
    cases taken
    by_cases hit : w.buffer id = some key
    · exact recorded.same (by simp [hit]) rfl rfl (free _)
    · exact recorded.insert placed.ordered (avoids.2.resolve_left hit) (by simp [hit]) rfl rfl
        (free _)

theorem Recorded.step (avoids : Avoids w act) (taken : step w act = some after) :
    Recorded after := by
  unfold RangeScan.step at taken
  split at taken
  · exact recorded.tick placed avoids taken
  · exact avoids.elim
  · exact avoids.elim
  · split at taken
    · rename_i idle
      exact recorded.call placed idle avoids taken
    · cases taken

end

theorem Avoids.enabled (idle : w.pc = .idle) (avoids : Avoids w act) (isCall : act ≠ .tick) :
    (RangeScan.step w act).isSome := by
  cases act with
  | begin | abort | end_ handed | insert id key | commit writes => exact avoids.elim
  | tick => exact absurd rfl isCall
  | create i id | seek i key | seekToFirst i | get id key =>
    simp [RangeScan.step, RangeScan.call, idle]
  | next i =>
    obtain ⟨valid, stands⟩ := avoids
    obtain ⟨key, node⟩ := Option.ne_none_iff_exists'.mp stands
    simp [RangeScan.step, RangeScan.call, idle, valid, World.follow, node]
  | prev i =>
    obtain ⟨valid, stands⟩ := avoids
    obtain ⟨key, node⟩ := Option.ne_none_iff_exists'.mp stands
    simp [RangeScan.step, RangeScan.call, idle, valid, node]
  | value i =>
    obtain ⟨key, node⟩ := Option.ne_none_iff_exists'.mp avoids
    simp [RangeScan.step, RangeScan.call, idle, World.value, node]
  | add id key value fills =>
    simp only [RangeScan.step, idle, RangeScan.call, World.add, if_neg avoids.1]
    rfl

end

/-! ### `End` commits -/

def Fits (w : World Val) (handed : Nat) : Prop :=
  (commit w.tables w.writes).2.length < qsize ∧ w.gcnum + handed < GCThreshold ∧
    (w.pending ++ (commit w.tables w.writes).2).length < RMThreshold

instance (w : World Val) (handed : Nat) : Decidable (Fits w handed) :=
  inferInstanceAs (Decidable (_ ∧ _ ∧ _))

structure Commits (w : World Val) : Prop where
  accepts : w.pc = .idle → ∀ act, Avoids w act → act ≠ .tick → (step w act).isSome
  returns : ∃ count final, run step w (List.replicate count .tick) = some final ∧ final.pc = .idle
  commits : w.pc = .idle → ∀ handed, Fits w handed →
    ∃ after, step w (.end_ handed) = some after ∧ after.ended = some true

instance (w : World Val) (i : IterId) : Decidable (Linked w i) :=
  decidable_of_iff ((w.iters i).previous.any fun link =>
    decide (next (w.tables (w.iters i).table) link = (w.iters i).node))
    (by simp [Linked, Option.any_eq_true])

instance (w : World Val) (id : TableId) (key : Key) : Decidable (Unsplit w id key) :=
  inferInstanceAs (Decidable (_ ∨ _))

instance (w : World Val) : (act : Act Val) → Decidable (Avoids w act)
  | .create _ _ | .seek _ _ | .seekToFirst _ => isTrue trivial
  | .next i | .prev i =>
    inferInstanceAs (Decidable ((w.iters i).cur ≠ .null ∧ (w.iters i).node ≠ none))
  | .value i => inferInstanceAs (Decidable ((w.iters i).node ≠ none))
  | .get id key => inferInstanceAs (Decidable (Unsplit w id key))
  | .add id key _ _ => inferInstanceAs (Decidable (¬ (w.buffer id = none ∧ key = noKey) ∧
      (w.buffer id = some key ∨ Unsplit w id key)))
  | .tick =>
    match isPc : w.pc with
    | .looking i .prev =>
      decidable_of_iff ((w.iters i).node ≠ none → Linked w i) (by simp [Avoids, isPc])
    | .looking _ .next | .looking _ .seek | .idle | .getting _ _ | .less _ _ _
    | .greaterOrEqual _ _ _ | .positioned _ | .moving _ _ | .back _ _ _ =>
      isTrue (by simp [Avoids, isPc])
  | .begin | .end_ _ | .abort | .insert _ _ | .commit _ => isFalse fun avoids => avoids

theorem Recorded.commits {w : World Val} (recorded : Recorded w) (placed : Placed w) :
    Commits w where
  accepts := fun idle _ avoids isCall => avoids.enabled idle isCall
  returns := placed.returns
  commits := by
    intro idle handed fits
    obtain ⟨deletions, values, removals⟩ := fits
    simp only [RangeScan.step, idle, RangeScan.call, World.end_, placed.clear, recorded.validate]
    simp only [Bool.false_eq_true, if_false, Option.bind_eq_bind, Option.bind_some, if_true,
      if_neg (Nat.not_le.mpr deletions), World.collect, if_pos removals]
    exact ⟨_, rfl, rfl⟩

/-- A transaction alone after any history that avoids what `Avoids` excludes returns and commits. -/
theorem alone_commits (history acts : List (Act Val)) (before w : World Val)
    (reached : run step {} history = some before) (begun : before.pc = .idle)
    (alone : run step before.begin acts = some w) (avoids : Each step Avoids before.begin acts) :
    Commits w := by
  have start : Placed ({} : World Val) :=
    ⟨fun _ => List.Pairwise.nil, fun _ _ points => (by cases points), trivial, rfl⟩
  have placed := run_preserves (fun _ _ _ placed _ taken => Placed.step placed taken) start
    (each_of_forall fun _ _ => trivial) reached
  have first : step before .begin = some before.begin := by simp [step, begun, call]
  have arrived : Arrived before.begin before.pc := by
    rw [begun]
    trivial
  have fresh : Recorded before.begin :=
    ⟨fun _ member => (by cases member), fun _ member => (by cases member), arrived⟩
  have inside : ∀ (state : World Val) (act : Act Val) (next : World Val),
      Placed state ∧ Recorded state → Avoids state act → step state act = some next →
        Placed next ∧ Recorded next :=
    fun _ _ _ invariant allowed taken =>
      ⟨invariant.1.step taken, invariant.2.step invariant.1 allowed taken⟩
  obtain ⟨stays, recorded⟩ := run_preserves inside ⟨placed.step first, fresh⟩ avoids alone
  exact recorded.commits stays

theorem own_insertion_conflicts :
    ∃ before w after : World Nat,
      run step {} [.insert 0 1, .commit [⟨0, 1, .value 10⟩]] = some before ∧ before.pc = .idle ∧
        run step before.begin [.create 0 0, .seekToFirst 0, .tick, .add 0 0 (.value 5) true] =
          some w ∧
        step w (.end_ 0) = some after ∧ after.ended = some false :=
  ⟨_, _, _, rfl, rfl, rfl, rfl, rfl⟩

def conflictBefore : List (Act Nat) :=
  [.insert 0 2, .insert 0 5, .commit [⟨0, 2, .value 20⟩, ⟨0, 5, .value 50⟩],
    .begin, .get 0 2, .tick, .commit [⟨0, 2, .value 21⟩], .end_ 0]

def aloneCalls : List (Act Nat) :=
  [.create 0 0, .seekToFirst 0, .tick, .next 0, .tick, .value 0, .add 0 2 (.value 22) true,
    .get 0 7, .tick, .create 1 0, .seekToFirst 1, .tick, .prev 1, .tick, .tick]

theorem alone_commits_scan :
    ∃ before w after : World Nat, run step {} conflictBefore = some before ∧
      before.ended = some false ∧ run step before.begin aloneCalls = some w ∧
      step w (.end_ 0) = some after ∧ after.ended = some true := by
  have commits : ∀ before w, run step {} conflictBefore = some before → before.pc = .idle →
      run step before.begin aloneCalls = some w → Each step Avoids before.begin aloneCalls →
        Commits w := alone_commits conflictBefore aloneCalls
  obtain ⟨after, ended, success⟩ :=
    (commits _ _ rfl rfl rfl (by decide)).commits rfl 0 (by decide)
  exact ⟨_, _, after, rfl, rfl, rfl, ended, success⟩

end EunoDb.RangeScan
