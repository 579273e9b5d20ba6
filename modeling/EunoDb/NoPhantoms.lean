import EunoDb.ScanTrail

/-! A scan's answers follow from the links it crossed and the values it saw. -/

namespace EunoDb.RangeScan

open Execution

variable {Val : Type}

structure Agrees (crossed : List SuccPair) (seen : List (SeqPair × Payload Val)) (id : TableId)
    (table : Table Val) : Prop where
  ordered : Ordered table
  links : ∀ pair ∈ crossed, pair.table = id → ∀ link, pair.link = some link →
    next table link = pair.target
  values : ∀ entry ∈ seen, entry.1.table = id →
    ∃ record, find table entry.1.key = some record ∧ record.value = entry.2

variable {crossed : List SuccPair} {seen : List (SeqPair × Payload Val)} {table : Table Val}

theorem Agrees.mono {more : List SuccPair} {further : List (SeqPair × Payload Val)} {id : TableId}
    (links : crossed ⊆ more) (values : seen ⊆ further) (agrees : Agrees more further id table) :
    Agrees crossed seen id table :=
  ⟨agrees.ordered, fun pair mem => agrees.links pair (links mem),
    fun entry mem => agrees.values entry (values mem)⟩

theorem Agrees.arrived {iter : Iter} {link : Link}
    (agrees : Agrees (crossed ++ [⟨iter.table, iter.previous, iter.node⟩]) seen iter.table table)
    (isPrevious : iter.previous = some link) : next table link = iter.node :=
  agrees.links ⟨iter.table, iter.previous, iter.node⟩
    (List.mem_append_right _ List.mem_cons_self) rfl link isPrevious

theorem Agrees.visited {pair : SeqPair} {value : Payload Val}
    (agrees : Agrees crossed (seen ++ [(pair, value)]) pair.table table) :
    ∃ found ∈ table, found.key = pair.key ∧ found.value = value := by
  obtain ⟨found, isFound, same⟩ := agrees.values (pair, value)
    (List.mem_append_right _ List.mem_cons_self) rfl
  obtain ⟨mem, isKey⟩ := find_eq_some isFound
  exact ⟨found, mem, isKey, same⟩

def Pc.iter : Pc → Option IterId
  | .idle | .getting _ _ => none
  | .less i _ _ | .greaterOrEqual i _ _ | .positioned i | .looking i _ | .moving i _
  | .back i _ _ => some i

section

variable (w : World Val)

def World.returned (i : IterId) : List (Call × Option (Key × Val)) := (w.answers i).getD []

def World.running : Kind → Call
  | .seek => w.asked
  | _ => .next

def Kept (i : IterId) : Kind → Prop
  | .seek => True
  | .next => w.answers i ≠ none
  | .prev => False

def Expects (i : IterId) (kind : Kind) (answer : Table Val → Option (Key × Val)) : Prop :=
  Kept w i kind → ∀ table, Agrees w.crossed w.seen (w.iters i).table table →
    aloneAnswer table (position table ((w.returned i).map Prod.fst)) (w.running kind) = answer table

def InProgress : Pc → Prop
  | .less _ key at_ => after at_ key = true ∧ w.asked = .seek key
  | .greaterOrEqual i key at_ => after at_ key = true ∧ w.asked = .seek key ∧
      ∃ link, (w.iters i).previous = some link ∧ after link key = true
  | .positioned i => Expects w i .seek fun table => firstFrom table (w.iters i).node
  | .looking i kind => Expects w i kind fun table => firstFrom table (w.iters i).node
  | .moving i kind => Expects w i kind fun table => first table (after (w.iters i).node)
  | .idle | .getting _ _ | .back _ _ _ => True

structure Trail : Prop where
  logged : ∀ i log, w.answers i = some log → ∀ table, Agrees w.crossed w.seen (w.iters i).table table →
    log.map Prod.snd = alone table (log.map Prod.fst)
  rests : ∀ i log, w.answers i = some log → w.pc.iter ≠ some i → ∀ table,
    Agrees w.crossed w.seen (w.iters i).table table → position table (log.map Prod.fst) = (w.iters i).node
  progress : InProgress w w.pc

end

section

variable {w after : World Val} {i : IterId}

theorem Trail.update (trail : Trail w)
    (others : ∀ j, j ≠ i → after.iters j = w.iters j ∧ after.answers j = w.answers j)
    (crossed : w.crossed ⊆ after.crossed) (seen : w.seen ⊆ after.seen)
    (mine : ∀ j, w.pc.iter = some j → j = i)
    (logged : ∀ log, after.answers i = some log → ∀ table,
      Agrees after.crossed after.seen (after.iters i).table table → log.map Prod.snd = alone table (log.map Prod.fst))
    (rests : ∀ log, after.answers i = some log → after.pc.iter ≠ some i → ∀ table,
      Agrees after.crossed after.seen (after.iters i).table table →
        position table (log.map Prod.fst) = (after.iters i).node)
    (progress : InProgress after after.pc) : Trail after := by
  constructor
  case logged =>
    intro j log answered table agrees
    by_cases same : j = i
    · subst same
      exact logged log answered table agrees
    · obtain ⟨iter, answers⟩ := others j same
      rw [iter] at agrees
      exact trail.logged j log (answers ▸ answered) table (agrees.mono crossed seen)
  case rests =>
    intro j log answered apart table agrees
    by_cases same : j = i
    · subst same
      exact rests log answered apart table agrees
    · obtain ⟨iter, answers⟩ := others j same
      rw [iter] at agrees ⊢
      exact trail.rests j log (answers ▸ answered) (fun busy => same (mine j busy)) table
        (agrees.mono crossed seen)
  case progress => exact progress

structure Advances (w after : World Val) (i : IterId) : Prop where
  answers : after.answers = w.answers
  others : ∀ j, j ≠ i → after.iters j = w.iters j
  table : (after.iters i).table = (w.iters i).table
  crossed : w.crossed ⊆ after.crossed
  seen : w.seen ⊆ after.seen

theorem Advances.agrees (advances : Advances w after i) {table : Table Val}
    (agrees : Agrees after.crossed after.seen (after.iters i).table table) : Agrees w.crossed w.seen (w.iters i).table table := by
  rw [advances.table] at agrees
  exact agrees.mono advances.crossed advances.seen

theorem Advances.same (iters : after.iters = w.iters) (answers : after.answers = w.answers)
    (links : after.crossed = w.crossed) (values : after.seen = w.seen) : Advances w after i where
  answers := answers
  others := fun j _ => by rw [iters]
  table := by rw [iters]
  crossed := links ▸ List.Subset.refl _
  seen := values ▸ List.Subset.refl _

theorem Advances.iter (iter : Iter) (table : iter.table = (w.iters i).table)
    (iters : after.iters = Function.update w.iters i iter) (answers : after.answers = w.answers)
    {crossed : List SuccPair} (links : after.crossed = w.crossed ++ crossed)
    {seen : List (SeqPair × Payload Val)} (values : after.seen = w.seen ++ seen) :
    Advances w after i where
  answers := answers
  others := fun j different => by rw [iters, Function.update_of_ne different]
  table := by rw [iters, Function.update_self, table]
  crossed := links ▸ List.subset_append_left ..
  seen := values ▸ List.subset_append_left ..

variable {kind : Kind} {answer : Option (Key × Val)} {link : Link} {act : Act Val}

theorem Expects.advance {answer later : Table Val → Option (Key × Val)}
    (expects : Expects w i kind answer) (advances : Advances w after i)
    (asked : after.asked = w.asked)

    (same : ∀ table, Agrees after.crossed after.seen (after.iters i).table table → answer table = later table) :
    Expects after i kind later := by
  intro kept table agrees
  have keptBefore : Kept w i kind := by
    cases kind with
    | seek => trivial
    | next => rwa [Kept, advances.answers] at kept
    | prev => exact kept
  have running : after.running kind = w.running kind := by
    cases kind with
    | seek => exact asked
    | next | prev => rfl
  rw [World.returned, advances.answers, running, ← same table agrees]
  exact expects keptBefore table (advances.agrees agrees)

theorem Trail.ongoing (trail : Trail w) (advances : Advances w after i)
    (mine : ∀ j, w.pc.iter = some j → j = i) (busy : after.pc.iter = some i)
    (progress : InProgress after after.pc) : Trail after := by
  apply trail.update (i := i)
  case others =>
    intro j different
    exact ⟨advances.others j different, by rw [advances.answers]⟩
  case crossed => exact advances.crossed
  case seen => exact advances.seen
  case mine => exact mine
  case logged =>
    intro log answered table agrees
    exact trail.logged i log (advances.answers ▸ answered) table (advances.agrees agrees)
  case rests => exact fun _ _ idle => absurd busy idle
  case progress => exact progress

theorem respond_answers {log : List (Call × Option (Key × Val))}
    (answered : (w.respond i kind answer).answers i = some log) :
    Kept w i kind ∧ log = w.returned i ++ [(w.running kind, answer)] := by
  simp only [World.respond, Function.update_self] at answered
  cases kind with
  | seek => exact ⟨trivial, (Option.some.inj answered).symm⟩
  | next =>
    obtain ⟨earlier, answers, rfl⟩ := Option.map_eq_some_iff.mp answered
    exact ⟨by simp [Kept, answers], by simp [World.returned, answers, World.running]⟩
  | prev => cases answered

theorem Trail.respond (trail : Trail w) (advances : Advances w after i)
    (mine : ∀ j, w.pc.iter = some j → j = i) (expects : Expects after i kind fun _ => answer)
    (stands : answer.map Prod.fst = (after.iters i).node) :
    Trail (after.respond i kind answer) := by
  have earlier : ∀ table, Agrees after.crossed after.seen (after.iters i).table table →
      (after.returned i).map Prod.snd = alone table ((after.returned i).map Prod.fst) := by
    intro table agrees
    rw [World.returned, advances.answers]
    cases answered : w.answers i with
    | none => rfl
    | some log => exact trail.logged i log answered table (advances.agrees agrees)
  apply trail.update (i := i)
  case others =>
    intro j different
    refine ⟨advances.others j different, ?_⟩
    simp only [World.respond, Function.update_of_ne different, advances.answers]
  case crossed => exact advances.crossed
  case seen => exact advances.seen
  case mine => exact mine
  case logged =>
    intro log answered table agrees
    obtain ⟨kept, rfl⟩ := respond_answers answered
    rw [List.map_append, List.map_append, earlier table agrees, List.map_singleton,
      List.map_singleton, alone_append, expects kept table agrees]
  case rests =>
    intro log answered _ table agrees
    obtain ⟨kept, rfl⟩ := respond_answers answered
    rw [List.map_append, List.map_singleton, position_append, expects kept table agrees]
    exact stands
  case progress => trivial

/-! ### Steps of the scan -/

variable {kind : Kind}

theorem Advances.setIter (iter : Iter) (table : iter.table = (w.iters i).table) (pc : Pc) :
    Advances w { w.setIter i iter with pc := pc } i :=
  Advances.iter iter table rfl rfl (List.append_nil _).symm (List.append_nil _).symm

theorem Advances.arrive (iter : Iter) (table : iter.table = (w.iters i).table) (pc : Pc) (asked : Call) :
    Advances w { w.arrive i iter with pc := pc, asked := asked } i :=
  Advances.iter iter table rfl rfl rfl (List.append_nil _).symm

theorem Advances.visit (key : Key) (record : Record Val) (pc : Pc) :
    Advances w { w.visit i kind key record with pc := pc } i :=
  Advances.iter { w.iters i with
    cur := .on key
    prevLink := if kind = .next then (w.iters i).previous else (w.iters i).prevLink } rfl rfl rfl
    (List.append_nil _).symm rfl

theorem Trail.looking {iter : Iter} (trail : Trail w) (mine : ∀ j, w.pc.iter = some j → j = i)
    (table : iter.table = (w.iters i).table) (isPrevious : iter.previous = some link)
    (expects : Expects w i kind fun table => first table (RangeScan.after link)) :
    Trail { w.arrive i iter with pc := .looking i kind } := by
  have arrived : ({ w.arrive i iter with pc := .looking i kind } : World Val).iters i = iter :=
    w.setIter_iters i iter
  have advances : Advances w { w.arrive i iter with pc := .looking i kind } i :=
    Advances.arrive iter table (.looking i kind) w.asked
  refine trail.ongoing advances mine rfl (expects.advance advances rfl ?_)
  intro other agrees
  rw [arrived] at agrees ⊢
  exact first_after agrees.ordered (agrees.arrived isPrevious)

theorem Trail.follow {moved : World Val} (trail : Trail w) (followed : w.follow i = some moved)
    (mine : ∀ j, w.pc.iter = some j → j = i)
    (expects : Expects w i kind fun table => first table (RangeScan.after (w.iters i).node)) :
    Trail { moved with pc := .looking i kind } := by
  obtain ⟨key, node, isMoved⟩ := Option.bind_eq_some_iff.mp followed
  cases isMoved
  rw [node] at expects
  exact trail.looking mine rfl rfl expects

theorem Trail.look {looked : World Val} (trail : Trail w) (taken : w.look i kind = some looked)
    (mine : ∀ j, w.pc.iter = some j → j = i)
    (expects : Expects w i kind fun table => firstFrom table (w.iters i).node) : Trail looked := by
  unfold World.look at taken
  cases node : (w.iters i).node with
  | none =>
    simp only [node] at taken
    cases taken
    let iter : Iter := { w.iters i with cur := .null, node := none }
    have advances : Advances w (w.setIter i iter) i := Advances.setIter iter rfl w.pc
    refine trail.respond advances mine (expects.advance advances rfl ?_) ?_
    · intro table _
      rw [node]
      rfl
    · rw [w.setIter_iters]
      rfl
  | some key =>
    simp only [node, Option.bind_eq_bind, Option.bind_eq_some_iff] at taken
    obtain ⟨record, -, isLooked⟩ := taken
    have stays : ((w.visit i kind key record).iters i).node = some key := by
      simp [World.visit, node]
    have inTable : ((w.visit i kind key record).iters i).table = (w.iters i).table := by
      simp [World.visit]
    cases valid : record.value.validate with
    | some val =>
      simp only [valid] at isLooked
      cases isLooked
      have advances : Advances w (w.visit i kind key record) i := Advances.visit key record w.pc
      refine trail.respond advances mine (expects.advance advances rfl ?_) stays.symm
      intro table agrees
      rw [inTable] at agrees
      obtain ⟨found, mem, rfl, same⟩ := agrees.visited
      rw [node, first_valid agrees.ordered mem (same ▸ valid)]
    | none =>
      simp only [valid] at isLooked
      cases isLooked
      have advances : Advances w { w.visit i kind key record with pc := .moving i kind } i :=
        Advances.visit key record (.moving i kind)
      refine trail.ongoing advances mine rfl (expects.advance advances rfl ?_)
      intro table agrees
      rw [inTable] at agrees
      obtain ⟨found, mem, rfl, same⟩ := agrees.visited
      rw [node, stays, first_passed agrees.ordered mem (same ▸ valid)]
      rfl

theorem Trail.positioned {iter : Iter} {low : Key} {asked : Call} (trail : Trail w)
    (mine : ∀ j, w.pc.iter = some j → j = i) (table : iter.table = (w.iters i).table)
    (isAsked : asked = .seek low) (isPrevious : iter.previous = some link)
    (start : RangeScan.after link low = true) (reached : ∀ key, iter.node = some key → low ≤ key) :
    Trail { w.arrive i iter with pc := .positioned i, asked := asked } := by
  have arrived : ({ w.arrive i iter with pc := .positioned i, asked := asked } : World Val).iters i =
      iter := w.setIter_iters i iter
  refine trail.ongoing (Advances.arrive iter table (.positioned i) asked) mine rfl ?_
  intro _ other agrees
  rw [arrived] at agrees ⊢
  subst isAsked
  exact first_seek agrees.ordered (agrees.arrived isPrevious) start reached

theorem Trail.tick (trail : Trail w) (taken : w.tick = some after) : Trail after := by
  have progress := trail.progress
  have alone : ∀ j, w.pc.iter = some j → ∀ k, w.pc.iter = some k → k = j :=
    fun j busy k other => Option.some.inj (other.symm.trans busy)
  unfold World.tick at taken
  cases isPc : w.pc with
  | idle => simp [isPc] at taken
  | getting id key =>
    simp only [isPc, Option.bind_eq_bind, Option.bind_eq_some_iff] at taken
    obtain ⟨record, -, isAfter⟩ := taken
    cases isAfter
    exact ⟨trail.logged, fun j log answered _ => trail.rests j log answered (by simp [isPc, Pc.iter]),
      trivial⟩
  | less j key at_ =>
    have mine := alone j (by rw [isPc]; rfl)
    simp only [isPc] at taken progress
    cases step : stepTo (w.tables (w.iters j).table) key at_ with
    | some further =>
      simp only [step] at taken
      cases taken
      exact trail.ongoing (Advances.same rfl rfl rfl rfl) mine rfl ⟨stepTo_some step, progress.2⟩
    | none =>
      simp only [step] at taken
      cases taken
      have advances := Advances.setIter { w.iters j with previous := some at_ } rfl
        (.greaterOrEqual j key none)
      refine trail.ongoing advances mine rfl ⟨rfl, progress.2, at_, ?_, progress.1⟩
      simp
  | greaterOrEqual j key at_ =>
    have mine := alone j (by rw [isPc]; rfl)
    simp only [isPc] at taken progress
    obtain ⟨before, asked, link, isPrevious, start⟩ := progress
    cases step : stepTo (w.tables (w.iters j).table) key at_ with
    | some further =>
      simp only [step] at taken
      cases taken
      exact trail.ongoing (Advances.same rfl rfl rfl rfl) mine rfl
        ⟨stepTo_some step, asked, link, isPrevious, start⟩
    | none =>
      simp only [step] at taken
      cases taken
      exact trail.positioned mine rfl asked isPrevious start fun _ => stepTo_none step
  | positioned j =>
    have mine := alone j (by rw [isPc]; rfl)
    simp only [isPc] at taken progress
    cases node : (w.iters j).node with
    | some key =>
      simp only [node] at taken
      exact trail.look taken mine progress
    | none =>
      simp only [node] at taken
      cases taken
      refine trail.respond (Advances.same rfl rfl rfl rfl) mine ?_ node.symm
      exact Expects.advance progress (Advances.same rfl rfl rfl rfl) rfl fun table _ => by rw [node]; rfl
  | looking j kind =>
    have mine := alone j (by rw [isPc]; rfl)
    simp only [isPc] at taken progress
    exact trail.look taken mine progress
  | moving j kind =>
    have mine := alone j (by rw [isPc]; rfl)
    rw [isPc] at progress
    cases kind with
    | prev =>
      simp only [isPc, Option.bind_eq_bind, Option.bind_eq_some_iff] at taken
      obtain ⟨key, -, isAfter⟩ := taken
      cases isAfter
      exact trail.ongoing (i := j) (Advances.same rfl rfl rfl rfl) mine rfl trivial
    | next | seek =>
      simp only [isPc, Option.map_eq_some_iff] at taken
      obtain ⟨moved, followed, rfl⟩ := taken
      exact trail.follow followed mine progress
  | back j key at_ =>
    have mine := alone j (by rw [isPc]; rfl)
    simp only [isPc] at taken
    cases step : stepTo (w.tables (w.iters j).table) key at_ with
    | some further =>
      simp only [step] at taken
      cases taken
      exact trail.ongoing (i := j) (Advances.same rfl rfl rfl rfl) mine rfl trivial
    | none =>
      simp only [step] at taken
      cases taken
      have advances := Advances.setIter { w.iters j with node := at_ } rfl (.looking j .prev)
      exact trail.ongoing advances mine rfl fun kept => kept.elim

/-! ### Calls -/

theorem Trail.frame (trail : Trail w) (idle : w.pc.iter = none) (free : after.pc.iter = none)
    (iters : after.iters = w.iters) (answers : after.answers = w.answers)
    (crossed : after.crossed = w.crossed) (seen : after.seen = w.seen) : Trail after := by
  constructor
  case logged =>
    rw [iters, answers, crossed, seen]
    exact trail.logged
  case rests =>
    rw [iters, answers, crossed, seen]
    intro i log answered _
    exact trail.rests i log answered (by simp [idle])
  case progress => cases isPc : after.pc <;> simp [isPc, Pc.iter] at free <;> trivial

theorem Trail.begin (idle : w.pc = .idle) : Trail w.begin where
  logged := nofun
  rests := nofun
  progress := by
    change InProgress w.begin w.pc
    rw [idle]
    trivial

theorem Trail.forget (iter : Iter) (pc : Pc) (trail : Trail w) (idle : w.pc.iter = none)
    (free : InProgress { w.setIter i iter with
      pc := pc, answers := Function.update w.answers i none } pc) :
    Trail { w.setIter i iter with pc := pc, answers := Function.update w.answers i none } := by
  apply trail.update (i := i)
  case others =>
    intro j different
    exact ⟨Function.update_of_ne different .., Function.update_of_ne different ..⟩
  case crossed => exact List.Subset.refl _
  case seen => exact List.Subset.refl _
  case mine => simp [idle]
  case logged => simp
  case rests => simp
  case progress => exact free

theorem Trail.end_ {handed : Nat} (trail : Trail w) (idle : w.pc.iter = none)
    (taken : w.end_ handed = some after) : Trail after := by
  obtain ⟨tables, gcnum, pending, ended, rfl, -⟩ := end_cases taken
  exact trail.frame idle idle rfl rfl rfl rfl

theorem Trail.call (trail : Trail w) (idle : w.pc = .idle) (taken : call w act = some after) :
    Trail after := by
  have free : w.pc.iter = none := by rw [idle]; rfl
  have mine : ∀ i j, w.pc.iter = some j → j = i := by simp [free]
  cases act with
  | begin =>
    cases taken
    exact Trail.begin idle
  | abort =>
    cases taken
    have begun := Trail.begin idle
    exact begun.frame free free rfl rfl rfl rfl
  | create i id =>
    cases taken
    exact trail.forget { table := id } w.pc free (by rw [idle]; trivial)
  | seek i key =>
    cases taken
    exact trail.ongoing (i := i) (Advances.same rfl rfl rfl rfl) (mine i) rfl ⟨rfl, rfl⟩
  | seekToFirst i =>
    cases taken
    exact trail.positioned (mine i) rfl rfl rfl rfl fun _ _ => Nat.zero_le _
  | next i =>
    simp only [RangeScan.call] at taken
    split at taken
    · cases taken
    obtain ⟨moved, followed, rfl⟩ := Option.map_eq_some_iff.mp taken
    refine trail.follow followed (mine i) ?_
    intro kept table agrees
    obtain ⟨log, answered⟩ := Option.ne_none_iff_exists'.mp kept
    obtain ⟨key, node, -⟩ := Option.bind_eq_some_iff.mp followed
    have stands := trail.rests i log answered (by simp [free]) table agrees
    rw [World.returned, answered, Option.getD_some, stands, node]
    rfl
  | prev i =>
    simp only [RangeScan.call] at taken
    split at taken
    · cases taken
    · obtain ⟨key, -, isAfter⟩ := Option.bind_eq_some_iff.mp taken
      cases isAfter
      have forgotten := trail.forget (i := i) (w.iters i) (.back i key none) free trivial
      rwa [World.setIter, Function.update_eq_self] at forgotten
  | value i =>
    obtain ⟨key, -, isAfter⟩ := Option.bind_eq_some_iff.mp taken
    cases isAfter
    exact trail.frame free free rfl rfl rfl rfl
  | get id key =>
    cases taken
    unfold World.get
    split
    · exact trail
    · exact trail.frame free rfl rfl rfl rfl rfl
  | add id key value fills =>
    simp only [RangeScan.call, World.add] at taken
    split at taken
    · cases taken
    · cases taken
      exact trail.frame free free rfl rfl rfl rfl
  | end_ handed => exact trail.end_ free taken
  | tick | insert id key | commit writes => cases taken

theorem Trail.step (trail : Trail w) (taken : step w act = some after) : Trail after := by
  unfold RangeScan.step at taken
  split at taken
  · exact trail.tick taken
  · cases taken
    exact ⟨trail.logged, trail.rests, trail.progress⟩
  · cases taken
    exact ⟨trail.logged, trail.rests, trail.progress⟩
  · split at taken
    · rename_i idle
      exact trail.call idle taken
    · cases taken

end

/-! ### Numbers -/

structure Later (tables after : Tables Val) : Prop where
  ordered : ∀ id, Ordered (tables id) → Ordered (after id)
  records : ∀ id, Ordered (tables id) → ∀ key record, find (tables id) key = some record →
    ∃ now, find (after id) key = some now ∧ (record.seq < now.seq ∨ now = record)

theorem Later.refl (tables : Tables Val) : Later tables tables where
  ordered := fun _ => id
  records := fun _ _ _ record found => ⟨record, found, Or.inr rfl⟩

variable {tables : Tables Val}

theorem Later.trans {middle after : Tables Val} (first : Later tables middle)
    (second : Later middle after) : Later tables after where
  ordered := fun id ordered => second.ordered id (first.ordered id ordered)
  records := by
    intro id ordered key record found
    obtain ⟨between, there, change⟩ := first.records id ordered key record found
    obtain ⟨now, last, further⟩ := second.records id (first.ordered id ordered) key between there
    refine ⟨now, last, ?_⟩
    rcases change with less | rfl
    · rcases further with more | rfl
      · exact Or.inl (Nat.lt_trans less more)
      · exact Or.inl less
    · exact further

theorem Later.change {id : TableId} {f : Table Val → Table Val}
    (changed : Ordered (tables id) → Ordered (f (tables id)) ∧ ∀ key record,
      find (tables id) key = some record →
        ∃ now, find (f (tables id)) key = some now ∧ (record.seq < now.seq ∨ now = record)) :
    Later tables (tables.change id f) where
  ordered := by
    intro other ordered
    simp only [Tables.change]
    split
    · rename_i same
      subst same
      exact (changed ordered).1
    · exact ordered
  records := by
    intro other ordered key record found
    simp only [Tables.change]
    split
    · rename_i same
      subst same
      exact (changed ordered).2 key record found
    · exact ⟨record, found, Or.inr rfl⟩

theorem Later.insert (tables : Tables Val) (id : TableId) (key : Key) :
    Later tables (tables.change id (getWithInsert key)) := by
  apply Later.change
  intro ordered
  refine ⟨(ordered.getWithInsert key).1, ?_⟩
  intro other record found
  exact ⟨record, (ordered.getWithInsert key).2 other record found, Or.inr rfl⟩

theorem Later.write (tables : Tables Val) (id : TableId) (key : Key) (value : Payload Val) :
    Later tables (tables.change id (write key value)) := by
  apply Later.change
  intro ordered
  refine ⟨(ordered.write key value).1, ?_⟩
  intro other record found
  refine ⟨_, (ordered.write key value).2 other record found, ?_⟩
  split
  · exact Or.inl (Nat.lt_succ_self _)
  · exact Or.inr rfl

theorem Later.commit (tables : Tables Val) (writes : List (Write Val)) :
    Later tables (commit tables writes).1 := by
  have fold : ∀ (entries : List (Write Val)) (state : Tables Val × List SeqPair),
      Later state.1 (entries.foldl commitEntry state).1 := by
    intro entries
    induction entries with
    | nil => exact fun state => Later.refl state.1
    | cons entry rest ih =>
      intro state
      exact (Later.write state.1 entry.table entry.key entry.value).trans (ih (commitEntry state entry))
  exact fold writes (tables, [])

theorem Later.end_ {w after : World Val} {handed : Nat} (taken : w.end_ handed = some after) :
    Later w.tables after.tables := by
  obtain ⟨tables, gcnum, pending, ended, rfl, written, -⟩ := end_cases taken
  rcases written with rfl | rfl
  · exact Later.refl w.tables
  · exact Later.commit w.tables w.writes

structure Numbered (w : World Val) : Prop where
  ordered : ∀ id, Ordered (w.tables id)
  recorded : ∀ entry ∈ w.seen, entry.1 ∈ w.seqs
  current : ∀ entry ∈ w.seen, ∃ record, find (w.tables entry.1.table) entry.1.key = some record ∧
    (entry.1.seq < record.seq ∨ entry.1.seq = record.seq ∧ record.value = entry.2)

section

variable {w after : World Val}

theorem Numbered.later (numbered : Numbered w) (later : Later w.tables after.tables)
    (seen : after.seen = w.seen) (seqs : w.seqs ⊆ after.seqs) : Numbered after where
  ordered := fun id => later.ordered id (numbered.ordered id)
  recorded := fun entry mem => seqs (numbered.recorded entry (seen ▸ mem))
  current := by
    intro entry mem
    obtain ⟨record, found, known⟩ := numbered.current entry (seen ▸ mem)
    obtain ⟨now, there, change⟩ := later.records _ (numbered.ordered _) _ record found
    refine ⟨now, there, ?_⟩
    rcases change with less | rfl
    · exact Or.inl (known.elim (Nat.lt_trans · less) fun same => same.1 ▸ less)
    · exact known

theorem Numbered.begin (numbered : Numbered w) : Numbered w.begin :=
  ⟨numbered.ordered, nofun, nofun⟩

variable {i : IterId} {kind : Kind} {act : Act Val}

section

variable (numbered : Numbered w)

include numbered

theorem Numbered.visit {key : Key} {record : Record Val}
    (found : find (w.tables (w.iters i).table) key = some record) :
    Numbered (w.visit i kind key record) where
  ordered := numbered.ordered
  recorded := by
    intro entry mem
    rcases List.mem_append.mp mem with old | new
    · exact List.mem_append_left _ (numbered.recorded entry old)
    · obtain rfl := List.mem_singleton.mp new
      exact List.mem_append_right _ List.mem_cons_self
  current := by
    intro entry mem
    rcases List.mem_append.mp mem with old | new
    · exact numbered.current entry old
    · obtain rfl := List.mem_singleton.mp new
      exact ⟨record, found, Or.inr ⟨rfl, rfl⟩⟩

theorem Numbered.same (tables : after.tables = w.tables) (seen : after.seen = w.seen)
    (seqs : after.seqs = w.seqs) : Numbered after :=
  numbered.later (tables ▸ Later.refl w.tables) seen (seqs ▸ List.Subset.refl _)

theorem Numbered.look (taken : w.look i kind = some after) : Numbered after := by
  unfold World.look at taken
  dsimp only at taken
  split at taken
  · cases taken
    exact numbered.same rfl rfl rfl
  · obtain ⟨record, found, isAfter⟩ := Option.bind_eq_some_iff.mp taken
    have visited : Numbered (w.visit i kind _ record) := numbered.visit found
    split at isAfter <;> obtain rfl := Option.some.inj isAfter <;> exact visited.same rfl rfl rfl

theorem Numbered.follow {pc : Pc}
    (taken : (w.follow i).map (fun moved => { moved with pc := pc }) = some after) :
    Numbered after := by
  obtain ⟨moved, followed, rfl⟩ := Option.map_eq_some_iff.mp taken
  obtain ⟨key, -, isMoved⟩ := Option.bind_eq_some_iff.mp followed
  cases isMoved
  exact numbered.same rfl rfl rfl

theorem Numbered.tick (taken : w.tick = some after) : Numbered after := by
  unfold World.tick at taken
  split at taken
  · cases taken
  · obtain ⟨record, -, isAfter⟩ := Option.bind_eq_some_iff.mp taken
    cases isAfter
    exact numbered.later (Later.refl _) rfl (List.subset_append_left ..)
  · dsimp only at taken
    split at taken <;> obtain rfl := Option.some.inj taken <;> exact numbered.same rfl rfl rfl
  · dsimp only at taken
    split at taken <;> obtain rfl := Option.some.inj taken <;> exact numbered.same rfl rfl rfl
  · dsimp only at taken
    split at taken
    · cases taken
      exact numbered.same rfl rfl rfl
    · exact numbered.look taken
  · exact numbered.look taken
  · obtain ⟨key, -, isAfter⟩ := Option.bind_eq_some_iff.mp taken
    cases isAfter
    exact numbered.same rfl rfl rfl
  · exact numbered.follow taken
  · dsimp only at taken
    split at taken <;> obtain rfl := Option.some.inj taken <;> exact numbered.same rfl rfl rfl

theorem Numbered.end_ {handed : Nat} (taken : w.end_ handed = some after) : Numbered after := by
  have later := Later.end_ taken
  obtain ⟨tables, gcnum, pending, ended, rfl, -⟩ := end_cases taken
  exact numbered.later later rfl (List.Subset.refl _)

theorem Numbered.call (taken : call w act = some after) : Numbered after := by
  cases act with
  | begin =>
    cases taken
    exact numbered.begin
  | abort =>
    cases taken
    have begun := numbered.begin
    exact begun.same rfl rfl rfl
  | create i id | seek i key | seekToFirst i =>
    cases taken
    exact numbered.same rfl rfl rfl
  | next i =>
    simp only [RangeScan.call] at taken
    split at taken
    · cases taken
    · exact numbered.follow taken
  | prev i =>
    simp only [RangeScan.call] at taken
    split at taken
    · cases taken
    · obtain ⟨key, -, isAfter⟩ := Option.bind_eq_some_iff.mp taken
      cases isAfter
      exact numbered.same rfl rfl rfl
  | value i =>
    obtain ⟨key, -, isAfter⟩ := Option.bind_eq_some_iff.mp taken
    cases isAfter
    exact numbered.same rfl rfl rfl
  | get id key =>
    cases taken
    unfold World.get
    split
    · exact numbered
    · exact numbered.later (Later.insert w.tables id key) rfl (List.Subset.refl _)
  | add id key value fills =>
    simp only [RangeScan.call, World.add] at taken
    split at taken
    · cases taken
    cases taken
    by_cases hit : w.buffer id = some key
    · exact numbered.later (by simpa [hit] using Later.refl w.tables) rfl (List.Subset.refl _)
    · exact numbered.later (by simpa [hit] using Later.insert w.tables id key) rfl
        (List.Subset.refl _)
  | end_ handed => exact numbered.end_ taken
  | tick | insert id key | commit writes => cases taken

theorem Numbered.step (taken : step w act = some after) : Numbered after := by
  unfold RangeScan.step at taken
  split at taken
  · exact numbered.tick taken
  · cases taken
    exact numbered.later (Later.insert w.tables _ _) rfl (List.Subset.refl _)
  · cases taken
    exact numbered.later (Later.commit w.tables _) rfl (List.Subset.refl _)
  · split at taken
    · exact numbered.call taken
    · cases taken

end

/-! ### Validation -/

theorem validateNexts_true {tables : Tables Val} {pairs : List SuccPair}
    (valid : validateNexts tables pairs = some true) {pair : SuccPair} (mem : pair ∈ pairs)
    {link : Link} (isLink : pair.link = some link) :
    next (tables pair.table) link = pair.target := by
  induction pairs with
  | nil => simp at mem
  | cons head rest ih =>
    obtain ⟨first, isFirst, later⟩ := Option.bind_eq_some_iff.mp valid
    split at later
    · rename_i points
      rcases List.mem_cons.mp mem with rfl | inRest
      · obtain rfl := Option.some.inj (isFirst.symm.trans isLink)
        exact points
      · exact ih later inRest
    · cases later

def still (tables : Tables Val) (pair : SuccPair) : Bool :=
  pair.link.all fun link => next (tables pair.table) link == pair.target

theorem Numbered.agrees (numbered : Numbered w) (valid : w.validate = some true)
    (unrecorded : ∀ pair ∈ w.crossed, pair ∉ w.nexts → still w.tables pair = true) (id : TableId) :
    Agrees w.crossed w.seen id (w.tables id) := by
  unfold World.validate at valid
  split at valid
  · rename_i current
    constructor
    case ordered => exact numbered.ordered id
    case links =>
      rintro pair mem rfl link isLink
      by_cases recorded : pair ∈ w.nexts
      · exact validateNexts_true valid recorded isLink
      · have unchanged := unrecorded pair mem recorded
        simpa [still, isLink] using unchanged
    case values =>
      rintro entry mem rfl
      obtain ⟨record, found, known⟩ := numbered.current entry mem
      have same := List.all_eq_true.mp current entry.1 (numbered.recorded entry mem)
      simp only [currentSeq, found, Option.map_some, beq_iff_eq, Option.some.injEq] at same
      rcases known with less | ⟨-, value⟩
      · exact absurd same (Nat.ne_of_gt less)
      · exact ⟨record, found, value⟩
  · cases valid

end

variable {w after : World Val} {handed : Nat}

theorem end_true (taken : w.end_ handed = some after) (success : after.ended = some true) :
    w.validate = some true := by
  obtain ⟨tables, gcnum, pending, ended, rfl, -, valid⟩ := end_cases taken
  exact valid success

theorem step_end (taken : step w (.end_ handed) = some after) : w.end_ handed = some after := by
  simp only [step] at taken
  split at taken
  · exact taken
  · cases taken

/-- `Next` and the loop of `Seek` do not record the link that leads them off the end. If
the links that were not recorded still point where they did, a scan whose transaction
commits has answered as its calls would alone. -/
theorem scan_no_phantoms (acts : List (Act Val)) (w after : World Val) (handed : Nat) (i : IterId)
    (log : List (Call × Option (Key × Val))) (reached : run step {} acts = some w)
    (ended : step w (.end_ handed) = some after) (success : after.ended = some true)
    (answered : w.answers i = some log)
    (unrecorded : ∀ pair ∈ w.crossed, pair ∉ w.nexts → still w.tables pair = true) :
    log.map Prod.snd = alone (w.tables (w.iters i).table) (log.map Prod.fst) := by
  have kept : ∀ (state : World Val) (act : Act Val) (next : World Val), Trail state ∧ Numbered state →
      True → step state act = some next → Trail next ∧ Numbered next :=
    fun _ _ _ invariant _ taken => ⟨invariant.1.step taken, invariant.2.step taken⟩
  have start : Trail ({} : World Val) ∧ Numbered ({} : World Val) :=
    ⟨⟨nofun, nofun, trivial⟩, ⟨fun _ => List.Pairwise.nil, nofun, nofun⟩⟩
  have invariant := run_preserves kept start (each_of_forall fun _ _ => trivial) reached
  have valid := end_true (step_end ended) success
  exact invariant.1.logged i log answered _ (invariant.2.agrees valid unrecorded _)

theorem scan_phantom_behind_end :
    ∃ (acts : List (Act Nat)) (w after : World Nat) (log : List (Call × Option (Key × Nat))),
      run step {} acts = some w ∧ step w (.end_ 0) = some after ∧ after.ended = some true ∧
        w.writes = [] ∧ w.answers 0 = some log ∧
        log.map Prod.snd = [some (1, 10), none] ∧
        alone (w.tables (w.iters 0).table) (log.map Prod.fst) = [some (1, 10), some (2, 20)] :=
  ⟨[.insert 0 1, .commit [⟨0, 1, .value 10⟩], .begin, .create 0 0, .seekToFirst 0, .tick, .next 0,
      .tick, .insert 0 2, .commit [⟨0, 2, .value 20⟩]],
    _, _, _, rfl, rfl, rfl, rfl, rfl, rfl, rfl⟩

def scanOverDeleted : List (Act Nat) :=
  [.insert 0 1, .insert 0 3, .insert 0 4, .insert 0 5,
    .commit [⟨0, 1, .value 10⟩, ⟨0, 3, .value 30⟩, ⟨0, 4, .value 40⟩, ⟨0, 5, .value 50⟩],
    .commit [⟨0, 4, .logicalDelete⟩],
    .begin, .create 0 0, .seek 0 2, .tick, .tick, .tick, .tick, .tick,
    .next 0, .tick, .tick, .tick, .next 0, .tick, .insert 0 0, .commit [⟨0, 0, .value 5⟩]]

theorem scan_no_phantoms_deleted :
    ∃ (w after : World Nat) (log : List (Call × Option (Key × Nat))),
      run step {} scanOverDeleted = some w ∧ step w (.end_ 0) = some after ∧
        after.ended = some true ∧ w.answers 0 = some log ∧
        log.map Prod.snd = alone (w.tables (w.iters 0).table) (log.map Prod.fst) ∧
        log.map Prod.snd = [some (3, 30), some (5, 50), none] :=
  ⟨_, _, _, rfl, rfl, rfl, rfl,
    scan_no_phantoms scanOverDeleted _ _ 0 0 _ rfl rfl rfl rfl (by decide), rfl⟩

end EunoDb.RangeScan
