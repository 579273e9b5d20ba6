import EunoDb.NoPhantoms
import Mathlib.Data.Prod.Lex

/-! Every call returns when the other threads leave the tables alone. -/

namespace EunoDb.RangeScan

open Execution

variable {Val : Type}

def Present (tables : Tables Val) (id : TableId) (key : Key) : Prop :=
  ∃ record, find (tables id) key = some record

variable {tables : Tables Val} {id : TableId} {key : Key}

theorem next_present {link : Link} (ordered : Ordered (tables id))
    (points : next (tables id) link = some key) :
    Present tables id key ∧ after link key = true := by
  obtain ⟨before, record, rest, split, rfl, behind, -, -⟩ := next_eq_some ordered points
  have mem : record ∈ tables id := by simp [split]
  exact ⟨⟨record, ordered.find_of_mem mem⟩, behind⟩

theorem stepTo_present {further : Key} {at_ : Link} (ordered : Ordered (tables id))
    (step : stepTo (tables id) key at_ = some further) :
    Present tables id further ∧ after at_ further = true := by
  obtain ⟨points, -⟩ := Option.filter_eq_some_iff.mp step
  exact next_present ordered points

theorem Present.later {after : Tables Val} (present : Present tables id key)
    (later : Later tables after) (ordered : Ordered (tables id)) : Present after id key := by
  obtain ⟨record, found⟩ := present
  obtain ⟨now, there, -⟩ := later.records id ordered key record found
  exact ⟨now, there⟩

/-! ### Nodes that the thread holds -/

def Sited (w : World Val) : Pc → Prop
  | .getting id key => Present w.tables id key
  | .moving i _ => (w.iters i).node ≠ none
  | .back i key at_ => Present w.tables (w.iters i).table key ∧ after at_ key = true ∧
      ∀ other, at_ = some other → Present w.tables (w.iters i).table other
  | .idle | .less _ _ _ | .greaterOrEqual _ _ _ | .positioned _ | .looking _ _ => True

structure Placed (w : World Val) : Prop where
  ordered : ∀ id, Ordered (w.tables id)
  nodes : ∀ i key, (w.iters i).node = some key → Present w.tables (w.iters i).table key
  site : Sited w w.pc
  clear : w.abort = false

section

variable {w after : World Val} {i : IterId}

theorem Placed.iter (placed : Placed w) (iter : Iter)
    (node : ∀ key, iter.node = some key → Present w.tables iter.table key)
    (tables : after.tables = w.tables) (iters : after.iters = Function.update w.iters i iter)
    (abort : after.abort = w.abort) (site : Sited after after.pc) : Placed after where
  ordered := tables ▸ placed.ordered
  nodes := by
    intro j key isNode
    rw [tables, iters] at *
    by_cases same : j = i
    · subst same
      rw [Function.update_self] at isNode ⊢
      exact node key isNode
    · rw [Function.update_of_ne same] at isNode ⊢
      exact placed.nodes j key isNode
  site := site
  clear := abort.trans placed.clear

theorem Placed.same (placed : Placed w) (tables : after.tables = w.tables)
    (iters : after.iters = w.iters) (abort : after.abort = w.abort) (site : Sited after after.pc) :
    Placed after where
  ordered := tables ▸ placed.ordered
  nodes := by
    rw [iters, tables]
    exact placed.nodes
  site := site
  clear := abort.trans placed.clear

theorem Placed.later (placed : Placed w) (later : Later w.tables after.tables)
    (iters : after.iters = w.iters) (abort : after.abort = w.abort) (site : Sited after after.pc) :
    Placed after where
  ordered := fun id => later.ordered id (placed.ordered id)
  nodes := by
    rw [iters]
    exact fun j key isNode => (placed.nodes j key isNode).later later (placed.ordered _)
  site := site
  clear := abort.trans placed.clear

variable {pc : Pc} {act : Act Val}

theorem Sited.later (sited : Sited w pc) (later : Later w.tables after.tables)
    (ordered : ∀ id, Ordered (w.tables id)) (iters : after.iters = w.iters) : Sited after pc := by
  cases pc with
  | getting id key => exact Present.later sited later (ordered id)
  | moving j kind =>
    rw [Sited, iters]
    exact sited
  | back j key at_ =>
    rw [Sited, iters]
    refine ⟨sited.1.later later (ordered _), sited.2.1, ?_⟩
    exact fun other isAt => (sited.2.2 other isAt).later later (ordered _)
  | idle | less j key at_ | greaterOrEqual j key at_ | positioned j | looking j kind => trivial

theorem Placed.look {kind : Kind} (placed : Placed w) (taken : w.look i kind = some after) :
    Placed after := by
  unfold World.look at taken
  cases node : (w.iters i).node with
  | none =>
    simp only [node] at taken
    cases taken
    exact placed.iter { w.iters i with cur := .null, node := none } nofun rfl rfl rfl trivial
  | some key =>
    simp only [node, Option.bind_eq_bind, Option.bind_eq_some_iff] at taken
    obtain ⟨record, -, isAfter⟩ := taken
    let iter : Iter := { w.iters i with
      cur := .on key
      prevLink := if kind = .next then (w.iters i).previous else (w.iters i).prevLink }
    split at isAfter
    · cases isAfter
      exact placed.iter iter (placed.nodes i) rfl rfl rfl trivial
    · cases isAfter
      refine placed.iter iter (placed.nodes i) rfl rfl rfl ?_
      simp [Sited, World.visit, node]

theorem Placed.follow (placed : Placed w)
    (taken : (w.follow i).map (fun moved => { moved with pc := pc }) = some after)
    (site : Sited after pc) : Placed after := by
  obtain ⟨moved, followed, rfl⟩ := Option.map_eq_some_iff.mp taken
  obtain ⟨key, -, isMoved⟩ := Option.bind_eq_some_iff.mp followed
  cases isMoved
  exact placed.iter { w.iters i with
      previous := some (some key)
      node := next (w.tables (w.iters i).table) (some key) }
    (fun other points => (next_present (placed.ordered _) points).1) rfl rfl rfl site

theorem Placed.tick (placed : Placed w) (taken : w.tick = some after) : Placed after := by
  have site := placed.site
  unfold World.tick at taken
  cases isPc : w.pc with
  | idle => simp [isPc] at taken
  | getting id key =>
    simp only [isPc, Option.bind_eq_bind, Option.bind_eq_some_iff] at taken
    obtain ⟨record, -, isAfter⟩ := taken
    cases isAfter
    exact placed.same rfl rfl rfl trivial
  | less j key at_ =>
    simp only [isPc] at taken
    split at taken
    · cases taken
      exact placed.same rfl rfl rfl trivial
    · cases taken
      exact placed.iter { w.iters j with previous := some at_ } (placed.nodes j) rfl rfl rfl trivial
  | greaterOrEqual j key at_ =>
    simp only [isPc] at taken
    split at taken
    · cases taken
      exact placed.same rfl rfl rfl trivial
    cases taken
    refine placed.iter { w.iters j with
      node := next (w.tables (w.iters j).table) at_
      cur := (next (w.tables (w.iters j).table) at_).elim .wild .on } ?_ rfl rfl rfl trivial
    exact fun other points => (next_present (placed.ordered _) points).1
  | positioned j =>
    simp only [isPc] at taken
    split at taken
    · cases taken
      exact placed.same rfl rfl rfl trivial
    · exact placed.look taken
  | looking j kind =>
    simp only [isPc] at taken
    exact placed.look taken
  | moving j kind =>
    cases kind with
    | prev =>
      simp only [isPc, Option.bind_eq_bind, Option.bind_eq_some_iff] at taken
      obtain ⟨key, node, isAfter⟩ := taken
      cases isAfter
      exact placed.same rfl rfl rfl ⟨placed.nodes j key node, rfl, nofun⟩
    | next | seek =>
      simp only [isPc] at taken
      exact placed.follow taken trivial
  | back j key at_ =>
    simp only [isPc] at taken site
    split at taken
    · rename_i further step
      cases taken
      refine placed.same rfl rfl rfl ⟨site.1, stepTo_some step, ?_⟩
      rintro other ⟨⟩
      exact (stepTo_present (placed.ordered _) step).1
    · cases taken
      exact placed.iter { w.iters j with node := at_ } site.2.2 rfl rfl rfl trivial

theorem Placed.end_ {handed : Nat} (placed : Placed w) (idle : w.pc = .idle)
    (taken : w.end_ handed = some after) : Placed after := by
  have later := Later.end_ taken
  obtain ⟨tables, gcnum, pending, ended, rfl, -⟩ := end_cases taken
  exact placed.later later rfl rfl (by rw [idle]; trivial)

theorem getWithInsert_present {tables : Tables Val} {id : TableId} {key : Key}
    (ordered : Ordered (tables id)) : Present (tables.change id (getWithInsert key)) id key := by
  have inserted : ∃ record ∈ getWithInsert key (tables id), record.key = key :=
    OrderedList.exists_rank_insert (⟨key, 0, .logicalDelete⟩ : Record Val) (tables id)
  obtain ⟨record, mem, isKey⟩ := inserted
  have found := (ordered.getWithInsert key).1.find_of_mem mem
  refine ⟨record, ?_⟩
  rw [isKey] at found
  simpa [Tables.change] using found

theorem Placed.call (placed : Placed w) (idle : w.pc = .idle) (taken : call w act = some after) :
    Placed after := by
  have free : ∀ state : World Val, Sited state w.pc := by
    rw [idle]
    exact fun _ => trivial
  cases act with
  | begin =>
    cases taken
    exact placed.same rfl rfl rfl (free _)
  | abort =>
    cases taken
    exact placed.same rfl rfl placed.clear.symm (free _)
  | create i id =>
    cases taken
    exact placed.iter { table := id } (fun _ points => by cases points) rfl rfl rfl (free _)
  | seek i key =>
    cases taken
    exact placed.same rfl rfl rfl trivial
  | seekToFirst i =>
    cases taken
    refine placed.iter { w.iters i with
      previous := some none
      node := next (w.tables (w.iters i).table) none
      cur := (next (w.tables (w.iters i).table) none).elim .wild .on } ?_ rfl rfl rfl trivial
    exact fun other points => (next_present (placed.ordered _) points).1
  | next i =>
    simp only [RangeScan.call] at taken
    split at taken
    · cases taken
    · exact placed.follow taken trivial
  | prev i =>
    simp only [RangeScan.call] at taken
    split at taken
    · cases taken
    · obtain ⟨key, node, isAfter⟩ := Option.bind_eq_some_iff.mp taken
      cases isAfter
      exact placed.same rfl rfl rfl ⟨placed.nodes i key node, rfl, fun _ points => by cases points⟩
  | value i =>
    obtain ⟨key, -, isAfter⟩ := Option.bind_eq_some_iff.mp taken
    cases isAfter
    exact placed.same rfl rfl rfl (free _)
  | get id key =>
    cases taken
    unfold World.get
    split
    · exact placed
    · exact placed.later (Later.insert w.tables id key) rfl rfl
        (getWithInsert_present (placed.ordered id))
  | add id key value fills =>
    simp only [RangeScan.call, World.add] at taken
    split at taken
    · cases taken
    · cases taken
      by_cases hit : w.buffer id = some key
      · exact placed.later (by simpa [hit] using Later.refl w.tables) rfl rfl (free _)
      · exact placed.later (by simpa [hit] using Later.insert w.tables id key) rfl rfl (free _)
  | end_ handed => exact placed.end_ idle taken
  | tick | insert id key | commit writes => cases taken

theorem Placed.step (placed : Placed w) (taken : step w act = some after) : Placed after := by
  unfold RangeScan.step at taken
  split at taken
  · exact placed.tick taken
  · rename_i id key
    cases taken
    have later := Later.insert w.tables id key
    exact placed.later later rfl rfl (placed.site.later later placed.ordered rfl)
  · rename_i writes
    cases taken
    have later := Later.commit w.tables writes
    exact placed.later later rfl rfl (placed.site.later later placed.ordered rfl)
  · split at taken
    · rename_i idle
      exact placed.call idle taken
    · cases taken

end

/-! ### What is left of a walk or a scan -/

def ahead (table : Table Val) (link : Link) : Nat := table.countP fun record => after link record.key

def fromNode (table : Table Val) (node : Option Key) : Nat :=
  node.elim 0 fun key => table.countP fun record => key ≤ record.key

def upToNode (table : Table Val) (node : Option Key) : Nat :=
  node.elim 0 fun key => table.countP fun record => record.key ≤ key

theorem countP_lt {α : Type} {p q : α → Bool} {list : List α} (weaker : ∀ x, p x = true → q x = true)
    {x : α} (mem : x ∈ list) (admitted : q x = true) (rejected : p x = false) :
    list.countP p < list.countP q := by
  induction list with
  | nil => simp at mem
  | cons y rest ih =>
    have le : rest.countP p ≤ rest.countP q := List.countP_mono_left fun z _ => weaker z
    rcases List.mem_cons.mp mem with rfl | inRest
    · rw [List.countP_cons_of_neg (by simp [rejected]), List.countP_cons_of_pos admitted]
      exact Nat.lt_succ_of_le le
    have less := ih inRest
    rw [List.countP_cons, List.countP_cons]
    by_cases here : p y = true
    · simpa [here, weaker y here] using less
    · simp only [here]
      exact Nat.lt_of_lt_of_le less (Nat.le_add_right _ _)

variable {tables : Tables Val} {id : TableId} {key : Key}

theorem Present.mem (present : Present tables id key) : ∃ record ∈ tables id, record.key = key := by
  obtain ⟨record, found⟩ := present
  obtain ⟨mem, isKey⟩ := find_eq_some found
  exact ⟨record, mem, isKey⟩

theorem ahead_lt {link : Link} (present : Present tables id key) (behind : after link key = true) :
    ahead (tables id) (some key) < ahead (tables id) link := by
  obtain ⟨record, mem, rfl⟩ := present.mem
  refine countP_lt ?_ mem behind (by simp [after])
  intro other later
  exact after_trans behind (of_decide_eq_true later)

theorem fromNode_lt (ordered : Ordered (tables id)) (present : Present tables id key) :
    fromNode (tables id) (next (tables id) (some key)) < fromNode (tables id) (some key) := by
  obtain ⟨record, mem, rfl⟩ := present.mem
  cases target : next (tables id) (some record.key) with
  | none => exact List.countP_pos_iff.mpr ⟨record, mem, decide_eq_true (Nat.le_refl _)⟩
  | some key =>
    have less : record.key < key := of_decide_eq_true (next_present ordered target).2
    refine countP_lt ?_ mem (decide_eq_true (Nat.le_refl _)) (decide_eq_false (Nat.not_le.mpr less))
    intro other inRange
    exact decide_eq_true (Nat.le_trans (Nat.le_of_lt less) (of_decide_eq_true inRange))

theorem upToNode_lt {at_ : Link} (present : Present tables id key) (behind : after at_ key = true) :
    upToNode (tables id) at_ < upToNode (tables id) (some key) := by
  obtain ⟨record, mem, rfl⟩ := present.mem
  cases at_ with
  | none => exact List.countP_pos_iff.mpr ⟨record, mem, decide_eq_true (Nat.le_refl _)⟩
  | some key =>
    have less : key < record.key := of_decide_eq_true behind
    refine countP_lt ?_ mem (decide_eq_true (Nat.le_refl _)) (decide_eq_false (Nat.not_le.mpr less))
    intro other inRange
    exact decide_eq_true (Nat.le_trans (of_decide_eq_true inRange) (Nat.le_of_lt less))

def World.left (w : World Val) : Nat × Nat :=
  let table i := w.tables (w.iters i).table
  match w.pc with
  | .idle => (0, 0)
  | .getting _ _ => (0, 1)
  | .less i _ at_ => ((table i).length + 2, ahead (table i) at_)
  | .greaterOrEqual i _ at_ => ((table i).length + 1, ahead (table i) at_)
  | .positioned i => (fromNode (table i) (w.iters i).node, 2)
  | .looking i .prev => (upToNode (table i) (w.iters i).node, (table i).length + 2)
  | .moving i .prev => (upToNode (table i) (w.iters i).node, (table i).length + 1)
  | .back i key at_ => (upToNode (table i) (some key), ahead (table i) at_)
  | .looking i _ => (fromNode (table i) (w.iters i).node, 2)
  | .moving i _ => (fromNode (table i) (w.iters i).node, 1)

def Less : World Val → World Val → Prop :=
  InvImage (Prod.Lex (· < ·) (· < ·)) World.left

theorem less_wf : WellFounded (@Less Val) :=
  InvImage.wf World.left (WellFounded.prod_lex Nat.lt_wfRel.wf Nat.lt_wfRel.wf)

section

variable {w after : World Val}

theorem less_of_fst (less : after.left.1 < w.left.1) : Less after w :=
  Prod.lex_def.mpr (Or.inl less)

theorem less_of_snd (same : after.left.1 = w.left.1) (less : after.left.2 < w.left.2) :
    Less after w :=
  Prod.lex_def.mpr (Or.inr ⟨same, less⟩)

theorem fromNode_le (table : Table Val) (node : Option Key) : fromNode table node ≤ table.length := by
  cases node with
  | none => exact Nat.zero_le _
  | some key => exact List.countP_le_length

theorem Placed.look_enabled (placed : Placed w) (i : IterId) (kind : Kind) :
    (w.look i kind).isSome := by
  unfold World.look
  cases node : (w.iters i).node with
  | none => simp [node]
  | some key =>
    obtain ⟨record, found⟩ := placed.nodes i key node
    cases valid : record.value.validate with
    | none | some val => simp [node, found, valid]

theorem Placed.enabled (placed : Placed w) (busy : w.pc ≠ .idle) : w.tick.isSome := by
  have site := placed.site
  unfold World.tick
  cases isPc : w.pc with
  | idle => exact absurd isPc busy
  | getting id key =>
    rw [isPc] at site
    obtain ⟨record, found⟩ := site
    simp [found]
  | less i key at_ | greaterOrEqual i key at_ | back i key at_ =>
    cases step : stepTo (w.tables (w.iters i).table) key at_ <;> simp [step]
  | positioned i =>
    cases node : (w.iters i).node with
    | none => simp [node]
    | some key => simpa [node] using placed.look_enabled i .seek
  | looking i kind => exact placed.look_enabled i kind
  | moving i kind =>
    rw [isPc] at site
    obtain ⟨key, node⟩ := Option.ne_none_iff_exists'.mp site
    cases kind <;> simp [World.follow, node]

theorem less_idle (idle : after.pc = .idle) (busy : 0 < w.left.2) : Less after w := by
  have done : after.left = (0, 0) := by simp [World.left, idle]
  rcases Nat.eq_zero_or_pos w.left.1 with last | more
  · exact less_of_snd (by rw [done, last]) (by rwa [done])
  · exact less_of_fst (by rwa [done])

variable {i : IterId}

theorem look_cases {kind : Kind} (taken : w.look i kind = some after) :
    after.pc = .idle ∨ after.pc = .moving i kind ∧ after.tables = w.tables ∧
      (after.iters i).table = (w.iters i).table ∧ (after.iters i).node = (w.iters i).node := by
  unfold World.look at taken
  dsimp only at taken
  split at taken
  · cases taken
    exact Or.inl rfl
  obtain ⟨record, -, isAfter⟩ := Option.bind_eq_some_iff.mp taken
  split at isAfter
  · cases isAfter
    exact Or.inl rfl
  · cases isAfter
    exact Or.inr ⟨rfl, rfl, by simp [World.visit], by simp [World.visit]⟩

theorem follow_cases {pc : Pc}
    (taken : (w.follow i).map (fun moved => { moved with pc := pc }) = some after) :
    ∃ key, (w.iters i).node = some key ∧ after.pc = pc ∧ after.tables = w.tables ∧
      (after.iters i).table = (w.iters i).table ∧
      (after.iters i).node = next (w.tables (w.iters i).table) (some key) := by
  obtain ⟨moved, followed, rfl⟩ := Option.map_eq_some_iff.mp taken
  obtain ⟨key, node, isMoved⟩ := Option.bind_eq_some_iff.mp followed
  cases isMoved
  exact ⟨key, node, rfl, rfl, by simp [World.arrive], by simp [World.arrive]⟩

theorem Placed.less_tick (placed : Placed w) (taken : w.tick = some after) : Less after w := by
  have site := placed.site
  cases isPc : w.pc with
  | idle => simp [World.tick, isPc] at taken
  | getting id key =>
    simp only [World.tick, isPc, Option.bind_eq_bind, Option.bind_eq_some_iff] at taken
    obtain ⟨record, -, isAfter⟩ := taken
    cases isAfter
    exact less_idle rfl (by simp [World.left, isPc])
  | less i key at_ =>
    simp only [World.tick, isPc] at taken
    split at taken
    · rename_i further step
      cases taken
      obtain ⟨present, behind⟩ := stepTo_present (placed.ordered _) step
      exact less_of_snd (by simp [World.left, isPc])
        (by simpa [World.left, isPc] using ahead_lt present behind)
    · cases taken
      exact less_of_fst (by simp [World.left, isPc])
  | greaterOrEqual i key at_ =>
    simp only [World.tick, isPc] at taken
    split at taken
    · rename_i further step
      cases taken
      obtain ⟨present, behind⟩ := stepTo_present (placed.ordered _) step
      exact less_of_snd (by simp [World.left, isPc])
        (by simpa [World.left, isPc] using ahead_lt present behind)
    · cases taken
      apply less_of_fst
      have bound := fromNode_le (w.tables (w.iters i).table) (next (w.tables (w.iters i).table) at_)
      simpa [World.left, isPc, World.arrive] using Nat.lt_succ_of_le bound
  | positioned i =>
    simp only [World.tick, isPc] at taken
    split at taken
    · cases taken
      exact less_idle rfl (by simp [World.left, isPc])
    · rcases look_cases taken with idle | ⟨moving, tables, table, node⟩
      · exact less_idle idle (by simp [World.left, isPc])
      · exact less_of_snd (by simp [World.left, isPc, moving, tables, table, node])
          (by simp [World.left, isPc, moving])
  | looking i kind =>
    simp only [World.tick, isPc] at taken
    rcases look_cases taken with idle | ⟨moving, tables, table, node⟩
    · exact less_idle idle (by cases kind <;> simp [World.left, isPc])
    · cases kind <;> exact less_of_snd (by simp [World.left, isPc, moving, tables, table, node])
          (by simp [World.left, isPc, moving, tables, table])
  | moving i kind =>
    cases kind with
    | prev =>
      simp only [World.tick, isPc, Option.bind_eq_bind, Option.bind_eq_some_iff] at taken
      obtain ⟨key, node, isAfter⟩ := taken
      cases isAfter
      apply less_of_snd (by simp [World.left, isPc, node])
      have bound : ahead (w.tables (w.iters i).table) none ≤ _ := List.countP_le_length
      simpa [World.left, isPc] using Nat.lt_succ_of_le bound
    | next | seek =>
      simp only [World.tick, isPc] at taken
      obtain ⟨key, node, pc, tables, table, further⟩ := follow_cases taken
      apply less_of_fst
      simpa [World.left, isPc, pc, tables, table, node, further] using
        fromNode_lt (placed.ordered _) (placed.nodes i key node)
  | back i key at_ =>
    simp only [isPc] at site
    simp only [World.tick, isPc] at taken
    split at taken
    · rename_i further step
      cases taken
      obtain ⟨present, behind⟩ := stepTo_present (placed.ordered _) step
      exact less_of_snd (by simp [World.left, isPc])
        (by simpa [World.left, isPc] using ahead_lt present behind)
    · cases taken
      exact less_of_fst (by simpa [World.left, isPc] using upToNode_lt site.1 site.2.1)

end

end EunoDb.RangeScan
