import EunoDb.Execution
import EunoDb.LinkedList
import EunoDb.Memstore
import Mathlib.Algebra.Group.Int.Defs
import Mathlib.Algebra.Group.Nat.Defs

/-! `OBJPool` with its pointers and its `int` counters, which wrap as the compiled code does. An
access through `NULL` or to a deleted header and a failed assertion have no result. `GC` does not
use its argument. -/

namespace EunoDb.ObjectPool

open Execution LinkedList Memstore Function

abbrev Obj := Nat
abbrev HeaderId := Nat

def int32 (n : Int) : Int := n.bmod (2 ^ 32)

structure Header where
  sn : Nat
  head : Option Obj := none
  tail : Option Obj := none
  next : Option HeaderId := none
  gcnum : Int := 0

structure Pool where
  header : HeaderId → Option Header := fun _ => none
  allocated : HeaderId := 0
  next : Obj → Option Obj := fun _ => none
  gclists : Option HeaderId := none
  curlist : Option HeaderId := none
  freelist : Option Obj := none
  freenum : Int := 0

def Pool.setHeader (p : Pool) (id : HeaderId) (header : Header) : Pool :=
  { p with header := update p.header id (some header) }

def Pool.openList (p : Pool) (sn : Nat) : Option Pool :=
  match p.curlist with
  | none =>
    if p.gclists = none then
      some { p.setHeader p.allocated { sn := sn } with
        gclists := some p.allocated, curlist := some p.allocated, allocated := p.allocated + 1 }
    else none
  | some cur => do
      let header ← p.header cur
      if header.sn = sn then
        return p
      else if header.sn < sn then
        return { (p.setHeader cur { header with next := some p.allocated }).setHeader p.allocated
            { sn := sn } with
          curlist := some p.allocated, allocated := p.allocated + 1 }
      else none

def Header.newTail (header : Header) (obj : Obj) : Option Obj :=
  match header.tail with
  | none => if header.head = none then some obj else none
  | some tail => some tail

def Pool.push (p : Pool) (obj : Obj) : Option Pool := do
  let cur ← p.curlist
  let header ← p.header cur
  let tail ← header.newTail obj
  return { p.setHeader cur
      { header with head := some obj, tail := some tail, gcnum := int32 (header.gcnum + 1) } with
    next := update p.next obj header.head }

def Pool.addGCObj (p : Pool) (obj : Obj) (sn : Nat) : Option Pool := do
  let p ← p.openList sn
  p.push obj

def Pool.gcList (p : Pool) (list : Header) : Option Pool := do
  let head ← list.head
  let tail ← list.tail
  return { p with
    next := update p.next tail p.freelist
    freelist := some head
    freenum := int32 (p.freenum + list.gcnum) }

def Pool.curlistWithout (p : Pool) (cur : HeaderId) (header : Header) :
    Option (Option HeaderId) :=
  if p.curlist = some cur then
    if header.next = none then some none else none
  else some p.curlist

def Pool.gcFirst (p : Pool) (cur : HeaderId) : Option Pool := do
  let header ← p.header cur
  let curlist ← p.curlistWithout cur header
  let p ← { p with gclists := header.next, curlist := curlist }.gcList header
  return { p with header := update p.header cur none }

def gcLoop : Nat → Pool → Option Pool
  | fuel, p =>
    match p.gclists, fuel with
    | none, _ => some p
    | some _, 0 => none
    | some cur, fuel + 1 => do
        let p ← p.gcFirst cur
        gcLoop fuel p

def Pool.gc (p : Pool) : Option Pool :=
  match p.gclists with
  | none => if p.curlist = none then some p else none
  | some _ => gcLoop p.allocated p

def Pool.getFreeObj (p : Pool) : Option (Pool × Option Obj) :=
  if p.freenum = 0 then some (p, none)
  else if p.freenum < 0 then none
  else do
    let obj ← p.freelist
    return ({ p with
      freelist := p.next obj
      freenum := p.freenum - 1
      next := update p.next obj none }, some obj)

/-! ### Runs -/

inductive Op where
  | addGCObj (obj : Obj) (sn : Nat)
  | gc
  | getFreeObj

inductive Place where
  | outside
  | waiting
  | free
  deriving DecidableEq

structure World where
  pool : Pool := {}
  place : Obj → Place := fun _ => .outside
  sn : Nat := 0
  /-- The number of objects in the pool. -/
  count : Nat := 0

def Place.collect : Place → Place
  | .waiting => .free
  | place => place

def step (w : World) : Op → Option World
  | .addGCObj obj sn => do
      let pool ← w.pool.addGCObj obj sn
      return ⟨pool, update w.place obj .waiting, sn, w.count + 1⟩
  | .gc => do
      let pool ← w.pool.gc
      return { w with pool := pool, place := fun obj => (w.place obj).collect }
  | .getFreeObj => do
      let (pool, result) ← w.pool.getFreeObj
      return { w with
        pool := pool
        place := match result with
          | some obj => update w.place obj .outside
          | none => w.place
        count := match result with
          | some _ => w.count - 1
          | none => w.count }

def Allowed (w : World) : Op → Prop
  | .addGCObj obj sn => w.place obj = .outside ∧ w.sn ≤ sn
  | .gc => True
  | .getFreeObj => True

instance (w : World) : (op : Op) → Decidable (Allowed w op)
  | .addGCObj _ _ => inferInstanceAs (Decidable (_ ∧ _))
  | .gc => isTrue trivial
  | .getFreeObj => isTrue trivial

def Few (w : World) : Op → Prop
  | .addGCObj _ _ => w.count + 1 < 2 ^ 31
  | .gc => True
  | .getFreeObj => True

instance (w : World) : (op : Op) → Decidable (Few w op)
  | .addGCObj _ _ => inferInstanceAs (Decidable (_ < _))
  | .gc => isTrue trivial
  | .getFreeObj => isTrue trivial

def Pool.nextOf (p : Pool) (id : HeaderId) : Option HeaderId := (p.header id).bind Header.next

structure Conserves (w : World) : Prop where
  lists : ∃ rows : List (HeaderId × List Obj),
    Linked w.pool.nextOf w.pool.gclists (rows.map Prod.fst) ∧
    w.pool.curlist = (rows.map Prod.fst).getLast? ∧
    (∀ row ∈ rows, ∃ header, w.pool.header row.1 = some header ∧
      Linked w.pool.next header.head row.2 ∧ header.tail = row.2.getLast? ∧
      header.gcnum = row.2.length) ∧
    (rows.flatMap Prod.snd).Nodup ∧
    ∀ obj, obj ∈ rows.flatMap Prod.snd ↔ w.place obj = .waiting
  freelist : ∃ objs, Linked w.pool.next w.pool.freelist objs ∧ w.pool.freenum = objs.length ∧
    ∀ obj, obj ∈ objs ↔ w.place obj = .free
  getFreeObj : ∃ pool result, w.pool.getFreeObj = some (pool, result) ∧
    (∀ obj, result = some obj → w.place obj = .free) ∧
    (result = none ↔ ∀ obj, w.place obj ≠ .free)

/-! ### The pool of lists that the pointers spell -/

structure Header.Spells (header : Header) (next : Obj → Option Obj) (list : Memstore.Header) :
    Prop where
  sn : header.sn = list.sn
  chain : Linked next header.head list.objs
  tail : header.tail = list.objs.getLast?
  gcnum : header.gcnum = int32 list.gcnum

abbrev Rows := List (HeaderId × Memstore.Header)

def Rows.objs (rows : Rows) : List Obj := rows.flatMap fun row => row.2.objs

structure Pool.Spells (p : Pool) (rows : Rows) (free : List Obj) : Prop where
  headers : Linked p.nextOf p.gclists (rows.map Prod.fst)
  current : p.curlist = (rows.map Prod.fst).getLast?
  lists : ∀ row ∈ rows, ∃ header, p.header row.1 = some header ∧ header.Spells p.next row.2
  chain : Linked p.next p.freelist free
  freenum : p.freenum = int32 free.length
  disjoint : (rows.objs ++ free).Nodup
  allocated : ∀ row ∈ rows, row.1 < p.allocated
  enough : rows.length ≤ p.allocated

variable {header : Header} {list : Memstore.Header} {p : Pool} {free : List Obj} {cur : HeaderId}
  {sn obj : Nat} {rows : Rows} {pool : ObjPool} {w : World}

theorem int32_of_small {n : Nat} (small : n < 2 ^ 31) : int32 n = n := by
  unfold int32
  exact Int.bmod_eq_of_le (by omega) (by omega)

theorem int32_zero : int32 (0 : Nat) = 0 := int32_of_small (by decide)

theorem int32_add (a b : Int) : int32 (int32 a + int32 b) = int32 (a + b) := by simp [int32]

theorem int32_succ (n : Nat) : int32 (int32 n + 1) = int32 (n + 1 : Nat) := by simp [int32]

theorem Header.Spells.congr {next next' : Obj → Option Obj} (spells : header.Spells next list)
    (same : ∀ obj ∈ list.objs, next' obj = next obj) : header.Spells next' list :=
  ⟨spells.sn, spells.chain.congr same, spells.tail, spells.gcnum⟩

@[simp]
theorem Rows.objs_nil : Rows.objs [] = [] := rfl

@[simp]
theorem Rows.objs_cons (row : HeaderId × Memstore.Header) (rows : Rows) :
    Rows.objs (row :: rows) = row.2.objs ++ rows.objs := List.flatMap_cons

@[simp]
theorem Rows.objs_append (front back : Rows) :
    Rows.objs (front ++ back) = Rows.objs front ++ Rows.objs back := List.flatMap_append

@[simp]
theorem setHeader_header (p : Pool) (id : HeaderId) (header : Header) :
    (p.setHeader id header).header = update p.header id (some header) := rfl

theorem nextOf_of_header {id : HeaderId} (found : p.header id = some header) :
    p.nextOf id = header.next := by
  rw [Pool.nextOf, found]
  rfl

def emptyList (sn : Nat) : Memstore.Header := ⟨sn, [], 0, Memstore.nil_counted⟩

theorem emptyList_spelled (sn : Nat) (next : Obj → Option Obj) :
    Header.Spells { sn := sn } next (emptyList sn) :=
  ⟨rfl, .nil, rfl, int32_zero.symm⟩

theorem Pool.Spells.openFirst (spells : p.Spells [] free) (sn : Nat) :
    ∃ p', p.openList sn = some p' ∧ p'.Spells [(p.allocated, emptyList sn)] free := by
  have none_ : p.gclists = none := spells.headers.head_eq
  have current : p.curlist = none := spells.current
  have opened : p.openList sn = some { p.setHeader p.allocated { sn := sn } with
      gclists := some p.allocated, curlist := some p.allocated, allocated := p.allocated + 1 } := by
    simp [Pool.openList, current, none_]
  refine ⟨_, opened, ?_⟩
  have new : update p.header p.allocated (some { sn := sn }) p.allocated =
      some ({ sn := sn } : Header) := update_self ..
  refine ⟨?_, rfl, ?_, spells.chain, spells.freenum, spells.disjoint, ?_, ?_⟩
  · exact .cons (by simp [Pool.nextOf, Linked.nil])
  · intro row mem
    rw [List.mem_singleton.mp mem]
    exact ⟨_, new, emptyList_spelled sn _⟩
  · intro row mem
    rw [List.mem_singleton.mp mem]
    exact Nat.lt_succ_self _
  · exact Nat.le_add_left 1 _

theorem Pool.Spells.openNext {front : Rows} (spells : p.Spells (front ++ [(cur, list)]) free)
    (later : list.sn < sn) :
    ∃ p', p.openList sn = some p' ∧
      p'.Spells (front ++ [(cur, list)] ++ [(p.allocated, emptyList sn)]) free := by
  obtain ⟨header, found, spelled⟩ := spells.lists (cur, list) (by simp)
  have current : p.curlist = some cur := by simp [spells.current]
  have used : cur ≠ p.allocated := Nat.ne_of_lt (spells.allocated (cur, list) (by simp))
  have distinct := spells.headers.nodup
  rw [List.map_append, List.map_singleton] at distinct
  -- the last header is linked to the new one, the others stay
  have opened : p.openList sn = some
      { (p.setHeader cur { header with next := some p.allocated }).setHeader p.allocated
          { sn := sn } with
        curlist := some p.allocated, allocated := p.allocated + 1 } := by
    have unequal : header.sn ≠ sn := spelled.sn ▸ Nat.ne_of_lt later
    have less : header.sn < sn := spelled.sn ▸ later
    simp [Pool.openList, current, found, unequal, less]
  refine ⟨_, opened, ?_⟩
  have new : update (update p.header cur
      (some { header with next := some p.allocated })) p.allocated (some { sn := sn })
        p.allocated = some ({ sn := sn } : Header) := update_self ..
  have atCur : update (update p.header cur
      (some { header with next := some p.allocated })) p.allocated (some { sn := sn }) cur =
        some { header with next := some p.allocated } := by
    rw [update_of_ne used, update_self]
  have kept : ∀ id, id ≠ cur → id ≠ p.allocated → update (update p.header cur
      (some { header with next := some p.allocated })) p.allocated (some { sn := sn }) id =
        p.header id := by
    intro id notCur notNew
    rw [update_of_ne notNew, update_of_ne notCur]
  refine ⟨?_, by simp, ?_, spells.chain, spells.freenum, ?_, ?_, ?_⟩
  · rw [List.map_append, List.map_singleton]
    have isLast : ((front ++ [(cur, list)]).map Prod.fst).getLast? = some cur := by simp
    refine spells.headers.splice isLast (nextOf_of_header atCur) ?_
      (.cons (by simp [Pool.nextOf, Linked.nil]))
    intro id mem notCur
    obtain ⟨row, isRow, rfl⟩ := List.mem_map.mp mem
    have same := kept row.1 notCur (Nat.ne_of_lt (spells.allocated row isRow))
    exact congrArg (fun header => Option.bind header Header.next) same
  · intro row mem
    rcases List.mem_append.mp mem with old | isNew
    · obtain ⟨other, isHeader, spelledRow⟩ := spells.lists row old
      by_cases same : row.1 = cur
      · rw [same] at isHeader ⊢
        cases found.symm.trans isHeader
        exact ⟨_, atCur, spelledRow.sn, spelledRow.chain, spelledRow.tail, spelledRow.gcnum⟩
      · exact ⟨other, (kept row.1 same (Nat.ne_of_lt (spells.allocated row old))).trans isHeader,
          spelledRow⟩
    · rw [List.mem_singleton.mp isNew]
      exact ⟨_, new, emptyList_spelled sn _⟩
  · simpa [emptyList] using spells.disjoint
  · intro row mem
    rcases List.mem_append.mp mem with old | isNew
    · exact Nat.lt_succ_of_lt (spells.allocated row old)
    · rw [List.mem_singleton.mp isNew]
      exact Nat.lt_succ_self _
  · simpa using spells.enough

theorem Header.Spells.head_none {next : Obj → Option Obj} (spelled : header.Spells next list)
    (empty : list.objs = []) : header.head = none := by
  rw [spelled.chain.head_eq, empty]
  rfl

theorem Pool.Spells.push {front : Rows} (spells : p.Spells (front ++ [(cur, list)]) free)
    {obj : Obj} (absent : obj ∉ Rows.objs (front ++ [(cur, list)]) ++ free) :
    ∃ p', p.push obj = some p' ∧ p'.Spells (front ++ [(cur, list.push obj)]) free := by
  obtain ⟨header, found, spelled⟩ := spells.lists (cur, list) (by simp)
  have current : p.curlist = some cur := by simp [spells.current]
  have distinct := spells.headers.nodup
  rw [List.map_append, List.map_singleton] at distinct
  have notFront : ∀ row ∈ front, row.1 ≠ cur := by
    intro row mem
    exact (List.nodup_append.mp distinct).2.2 row.1 (List.mem_map_of_mem mem) cur (by simp)
  -- the tail is set by the first object and stays
  obtain ⟨tail, isTail, isLast⟩ : ∃ tail, header.newTail obj = some tail ∧
      (obj :: list.objs).getLast? = some tail := by
    cases last : list.objs.getLast? with
    | none =>
      have empty := List.getLast?_eq_none_iff.mp last
      exact ⟨obj, by simp [Header.newTail, spelled.tail, last, spelled.head_none empty],
        by simp [empty]⟩
    | some tail =>
      exact ⟨tail, by simp [Header.newTail, spelled.tail, last],
        by simp [List.getLast?_cons, last]⟩
  have pushed : p.push obj = some
      { p.setHeader cur
          { header with head := some obj, tail := some tail, gcnum := int32 (header.gcnum + 1) } with
        next := update p.next obj header.head } := by
    simp [Pool.push, current, found, isTail]
  refine ⟨_, pushed, ?_⟩
  have others : ∀ other, other ∈ Rows.objs (front ++ [(cur, list)]) ++ free →
      update p.next obj header.head other = p.next other := by
    intro other mem
    have different : other ≠ obj := fun same => absent (same ▸ mem)
    rw [update_of_ne different]
  refine ⟨?_, ?_, ?_, ?_, spells.freenum, ?_, ?_, ?_⟩
  · have sameIds : (front ++ [(cur, list.push obj)]).map Prod.fst =
        (front ++ [(cur, list)]).map Prod.fst := by simp
    rw [sameIds]
    refine spells.headers.congr fun id _ => ?_
    by_cases same : id = cur
    · rw [same, nextOf_of_header found]
      simp [Pool.nextOf]
    · simp [Pool.nextOf, same]
  · simp [current, Pool.setHeader]
  · intro row mem
    rcases List.mem_append.mp mem with inFront | isCur
    · obtain ⟨other, isHeader, spelledRow⟩ := spells.lists row (List.mem_append_left _ inFront)
      refine ⟨other, ?_, spelledRow.congr fun object inside => others object ?_⟩
      · simp [notFront row inFront, isHeader]
      · exact List.mem_append_left _ (List.mem_flatMap.mpr
          ⟨row, List.mem_append_left _ inFront, inside⟩)
    · rw [List.mem_singleton.mp isCur]
      refine ⟨_, update_self .., spelled.sn, ?_, isLast.symm, ?_⟩
      swap
      · exact (congrArg (fun n => int32 (n + 1)) spelled.gcnum).trans (int32_succ _)
      refine spelled.chain.push (update_self ..) fun object inside => others object ?_
      simp [inside]
  · exact spells.chain.congr fun object inside => others object (List.mem_append_right _ inside)
  · have disjoint := spells.disjoint
    simp only [Rows.objs_append, Rows.objs_cons, Rows.objs_nil, List.append_nil,
      List.append_assoc] at disjoint absent ⊢
    rw [Memstore.Header.push, List.cons_append]
    exact List.nodup_middle.mpr (List.nodup_cons.mpr ⟨absent, disjoint⟩)
  · intro row mem
    rcases List.mem_append.mp mem with inFront | isCur
    · exact spells.allocated row (List.mem_append_left _ inFront)
    · rw [List.mem_singleton.mp isCur]
      exact spells.allocated (cur, list) (by simp)
  · have enough := spells.enough
    rw [List.length_append] at enough ⊢
    exact enough

theorem addToLists_concat (obj sn : Nat) (front : List Memstore.Header) (cur : Memstore.Header) :
    ObjPool.addToLists obj sn (front ++ [cur]) =
      front ++ if cur.sn = sn then [cur.push obj] else [cur, Memstore.Header.single sn obj] := by
  induction front with
  | nil =>
    by_cases same : cur.sn = sn <;> simp [ObjPool.addToLists, same]
  | cons first front ih =>
    cases front with
    | nil => simp [ObjPool.addToLists]
    | cons second front =>
      simp only [List.cons_append, ObjPool.addToLists] at ih ⊢
      rw [ih]

theorem Pool.Spells.openList (spells : p.Spells rows free)
    (later : ∀ row ∈ rows.getLast?, row.2.sn ≤ sn) :
    ∃ p' front cur list, p.openList sn = some p' ∧ p'.Spells (front ++ [(cur, list)]) free ∧
      list.sn = sn ∧ Rows.objs (front ++ [(cur, list)]) = rows.objs ∧ (∀ row ∈ front, row ∈ rows) ∧
      ∀ obj, ObjPool.addToLists obj sn (rows.map Prod.snd) =
        (front ++ [(cur, list.push obj)]).map Prod.snd := by
  rcases List.eq_nil_or_concat rows with rfl | ⟨front, ⟨cur, list⟩, rfl⟩
  · obtain ⟨p', opened, after⟩ := spells.openFirst sn
    exact ⟨p', [], p.allocated, emptyList sn, opened, after, rfl, rfl, nofun, fun _ => rfl⟩
  rw [List.concat_eq_append] at spells later ⊢
  have notLater : list.sn ≤ sn := later (cur, list) (by simp)
  have added := fun obj => addToLists_concat obj sn (front.map Prod.snd) list
  rcases Nat.lt_or_eq_of_le notLater with less | same
  · obtain ⟨p', opened, after⟩ := spells.openNext less
    refine ⟨p', _, _, _, opened, after, rfl, by simp [emptyList], fun row mem => mem,
      fun obj => ?_⟩
    rw [List.map_append, List.map_singleton, added obj, if_neg (Nat.ne_of_lt less)]
    simp [emptyList, Memstore.Header.push, Memstore.Header.single]
  obtain ⟨header, found, spelled⟩ := spells.lists (cur, list) (by simp)
  have current : p.curlist = some cur := by simp [spells.current]
  have opened : p.openList sn = some p := by
    have isSn : header.sn = sn := spelled.sn.trans same
    simp [Pool.openList, current, found, isSn]
  refine ⟨p, front, cur, list, opened, spells, same, rfl,
    fun row mem => List.mem_append_left _ mem, fun obj => ?_⟩
  rw [List.map_append, List.map_singleton, added obj, if_pos same]
  simp

def Rows.Used (rows : Rows) : Prop := ∀ row ∈ rows, row.2.objs ≠ []

theorem Pool.Spells.addGCObj (spells : p.Spells rows free) (used : rows.Used)
    (absent : obj ∉ rows.objs ++ free) (later : ∀ row ∈ rows.getLast?, row.2.sn ≤ sn) :
    ∃ p' rows', p.addGCObj obj sn = some p' ∧ p'.Spells rows' free ∧ Rows.Used rows' ∧
      (∀ row ∈ rows'.getLast?, row.2.sn = sn) ∧
      ObjPool.addToLists obj sn (rows.map Prod.snd) = rows'.map Prod.snd := by
  obtain ⟨opened, front, cur, list, isOpened, spells', isSn, sameObjs, old, added⟩ :=
    spells.openList later
  rw [← sameObjs] at absent
  obtain ⟨p', pushed, after⟩ := spells'.push absent
  refine ⟨p', _, by simp [Pool.addGCObj, isOpened, pushed], after, ?_, ?_, added obj⟩
  · intro row mem
    rcases List.mem_append.mp mem with inFront | isCur
    · exact used row (old row inFront)
    · rw [List.mem_singleton.mp isCur]
      exact List.cons_ne_nil _ _
  · simp [Memstore.Header.push, isSn]

/-! ### Collection -/

theorem Pool.Spells.gcFirst (spells : p.Spells ((cur, list) :: rows) free) (used : list.objs ≠ []) :
    ∃ p', p.gcFirst cur = some p' ∧ p'.Spells rows (list.objs ++ free) := by
  obtain ⟨header, found, spelled⟩ := spells.lists (cur, list) (by simp)
  have distinct := spells.headers.nodup
  rw [List.map_cons] at distinct
  obtain ⟨notAgain, -⟩ := List.nodup_cons.mp distinct
  -- `curlist_` stays the last header of what is left
  have rest : Linked p.nextOf header.next (rows.map Prod.fst) := by
    rw [← nextOf_of_header found]
    exact spells.headers.tail
  have current : p.curlistWithout cur header = some (rows.map Prod.fst).getLast? := by
    have last := spells.current
    cases rows with
    | nil =>
      have ends : header.next = none := rest.head_eq
      simp only [List.map_cons, List.map_nil, List.getLast?_singleton] at last
      simp [Pool.curlistWithout, last, ends]
    | cons row rows =>
      rw [List.map_cons, List.map_cons, List.getLast?_cons_cons] at last
      have differs : p.curlist ≠ some cur := by
        intro same
        rw [same] at last
        exact notAgain (List.mem_of_getLast? last.symm)
      rw [Pool.curlistWithout, if_neg differs, last, List.map_cons]
  obtain ⟨first, others, shape⟩ := List.exists_cons_of_ne_nil used
  have isHead : header.head = some first := by
    rw [spelled.chain.head_eq, shape]
    rfl
  obtain ⟨tail, isTail⟩ : ∃ tail, list.objs.getLast? = some tail := by
    rw [shape]
    exact ⟨_, List.getLast?_cons ..⟩
  have collected : p.gcFirst cur = some { p with
      gclists := header.next
      curlist := (rows.map Prod.fst).getLast?
      next := update p.next tail p.freelist
      freelist := some first
      freenum := int32 (p.freenum + header.gcnum)
      header := update p.header cur none } := by
    simp [Pool.gcFirst, found, current, Pool.gcList, isHead, spelled.tail, isTail]
  refine ⟨_, collected, ?_⟩
  have disjoint := spells.disjoint
  rw [Rows.objs_cons, List.append_assoc] at disjoint
  obtain ⟨-, restDisjoint, apart⟩ := List.nodup_append.mp disjoint
  have inList := List.mem_of_getLast? isTail
  have untouched : ∀ obj ∈ rows.objs ++ free,
      update p.next tail p.freelist obj = p.next obj := by
    intro obj mem
    rw [update_of_ne (apart tail inList obj mem).symm]
  have keptIds : ∀ row ∈ rows, row.1 ≠ cur := by
    intro row mem same
    exact notAgain (List.mem_map.mpr ⟨row, mem, same⟩)
  refine ⟨?_, rfl, ?_, ?_, ?_, ?_, ?_, ?_⟩
  · refine rest.congr fun id mem => ?_
    obtain ⟨row, isRow, rfl⟩ := List.mem_map.mp mem
    simp [Pool.nextOf, keptIds row isRow]
  · intro row mem
    obtain ⟨other, isHeader, spelledRow⟩ := spells.lists row (List.mem_cons_of_mem _ mem)
    refine ⟨other, by simp [keptIds row mem, isHeader], spelledRow.congr fun obj inside => ?_⟩
    exact untouched obj (List.mem_append_left _ (List.mem_flatMap.mpr ⟨row, mem, inside⟩))
  · rw [← isHead]
    refine spelled.chain.splice isTail (update_self ..) ?_ ?_
    · intro obj _ notTail
      exact update_of_ne notTail ..
    · exact spells.chain.congr fun obj inside => untouched obj (List.mem_append_right _ inside)
  · rw [spells.freenum, spelled.gcnum, list.counted, int32_add, List.length_append, Int.natCast_add,
      Int.add_comm]
  · refine (List.perm_append_comm_assoc rows.objs list.objs free).nodup_iff.mpr ?_
    exact disjoint
  · exact fun row mem => spells.allocated row (List.mem_cons_of_mem _ mem)
  · exact Nat.le_trans (Nat.le_succ _) spells.enough

theorem Pool.Spells.gcLoop (spells : p.Spells rows free) (used : rows.Used) {fuel : Nat}
    (enough : rows.length ≤ fuel) :
    ∃ p', gcLoop fuel p = some p' ∧
      p'.Spells [] (rows.foldl (fun free row => row.2.objs ++ free) free) := by
  induction rows generalizing p free fuel with
  | nil =>
    have none_ : p.gclists = none := spells.headers.head_eq
    exact ⟨p, by simp [ObjectPool.gcLoop, none_], spells⟩
  | cons row rows ih =>
    obtain ⟨cur, list⟩ := row
    obtain ⟨fuel, rfl⟩ : ∃ less, fuel = less + 1 := Nat.exists_eq_add_of_le' (by
      exact Nat.le_trans (Nat.le_add_left 1 _) enough)
    have some_ : p.gclists = some cur := spells.headers.head_eq
    obtain ⟨p', collected, after⟩ := spells.gcFirst (used (cur, list) List.mem_cons_self)
    obtain ⟨final, finished, last⟩ := ih after
      (fun row mem => used row (List.mem_cons_of_mem _ mem))
      (Nat.le_of_succ_le_succ enough)
    refine ⟨final, ?_, last⟩
    simp [ObjectPool.gcLoop, some_, collected, finished]

/-! ### Refinement of the pool of lists -/

def Pool.Refines (p : Pool) (pool : ObjPool) : Prop :=
  ∃ rows : Rows, p.Spells rows pool.freelist ∧ rows.Used ∧ pool.gclists = rows.map Prod.snd

theorem retired_eq (lists : pool.gclists = rows.map Prod.snd) : pool.retired = rows.objs := by
  rw [ObjPool.retired, lists, List.flatMap_map]
  rfl

theorem initial_refines : Pool.Refines {} {} :=
  ⟨[], ⟨.nil, rfl, nofun, .nil, int32_zero.symm, .nil, nofun, Nat.le_refl 0⟩, nofun, rfl⟩

theorem Pool.Refines.addGCObj (refines : p.Refines pool)
    (absent : obj ∉ pool.retired ++ pool.freelist)
    (later : ∀ list ∈ pool.gclists.getLast?, list.sn ≤ sn) :
    ∃ p', p.addGCObj obj sn = some p' ∧ p'.Refines (pool.addGCObj obj sn) ∧
      ∀ list ∈ (pool.addGCObj obj sn).gclists.getLast?, list.sn = sn := by
  obtain ⟨rows, spells, used, lists⟩ := refines
  rw [retired_eq lists] at absent
  have notLater : ∀ row ∈ rows.getLast?, row.2.sn ≤ sn := by
    intro row isLast
    apply later row.2
    rw [lists, List.getLast?_map, isLast]
    rfl
  obtain ⟨p', rows', added, after, used', last, lists'⟩ := spells.addGCObj used absent notLater
  rw [← lists] at lists'
  refine ⟨p', added, ⟨rows', after, used', lists'⟩, ?_⟩
  intro list isLast
  rw [ObjPool.addGCObj, lists', List.getLast?_map] at isLast
  obtain ⟨row, isRow, rfl⟩ := Option.map_eq_some_iff.mp isLast
  exact last row isRow

theorem foldl_gcList (lists : List Memstore.Header) (pool : ObjPool) :
    (lists.foldl ObjPool.gcList pool).freelist =
      lists.foldl (fun free list => list.objs ++ free) pool.freelist := by
  induction lists generalizing pool with
  | nil => rfl
  | cons list lists ih => exact ih (pool.gcList list)

theorem Pool.Refines.gc (refines : p.Refines pool) : ∃ p', p.gc = some p' ∧ p'.Refines pool.gc := by
  obtain ⟨rows, spells, used, lists⟩ := refines
  obtain ⟨p', collected, after⟩ := spells.gcLoop used spells.enough
  have moved : pool.gc.freelist = rows.foldl (fun free row => row.2.objs ++ free) pool.freelist := by
    rw [ObjPool.gc, foldl_gcList, lists, List.foldl_map]
  refine ⟨p', ?_, [], moved ▸ after, nofun, rfl⟩
  cases rows with
  | nil =>
    have none_ : p.gclists = none := spells.headers.head_eq
    have current : p.curlist = none := spells.current
    have same : ObjectPool.gcLoop p.allocated p = some p := by simp [ObjectPool.gcLoop, none_]
    rw [Pool.gc, none_, if_pos current, ← collected, same]
  | cons row rows =>
    have some_ : p.gclists = some row.1 := spells.headers.head_eq
    rw [Pool.gc, some_]
    exact collected

theorem Pool.Refines.freenum (refines : p.Refines pool) :
    p.freenum = int32 pool.freelist.length := by
  obtain ⟨rows, spells, -⟩ := refines
  exact spells.freenum

theorem Pool.Refines.getFreeObj (refines : p.Refines pool)
    (few : pool.freelist.length < 2 ^ 31) :
    (pool.freelist = [] ∧ p.getFreeObj = some (p, none)) ∨
      ∃ obj rest p', pool.getFreeObj = some (obj, rest) ∧ p.getFreeObj = some (p', some obj) ∧
        p'.Refines rest := by
  obtain ⟨rows, spells, used, lists⟩ := refines
  cases taken : pool.getFreeObj with
  | none =>
    have empty := ObjPool.getFreeObj_none taken
    have count : p.freenum = 0 := by
      rw [spells.freenum, empty]
      exact int32_zero
    exact .inl ⟨empty, by rw [Pool.getFreeObj, if_pos count]⟩
  | some result =>
    obtain ⟨obj, rest⟩ := result
    obtain ⟨shape, sameLists⟩ := ObjPool.getFreeObj_some taken
    rw [shape] at spells few
    have count : p.freenum = rest.freelist.length + 1 := spells.freenum.trans (int32_of_small few)
    have isHead : p.freelist = some obj := spells.chain.head_eq
    have popped : p.getFreeObj = some ({ p with
        freelist := p.next obj
        freenum := p.freenum - 1
        next := update p.next obj none }, some obj) := by
      have positive : p.freenum ≠ 0 ∧ ¬ p.freenum < 0 := by omega
      rw [Pool.getFreeObj, if_neg positive.1, if_neg positive.2, isHead]
      rfl
    refine .inr ⟨obj, rest, _, rfl, popped, rows, ?_, used, sameLists.trans lists⟩
    obtain ⟨absent, distinct⟩ := List.nodup_cons.mp (List.nodup_middle.mp spells.disjoint)
    have untouched : ∀ other ∈ rows.objs ++ rest.freelist,
        update p.next obj none other = p.next other := by
      intro other mem
      have different : other ≠ obj := fun same => absent (same ▸ mem)
      exact update_of_ne different ..
    refine ⟨spells.headers, spells.current, ?_, ?_, ?_, distinct, spells.allocated, spells.enough⟩
    · intro row mem
      obtain ⟨header, found, spelled⟩ := spells.lists row mem
      refine ⟨header, found, spelled.congr fun other inside => untouched other ?_⟩
      exact List.mem_append_left _ (List.mem_flatMap.mpr ⟨row, mem, inside⟩)
    · exact spells.chain.tail.congr fun other inside =>
        untouched other (List.mem_append_right _ inside)
    · rw [int32_of_small (Nat.lt_of_succ_lt few), count]
      exact Int.add_sub_cancel ..

/-! ### Whole runs -/

structure Sound (w : World) : Prop where
  pool : ∃ pool : ObjPool, w.pool.Refines pool ∧
    (∀ obj, obj ∈ pool.retired ↔ w.place obj = .waiting) ∧
    (∀ obj, obj ∈ pool.freelist ↔ w.place obj = .free) ∧
    (∀ list ∈ pool.gclists.getLast?, list.sn ≤ w.sn) ∧
    w.count = (pool.retired ++ pool.freelist).length

theorem Sound.initial : Sound {} :=
  ⟨{}, initial_refines, by simp [ObjPool.retired], by simp, nofun, rfl⟩

theorem Sound.addGCObj (sound : Sound w) (allowed : Allowed w (.addGCObj obj sn)) :
    ∃ next, step w (.addGCObj obj sn) = some next ∧ Sound next := by
  obtain ⟨pool, refines, waiting, free, last, count⟩ := sound
  obtain ⟨outside, notLess⟩ := allowed
  have absent : obj ∉ pool.retired ++ pool.freelist := by
    rw [List.mem_append, waiting, free, outside]
    simp
  obtain ⟨p', added, after, isSn⟩ := refines.addGCObj absent fun list isLast =>
    Nat.le_trans (last list isLast) notLess
  refine ⟨_, by simp [step, added]; rfl, _, after, fun other => ?_, fun other => ?_, ?_, ?_⟩
  · rw [(ObjPool.retired_addGCObj pool obj sn).mem_iff, List.mem_cons, waiting]
    by_cases same : other = obj <;> simp [same]
  · rw [ObjPool.freelist_addGCObj, free]
    by_cases same : other = obj <;> simp [same, outside]
  · exact fun list isLast => Nat.le_of_eq (isSn list isLast)
  · have grown := (ObjPool.retired_addGCObj pool obj sn).length_eq
    rw [List.length_append, grown, ObjPool.freelist_addGCObj, List.length_cons]
    simp only [count, List.length_append]
    omega

theorem Sound.gc (sound : Sound w) : ∃ next, step w .gc = some next ∧ Sound next := by
  obtain ⟨pool, refines, waiting, free, last, count⟩ := sound
  obtain ⟨p', collected, after⟩ := refines.gc
  refine ⟨_, by simp [step, collected]; rfl, _, after, fun obj => ?_, fun obj => ?_,
    by simp [ObjPool.gc], ?_⟩
  · rw [ObjPool.retired_gc]
    cases place : w.place obj <;> simp [Place.collect, place]
  · rw [(ObjPool.freelist_gc_perm pool).mem_iff, List.mem_append, waiting, free]
    cases place : w.place obj <;> simp [Place.collect, place]
  · rw [ObjPool.retired_gc, List.nil_append, (ObjPool.freelist_gc_perm pool).length_eq]
    exact count

theorem Sound.getFreeObj (sound : Sound w) (few : w.count < 2 ^ 31) :
    ∃ next, step w .getFreeObj = some next ∧ Sound next := by
  obtain ⟨pool, refines, waiting, free, last, count⟩ := sound
  rw [List.length_append] at count
  rcases refines.getFreeObj (by omega) with ⟨-, popped⟩ | ⟨obj, rest, p', taken, popped, after⟩
  · exact ⟨w, by simp [step, popped], pool, refines, waiting, free, last, by simpa using count⟩
  obtain ⟨shape, sameLists⟩ := ObjPool.getFreeObj_some taken
  have isFree : w.place obj = .free := by
    rw [← free, shape]
    exact List.mem_cons_self
  have once : obj ∉ rest.freelist := by
    obtain ⟨rows, spells, -⟩ := refines
    rw [shape] at spells
    exact (List.nodup_cons.mp spells.chain.nodup).1
  refine ⟨_, by simp [step, popped]; rfl, rest, after, fun other => ?_, fun other => ?_, ?_, ?_⟩
  · rw [ObjPool.retired, sameLists, ← ObjPool.retired, waiting]
    by_cases same : other = obj <;> simp [same, isFree]
  · by_cases same : other = obj
    · simp [same, once]
    · simp [← free, shape, same]
  · rw [sameLists]
    exact last
  · rw [shape, List.length_cons] at count
    rw [ObjPool.retired, sameLists, ← ObjPool.retired, List.length_append]
    simp only [count]
    omega

theorem Sound.conserves (sound : Sound w) (few : w.count < 2 ^ 31) : Conserves w := by
  obtain ⟨pool, refines, waiting, free, last, count⟩ := sound
  rw [List.length_append] at count
  have result := refines.getFreeObj (by omega)
  obtain ⟨rows, spells, used, lists⟩ := refines
  refine ⟨⟨rows.map fun row => (row.1, row.2.objs), ?_, ?_, ?_, ?_, ?_⟩, ?_, ?_⟩
  · simpa [comp_def] using spells.headers
  · simpa [comp_def] using spells.current
  · intro row mem
    obtain ⟨⟨id, list⟩, isRow, rfl⟩ := List.mem_map.mp mem
    obtain ⟨header, found, spelled⟩ := spells.lists (id, list) isRow
    have inside : list.objs.length ≤ pool.retired.length := by
      obtain ⟨front, back, shape⟩ := List.append_of_mem isRow
      rw [retired_eq lists, shape, Rows.objs_append, Rows.objs_cons]
      simp only [List.length_append]
      omega
    refine ⟨header, found, spelled.chain, spelled.tail, ?_⟩
    rw [spelled.gcnum, list.counted]
    exact int32_of_small (by omega)
  · rw [List.flatMap_map]
    exact (List.nodup_append.mp spells.disjoint).1
  · intro obj
    rw [← waiting, retired_eq lists, List.flatMap_map]
    rfl
  · exact ⟨pool.freelist, spells.chain, spells.freenum.trans (int32_of_small (by omega)), free⟩
  rcases result with ⟨empty, popped⟩ | ⟨obj, rest, p', taken, popped, -⟩
  · refine ⟨_, none, popped, nofun, fun _ obj => ?_, fun _ => rfl⟩
    rw [Ne, ← free, empty]
    exact List.not_mem_nil
  have isFree : w.place obj = .free := by
    rw [← free, (ObjPool.getFreeObj_some taken).1]
    exact List.mem_cons_self
  refine ⟨_, some obj, popped, fun other same => ?_, nofun, fun allTaken => ?_⟩
  · cases same
    exact isFree
  · exact absurd isFree (allTaken obj)

theorem step_count {next : World} {op : Op} (few : w.count < 2 ^ 31 ∧ Few w op)
    (taken : step w op = some next) : next.count < 2 ^ 31 := by
  cases op with
  | addGCObj obj sn =>
    obtain ⟨pool, -, isNext⟩ := Option.bind_eq_some_iff.mp taken
    cases isNext
    exact few.2
  | gc =>
    obtain ⟨pool, -, isNext⟩ := Option.bind_eq_some_iff.mp taken
    cases isNext
    exact few.1
  | getFreeObj =>
    obtain ⟨⟨pool, result⟩, -, isNext⟩ := Option.bind_eq_some_iff.mp taken
    cases isNext
    cases result with
    | none => exact few.1
    | some obj => exact Nat.lt_of_le_of_lt (Nat.sub_le ..) few.1

theorem Sound.step {op : Op} (sound : Sound w) (few : w.count < 2 ^ 31) (allowed : Allowed w op) :
    ∃ next, step w op = some next ∧ Sound next := by
  cases op with
  | addGCObj obj sn => exact sound.addGCObj allowed
  | gc => exact sound.gc
  | getFreeObj => exact sound.getFreeObj few

/-- While the pool holds fewer than `2 ^ 31` objects, no object is lost or handed out twice. -/
theorem pool_conserves {ops : List Op} (allowed : Each step Allowed {} ops)
    (few : Each step Few {} ops) : ∃ w, run step {} ops = some w ∧ Conserves w := by
  have enabled : ∀ w op, Sound w ∧ w.count < 2 ^ 31 → Allowed w op ∧ Few w op →
      ∃ next, ObjectPool.step w op = some next ∧ Sound next ∧ next.count < 2 ^ 31 := by
    rintro w op ⟨sound, small⟩ ⟨allowed, few⟩
    obtain ⟨next, taken, after⟩ := sound.step small allowed
    exact ⟨next, taken, after, step_count ⟨small, few⟩ taken⟩
  obtain ⟨w, ran, sound, small⟩ :=
    run_total enabled ⟨Sound.initial, by decide⟩ (each_and allowed few)
  exact ⟨w, ran, sound.conserves small⟩

theorem pool_conserves_reused : ∃ w, run step {}
    [.addGCObj 7 1, .addGCObj 8 1, .addGCObj 9 2, .gc, .getFreeObj, .addGCObj 9 2, .getFreeObj] =
      some w ∧ Conserves w :=
  pool_conserves (by decide +kernel) (by decide +kernel)

/-- The first `n` objects, all with the same number. -/
def crowd (n : Nat) : List Op := (List.range n).map fun obj => .addGCObj obj 0

theorem crowd_added (n : Nat) :
    ∃ w, run step {} (crowd n) = some w ∧ Each step Allowed {} (crowd n) ∧ Sound w ∧ w.sn = 0 ∧
      w.count = n ∧ ∀ obj : Nat, w.place obj = if obj < n then .waiting else .outside := by
  induction n with
  | zero => exact ⟨{}, rfl, trivial, Sound.initial, rfl, rfl, fun _ => rfl⟩
  | succ n ih =>
    obtain ⟨w, ran, each, sound, sn, count, place⟩ := ih
    have allowed : Allowed w (.addGCObj n 0) := ⟨by simp [place], Nat.le_of_eq sn⟩
    obtain ⟨next, taken, after⟩ := sound.addGCObj allowed
    have grown : crowd (n + 1) = crowd n ++ [.addGCObj n 0] := by simp [crowd, List.range_succ]
    obtain ⟨pool, -, isNext⟩ := Option.bind_eq_some_iff.mp taken
    cases isNext
    refine ⟨_, ?_, ?_, after, rfl, congrArg (· + 1) count, fun obj => ?_⟩
    · rw [grown, run_append, ran]
      simp [run, taken]
    · rw [grown, each_append ran]
      exact ⟨each, allowed, fun _ _ => trivial⟩
    · by_cases same : obj = n
      · simp [same]
      · have iff_ : obj < n + 1 ↔ obj < n := by omega
        simp [same, place, iff_]

theorem crowd_collected (n : Nat) :
    ∃ w, run step {} (crowd n ++ [.gc]) = some w ∧
      Each step Allowed {} (crowd n ++ [.gc, .getFreeObj]) ∧
      (∀ obj : Nat, w.place obj = .free ↔ obj < n) ∧ w.pool.freenum = int32 n := by
  obtain ⟨w, ran, each, sound, -, count, place⟩ := crowd_added n
  obtain ⟨next, taken, after⟩ := sound.gc
  obtain ⟨pool, -, isNext⟩ := Option.bind_eq_some_iff.mp taken
  cases isNext
  obtain ⟨lists, refines, waiting, -, -, size⟩ := after
  have empty : lists.retired = [] := List.eq_nil_iff_forall_not_mem.mpr fun obj => by
    rw [waiting]
    cases place : w.place obj <;> simp [Place.collect, place]
  rw [empty, List.nil_append, count] at size
  refine ⟨{ w with pool := pool, place := fun obj => (w.place obj).collect }, ?_, ?_, ?_, ?_⟩
  · rw [run_append, ran]
    simp [run, taken]
  · rw [each_append ran]
    exact ⟨each, trivial, fun _ _ => ⟨trivial, fun _ _ => trivial⟩⟩
  · intro obj
    by_cases inside : obj < n <;> simp [place, inside, Place.collect]
  · rw [refines.freenum, ← size]

/-- With `2 ^ 31` objects in the free list `freenum_` is negative, and `GetFreeObj` aborts. -/
theorem freenum_overflows : ∃ w, run step {} (crowd (2 ^ 31) ++ [.gc]) = some w ∧
    Each step Allowed {} (crowd (2 ^ 31) ++ [.gc, .getFreeObj]) ∧
    (∀ obj : Nat, w.place obj = .free ↔ obj < 2 ^ 31) ∧ w.pool.freenum = -2 ^ 31 ∧
    step w .getFreeObj = none := by
  have wraps : int32 (2 ^ 31 : Nat) = -2 ^ 31 := by decide
  -- the number is kept abstract, so that the list is not unfolded
  generalize 2 ^ 31 = n at wraps ⊢
  obtain ⟨w, ran, each, free, freenum⟩ := crowd_collected n
  have negative := freenum.trans wraps
  have aborts : w.pool.getFreeObj = none := by
    rw [Pool.getFreeObj, negative]
    rfl
  exact ⟨w, ran, each, free, negative, by rw [step, aborts]; rfl⟩

end EunoDb.ObjectPool
