import Mathlib.Logic.Function.Basic
import Mathlib.Data.List.Basic
import Mathlib.Order.Nat

/-! Records of `memstore/memstore.h` and the pools of `db/objpool.cc`. Addresses are natural
numbers. `LOGICALDELETE` and `HAVEREMOVED` are constructors. `seq` and `counter`, of 64 bits, are
those of runs in which they do not wrap: of fewer than `2 ^ 64` commits and snapshots. -/

namespace EunoDb.Memstore

abbrev Key := UInt64
abbrev TableId := Nat
abbrev NodeId := Nat
abbrev Ptr := Nat

inductive Value where
  | logicalDelete
  | haveRemoved
  | pointer (object : Ptr)
  deriving DecidableEq, Repr

def validateValue : Value → Bool
  | .pointer _ => true
  | .logicalDelete => false
  | .haveRemoved => false

structure MemNode where
  seq : Nat := 0
  counter : Nat := 0
  value : Value := .logicalDelete
  oldVersions : Option NodeId := none
  gcRef : Int := 0
  deriving DecidableEq, Repr

abbrev Heap := NodeId → MemNode

/-! The lists of a pool share a sequence number, oldest first. The two counts of the source are
fields with their meaning attached. -/

theorem nil_counted : 0 = ([] : List Nat).length := rfl

structure Header where
  sn : Nat
  objs : List Nat
  gcnum : Nat
  counted : gcnum = objs.length

structure ObjPool where
  gclists : List Header := []
  freelist : List Nat := []
  freenum : Nat := 0
  counted : freenum = freelist.length := by first | exact nil_counted | rfl

namespace Header

theorem singleton_counted (obj : Nat) : 1 = [obj].length := rfl

def single (sn obj : Nat) : Header := ⟨sn, [obj], 1, singleton_counted obj⟩

def push (header : Header) (obj : Nat) : Header :=
  ⟨header.sn, obj :: header.objs, header.gcnum + 1, by simp [header.counted]⟩

end Header

namespace ObjPool

def addToLists (obj sn : Nat) : List Header → List Header
  | [] => [Header.single sn obj]
  | [cur] => if cur.sn = sn then [cur.push obj] else [cur, Header.single sn obj]
  | first :: second :: rest => first :: addToLists obj sn (second :: rest)

def addGCObj (pool : ObjPool) (obj sn : Nat) : ObjPool :=
  { pool with gclists := addToLists obj sn pool.gclists }

def gcList (pool : ObjPool) (list : Header) : ObjPool :=
  { gclists := pool.gclists
    freelist := list.objs ++ pool.freelist
    freenum := pool.freenum + list.gcnum
    counted := by simp [pool.counted, list.counted, Nat.add_comm] }

def gc (pool : ObjPool) : ObjPool :=
  { pool.gclists.foldl gcList pool with gclists := [] }

def getFreeObj (pool : ObjPool) : Option (Nat × ObjPool) :=
  match h : pool.freelist with
  | [] => none
  | obj :: rest =>
    some (obj, { gclists := pool.gclists, freelist := rest, freenum := pool.freenum - 1,
                 counted := by simp [pool.counted, h] })

def retired (pool : ObjPool) : List Nat := pool.gclists.flatMap Header.objs

theorem addToLists_perm (obj sn : Nat) (lists : List Header) :
    ((addToLists obj sn lists).flatMap Header.objs).Perm (obj :: lists.flatMap Header.objs) := by
  induction lists with
  | nil => simp [addToLists, Header.single]
  | cons first rest ih =>
    cases rest with
    | nil =>
      by_cases same : first.sn = sn
      · simp [addToLists, same, Header.push]
      · simp [addToLists, same, Header.single, List.perm_append_singleton]
    | cons second rest =>
      simp only [addToLists, List.flatMap_cons] at ih ⊢
      exact (List.Perm.append_left first.objs ih).trans List.perm_middle

theorem retired_addGCObj (pool : ObjPool) (obj sn : Nat) :
    (pool.addGCObj obj sn).retired.Perm (obj :: pool.retired) :=
  addToLists_perm obj sn pool.gclists

@[simp] theorem freelist_addGCObj (pool : ObjPool) (obj sn : Nat) :
    (pool.addGCObj obj sn).freelist = pool.freelist := rfl

@[simp] theorem retired_gc (pool : ObjPool) : pool.gc.retired = [] := rfl

theorem freelist_gc_perm (pool : ObjPool) :
    pool.gc.freelist.Perm (pool.retired ++ pool.freelist) := by
  have moved : ∀ (lists : List Header) (acc : ObjPool),
      (lists.foldl gcList acc).freelist.Perm (lists.flatMap Header.objs ++ acc.freelist) := by
    intro lists
    induction lists with
    | nil => intro acc; exact List.Perm.refl _
    | cons first rest ih =>
      intro acc
      refine (ih (gcList acc first)).trans ?_
      simp only [gcList, List.flatMap_cons, List.append_assoc]
      rw [← List.append_assoc, ← List.append_assoc]
      exact List.Perm.append_right _ List.perm_append_comm
  exact moved pool.gclists pool

theorem getFreeObj_some {pool rest : ObjPool} {obj : Nat}
    (taken : pool.getFreeObj = some (obj, rest)) :
    pool.freelist = obj :: rest.freelist ∧ rest.gclists = pool.gclists := by
  unfold getFreeObj at taken
  split at taken
  · cases taken
  · rename_i first tail shape
    cases taken
    exact ⟨shape, rfl⟩

theorem getFreeObj_none {pool : ObjPool} (empty : pool.getFreeObj = none) :
    pool.freelist = [] := by
  unfold getFreeObj at empty
  split at empty
  · assumption
  · cases empty

end ObjPool

end EunoDb.Memstore
