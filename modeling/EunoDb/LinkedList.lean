import Mathlib.Data.List.Nodup
import Mathlib.Logic.Function.Basic

/-! Null-terminated singly linked lists. -/

namespace EunoDb.LinkedList

variable {N : Type} {next after : N → Option N} {head second : Option N} {nodes others : List N}

inductive Linked (next : N → Option N) : Option N → List N → Prop where
  | nil : Linked next none []
  | cons {node : N} {rest : List N} (tail : Linked next (next node) rest) :
      Linked next (some node) (node :: rest)

theorem Linked.unique (linked : Linked next head nodes) (again : Linked next head others) :
    nodes = others := by
  induction linked generalizing others with
  | nil =>
    cases again
    rfl
  | cons tail ih =>
    cases again with
    | cons rest => rw [ih rest]

theorem Linked.eq_nil (linked : Linked next none nodes) : nodes = [] :=
  linked.unique .nil

theorem Linked.head_eq (linked : Linked next head nodes) : head = nodes.head? := by
  cases linked with
  | nil | cons tail => rfl

theorem Linked.tail {node : N} (linked : Linked next head (node :: nodes)) :
    Linked next (next node) nodes := by
  cases linked with
  | cons rest => exact rest

section

variable (linked : Linked next head nodes)

include linked

theorem Linked.suffix {node : N} (mem : node ∈ nodes) :
    ∃ before rest, nodes = before ++ node :: rest ∧ Linked next (some node) (node :: rest) := by
  induction linked with
  | nil => cases mem
  | @cons first rest tail ih =>
    rcases List.mem_cons.mp mem with rfl | later
    · exact ⟨[], rest, rfl, .cons tail⟩
    · obtain ⟨before, last, shape, linked⟩ := ih later
      exact ⟨first :: before, last, by rw [shape, List.cons_append], linked⟩

theorem Linked.nodup : nodes.Nodup := by
  induction linked with
  | nil => exact List.nodup_nil
  | @cons node rest tail ih =>
    refine List.nodup_cons.mpr ⟨?_, ih⟩
    intro mem
    obtain ⟨before, last, shape, again⟩ := tail.suffix mem
    have same := congrArg List.length (again.unique (.cons tail))
    rw [shape] at same
    simp only [List.length_cons, List.length_append] at same
    omega

theorem Linked.congr (same : ∀ node ∈ nodes, after node = next node) : Linked after head nodes := by
  induction linked with
  | nil => exact .nil
  | cons tail ih =>
    refine .cons ?_
    rw [same _ List.mem_cons_self]
    exact ih fun node mem => same node (List.mem_cons_of_mem _ mem)

theorem Linked.push {node : N} (front : after node = head)
    (same : ∀ other ∈ nodes, after other = next other) :
    Linked after (some node) (node :: nodes) :=
  .cons (front ▸ linked.congr same)

end

theorem Linked.insertAfter {node new : N} {before rest : List N}
    (linked : Linked next head (before ++ node :: rest)) (fresh : new ∉ before ++ node :: rest)
    (behind : after new = next node) (link : after node = some new)
    (same : ∀ other ∈ before ++ node :: rest, other ≠ node → after other = next other) :
    Linked after head (before ++ node :: new :: rest) := by
  induction before generalizing head with
  | nil =>
    have once := (List.nodup_cons.mp linked.nodup).1
    cases linked with
    | cons tail =>
      refine .cons ?_
      rw [link]
      refine (behind ▸ tail).congr ?_ |> .cons
      intro other mem
      exact same other (List.mem_cons_of_mem node mem) fun isNode => once (isNode ▸ mem)
  | cons first before ih =>
    have once := (List.nodup_cons.mp linked.nodup).1
    cases linked with
    | cons tail =>
      have different : first ≠ node := by
        rintro rfl
        exact once (List.mem_append_right _ List.mem_cons_self)
      refine .cons ?_
      rw [same first List.mem_cons_self different]
      exact ih tail (fun mem => fresh (List.mem_cons_of_mem first mem))
        fun other mem => same other (List.mem_cons_of_mem first mem)

theorem Linked.splice {tail : N} (linked : Linked next head nodes)
    (last : nodes.getLast? = some tail) (joined : after tail = second)
    (same : ∀ node ∈ nodes, node ≠ tail → after node = next node)
    (behind : Linked after second others) : Linked after head (nodes ++ others) := by
  induction linked with
  | nil => cases last
  | @cons node rest links ih =>
    have fresh := (List.nodup_cons.mp (Linked.cons links).nodup).1
    refine .cons ?_
    cases rest with
    | nil =>
      have only : node = tail := by simpa using last
      rw [only, joined]
      exact behind
    | cons middle rest =>
      rw [List.getLast?_cons_cons] at last
      have different : node ≠ tail := by
        rintro rfl
        exact fresh (List.mem_of_getLast? last)
      rw [same node List.mem_cons_self different]
      exact ih last fun other mem => same other (List.mem_cons_of_mem node mem)

end EunoDb.LinkedList
