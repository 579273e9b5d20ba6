import EunoDb.Epoch
import EunoDb.Tombstones

/-! `RMQueue`, beside `RMPool`. Its marks are the pointers 1 and 2, so a record is seen with the
pointer itself. The queue is the list from `head` to `tail`. -/

namespace EunoDb.RMQueue

open Memstore Machine Function
open Epoch (Counters compare)

structure Store where
  value : NodeId → UInt64
  seq : NodeId → Nat
  table : TableId → Key → Option NodeId

def word (address : Ptr → UInt64) : Value → UInt64
  | .logicalDelete => 0
  | .haveRemoved => -1
  | .pointer object => address object

def view (address : Ptr → UInt64) (s : State) : Store where
  value := fun node => word address (s.heap node).value
  seq := fun node => (s.heap node).seq
  table := s.table

def removeElement (store : Store) (mn : RMObj) : Option Store :=
  if store.value mn.node = 1 ∧ store.seq mn.node = mn.seq then
    (store.table mn.tableid mn.key).map fun n =>
      { value := update store.value mn.node 2
        seq := update store.seq n (store.seq n + 1)
        table := update store.table mn.tableid
          (update (store.table mn.tableid) mn.key none) }
  else some store

structure RMArray (n : Nat) where
  epoch : Counters n
  rmarray : List RMObj

def remove {n : Nat} (current : Counters n) :
    List (RMArray n) → Store → Option (List (RMArray n) × Store)
  | [], store => some ([], store)
  | array :: rest, store => do
    if (← compare array.epoch current) < 0 then
      remove current rest (← array.rmarray.foldlM removeElement store)
    else some (array :: rest, store)

variable (address : Ptr → UInt64) (s : State) (obj : RMObj)

theorem remove_single {n : Nat} {epoch current : Counters n}
    (passed : compare epoch current = some (-1)) (store : Store) :
    remove current [⟨epoch, [obj]⟩] store = (removeElement store obj).map ([], ·) := by
  rw [remove, passed]
  cases removed : removeElement store obj <;> simp [removed, remove]

theorem stale_stays (stale : (s.heap obj.node).seq ≠ obj.seq) :
    Machine.remove s obj = some s ∧
      removeElement (view address s) obj = some (view address s) :=
  ⟨if_neg stale, if_neg fun both => stale both.2⟩

theorem pool_removes {after : State} (current : (s.heap obj.node).seq = obj.seq)
    (removed : Machine.remove s obj = some after) :
    (view address after).value obj.node = -1 ∧
      ∃ n, (view address after).seq n = (view address s).seq n + 1 := by
  rw [Machine.remove, if_pos current, Option.map_eq_some_iff] at removed
  obtain ⟨⟨n, middle⟩, found, rfl⟩ := removed
  obtain ⟨_, _, same⟩ := Option.map_eq_some_iff.mp found
  cases same
  by_cases own : n = obj.node
  · subst own
    exact ⟨by simp [view, word], obj.node, by simp [view]⟩
  · exact ⟨by simp [view, word, Ne.symm own], n, by simp [view, own]⟩

theorem queue_removes {after : Store} (removed : removeElement (view address s) obj = some after) :
    after.value obj.node = 2 ∨ after = view address s := by
  unfold removeElement at removed
  split at removed
  · obtain ⟨n, _, rfl⟩ := Option.map_eq_some_iff.mp removed
    exact Or.inl (update_self ..)
  · exact Or.inr (Option.some.inj removed).symm

/-- The two engines leave the same record and table if and only if the record's number is not
the recorded one any more, that is if there is nothing to remove. -/
theorem engines_agree {n : Nat} {epoch current : Counters n}
    (passed : compare epoch current = some (-1)) :
    (∃ after, (Machine.remove s obj).map (view address) = some after ∧
      remove current [⟨epoch, [obj]⟩] (view address s) = some ([], after)) ↔
        (s.heap obj.node).seq ≠ obj.seq := by
  rw [remove_single obj passed]
  constructor
  · rintro ⟨_, pool, queue⟩ current
    obtain ⟨after, removed, rfl⟩ := Option.map_eq_some_iff.mp pool
    obtain ⟨_, removed', same⟩ := Option.map_eq_some_iff.mp queue
    cases same
    obtain ⟨marked, n, raised⟩ := pool_removes address s obj current removed
    rcases queue_removes address s obj removed' with other | unchanged
    · rw [marked] at other
      exact absurd other (by decide)
    · rw [unchanged] at raised
      exact Nat.succ_ne_self _ raised.symm
  · intro stale
    obtain ⟨pool, queue⟩ := stale_stays address s obj stale
    exact ⟨view address s, by rw [pool, Option.map_some], by rw [queue, Option.map_some]⟩

def aligned : Ptr → UInt64 := fun object => 8 * object.toUInt64

def rewritten : List (ThreadId × Act) :=
  writeKey (.given 10) false ++ writeKey .deleted true ++ writeKey (.given 11) true

theorem engines_agree_rewritten : ∃ final,
    Execution.run (step ⟨1, 1, 100000, 100⟩) (loaded []) rewritten = some final ∧
      ⟨0, 7, 0, 2⟩ ∈ pendingRequests (final.threads 0) ∧
      ∃ after, (Machine.remove final ⟨0, 7, 0, 2⟩).map (view aligned) = some after ∧
        remove (fun _ : Fin 1 => 1) [⟨fun _ => 0, [⟨0, 7, 0, 2⟩]⟩] (view aligned final) =
          some ([], after) :=
  ⟨_, rfl, by decide +kernel,
    (engines_agree aligned _ ⟨0, 7, 0, 2⟩ (by decide)).mpr (show (3 : Nat) ≠ 2 by decide)⟩

theorem tombstone_left : ∃ final removed,
    Execution.run (step ⟨1, 1, 100000, 100⟩) (loaded [])
        (writeKey (.given 10) false ++ writeKey .deleted true) = some final ∧
      ⟨0, 7, 0, 2⟩ ∈ pendingRequests (final.threads 0) ∧
      (final.heap 0).value = .logicalDelete ∧ (final.heap 0).seq = 2 ∧
      Machine.remove final ⟨0, 7, 0, 2⟩ = some removed ∧ removed.table 0 7 = none ∧
      remove (fun _ : Fin 1 => 1) [⟨fun _ => 0, [⟨0, 7, 0, 2⟩]⟩] (view aligned final) =
        some ([], view aligned final) ∧ final.table 0 7 = some 0 :=
  ⟨_, _, rfl, by decide +kernel, rfl, rfl, rfl, rfl, rfl, rfl⟩

end EunoDb.RMQueue
