import EunoDb.Execution
import EunoDb.HashTable
import EunoDb.TXMemStore

/-! `DBTransaction` over a `HashTable` and a `TXMemStore`. Each access to them is one step; so is
`Validation`, a transactional section. Runs are those in which no sequence number reaches `2 ^ 64`
and no read or write set outgrows its array, which is doubled up to `2 ^ 30` entries. -/

namespace EunoDb.DBTransaction

open HashTable (NodeId)

abbrev ThreadId := Nat

inductive ValueType where
  | deletion
  | value
  deriving DecidableEq, Repr

inductive Status where
  | ok
  | notFound
  deriving DecidableEq, Repr

structure Found (Val : Type) where
  returned : Bool
  status : Status
  value : Option Val
  deriving DecidableEq, Repr

structure RSSeqPair where
  oldseq : Nat
  seq : Option NodeId
  hash : UInt64
  deriving DecidableEq, Repr

structure WSEntry (Key Val : Type) where
  type : ValueType
  key : Key
  val : Val
  wseq : Nat := 0
  seqptr : NodeId
  deriving DecidableEq, Repr

inductive Event (Key Val : Type) where
  | get (key : Key) (found : Found Val)
  | add (type : ValueType) (key : Key) (val : Val)
  deriving DecidableEq, Repr

inductive Pc (Key : Type) where
  | idle
  | body
  | getNode (key : Key)
  | getSeq (key : Key) (node : HashTable.Node Key)
  | getStore (key : Key) (node : HashTable.Node Key) (seq : Nat)
  | commit (i : Nat)
  deriving DecidableEq, Repr

structure Thread (Key Val : Type) where
  pc : Pc Key := .idle
  readset : List RSSeqPair := []
  writeset : List (WSEntry Key Val) := []
  -- history: what the transaction did, and the nodes it found empty
  events : List (Event Key Val) := []
  empty : List NodeId := []

structure Commit (Key Val : Type) where
  thread : ThreadId
  events : List (Event Key Val)
  writes : List (WSEntry Key Val)

structure State (Val : Type) {Key : Type} [LinearOrder Key] (hashfunc : Key → UInt64) where
  latestseq : HashTable hashfunc := {}
  txdb : TXMemStore Key Val := {}
  threads : ThreadId → Thread Key Val := fun _ => {}
  -- history
  log : List (Commit Key Val) := []

section Sets

variable {Key Val : Type} [LinearOrder Key] {hashfunc : Key → UInt64}

def lookup (writeset : List (WSEntry Key Val)) (key : Key) : Option (WSEntry Key Val) :=
  writeset.find? fun entry => entry.key = key

def updateGlobalSeqs (seq : NodeId → Nat) :
    List (WSEntry Key Val) → (NodeId → Nat) × List (WSEntry Key Val)
  | [] => (seq, [])
  | entry :: rest =>
    let wseq := seq entry.seqptr + 1
    let done := updateGlobalSeqs (Function.update seq entry.seqptr wseq) rest
    (done.1, { entry with wseq := wseq } :: done.2)

def validPair (ht : HashTable hashfunc) (pair : RSSeqPair) : Bool :=
  match pair.seq with
  | some id => pair.oldseq = ht.seq id
  | none => pair.oldseq = (ht.getMaxWithHash pair.hash).getD 0

def validate (ht : HashTable hashfunc) (readset : List RSSeqPair) : Bool :=
  readset.all (validPair ht)

def ownWrite (entry : WSEntry Key Val) : Found Val :=
  match entry.type with
  | .value => ⟨true, .ok, some entry.val⟩
  | .deletion => ⟨true, .notFound, some entry.val⟩

def missing : Found Val := ⟨false, .notFound, none⟩

end Sets

section Steps

variable {Key Val : Type} [LinearOrder Key] {hashfunc : Key → UInt64}

def State.setThread (s : State Val hashfunc) (t : ThreadId) (th : Thread Key Val) :
    State Val hashfunc :=
  { s with threads := Function.update s.threads t th }

def finishGet (th : Thread Key Val) (key : Key) (found : Found Val) : Thread Key Val :=
  { th with pc := .body, events := th.events ++ [.get key found] }

inductive Op (Key Val : Type) where
  | begin
  | get (key : Key)
  | add (type : ValueType) (key : Key) (val : Val)
  | finish
  deriving DecidableEq, Repr

inductive Act (Key Val : Type) where
  | call (op : Op Key Val)
  | tick
  deriving DecidableEq, Repr

def add (s : State Val hashfunc) (t : ThreadId) (type : ValueType) (key : Key) (val : Val) :
    State Val hashfunc :=
  let th := s.threads t
  let found := s.latestseq.getNodeWithInsert key
  { s.setThread t { th with
      writeset := th.writeset ++ [⟨type, key, val, 0, found.2.id⟩]
      events := th.events ++ [.add type key val] } with
    latestseq := found.1 }

def validated (s : State Val hashfunc) (t : ThreadId) : State Val hashfunc :=
  let th := s.threads t
  let done := updateGlobalSeqs s.latestseq.seq th.writeset
  { s.setThread t { th with pc := .commit 0, writeset := done.2 } with
    latestseq := s.latestseq.setSeq done.1
    log := s.log ++ [⟨t, th.events, done.2⟩] }

def validation (s : State Val hashfunc) (t : ThreadId) : State Val hashfunc :=
  if validate s.latestseq (s.threads t).readset then validated s t
  else s.setThread t { s.threads t with pc := .idle }

def call (s : State Val hashfunc) (t : ThreadId) : Op Key Val → Option (State Val hashfunc)
  | .begin =>
    match (s.threads t).pc with
    | .idle | .body => some (s.setThread t { pc := .body })
    | _ => none
  | .get key =>
    match (s.threads t).pc with
    | .body =>
      match lookup (s.threads t).writeset key with
      | some entry => some (s.setThread t (finishGet (s.threads t) key (ownWrite entry)))
      | none => some (s.setThread t { s.threads t with pc := .getNode key })
    | _ => none
  | .add type key val =>
    match (s.threads t).pc with
    | .body => some (add s t type key val)
    | _ => none
  | .finish =>
    match (s.threads t).pc with
    | .body => some (validation s t)
    | _ => none

def tick (s : State Val hashfunc) (t : ThreadId) : Option (State Val hashfunc) :=
  let th := s.threads t
  match th.pc with
  | .idle | .body => none
  | .getNode key =>
    match s.latestseq.getNode key with
    | none =>
      some (s.setThread t (finishGet
        { th with readset := th.readset ++ [⟨0, none, hashfunc key⟩] } key missing))
    | some node => some (s.setThread t { th with pc := .getSeq key node })
  | .getSeq key node =>
    let seq := s.latestseq.seq node.id
    if seq = 0 then
      some (s.setThread t (finishGet { th with empty := th.empty ++ [node.id] } key missing))
    else some (s.setThread t { th with pc := .getStore key node seq })
  | .getStore key node seq =>
    match s.txdb.get key seq with
    | none => some s
    | some val =>
      some (s.setThread t (finishGet
        { th with readset := th.readset ++ [⟨seq, some node.id, node.hash⟩] } key
        ⟨true, .ok, some val⟩))
  | .commit i =>
    match th.writeset[i]? with
    | some entry =>
      some { s.setThread t { th with pc := .commit (i + 1) } with
        txdb := s.txdb.put entry.key entry.val entry.wseq }
    | none => some (s.setThread t { th with pc := .idle, readset := [], writeset := [] })

def step (s : State Val hashfunc) : ThreadId × Act Key Val → Option (State Val hashfunc)
  | (t, .call op) => call s t op
  | (t, .tick) => tick s t

/-! ### What a step can do -/

inductive Step (s : State Val hashfunc) (t : ThreadId) : Act Key Val → State Val hashfunc → Prop where
  | begin (pc : (s.threads t).pc = .idle ∨ (s.threads t).pc = .body) :
      Step s t (.call .begin) (s.setThread t { pc := .body })
  | own {key : Key} {entry : WSEntry Key Val} (pc : (s.threads t).pc = .body)
      (found : lookup (s.threads t).writeset key = some entry) :
      Step s t (.call (.get key)) (s.setThread t (finishGet (s.threads t) key (ownWrite entry)))
  | look {key : Key} (pc : (s.threads t).pc = .body)
      (unwritten : lookup (s.threads t).writeset key = none) :
      Step s t (.call (.get key)) (s.setThread t { s.threads t with pc := .getNode key })
  | add {type : ValueType} {key : Key} {val : Val} (pc : (s.threads t).pc = .body) :
      Step s t (.call (.add type key val)) (add s t type key val)
  | commit (pc : (s.threads t).pc = .body)
      (valid : validate s.latestseq (s.threads t).readset = true) :
      Step s t (.call .finish) (validated s t)
  | abort (pc : (s.threads t).pc = .body)
      (invalid : validate s.latestseq (s.threads t).readset = false) :
      Step s t (.call .finish) (s.setThread t { s.threads t with pc := .idle })
  | absent {key : Key} (pc : (s.threads t).pc = .getNode key)
      (none_ : s.latestseq.getNode key = none) :
      Step s t .tick (s.setThread t (finishGet
        { s.threads t with readset := (s.threads t).readset ++ [⟨0, none, hashfunc key⟩] }
        key missing))
  | node {key : Key} {node : HashTable.Node Key} (pc : (s.threads t).pc = .getNode key)
      (found : s.latestseq.getNode key = some node) :
      Step s t .tick (s.setThread t { s.threads t with pc := .getSeq key node })
  | empty {key : Key} {node : HashTable.Node Key} (pc : (s.threads t).pc = .getSeq key node)
      (zero : s.latestseq.seq node.id = 0) :
      Step s t .tick (s.setThread t (finishGet
        { s.threads t with empty := (s.threads t).empty ++ [node.id] } key missing))
  | seq {key : Key} {node : HashTable.Node Key} (pc : (s.threads t).pc = .getSeq key node)
      (some_ : s.latestseq.seq node.id ≠ 0) :
      Step s t .tick (s.setThread t
        { s.threads t with pc := .getStore key node (s.latestseq.seq node.id) })
  | retry {key : Key} {node : HashTable.Node Key} {seq : Nat}
      (pc : (s.threads t).pc = .getStore key node seq) (none_ : s.txdb.get key seq = none) :
      Step s t .tick s
  | found {key : Key} {node : HashTable.Node Key} {seq : Nat} {val : Val}
      (pc : (s.threads t).pc = .getStore key node seq) (version : s.txdb.get key seq = some val) :
      Step s t .tick (s.setThread t (finishGet
        { s.threads t with readset := (s.threads t).readset ++ [⟨seq, some node.id, node.hash⟩] }
        key ⟨true, .ok, some val⟩))
  | put {i : Nat} {entry : WSEntry Key Val} (pc : (s.threads t).pc = .commit i)
      (more : (s.threads t).writeset[i]? = some entry) :
      Step s t .tick
        { s.setThread t { s.threads t with pc := .commit (i + 1) } with
          txdb := s.txdb.put entry.key entry.val entry.wseq }
  | done {i : Nat} (pc : (s.threads t).pc = .commit i)
      (last : (s.threads t).writeset[i]? = none) :
      Step s t .tick (s.setThread t
        { s.threads t with pc := .idle, readset := [], writeset := [] })

variable {s next : State Val hashfunc} {t u : ThreadId} {act : Act Key Val}

theorem call_cases {op : Op Key Val} (taken : call s t op = some next) :
    Step s t (.call op) next := by
  cases op with
  | begin =>
    simp only [call] at taken
    split at taken
    · cases taken
      exact .begin (Or.inl ‹_›)
    · cases taken
      exact .begin (Or.inr ‹_›)
    · cases taken
  | get key =>
    simp only [call] at taken
    split at taken
    · split at taken
      · cases taken
        exact .own ‹_› ‹_›
      · cases taken
        exact .look ‹_› ‹_›
    · cases taken
  | add type key val =>
    simp only [call] at taken
    split at taken
    · cases taken
      exact .add ‹_›
    · cases taken
  | finish =>
    simp only [call] at taken
    split at taken
    · rename_i pc
      cases taken
      unfold validation
      split
      · exact .commit pc ‹_›
      · exact .abort pc (Bool.not_eq_true _ ▸ ‹_›)
    · cases taken

theorem tick_cases (taken : tick s t = some next) : Step s t .tick next := by
  unfold tick at taken
  cases pc : (s.threads t).pc with
  | idle | body => simp [pc] at taken
  | getNode key =>
    simp only [pc] at taken
    split at taken
    · cases taken
      exact .absent pc ‹_›
    · cases taken
      exact .node pc ‹_›
  | getSeq key node =>
    simp only [pc] at taken
    split at taken
    · cases taken
      exact .empty pc ‹_›
    · cases taken
      exact .seq pc ‹_›
  | getStore key node seq =>
    simp only [pc] at taken
    split at taken
    · cases taken
      exact .retry pc ‹_›
    · cases taken
      exact .found pc ‹_›
  | commit i =>
    simp only [pc] at taken
    split at taken
    · cases taken
      exact .put pc ‹_›
    · cases taken
      exact .done pc ‹_›

theorem step_cases (taken : step s (t, act) = some next) : Step s t act next := by
  cases act with
  | call op => exact call_cases taken
  | tick => exact tick_cases taken

theorem step_other (taken : step s (t, act) = some next) (other : u ≠ t) :
    next.threads u = s.threads u := by
  have same : ∀ th, (s.setThread t th).threads u = s.threads u :=
    fun th => Function.update_of_ne other ..
  cases step_cases taken with
  | retry pc none_ => rfl
  | _ => exact same _

theorem run_other {final : State Val hashfunc} {acts : List (ThreadId × Act Key Val)}
    (idle : ∀ act ∈ acts, act.1 ≠ u) (reached : Execution.run step s acts = some final) :
    final.threads u = s.threads u := by
  induction acts generalizing s with
  | nil =>
    cases reached
    rfl
  | cons act rest ih =>
    obtain ⟨next, taken, later⟩ := (Execution.run_cons ..).mp reached
    rw [ih (fun other mem => idle other (List.mem_cons_of_mem act mem)) later]
    exact step_other taken (idle act List.mem_cons_self).symm

end Steps

end EunoDb.DBTransaction
