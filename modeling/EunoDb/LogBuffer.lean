import EunoDb.Execution
import Mathlib.Data.List.Basic
import Mathlib.Logic.Function.Basic
import Mathlib.Algebra.GroupWithZero.Nat

/-! The log of `persistent/`. Worker `t` publishes to `tbufs[t % 2]`. A section under `frozenlock`
or `freelock` is one step; the rest of `Writer` goes buffer by buffer. A record is one unit with
its size. Writing past the end of a buffer has no successor. -/

namespace EunoDb.LogBuffer

abbrev BufId := Nat
abbrev ThreadId := Nat
abbrev TBufId := Nat

def bsize : Nat := 128 * 1024 * 1024

def iovMax : Nat := 1024

def uvint64Size : Nat → Nat → Nat
  | 0, _ => 1
  | fuel + 1, value => if 0x7F < value then 1 + uvint64Size fuel (value / 128) else 1

structure Record where
  tabid : Nat
  key : UInt64
  seqno : UInt64
  value : Option UInt64
  vlen : Nat
  deriving DecidableEq, Repr

def Record.seqSize (record : Record) : Nat := uvint64Size 9 record.seqno.toNat

def Record.size (record : Record) : Nat :=
  8 + record.seqSize + (if record.value.isNone then 8 else record.vlen)

def Record.estimate (record : Record) : Nat := 4 + 8 + 8 + record.vlen

structure Entry where
  tx : Nat
  record : Record
  deriving DecidableEq, Repr

structure LocalPBuf where
  sn : Nat := 0
  buf : List Entry := []
  cur : Nat := 0
  next : Option BufId := none
  -- history: the number of the publication that has not been given back yet
  number : Option Nat := none
  counted : cur = (buf.map fun entry => entry.record.size).sum := by rfl

namespace LocalPBuf

def emptySlotNum (lbuf : LocalPBuf) : Int := (bsize : Int) - lbuf.cur

def setSN (lbuf : LocalPBuf) (sn : Nat) : LocalPBuf := { lbuf with sn := sn }

def setNext (lbuf : LocalPBuf) (next : Option BufId) : LocalPBuf := { lbuf with next := next }

def putRecord (lbuf : LocalPBuf) (entry : Entry) : Option LocalPBuf :=
  if entry.record.seqSize ≤ 8 ∧ lbuf.cur + entry.record.size ≤ bsize then
    some { lbuf with
      buf := lbuf.buf ++ [entry]
      cur := lbuf.cur + entry.record.size
      counted := by simp [lbuf.counted] }
  else none

end LocalPBuf

structure Iovec where
  base : BufId
  len : Nat
  deriving DecidableEq, Repr

structure Chunk where
  number : Option Nat
  entries : List Entry
  deriving DecidableEq, Repr

inductive WriterPc where
  | idle
  | chain (i : Nat)
  | walk (i : Nat) (cur : BufId)
  | giveBack
  | publishSN
  deriving DecidableEq, Repr

structure TBuf where
  frozenbufs : ThreadId → Option BufId := fun _ => none
  frozennum : Nat := 0
  freebufs : Option BufId := none
  flushbufs : ThreadId → Option BufId := fun _ => none
  localsn : ThreadId → Nat := fun _ => 0
  safeSN : Nat := 0
  log : List Chunk := []
  -- the local variables of `Writer`
  pc : WriterPc := .idle
  lsbufs : Option BufId := none
  tail : Option BufId := none
  iovs : List Iovec := []

abbrev Pending := Option (Nat × List Entry)

inductive WorkerPc where
  | running (rest : List Entry)
  | publish (after : Pending)
  | getFree (tbuf : TBufId) (after : Pending)
  | reset (lbuf : BufId) (after : Pending)
  | alloc (after : Pending)
  | setSN (sn : Nat) (entries : List Entry)
  deriving DecidableEq, Repr

structure Worker where
  pc : WorkerPc := .running []
  lbuf : BufId

structure Transaction where
  thread : ThreadId
  sn : Nat
  entries : List Entry
  deriving DecidableEq, Repr

structure Publication where
  lbuf : BufId
  thread : ThreadId
  entries : List Entry
  deriving DecidableEq, Repr

structure State where
  heap : BufId → LocalPBuf
  nextBuf : BufId
  workers : ThreadId → Worker
  tbufs : TBufId → TBuf := fun _ => {}
  safeSN : Nat := 0
  reading : Option Nat := none
  -- history: no step below reads these
  transactions : List Transaction := []
  publications : List Publication := []
  results : List Nat := []

def created (thrs : Nat) : State where
  heap := fun _ => {}
  nextBuf := thrs
  workers := fun t => { lbuf := t }

def State.setWorker (s : State) (t : ThreadId) (worker : Worker) : State :=
  { s with workers := Function.update s.workers t worker }

def State.setTBuf (s : State) (b : TBufId) (tbuf : TBuf) : State :=
  { s with tbufs := Function.update s.tbufs b tbuf }

def State.setBuf (s : State) (id : BufId) (lbuf : LocalPBuf) : State :=
  { s with heap := Function.update s.heap id lbuf }

/-! ### Workers -/

def writeUpdateRecords (s : State) (t : ThreadId) (sn : Nat) (records : List Record) : State :=
  if records = [] then s
  else
    let worker := s.workers t
    let entries := records.map fun record => ⟨s.transactions.length, record⟩
    let recnum := (records.map Record.estimate).sum
    let pc :=
      if (s.heap worker.lbuf).emptySlotNum < recnum ∨ (s.heap worker.lbuf).sn ≠ sn then
        WorkerPc.publish (some (sn, entries))
      else .running entries
    { s.setWorker t { worker with pc := pc } with
      transactions := s.transactions ++ [⟨t, sn, entries⟩] }

def publishLocalBuffer (s : State) (t : ThreadId) (after : Pending) : State :=
  let worker := s.workers t
  let tbuf := s.tbufs (t % 2)
  let lbuf := s.heap worker.lbuf
  { ((s.setBuf worker.lbuf { lbuf.setNext (tbuf.frozenbufs t) with
        number := some s.publications.length }).setTBuf (t % 2)
      { tbuf with
        frozenbufs := Function.update tbuf.frozenbufs t (some worker.lbuf)
        frozennum := tbuf.frozennum + 1 }).setWorker t { worker with pc := .getFree 0 after } with
    publications := s.publications ++ [⟨worker.lbuf, t, lbuf.buf⟩] }

def getFreeBuf (s : State) (t : ThreadId) (b : TBufId) (after : Pending) : State :=
  let worker := s.workers t
  match (s.tbufs b).freebufs with
  | some id =>
    (s.setTBuf b { s.tbufs b with freebufs := (s.heap id).next }).setWorker t
      { worker with pc := .reset id after }
  | none =>
    s.setWorker t { worker with pc := if b = 0 then .getFree 1 after else .alloc after }

def resume : Pending → WorkerPc
  | none => .running []
  | some (sn, entries) => .setSN sn entries

def workerStep (s : State) (t : ThreadId) : Option State :=
  let worker := s.workers t
  match worker.pc with
  | .running [] => none
  | .running (entry :: rest) =>
    ((s.heap worker.lbuf).putRecord entry).map fun lbuf =>
      (s.setBuf worker.lbuf lbuf).setWorker t { worker with pc := .running rest }
  | .publish after => some (publishLocalBuffer s t after)
  | .getFree b after => some (getFreeBuf s t b after)
  | .reset id after =>
    some ((s.setBuf id {}).setWorker t { pc := resume after, lbuf := id })
  | .alloc after =>
    some { (s.setBuf s.nextBuf {}).setWorker t { pc := resume after, lbuf := s.nextBuf } with
      nextBuf := s.nextBuf + 1 }
  | .setSN sn entries =>
    some ((s.setBuf worker.lbuf ((s.heap worker.lbuf).setSN sn)).setWorker t
      { worker with pc := .running entries })

/-! ### Writers -/

def detach (thrs : Nat) (heap : BufId → LocalPBuf) (tbuf : TBuf) : TBuf :=
  { tbuf with
    flushbufs := fun i => if i < thrs then (tbuf.frozenbufs i).or (tbuf.flushbufs i)
      else tbuf.flushbufs i
    localsn := fun i =>
      match tbuf.frozenbufs i with
      | some id => if i < thrs then (heap id).sn else tbuf.localsn i
      | none => tbuf.localsn i
    frozenbufs := fun i => if i < thrs then none else tbuf.frozenbufs i
    frozennum := 0
    pc := .chain 0
    lsbufs := none
    tail := none
    iovs := [] }

def chunk (heap : BufId → LocalPBuf) (iov : Iovec) : Chunk :=
  ⟨(heap iov.base).number, (heap iov.base).buf.take iov.len⟩

def writev (heap : BufId → LocalPBuf) (tbuf : TBuf) : TBuf :=
  { tbuf with log := tbuf.log ++ tbuf.iovs.map (chunk heap), iovs := [] }

def collect (heap : BufId → LocalPBuf) (tbuf : TBuf) (cur : BufId) : TBuf :=
  if 0 < (heap cur).cur then
    let tbuf := { tbuf with iovs := tbuf.iovs ++ [⟨cur, (heap cur).buf.length⟩] }
    if tbuf.iovs.length = iovMax then writev heap tbuf else tbuf
  else tbuf

def minSN (thrs : Nat) (localsn : ThreadId → Nat) : Nat :=
  (List.range thrs).foldl (fun minsn i =>
    if localsn i = 0 then minsn
    else if minsn = 0 ∨ localsn i < minsn then localsn i else minsn) 0

def writerStep (thrs : Nat) (s : State) (b : TBufId) : Option State :=
  let tbuf := s.tbufs b
  match tbuf.pc with
  | .idle => some (s.setTBuf b (detach thrs s.heap tbuf))
  | .chain i =>
    if i < thrs then
      match tbuf.flushbufs i with
      | none => some (s.setTBuf b { tbuf with pc := .chain (i + 1) })
      | some cur =>
        let linked := match tbuf.tail with
          | some last => s.setBuf last ((s.heap last).setNext (some cur))
          | none => s
        some (linked.setTBuf b
          { tbuf with
            flushbufs := Function.update tbuf.flushbufs i none
            lsbufs := tbuf.lsbufs.or (some cur)
            tail := some cur
            pc := .walk i cur })
    else some (s.setTBuf b { writev s.heap tbuf with pc := .giveBack })
  | .walk i cur =>
    some (s.setTBuf b
      { collect s.heap tbuf cur with
        tail := some cur
        pc := match (s.heap cur).next with
          | some next => .walk i next
          | none => .chain (i + 1) })
  | .giveBack =>
    match tbuf.tail with
    | some last =>
      some ((s.setBuf last ((s.heap last).setNext tbuf.freebufs)).setTBuf b
        { tbuf with freebufs := tbuf.lsbufs, pc := .publishSN })
    | none => some (s.setTBuf b { tbuf with pc := .publishSN })
  | .publishSN =>
    let minsn := minSN thrs tbuf.localsn
    some (s.setTBuf b
      { tbuf with safeSN := if 0 < minsn then minsn - 1 else 0, pc := .idle })

def getSafeSN (thrs : Nat) (s : State) : State :=
  if 1 < thrs then
    match s.reading with
    | none => { s with reading := some (s.tbufs 0).safeSN }
    | some s0 =>
      let s1 := (s.tbufs 1).safeSN
      let safeSN := if s0 < s1 then s0 else s1
      { s with safeSN := safeSN, reading := none, results := s.results ++ [safeSN] }
  else
    let safeSN := (s.tbufs 0).safeSN
    { s with safeSN := safeSN, results := s.results ++ [safeSN] }

/-! ### Steps -/

inductive Act where
  | update (t : ThreadId) (sn : Nat) (records : List Record)
  | freeze (t : ThreadId)
  | worker (t : ThreadId)
  | writer (b : TBufId)
  | getSafeSN
  deriving DecidableEq, Repr

def step (thrs : Nat) (s : State) : Act → Option State
  | .update t sn records =>
    if t < thrs ∧ (s.workers t).pc = .running [] then some (writeUpdateRecords s t sn records)
    else none
  | .freeze t =>
    if t < thrs ∧ (s.workers t).pc = .running [] then
      some (s.setWorker t { s.workers t with pc := .publish none })
    else none
  | .worker t => if t < thrs then workerStep s t else none
  | .writer b => if b < 2 then writerStep thrs s b else none
  | .getSafeSN => some (getSafeSN thrs s)

end EunoDb.LogBuffer
