import EunoDb.FineGrainLock

/-! What holds of the locked skip list in every state. -/

namespace EunoDb.FineGrainLock

open Execution LinkedList SkipLevels
open SkipInsert (NodeId ThreadId head Extends Sound Answers key_kept before_kept on_kept)

variable {Key : Type}

def Pc.node : Pc Key → Option NodeId
  | .loadNext _ node _ => some node
  | .storeNext _ node _ _ => some node
  | .setPred _ node _ => some node
  | _ => none

def previous (call : Call Key) : Nat → Option NodeId
  | 0 => none
  | i + 1 => call.preds i

def Holds : Pc Key → NodeId → Prop
  | .lock call i _, node => ∃ j < i, call.preds j = some node
  | .validate call i _, node => ∃ j ≤ i, call.preds j = some node
  | .unlock call i prevpred, node => ∃ j, i ≤ j ∧ (j : Int) ≤ call.highestLocked ∧
      call.preds j = some node ∧ some node ≠ prevpred
  | .newNode call, node => ∃ j < call.height, call.preds j = some node
  | .loadNext call _ _, node => ∃ j < call.height, call.preds j = some node
  | .storeNext call _ _ _, node => ∃ j < call.height, call.preds j = some node
  | .setPred call _ _, node => ∃ j < call.height, call.preds j = some node
  | .release call _ i prevpred, node => ∃ j, i ≤ j ∧ j < call.height ∧
      call.preds j = some node ∧ some node ≠ prevpred
  | _, _ => False

def Highest (call : Call Key) (i : Nat) : Prop :=
  ∃ h : Nat, call.highestLocked = h ∧ h ≤ i ∧ ∀ j, h ≤ j → j ≤ i → call.preds j = call.preds h

variable [LinearOrder Key]

def Precedes (memory : Memory NodeId Key) (first second : NodeId) : Prop :=
  first = second ∨ second ≠ head ∧ Before memory head first (memory.key second)

structure Recorded (memory : Memory NodeId Key) (lists : Nat → List NodeId) (call : Call Key)
    (level : Nat) : Prop where
  pred : ∀ l, level ≤ l → l < kMaxHeight → ∃ pred, call.preds l = some pred ∧
    On head lists l pred ∧ Before memory head pred call.key
  succ : ∀ l succ, level ≤ l → l < kMaxHeight → call.succs l = some succ →
    succ ∈ lists l ∧ call.key ≤ memory.key succ
  descends : ∀ j k first second, level ≤ j → j < k → k < kMaxHeight → call.preds j = some first →
    call.preds k = some second → Precedes memory second first

theorem Recorded.place {memory : Memory NodeId Key} {lists : Nat → List NodeId} {call : Call Key}
    {level l : Nat} {pred : NodeId} (recorded : Recorded memory lists call level) (above : level ≤ l)
    (below : l < kMaxHeight) (isPred : call.preds l = some pred) :
    On head lists l pred ∧ Before memory head pred call.key := by
  obtain ⟨_, same, place⟩ := recorded.pred l above below
  exact Option.some.inj (same.symm.trans isPred) ▸ place

structure Ready (memory : Memory NodeId Key) (lists : Nat → List NodeId) (call : Call Key) :
    Prop where
  recorded : Recorded memory lists call 0
  greater : ∀ l succ, l < kMaxHeight → call.succs l = some succ → call.key < memory.key succ
  positive : 1 ≤ call.height
  bounded : call.height ≤ kMaxHeight

theorem Ready.pred {memory : Memory NodeId Key} {lists : Nat → List NodeId} {call : Call Key} {i : Nat}
    (ready : Ready memory lists call) (below : i < call.height) : ∃ pred, call.preds i = some pred := by
  obtain ⟨pred, isPred, -⟩ :=
    ready.recorded.pred i (Nat.zero_le i) (Nat.lt_of_lt_of_le below ready.bounded)
  exact ⟨pred, isPred⟩

def Checked (memory : Memory NodeId Key) (call : Call Key) (from_ upTo : Nat) : Prop :=
  ∀ j pred, from_ ≤ j → j < upTo → call.preds j = some pred → memory.next pred j = call.succs j

structure Linking (memory : Memory NodeId Key) (lists : Nat → List NodeId) (call : Call Key)
    (node : NodeId) (i : Nat) : Prop where
  notHead : node ≠ head
  key : memory.key node = call.key
  level : i < call.height
  levels : ∀ level, node ∈ lists level ↔ level < i

structure Searching (memory : Memory NodeId Key) (lists : Nat → List NodeId) (call : Call Key)
    (level : Nat) (x : NodeId) : Prop where
  positive : 1 ≤ call.height
  bounded : call.height ≤ kMaxHeight
  inRange : level < kMaxHeight
  recorded : Recorded memory lists call (level + 1)
  on : On head lists level x
  before : Before memory head x call.key
  behind : ∀ k pred, level < k → k < kMaxHeight → call.preds k = some pred → Precedes memory pred x

def Known (memory : Memory NodeId Key) (lists : Nat → List NodeId) : Pc Key → Prop
  | .idle => True
  | .load call level x => Searching memory lists call level x
  | .compare call level x next => Searching memory lists call level x ∧
      (∀ node, next = some node → node ∈ lists level ∧ Before memory head x (memory.key node)) ∧
      (level = 0 → ∀ l succ, 0 < l → l < kMaxHeight → call.succs l = some succ →
        memory.key succ = call.key →
        ∃ node, next = some node ∧ (node = succ ∨ memory.key node < call.key))
  | .test call x => Recorded memory lists call 0 ∧ 1 ≤ call.height ∧ call.height ≤ kMaxHeight ∧
      (∀ node, x = some node → node ∈ lists 0) ∧
      ∀ l succ, l < kMaxHeight → call.succs l = some succ → memory.key succ = call.key →
        ∃ node, x = some node ∧ memory.key node = call.key
  | .lock call i prevpred => Ready memory lists call ∧ i < call.height ∧
      prevpred = previous call i ∧ Checked memory call 0 i ∧
      (∀ j, i = j + 1 → Highest call j)
  | .validate call i prevpred => Ready memory lists call ∧ i < call.height ∧
      prevpred = previous call (i + 1) ∧ Checked memory call 0 i ∧ Highest call i
  | .unlock call i prevpred => Recorded memory lists call 0 ∧ 1 ≤ call.height ∧
      call.height ≤ kMaxHeight ∧ prevpred = previous call i ∧ call.highestLocked < kMaxHeight
  | .newNode call => Ready memory lists call ∧ Checked memory call 0 call.height
  | .loadNext call node i => Ready memory lists call ∧ Linking memory lists call node i ∧
      Checked memory call i call.height
  | .storeNext call node i value => Ready memory lists call ∧ Linking memory lists call node i ∧
      Checked memory call i call.height ∧ value = call.succs i
  | .setPred call node i => Ready memory lists call ∧ Linking memory lists call node i ∧
      Checked memory call i call.height ∧ memory.next node i = call.succs i
  | .release call node i prevpred => Recorded memory lists call 0 ∧ call.height ≤ kMaxHeight ∧
      prevpred = previous call i ∧ node ∈ lists 0 ∧ memory.key node = call.key
  | .getMax get => Answers memory lists get.earlier
  | .getLoad get level x => Answers memory lists get.earlier ∧ On head lists level x ∧
      Before memory head x get.key
  | .getCompare get level x next => Answers memory lists get.earlier ∧ On head lists level x ∧
      Before memory head x get.key ∧ (∀ node, next = some node → node ∈ lists level) ∧
      (level = 0 → ∀ entry ∈ get.earlier, entry.1 = get.key →
        ∃ node, next = some node ∧ (node = entry.2 ∨ memory.key node < get.key))
  | .getTest get x => Answers memory lists get.earlier ∧
      ∀ entry ∈ get.earlier, entry.1 = get.key → x = some entry.2

/-! ### Steps of other threads -/

section Monotone

variable {mine : Option NodeId} {memory after : Memory NodeId Key}
  {lists longer : Nat → List NodeId} {call : Call Key} {i : Nat} {node : NodeId}

variable (levels : Levels memory head lists) (extends_ : Extends mine memory lists after longer)

include levels extends_

theorem precedes_kept {first second : NodeId} {j : Nat} (on : On head lists i first)
    (onSecond : On head lists j second) (precedes : Precedes memory first second) :
    Precedes after first second := by
  rcases precedes with rfl | ⟨notHead, before⟩
  · exact .inl rfl
  · have mem := onSecond.resolve_left notHead
    refine .inr ⟨notHead, ?_⟩
    rw [key_kept levels extends_ mem]
    exact before_kept levels extends_ on before

theorem Recorded.mono {level : Nat} (recorded : Recorded memory lists call level) :
    Recorded after longer call level where
  pred l above below := by
    obtain ⟨pred, isPred, on, before⟩ := recorded.pred l above below
    exact ⟨pred, isPred, on_kept on extends_,
      before_kept levels extends_ on before⟩
  succ l succ above below isSucc := by
    obtain ⟨mem, greater⟩ := recorded.succ l succ above below isSucc
    exact ⟨extends_.grows l succ mem, by rwa [key_kept levels extends_ mem]⟩
  descends j k first second above less below isFirst isSecond := by
    obtain ⟨onFirst, -⟩ := recorded.place above (Nat.lt_trans less below) isFirst
    obtain ⟨onSecond, -⟩ := recorded.place (Nat.le_trans above (Nat.le_of_lt less)) below isSecond
    exact precedes_kept levels extends_ onSecond onFirst
      (recorded.descends j k _ _ above less below isFirst isSecond)

theorem Ready.mono (ready : Ready memory lists call) : Ready after longer call where
  recorded := ready.recorded.mono levels extends_
  greater l succ below isSucc := by
    obtain ⟨mem, -⟩ := ready.recorded.succ l succ (Nat.zero_le l) below isSucc
    rw [key_kept levels extends_ mem]
    exact ready.greater l succ below isSucc
  positive := ready.positive
  bounded := ready.bounded

theorem Searching.mono {level : Nat} {x : NodeId} (searching : Searching memory lists call level x) :
    Searching after longer call level x where
  positive := searching.positive
  bounded := searching.bounded
  inRange := searching.inRange
  recorded := searching.recorded.mono levels extends_
  on := on_kept searching.on extends_
  before := before_kept levels extends_ searching.on searching.before
  behind k pred above below isPred := by
    obtain ⟨on, -⟩ := searching.recorded.place above below isPred
    exact precedes_kept levels extends_ on searching.on
      (searching.behind k _ above below isPred)

omit [LinearOrder Key] levels in
theorem Linking.mono (linking : Linking memory lists call node i) (foreign : mine ≠ some node) :
    Linking after longer call node i where
  notHead := linking.notHead
  key := by rw [extends_.key node (.inr foreign), linking.key]
  level := linking.level
  levels level := by
    rw [← linking.levels level]
    refine ⟨fun mem => ?_, extends_.grows level node⟩
    exact (extends_.only level node mem).resolve_right foreign

omit levels extends_ in
theorem Checked.mono {from_ upTo : Nat} (checked : Checked memory call from_ upTo)
    (recorded : Recorded memory lists call 0) (bounded : upTo ≤ kMaxHeight)
    (kept : ∀ pred j, j < upTo → call.preds j = some pred → On head lists j pred →
      after.next pred j = memory.next pred j) : Checked after call from_ upTo := by
  intro j pred above below isPred
  obtain ⟨on, -⟩ := recorded.place (Nat.zero_le j) (Nat.lt_of_lt_of_le below bounded) isPred
  rw [kept pred j below isPred on]
  exact checked j pred above below isPred

omit levels in
theorem Linking.checked_mono (levels : Levels memory head lists) (ready : Ready memory lists call)
    (linking : Linking memory lists call node i) (checked : Checked memory call i call.height)
    (foreign : mine ≠ some node)
    (kept : ∀ node level, (∃ j < call.height, call.preds j = some node) →
      On head lists level node → after.next node level = memory.next node level) :
    Ready after longer call ∧ Linking after longer call node i ∧ Checked after call i call.height :=
  ⟨ready.mono levels extends_, linking.mono extends_ foreign,
    checked.mono ready.recorded ready.bounded fun pred j less isPred =>
      kept pred j ⟨j, less, isPred⟩⟩

theorem Known.mono {pc : Pc Key} (known : Known memory lists pc)
    (foreign : ∀ node, pc.node = some node → mine ≠ some node)
    (kept : ∀ node level, Holds pc node → On head lists level node →
      after.next node level = memory.next node level) : Known after longer pc := by
  cases pc with
  | idle => trivial
  | load call level x => exact Searching.mono levels extends_ known
  | compare call level x next =>
    obtain ⟨searching, target, found⟩ := known
    have target' : ∀ node, next = some node → node ∈ longer level ∧
        Before after head x (after.key node) := by
      intro node isNext
      obtain ⟨mem, before⟩ := target node isNext
      rw [key_kept levels extends_ mem]
      exact ⟨extends_.grows level node mem,
        before_kept levels extends_ searching.on before⟩
    refine ⟨searching.mono levels extends_, target', ?_⟩
    rintro rfl l succ above below isSucc isKey
    obtain ⟨mem, -⟩ := searching.recorded.succ l succ above below isSucc
    rw [key_kept levels extends_ mem] at isKey
    obtain ⟨node, isNext, same | less⟩ := found rfl l succ above below isSucc isKey
    · exact ⟨node, isNext, .inl same⟩
    · refine ⟨node, isNext, .inr ?_⟩
      rwa [key_kept levels extends_ (target node isNext).1]
  | test call x =>
    obtain ⟨recorded, positive, bounded, target, found⟩ := known
    refine ⟨recorded.mono levels extends_, positive, bounded,
      fun node isNext => extends_.grows 0 node (target node isNext), ?_⟩
    intro l succ below isSucc isKey
    obtain ⟨mem, -⟩ := recorded.succ l succ (Nat.zero_le l) below isSucc
    rw [key_kept levels extends_ mem] at isKey
    obtain ⟨node, isNext, same⟩ := found l succ below isSucc isKey
    exact ⟨node, isNext, by rw [key_kept levels extends_ (target node isNext), same]⟩
  | lock call i prevpred =>
    obtain ⟨ready, below, isPrev, checked, highest⟩ := known
    refine ⟨ready.mono levels extends_, below, isPrev, ?_, highest⟩
    refine checked.mono ready.recorded (Nat.le_trans (Nat.le_of_lt below) ready.bounded) ?_
    exact fun pred j less isPred => kept pred j ⟨j, less, isPred⟩
  | validate call i prevpred =>
    obtain ⟨ready, below, isPrev, checked, highest⟩ := known
    refine ⟨ready.mono levels extends_, below, isPrev, ?_, highest⟩
    refine checked.mono ready.recorded (Nat.le_trans (Nat.le_of_lt below) ready.bounded) ?_
    exact fun pred j less isPred => kept pred j ⟨j, Nat.le_of_lt less, isPred⟩
  | unlock call i prevpred => exact ⟨known.1.mono levels extends_, known.2⟩
  | newNode call =>
    obtain ⟨ready, checked⟩ := known
    refine ⟨ready.mono levels extends_, checked.mono ready.recorded ready.bounded ?_⟩
    exact fun pred j less isPred => kept pred j ⟨j, less, isPred⟩
  | loadNext call node i =>
    obtain ⟨ready, linking, checked⟩ := known
    exact linking.checked_mono extends_ levels ready checked (foreign node rfl) kept
  | storeNext call node i value =>
    obtain ⟨ready, linking, checked, read⟩ := known
    obtain ⟨ready', linking', checked'⟩ :=
      linking.checked_mono extends_ levels ready checked (foreign node rfl) kept
    exact ⟨ready', linking', checked', read⟩
  | setPred call node i =>
    obtain ⟨ready, linking, checked, stored⟩ := known
    obtain ⟨ready', linking', checked'⟩ :=
      linking.checked_mono extends_ levels ready checked (foreign node rfl) kept
    refine ⟨ready', linking', checked', ?_⟩
    rw [extends_.next node i (foreign node rfl) linking.notHead, stored]
    exact fun mem => Nat.lt_irrefl i ((linking.levels i).mp mem)
  | release call node i prevpred =>
    obtain ⟨recorded, bounded, isPrev, mem, isKey⟩ := known
    exact ⟨recorded.mono levels extends_, bounded, isPrev, extends_.grows 0 node mem,
      by rw [key_kept levels extends_ mem, isKey]⟩
  | getMax get => exact Answers.mono known extends_
  | getLoad get level x =>
    obtain ⟨answers, on, before⟩ := known
    exact ⟨answers.mono extends_, on_kept on extends_,
      before_kept levels extends_ on before⟩
  | getCompare get level x next =>
    obtain ⟨answers, on, before, target, found⟩ := known
    refine ⟨answers.mono extends_, on_kept on extends_,
      before_kept levels extends_ on before,
      fun node isNext => extends_.grows level node (target node isNext), ?_⟩
    rintro rfl entry mem isKey
    obtain ⟨node, isNext, same | less⟩ := found rfl entry mem isKey
    · exact ⟨node, isNext, .inl same⟩
    · refine ⟨node, isNext, .inr ?_⟩
      rwa [key_kept levels extends_ (target node isNext)]
  | getTest get x => exact ⟨known.1.mono extends_, known.2⟩

end Monotone

/-! ### The invariant -/

structure Inv (w : World Key) (lists : Nat → List NodeId) : Prop where
  sound : Sound w.memory lists w.allocated (fun t => (w.pc t).node) w.linked
  known : ∀ t, Known w.memory lists (w.pc t)
  locks : ∀ node u, w.lock node = some u ↔ Holds (w.pc u) node
  returned : Answers w.memory lists w.returned
  found : ∀ found ∈ w.found, ∀ entry ∈ found.get.earlier, entry.1 = found.get.key →
    found.result = some entry.2

section Steps

variable {w : World Key} {lists : Nat → List NodeId} {t : ThreadId}

variable {w' : World Key} {pc pc' : Pc Key} {memory : Memory NodeId Key} {call : Call Key}
  {level i : Nat} {x pred node : NodeId} {next prevpred : Option NodeId} {get : Lookup Key}

theorem Precedes.trans {first second : NodeId} {key : NodeId}
    (precedes : Precedes memory first second) (notHead : key ≠ head)
    (before : Before memory head second (memory.key key)) : Precedes memory first key := by
  rcases precedes with rfl | ⟨notFirst, isBefore⟩
  · exact .inr ⟨notHead, before⟩
  · refine .inr ⟨notHead, isBefore.imp_right fun less => ?_⟩
    exact lt_trans less (before.resolve_left notFirst)

theorem Searching.record (searching : Searching memory lists call level x)
    (target : ∀ node, next = some node → node ∈ lists level)
    (above : ∀ node, next = some node → ¬ memory.key node < call.key) :
    Recorded memory lists { call with
      preds := Function.update call.preds level (some x)
      succs := Function.update call.succs level next } level where
  pred l from_ below := by
    by_cases same : l = level
    · subst same
      exact ⟨x, Function.update_self .., searching.on, searching.before⟩
    · obtain ⟨pred, isPred, rest⟩ := searching.recorded.pred l (by omega) below
      exact ⟨pred, by simpa [same] using isPred, rest⟩
  succ l succ from_ below isSucc := by
    by_cases same : l = level
    · subst same
      simp only [Function.update_self] at isSucc
      exact ⟨target succ isSucc, not_lt.mp (above succ isSucc)⟩
    · simp only [Function.update_of_ne same] at isSucc
      exact searching.recorded.succ l succ (by omega) below isSucc
  descends j k first second from_ less below isFirst isSecond := by
    have higher : k ≠ level := by omega
    simp only [Function.update_of_ne higher] at isSecond
    by_cases same : j = level
    · subst same
      simp only [Function.update_self, Option.some.injEq] at isFirst
      exact isFirst ▸ searching.behind k second less below isSecond
    · simp only [Function.update_of_ne same] at isFirst
      exact searching.recorded.descends j k first second (by omega) less below isFirst isSecond

theorem Recorded.between {node : NodeId} {first middle last : Nat}
    (recorded : Recorded memory lists call 0) (from_ : first ≤ middle) (upTo : middle ≤ last)
    (below : last < kMaxHeight) (isFirst : call.preds first = some node)
    (isLast : call.preds last = some node) : call.preds middle = some node := by
  rcases Nat.eq_or_lt_of_le from_ with rfl | less
  · exact isFirst
  rcases Nat.eq_or_lt_of_le upTo with rfl | less'
  · exact isLast
  obtain ⟨pred, isPred, -⟩ := recorded.pred middle (Nat.zero_le _) (Nat.lt_trans less' below)
  -- The one in the middle is not after the first nor before the last.
  have upper := recorded.descends first middle _ _ (Nat.zero_le _) less
    (Nat.lt_trans less' below) isFirst isPred
  have lower := recorded.descends middle last _ _ (Nat.zero_le _) less' below isPred isLast
  rcases upper with rfl | ⟨notHead, beforeNode⟩
  · exact isPred
  · rcases lower with rfl | ⟨predNotHead, beforePred⟩
    · exact isPred
    · exact absurd (beforePred.resolve_left notHead)
        (lt_asymm (beforeNode.resolve_left predNotHead))

omit [LinearOrder Key] in
theorem Checked.succ (checked : Checked memory call 0 i) (isPred : call.preds i = some pred)
    (valid : call.succs i = memory.next pred i) : Checked memory call 0 (i + 1) := by
  intro j other from_ below isOther
  rcases Nat.eq_or_lt_of_le (Nat.le_of_lt_succ below) with rfl | less
  · rw [valid, Option.some.inj (isOther.symm.trans isPred)]
  · exact checked j other from_ less isOther

def Left (call : Call Key) (range : Nat → Prop) (i : Nat) (prevpred : Option NodeId)
    (node : NodeId) : Prop :=
  ∃ j, i ≤ j ∧ range j ∧ call.preds j = some node ∧ some node ≠ prevpred

theorem Recorded.left_succ {range : Nat → Prop} {node : NodeId}
    (recorded : Recorded memory lists call 0) (bounded : ∀ j, range j → j < kMaxHeight)
    (isPred : call.preds i = some pred) :
    Left call range (i + 1) (some pred) node ↔
      Left call range i (previous call i) node ∧ node ≠ pred := by
  constructor
  · rintro ⟨j, from_, inRange, isJ, different⟩
    have notPred : node ≠ pred := fun same => different (congrArg some same)
    refine ⟨⟨j, Nat.le_of_succ_le from_, inRange, isJ, ?_⟩, notPred⟩
    intro isPrev
    cases i with
    | zero => cases isPrev
    | succ i =>
      have middle := recorded.between (Nat.le_succ i) (Nat.le_of_succ_le from_)
        (bounded j inRange) isPrev.symm isJ
      exact notPred (Option.some.inj (middle.symm.trans isPred))
  · rintro ⟨⟨j, from_, inRange, isJ, -⟩, notPred⟩
    refine ⟨j, Nat.lt_of_le_of_ne from_ ?_, inRange, isJ, fun same => notPred (Option.some.inj same)⟩
    rintro rfl
    exact notPred (Option.some.inj (isJ.symm.trans isPred))

theorem Searching.start (positive : 1 ≤ call.height) (bounded : call.height ≤ kMaxHeight) :
    Searching memory lists call (kMaxHeight - 1) head := by
  refine ⟨positive, bounded, by decide, ⟨?_, ?_, ?_⟩, .inl rfl, .inl rfl, ?_⟩
  · exact fun l above below => absurd below (Nat.not_lt.mpr above)
  · exact fun l succ above below => absurd below (Nat.not_lt.mpr above)
  · exact fun j k _ _ above less below => absurd (Nat.lt_trans less below) (Nat.not_lt.mpr above)
  · exact fun k pred above below => absurd below (Nat.not_lt.mpr above)

theorem Inv.initial (memory : Memory NodeId Key) : Inv (initial memory) fun _ => [] where
  sound := .empty fun level => by simp [FineGrainLock.initial]
  known _ := trivial
  locks _ _ := iff_of_false nofun id
  returned := nofun
  found := nofun

def rank (lists : Nat → List NodeId) (node : NodeId) : Nat :=
  if node = head then 0 else (lists 0).idxOf node + 1

theorem rank_lt (levels : Levels memory head lists) {first second : NodeId}
    (inFirst : first = head ∨ first ∈ lists 0) (inSecond : second ∈ lists 0)
    (before : Before memory head first (memory.key second)) :
    rank lists first < rank lists second := by
  have notHead : second ≠ head := by
    rintro rfl
    exact levels.head 0 inSecond
  rw [rank, rank, if_neg notHead]
  by_cases isHead : first = head
  · rw [if_pos isHead]
    exact Nat.succ_pos _
  rw [if_neg isHead]
  have mem := inFirst.resolve_left isHead
  have less := before.resolve_left isHead
  refine Nat.succ_lt_succ (Nat.lt_of_not_le fun behind => ?_)
  -- In an increasing list the later node would have the greater key.
  rcases Nat.eq_or_lt_of_le behind with same | earlier
  · rw [(List.idxOf_inj inSecond).mp same] at less
    exact lt_irrefl _ less
  · have ordered := List.pairwise_iff_getElem.mp (levels.ordered 0) _ _
      (List.idxOf_lt_length_of_mem inSecond) (List.idxOf_lt_length_of_mem mem) earlier
    rw [List.getElem_idxOf, List.getElem_idxOf] at ordered
    exact lt_asymm less ordered

section Threads

variable (inv : Inv w lists)

include inv

theorem Inv.change {longer : Nat → List NodeId} {mine : Option NodeId}
    (threads : w'.pc = Function.update w.pc t pc) (sound : Sound w'.memory longer w'.allocated
      (Function.update (fun u => (w.pc u).node) t pc.node) w'.linked)
    (extends_ : Extends mine w.memory lists w'.memory longer)
    (foreign : ∀ u, u ≠ t → ∀ node, (w.pc u).node = some node → mine ≠ some node)
    (locked : ∀ node level, w.lock node ≠ some t → On head lists level node →
      w'.memory.next node level = w.memory.next node level) (known : Known w'.memory longer pc)
    (own : ∀ node, w'.lock node = some t ↔ Holds pc node)
    (others : ∀ node u, u ≠ t → (w'.lock node = some u ↔ w.lock node = some u))
    (returned : Answers w'.memory longer w'.returned)
    (found : ∀ found ∈ w'.found, ∀ entry ∈ found.get.earlier, entry.1 = found.get.key →
      found.result = some entry.2) : Inv w' longer where
  sound := by
    rw [threads, SkipInsert.owner_update]
    exact sound
  known u := by
    rw [threads]
    by_cases same : u = t
    · rw [same, Function.update_self]
      exact known
    rw [Function.update_of_ne same]
    refine (inv.known u).mono inv.sound.levels extends_ (foreign u same) ?_
    intro node level holds on
    refine locked node level (fun isMine => same ?_) on
    exact Option.some.inj (((inv.locks node u).mpr holds).symm.trans isMine)
  locks node u := by
    rw [threads]
    by_cases same : u = t
    · rw [same, Function.update_self]
      exact own node
    · rw [Function.update_of_ne same, others node u same]
      exact inv.locks node u
  returned := returned
  found := found

theorem Inv.here (isPc : w.pc t = pc) : Known w.memory lists pc := isPc ▸ inv.known t

theorem Inv.own (isPc : w.pc t = pc) (holds : ∀ node, Holds pc' node ↔ Holds pc node)
    (node : NodeId) : w.lock node = some t ↔ Holds pc' node := by
  rw [inv.locks node t, isPc, holds node]

theorem Inv.go (isPc : w.pc t = pc) (known : Known w.memory lists pc')
    (node : ∀ node, pc'.node = some node → pc.node = some node)
    (holds : ∀ node, Holds pc' node ↔ Holds pc node) : Inv (w.setPc t pc') lists := by
  have same : Extends none w.memory lists w.memory lists := .refl
  exact inv.change rfl (inv.sound.release (isPc ▸ node)) same (fun _ _ _ _ => nofun)
    (fun _ _ _ _ => rfl) known (inv.own isPc holds) (fun _ _ _ => Iff.rfl) inv.returned inv.found

theorem Inv.relock {value : Option ThreadId} (known : Known w.memory lists pc)
    (noNode : pc.node = none) (own : value = some t ↔ Holds pc pred)
    (kept : ∀ node, node ≠ pred → (Holds pc node ↔ Holds (w.pc t) node))
    (others : ∀ u, u ≠ t → value ≠ some u ∧ w.lock pred ≠ some u) :
    Inv ({ w with lock := Function.update w.lock pred value }.setPc t pc) lists := by
  have same : Extends none w.memory lists w.memory lists := .refl
  refine inv.change rfl (inv.sound.release (by simp [noNode])) same (fun _ _ _ _ => nofun)
    (fun _ _ _ _ => rfl) known ?_ ?_ inv.returned inv.found
  · intro node
    change Function.update w.lock pred value node = some t ↔ _
    by_cases isNode : node = pred
    · rw [isNode, Function.update_self, own]
    · rw [Function.update_of_ne isNode, inv.locks node t, kept node isNode]
  · intro node u other
    change Function.update w.lock pred value node = some u ↔ _
    by_cases isNode : node = pred
    · rw [isNode, Function.update_self]
      exact iff_of_false (others u other).1 (others u other).2
    · rw [Function.update_of_ne isNode]

theorem Inv.return_ {key : Key} (mem : node ∈ lists 0) (isKey : w.memory.key node = key)
    (isPc : w.pc t = pc) (free : ∀ node, ¬ Holds pc node) : Inv (w.return_ t key node) lists := by
  have gone : Inv (w.setPc t .idle) lists :=
    inv.go isPc trivial nofun fun node => iff_of_false id (free node)
  exact ⟨gone.sound, gone.known, gone.locks, inv.returned.add mem isKey, inv.found⟩

/-! ### The search -/

theorem Inv.load (isPc : w.pc t = .load call level x) :
    Inv (w.setPc t (.compare call level x (w.memory.next x level))) lists := by
  have searching := inv.here isPc
  refine inv.go isPc ⟨searching, fun node link => inv.sound.levels.next_mem searching.on link, ?_⟩ nofun fun _ => Iff.rfl
  rintro rfl l succ above below isSucc isKey
  obtain ⟨mem, -⟩ := searching.recorded.succ l succ above below isSucc
  have before : Before w.memory head x (w.memory.key succ) := isKey ▸ searching.before
  obtain ⟨node, link, least⟩ :=
    inv.sound.levels.next_least searching.on (inv.sound.levels.bottom mem) before
  exact ⟨node, link, least.imp_right fun less => isKey ▸ less⟩

theorem Inv.descend (isPc : w.pc t = .compare call level x next)
    (above : ∀ node, next = some node → ¬ w.memory.key node < call.key) :
    Inv (w.setPc t (descend call x next level)) lists := by
  obtain ⟨searching, target, found⟩ := inv.here isPc
  have recorded := searching.record (fun node isNext => (target node isNext).1) above
  cases level with
  | zero =>
    refine inv.go isPc ⟨recorded, searching.positive, searching.bounded,
      fun node isNext => (target node isNext).1, ?_⟩ nofun fun _ => Iff.rfl
    intro l succ below isSucc isKey
    by_cases first : l = 0
    · subst first
      simp only [Function.update_self] at isSucc
      exact ⟨succ, isSucc, isKey⟩
    simp only [Function.update_of_ne first] at isSucc
    obtain ⟨node, isNext, rfl | less⟩ :=
      found rfl l succ (Nat.pos_of_ne_zero first) below isSucc isKey
    · exact ⟨node, isNext, isKey⟩
    · exact absurd less (above node isNext)
  | succ level =>
    refine inv.go isPc ?_ nofun fun _ => Iff.rfl
    refine ⟨searching.positive, searching.bounded, Nat.lt_of_succ_lt searching.inRange, recorded,
      searching.on.imp_right (inv.sound.levels.below level x), searching.before, ?_⟩
    intro k pred less below isPred
    by_cases same : k = level + 1
    · subst same
      simp only [Function.update_self, Option.some.injEq] at isPred
      exact .inl isPred.symm
    · simp only [Function.update_of_ne same] at isPred
      exact searching.behind k pred (by omega) below isPred

theorem Inv.compare (isPc : w.pc t = .compare call level x next) :
    Inv (w.setPc t (compareNext w.memory call level x next)) lists := by
  cases next with
  | none => exact inv.descend isPc nofun
  | some next =>
    by_cases less : w.memory.key next < call.key
    · obtain ⟨searching, target, -⟩ := inv.here isPc
      obtain ⟨mem, before⟩ := target next rfl
      have notHead : next ≠ head := by
        rintro rfl
        exact inv.sound.levels.head level mem
      rw [compareNext, if_pos less]
      refine inv.go isPc ?_ nofun fun _ => Iff.rfl
      exact
        { searching with
          on := .inr mem
          before := .inr less
          behind := fun k pred above below isPred =>
            (searching.behind k pred above below isPred).trans notHead before }
    · rw [compareNext, if_neg less]
      exact inv.descend isPc fun node isNext => Option.some.inj isNext ▸ less

theorem Inv.test {x : Option NodeId} (isPc : w.pc t = .test call x) :
    Inv (w.testFound t call x) lists := by
  obtain ⟨recorded, positive, bounded, target, found⟩ := inv.here isPc
  have missing : (∀ node, x = some node → w.memory.key node ≠ call.key) →
      Inv (w.setPc t (.lock call 0 none)) lists := by
    intro absent
    refine inv.go isPc ⟨⟨recorded, fun l succ below isSucc => ?_, positive, bounded⟩, positive, rfl, ?_,
      nofun⟩ nofun fun _ => iff_of_false ?_ id
    · refine lt_of_le_of_ne (recorded.succ l succ (Nat.zero_le l) below isSucc).2 fun same => ?_
      obtain ⟨node, isNode, isKey⟩ := found l succ below isSucc same.symm
      exact absent node isNode isKey
    · exact fun j pred _ below => absurd below (Nat.not_lt_zero j)
    · rintro ⟨j, below, -⟩
      exact Nat.not_lt_zero j below
  cases x with
  | none => exact missing nofun
  | some x =>
    by_cases same : w.memory.key x = call.key
    · rw [World.testFound, if_pos same]
      exact inv.return_ (target x rfl) same isPc fun _ => id
    · rw [World.testFound, if_neg same]
      exact missing fun node isNode => Option.some.inj isNode ▸ same

/-! ### Locks -/

section

variable (isPc : w.pc t = .lock call i prevpred) (isPred : call.preds i = some pred)

include isPc isPred

theorem Inv.unlocked (new : some pred ≠ prevpred) : w.lock pred ≠ some t := by
  obtain ⟨ready, below, isPrev, -⟩ := inv.here isPc
  intro locked
  have holds := (inv.locks pred t).mp locked
  rw [isPc] at holds
  obtain ⟨j, less, again⟩ := holds
  cases i with
  | zero => exact Nat.not_lt_zero j less
  | succ i =>
    refine new (isPrev.symm ▸ ?_)
    exact (ready.recorded.between (Nat.le_of_lt_succ less) (Nat.le_succ i)
      (Nat.lt_of_lt_of_le below ready.bounded) again isPred).symm

theorem Inv.lock (free : w.lock pred = none) :
    Inv ({ w with lock := Function.update w.lock pred (some t) }.setPc t
      (.validate { call with highestLocked := i } i (some pred))) lists := by
  obtain ⟨ready, below, isPrev, checked, -⟩ := inv.here isPc
  have recorded := ready.recorded
  have known : Known w.memory lists (.validate { call with highestLocked := i } i (some pred)) := by
    refine ⟨⟨⟨recorded.pred, recorded.succ, recorded.descends⟩, ready.greater, ready.positive,
      ready.bounded⟩, below, isPred.symm, checked, i, rfl, Nat.le_refl i, fun j from_ upTo => ?_⟩
    rw [Nat.le_antisymm upTo from_]
  refine inv.relock known rfl (iff_of_true rfl ⟨i, Nat.le_refl i, isPred⟩) ?_ ?_
  · intro node isNode
    rw [isPc]
    constructor
    · rintro ⟨j, upTo, isJ⟩
      refine ⟨j, Nat.lt_of_le_of_ne upTo ?_, isJ⟩
      rintro rfl
      exact isNode (Option.some.inj (isJ.symm.trans isPred))
    · rintro ⟨j, less, isJ⟩
      exact ⟨j, Nat.le_of_lt less, isJ⟩
  · intro u other
    rw [free]
    exact ⟨fun isU => other (Option.some.inj isU).symm, nofun⟩

theorem Inv.lockSame (old : some pred = prevpred) :
    Inv (w.setPc t (.validate call i prevpred)) lists := by
  obtain ⟨ready, below, isPrev, checked, highest⟩ := inv.here isPc
  cases i with
  | zero => cases old.trans isPrev
  | succ i =>
    have isI : call.preds i = some pred := isPrev.symm.trans old.symm
    obtain ⟨h, isHighest, upTo, constant⟩ := highest i rfl
    refine inv.go isPc ⟨ready, below, old.symm.trans isPred.symm, checked, h, isHighest,
      Nat.le_succ_of_le upTo, fun j from_ less => ?_⟩ nofun fun node => ?_
    · rcases Nat.eq_or_lt_of_le less with rfl | less
      · rw [isPred, ← isI]
        exact constant i upTo (Nat.le_refl i)
      · exact constant j from_ (Nat.le_of_lt_succ less)
    constructor
    · rintro ⟨j, less, isJ⟩
      rcases Nat.eq_or_lt_of_le less with rfl | less
      · exact ⟨i, Nat.lt_succ_self i, isI.trans (isPred.symm.trans isJ)⟩
      · exact ⟨j, less, isJ⟩
    · rintro ⟨j, less, isJ⟩
      exact ⟨j, Nat.le_of_lt less, isJ⟩

end

theorem Inv.valid (isPc : w.pc t = .validate call i prevpred)
    (isPred : call.preds i = some pred) (valid : call.succs i = w.memory.next pred i) :
    (i + 1 < call.height → Inv (w.setPc t (.lock call (i + 1) prevpred)) lists) ∧
      (¬ i + 1 < call.height → Inv (w.setPc t (.newNode call)) lists) := by
  obtain ⟨ready, below, isPrev, checked, highest⟩ := inv.here isPc
  have checked' := checked.succ isPred valid
  constructor
  · intro more
    refine inv.go isPc ⟨ready, more, isPrev, checked', fun j isJ => Nat.succ.inj isJ ▸ highest⟩ nofun ?_
    exact fun node => exists_congr fun j => and_congr_left fun _ => Nat.lt_succ_iff
  intro last
  have isLast : call.height = i + 1 := by omega
  refine inv.go isPc ⟨ready, isLast ▸ checked'⟩ nofun ?_
  refine fun node => exists_congr fun j => and_congr_left fun _ => ?_
  rw [isLast]
  exact Nat.lt_succ_iff

theorem Inv.invalid (isPc : w.pc t = .validate call i prevpred) :
    Inv (w.setPc t (.unlock call 0 none)) lists := by
  obtain ⟨ready, below, -, -, h, isHighest, upTo, constant⟩ := inv.here isPc
  have bounded := ready.bounded
  refine inv.go isPc ⟨ready.recorded, ready.positive, bounded, rfl, by rw [isHighest]; omega⟩ nofun ?_
  intro node
  constructor
  · rintro ⟨j, -, least, isJ, -⟩
    rw [isHighest] at least
    exact ⟨j, by omega, isJ⟩
  rintro ⟨j, less, isJ⟩
  by_cases low : j ≤ h
  · exact ⟨j, Nat.zero_le j, by rw [isHighest]; omega, isJ, nofun⟩
  · refine ⟨h, Nat.zero_le h, by rw [isHighest], ?_, nofun⟩
    rw [← constant j (by omega) less, isJ]

theorem Inv.unlockRound (range : Nat → Prop)
    (recorded : Recorded w.memory lists call 0) (bounded : ∀ j, range j → j < kMaxHeight)
    (inRange : range i) (isPred : call.preds i = some pred)
    (before : ∀ node, Holds (w.pc t) node ↔ Left call range i (previous call i) node)
    (after : ∀ node, Holds pc node ↔ Left call range (i + 1) (some pred) node)
    (known : Known w.memory lists pc) (noNode : pc.node = none) :
    Inv ((w.unlockPred pred (previous call i)).setPc t pc) lists := by
  by_cases new : some pred ≠ previous call i
  · have locked : w.lock pred = some t :=
      (inv.locks pred t).mpr ((before pred).mpr ⟨i, Nat.le_refl i, inRange, isPred, new⟩)
    rw [World.unlockPred, if_pos new]
    refine inv.relock known noNode (iff_of_false nofun ?_) ?_ ?_
    · rw [after pred]
      rintro ⟨-, -, -, -, different⟩
      exact different rfl
    · intro node isNode
      rw [after node, before node, recorded.left_succ bounded isPred, and_iff_left isNode]
    · intro u other
      rw [locked]
      exact ⟨nofun, fun isT => other (Option.some.inj isT).symm⟩
  · rw [World.unlockPred, if_neg new]
    refine inv.go rfl known (by simp [noNode]) fun node => ?_
    rw [after node, before node, recorded.left_succ bounded isPred]
    refine ⟨And.left, fun left => ⟨left, ?_⟩⟩
    rintro rfl
    obtain ⟨-, -, -, -, different⟩ := left
    exact new different

theorem Inv.unlock (isPc : w.pc t = .unlock call i prevpred)
    (more : (i : Int) < call.highestLocked + 1) (isPred : call.preds i = some pred) :
    Inv ((w.unlockPred pred prevpred).setPc t (.unlock call (i + 1) (some pred))) lists := by
  obtain ⟨recorded, positive, bounded, rfl, highest⟩ := inv.here isPc
  refine inv.unlockRound (fun j => (j : Int) ≤ call.highestLocked) recorded ?_
    (Int.le_of_lt_add_one more) isPred ?_ (fun _ => Iff.rfl) ?_ rfl
  · intro j inRange
    omega
  · rw [isPc]
    exact fun _ => Iff.rfl
  · exact ⟨recorded, positive, bounded, isPred.symm, highest⟩

theorem Inv.retry (isPc : w.pc t = .unlock call i prevpred)
    (done : ¬ (i : Int) < call.highestLocked + 1) :
    Inv (w.setPc t (.load call (kMaxHeight - 1) head)) lists := by
  obtain ⟨-, positive, bounded, -⟩ := inv.here isPc
  refine inv.go isPc (.start positive bounded) nofun fun node => iff_of_false id ?_
  rintro ⟨j, from_, least, -⟩
  omega

theorem Inv.releaseRound (isPc : w.pc t = .release call node i prevpred) (more : i < call.height)
    (isPred : call.preds i = some pred) :
    Inv ((w.unlockPred pred prevpred).setPc t (.release call node (i + 1) (some pred))) lists := by
  obtain ⟨recorded, bounded, rfl, mem, isKey⟩ := inv.here isPc
  refine inv.unlockRound (fun j => j < call.height) recorded
    (fun j less => Nat.lt_of_lt_of_le less bounded) more isPred ?_ (fun _ => Iff.rfl) ?_ rfl
  · rw [isPc]
    exact fun _ => Iff.rfl
  · exact ⟨recorded, bounded, isPred.symm, mem, isKey⟩

theorem Inv.finish (isPc : w.pc t = .release call node i prevpred) (done : ¬ i < call.height) :
    Inv (w.return_ t call.key node) lists := by
  obtain ⟨-, -, -, mem, isKey⟩ := inv.here isPc
  refine inv.return_ mem isKey isPc ?_
  rintro other ⟨j, from_, less, -⟩
  omega

/-! ### Linking -/

theorem Inv.newNode (isPc : w.pc t = .newNode call)
    (free : w.allocated node = false) : Inv (w.newNode t call node) lists := by
  obtain ⟨ready, checked⟩ := inv.here isPc
  have others : ∀ other, other ≠ node →
      (w.newNode t call node).memory.key other = w.memory.key other := by
    intro other different
    simp [World.newNode, World.setPc, different]
  have links : ∀ other, other ≠ node →
      (w.newNode t call node).memory.next other = w.memory.next other :=
    fun other different => setNext_node _ _ _ _ different
  obtain ⟨levels, extends_⟩ := inv.sound.malloc_extends free others links
  have position : ∀ other level, On head lists level other → other ≠ node := by
    rintro other level on rfl
    rcases on with rfl | mem
    · exact absurd inv.sound.headUsed (by simp [free])
    · exact inv.sound.unlinked free level mem
  have linking : Linking (w.newNode t call node).memory lists call node 0 :=
    { notHead := Ne.symm (position head 0 (.inl rfl))
      key := by simp [World.newNode, World.setPc]
      level := ready.positive
      levels := fun level => iff_of_false (inv.sound.unlinked free level) (Nat.not_lt_zero level) }
  have kept : ∀ other level, On head lists level other →
      (w.newNode t call node).memory.next other level = w.memory.next other level :=
    fun other level on => congrFun (links other (position other level on)) level
  have known : Known (w.newNode t call node).memory lists (.loadNext call node 0) :=
    ⟨ready.mono inv.sound.levels extends_, linking,
      checked.mono ready.recorded ready.bounded fun pred j _ _ on => kept pred j on⟩
  refine inv.change rfl (inv.sound.malloc free levels) extends_ ?_
    (fun other level _ on => kept other level on) known (inv.own isPc fun _ => Iff.rfl)
    (fun _ _ _ => Iff.rfl) (inv.returned.mono extends_) inv.found
  rintro u - other isOwner same
  have used := inv.sound.own u other isOwner
  rw [← Option.some.inj same, free] at used
  cases used

theorem Inv.loadNext (isPc : w.pc t = .loadNext call node i)
    (isPred : call.preds i = some pred) :
    Inv (w.setPc t (.storeNext call node i (w.memory.next pred i))) lists := by
  obtain ⟨ready, linking, checked⟩ := inv.here isPc
  refine inv.go isPc ⟨ready, linking, checked, checked i pred (Nat.le_refl i) linking.level isPred⟩
    (fun _ => id) fun _ => Iff.rfl

theorem Inv.storeNext {value : Option NodeId}
    (isPc : w.pc t = .storeNext call node i value) :
    Inv ({ w with memory := w.memory.setNext node i value }.setPc t (.setPred call node i)) lists := by
  obtain ⟨ready, linking, checked, rfl⟩ := inv.here isPc
  have unlinked : node ∉ lists i := fun mem => Nat.lt_irrefl i ((linking.levels i).mp mem)
  have owns : (w.pc t).node = some node := by rw [isPc]; rfl
  obtain ⟨levels, extends_, position⟩ :=
    SkipInsert.store_extends inv.sound.levels linking.notHead unlinked (call.succs i)
  have known : Known (w.memory.setNext node i (call.succs i)) lists (.setPred call node i) :=
    ⟨ready.mono inv.sound.levels extends_,
      ⟨linking.notHead, linking.key, linking.level, linking.levels⟩,
      checked.mono ready.recorded ready.bounded fun pred j _ _ on => position j pred on,
      setNext_same ..⟩
  refine inv.change rfl ((inv.sound.stay levels).release fun other isOther => owns.trans isOther)
    extends_ ?_ (fun other level _ on => position level other on) known
    (inv.own isPc fun _ => Iff.rfl) (fun _ _ _ => Iff.rfl) (inv.returned.mono extends_) inv.found
  intro u other isU isOwner
  rw [← owns]
  exact inv.sound.foreign other isU isOwner

theorem Inv.setPred (isPc : w.pc t = .setPred call node i)
    (isPred : call.preds i = some pred) :
    ∃ longer,
      (i + 1 < call.height → Inv ({ w with
        memory := w.memory.setNext pred i (some node)
        linked := w.linked ++ [(i, node)] }.setPc t (.loadNext call node (i + 1))) longer) ∧
      (¬ i + 1 < call.height → Inv ({ w with
        memory := w.memory.setNext pred i (some node)
        linked := w.linked ++ [(i, node)] }.setPc t (.release call node 0 none)) longer) := by
  obtain ⟨ready, linking, checked, stored⟩ := inv.here isPc
  have owns : (w.pc t).node = some node := by rw [isPc]; rfl
  have inRange : i < kMaxHeight := Nat.lt_of_lt_of_le linking.level ready.bounded
  obtain ⟨on, before⟩ := ready.recorded.place (Nat.zero_le i) inRange isPred
  have link : w.memory.next pred i = call.succs i :=
    checked i pred (Nat.le_refl i) linking.level isPred
  obtain ⟨longer, levels, extends_, members⟩ := SkipInsert.link_extends inv.sound.levels on
    linking.notHead linking.levels (stored.trans link.symm) (linking.key ▸ before) (by
      intro target isTarget
      rw [linking.key]
      exact ready.greater i target inRange (link.symm.trans isTarget))
  have locked : w.lock pred = some t := by
    rw [inv.locks pred t, isPc]
    exact ⟨i, linking.level, isPred⟩
  have kept : ∀ other level, w.lock other ≠ some t → On head lists level other →
      (w.memory.setNext pred i (some node)).next other level = w.memory.next other level := by
    intro other level unlocked _
    rw [setNext_node]
    rintro rfl
    exact unlocked locked
  have foreign : ∀ u, u ≠ t → ∀ other, (w.pc u).node = some other → some node ≠ some other := by
    intro u isU other isOwner
    rw [← owns]
    exact inv.sound.foreign isU other isOwner
  have linked := inv.sound.link (t := t) levels extends_ owns
    ((members i).mpr (Nat.lt_succ_self i))
  refine ⟨longer, fun more => ?_, fun last => ?_⟩
  · have known : Known (w.memory.setNext pred i (some node)) longer (.loadNext call node (i + 1)) := by
      refine ⟨ready.mono inv.sound.levels extends_, ⟨linking.notHead, linking.key, more, members⟩, ?_⟩
      intro j other above below isOther
      rw [setNext_level _ _ _ _ _ (by omega)]
      exact checked j other (by omega) below isOther
    exact inv.change rfl (linked.release fun other isOther => owns.trans isOther) extends_ foreign
      kept known (inv.own isPc fun _ => Iff.rfl) (fun _ _ _ => Iff.rfl)
      (inv.returned.mono extends_) inv.found
  · have known : Known (w.memory.setNext pred i (some node)) longer (.release call node 0 none) :=
      ⟨ready.recorded.mono inv.sound.levels extends_, ready.bounded, rfl,
        (members 0).mpr (Nat.succ_pos i), linking.key⟩
    refine inv.change rfl (linked.release nofun) extends_ foreign kept known
      (inv.own isPc fun other => ⟨?_, ?_⟩) (fun _ _ _ => Iff.rfl) (inv.returned.mono extends_)
      inv.found
    · rintro ⟨j, -, below, isOther, -⟩
      exact ⟨j, below, isOther⟩
    · rintro ⟨j, below, isOther⟩
      exact ⟨j, Nat.zero_le j, below, isOther, nofun⟩

/-! ### Get -/

theorem Inv.getLoad (isPc : w.pc t = .getLoad get level x) :
    Inv (w.setPc t (.getCompare get level x (w.memory.next x level))) lists := by
  obtain ⟨answers, on, before⟩ := inv.here isPc
  refine inv.go isPc ⟨answers, on, before, fun node link => (inv.sound.levels.next_mem on link).1, ?_⟩
    nofun fun _ => Iff.rfl
  rintro rfl entry mem isKey
  obtain ⟨inList, key⟩ := answers entry mem
  have before' : Before w.memory head x (w.memory.key entry.2) := by
    rw [key, isKey]
    exact before
  obtain ⟨node, link, least⟩ := inv.sound.levels.next_least on inList before'
  refine ⟨node, link, least.imp_right fun less => ?_⟩
  rwa [key, isKey] at less

theorem Inv.getDescend (isPc : w.pc t = .getCompare get level x next)
    (above : ∀ node, next = some node → ¬ w.memory.key node < get.key) :
    Inv (w.setPc t (getDescend get x next level)) lists := by
  obtain ⟨answers, on, before, -, found⟩ := inv.here isPc
  cases level with
  | zero =>
    refine inv.go isPc ⟨answers, fun entry mem isKey => ?_⟩ nofun fun _ => Iff.rfl
    obtain ⟨node, isNext, rfl | less⟩ := found rfl entry mem isKey
    · exact isNext
    · exact absurd less (above node isNext)
  | succ level =>
    refine inv.go isPc ⟨answers, ?_, before⟩ nofun fun _ => Iff.rfl
    exact on.imp_right (inv.sound.levels.below level x)

theorem Inv.getCompare (isPc : w.pc t = .getCompare get level x next) :
    Inv (w.setPc t (getCompareNext w.memory get level x next)) lists := by
  cases next with
  | none => exact inv.getDescend isPc nofun
  | some next =>
    by_cases less : w.memory.key next < get.key
    · obtain ⟨answers, -, -, target, -⟩ := inv.here isPc
      rw [getCompareNext, if_pos less]
      exact inv.go isPc ⟨answers, .inr (target next rfl), .inr less⟩ nofun fun _ => Iff.rfl
    · rw [getCompareNext, if_neg less]
      exact inv.getDescend isPc fun node isNext => Option.some.inj isNext ▸ less

theorem Inv.getTest {x : Option NodeId} (isPc : w.pc t = .getTest get x) :
    Inv (w.getReturn t get x) lists := by
  obtain ⟨answers, found⟩ := inv.here isPc
  have gone : Inv (w.setPc t .idle) lists :=
    inv.go isPc trivial nofun fun _ => Iff.rfl
  have answer : ∀ result, (∀ entry ∈ get.earlier, entry.1 = get.key → result = some entry.2) →
      Inv { w.setPc t .idle with found := w.found ++ [⟨get, result⟩] } lists := by
    intro result right
    refine ⟨gone.sound, gone.known, gone.locks, gone.returned, ?_⟩
    intro other mem
    rcases List.mem_append.mp mem with was | last
    · exact inv.found other was
    · rw [List.mem_singleton.mp last]
      exact right
  cases x with
  | none => exact answer none found
  | some x =>
    refine answer _ fun entry mem isKey => ?_
    obtain rfl := Option.some.inj (found entry mem isKey)
    rw [if_pos ((answers entry mem).2.trans isKey).symm]

/-! ### Every step -/

theorem Inv.advance (taken : advance w t = some w') :
    ∃ longer, Inv w' longer := by
  unfold FineGrainLock.advance at taken
  cases isPc : w.pc t with
  | idle | newNode call => simp [isPc] at taken
  | load call level x =>
    simp only [isPc, Option.some.injEq] at taken
    exact ⟨lists, taken ▸ inv.load isPc⟩
  | compare call level x next =>
    simp only [isPc, Option.some.injEq] at taken
    exact ⟨lists, taken ▸ inv.compare isPc⟩
  | test call x =>
    simp only [isPc, Option.some.injEq] at taken
    exact ⟨lists, taken ▸ inv.test isPc⟩
  | lock call i prevpred =>
    simp only [isPc, Option.bind_eq_bind, Option.bind_eq_some_iff] at taken
    obtain ⟨pred, isPred, taken⟩ := taken
    split at taken
    · rename_i old
      cases taken
      exact ⟨lists, inv.lockSame isPc isPred old⟩
    split at taken
    · rename_i free
      cases taken
      exact ⟨lists, inv.lock isPc isPred free⟩
    · cases taken
  | validate call i prevpred =>
    simp only [isPc, Option.bind_eq_bind, Option.bind_eq_some_iff] at taken
    obtain ⟨pred, isPred, taken⟩ := taken
    split at taken
    · rename_i valid
      obtain ⟨next, last⟩ := inv.valid isPc isPred valid
      split at taken
      · rename_i more
        cases taken
        exact ⟨lists, next more⟩
      · rename_i isLast
        cases taken
        exact ⟨lists, last isLast⟩
    · cases taken
      exact ⟨lists, inv.invalid isPc⟩
  | unlock call i prevpred =>
    simp only [isPc] at taken
    split at taken
    · rename_i more
      simp only [Option.bind_eq_bind, Option.bind_eq_some_iff] at taken
      obtain ⟨pred, isPred, taken⟩ := taken
      cases taken
      exact ⟨lists, inv.unlock isPc more isPred⟩
    · rename_i done
      cases taken
      exact ⟨lists, inv.retry isPc done⟩
  | loadNext call node i =>
    simp only [isPc, Option.bind_eq_bind, Option.bind_eq_some_iff] at taken
    obtain ⟨pred, isPred, taken⟩ := taken
    cases taken
    exact ⟨lists, inv.loadNext isPc isPred⟩
  | storeNext call node i value =>
    simp only [isPc, Option.some.injEq] at taken
    exact ⟨lists, taken ▸ inv.storeNext isPc⟩
  | setPred call node i =>
    simp only [isPc, Option.bind_eq_bind, Option.bind_eq_some_iff] at taken
    obtain ⟨pred, isPred, taken⟩ := taken
    obtain ⟨longer, next, last⟩ := inv.setPred isPc isPred
    split at taken
    · rename_i more
      cases taken
      exact ⟨longer, next more⟩
    · rename_i isLast
      cases taken
      exact ⟨longer, last isLast⟩
  | release call node i prevpred =>
    simp only [isPc] at taken
    split at taken
    · rename_i more
      simp only [Option.bind_eq_bind, Option.bind_eq_some_iff] at taken
      obtain ⟨pred, isPred, taken⟩ := taken
      cases taken
      exact ⟨lists, inv.releaseRound isPc more isPred⟩
    · rename_i done
      cases taken
      exact ⟨lists, inv.finish isPc done⟩
  | getMax get =>
    simp only [isPc] at taken
    cases taken
    exact ⟨lists, inv.go isPc ⟨inv.here isPc, .inl rfl, .inl rfl⟩ nofun fun _ => Iff.rfl⟩
  | getLoad get level x =>
    simp only [isPc, Option.some.injEq] at taken
    exact ⟨lists, taken ▸ inv.getLoad isPc⟩
  | getCompare get level x next =>
    simp only [isPc, Option.some.injEq] at taken
    exact ⟨lists, taken ▸ inv.getCompare isPc⟩
  | getTest get x =>
    simp only [isPc, Option.some.injEq] at taken
    exact ⟨lists, taken ▸ inv.getTest isPc⟩

theorem Inv.step {act : Act Key} (taken : step w act = some w') :
    ∃ longer, Inv w' longer := by
  cases act with
  | getWithInsert t key height =>
    simp only [FineGrainLock.step] at taken
    split at taken
    · rename_i isPc
      split at taken
      · rename_i bounds
        cases taken
        refine ⟨lists, inv.go isPc ?_ nofun fun _ => Iff.rfl⟩
        exact .start bounds.1 bounds.2
      · cases taken
    · cases taken
  | get t key =>
    simp only [FineGrainLock.step] at taken
    split at taken
    · rename_i isPc
      cases taken
      exact ⟨lists, inv.go isPc inv.returned nofun fun _ => Iff.rfl⟩
    · cases taken
  | malloc t node =>
    simp only [FineGrainLock.step] at taken
    split at taken
    · rename_i call isPc
      split at taken
      · cases taken
      · rename_i free
        cases taken
        exact ⟨lists, inv.newNode isPc (by simpa using free)⟩
    · cases taken
  | advance t => exact inv.advance taken

/-! ### No deadlock -/

theorem Inv.descending (waits : WaitsFor w t pred) :
    ∃ u, w.pc u ≠ .idle ∧ ∀ node, WaitsFor w u node → rank lists node < rank lists pred := by
  obtain ⟨-, -, -, -, -, -, taken⟩ := waits
  obtain ⟨u, locked⟩ := Option.ne_none_iff_exists'.mp taken
  have holds := (inv.locks pred u).mp locked
  refine ⟨u, ?_, ?_⟩
  · intro isIdle
    rw [isIdle] at holds
    exact holds
  rintro node ⟨call, i, prevpred, isPc, isNode, new, -⟩
  obtain ⟨ready, below, -⟩ := inv.here isPc
  have inRange : i < kMaxHeight := Nat.lt_of_lt_of_le below ready.bounded
  rw [isPc] at holds
  obtain ⟨j, less, isPred⟩ := holds
  obtain ⟨on, -⟩ := ready.recorded.place (Nat.zero_le i) inRange isNode
  obtain ⟨onPred, -⟩ := ready.recorded.place (Nat.zero_le j) (Nat.lt_trans less inRange) isPred
  rcases ready.recorded.descends j i pred node (Nat.zero_le j) less inRange isPred isNode with
    rfl | ⟨notHead, before⟩
  · exact absurd locked (inv.unlocked isPc isNode new)
  · exact rank_lt inv.sound.levels (on.imp_right inv.sound.levels.bottom)
      (inv.sound.levels.bottom (onPred.resolve_left notHead)) before

theorem Inv.progress (active : w.pc t ≠ .idle) :
    ∃ u, w.pc u ≠ .idle ∧ ¬ Waits w u := by
  by_cases waits : Waits w t
  · obtain ⟨pred, waits⟩ := waits
    induction bound : rank lists pred using Nat.strong_induction_on generalizing t pred with
    | _ bound ih =>
      subst bound
      obtain ⟨u, isActive, closer⟩ := inv.descending waits
      by_cases again : Waits w u
      · obtain ⟨node, again⟩ := again
        exact ih _ (closer node again) isActive node again rfl
      · exact ⟨u, isActive, again⟩
  · exact ⟨t, active, waits⟩

theorem Inv.enabled (active : w.pc t ≠ .idle)
    (allocated : ∀ call, w.pc t ≠ .newNode call) (free : ¬ Waits w t) :
    ∃ w', FineGrainLock.advance w t = some w' := by
  unfold FineGrainLock.advance
  cases isPc : w.pc t with
  | idle => exact absurd isPc active
  | newNode call => exact absurd isPc (allocated call)
  | lock call i prevpred =>
    obtain ⟨ready, below, -⟩ := inv.here isPc
    obtain ⟨pred, isPred⟩ := ready.pred below
    simp only [isPred, Option.bind_eq_bind, Option.bind_some]
    split
    · exact ⟨_, rfl⟩
    rename_i new
    have unlocked : w.lock pred = none := by
      by_contra taken
      exact free ⟨pred, call, i, prevpred, isPc, isPred, new, taken⟩
    rw [if_pos unlocked]
    exact ⟨_, rfl⟩
  | validate call i prevpred =>
    obtain ⟨ready, below, -⟩ := inv.here isPc
    obtain ⟨pred, isPred⟩ := ready.pred below
    simp only [isPred, Option.bind_eq_bind, Option.bind_some]
    split
    · split <;> exact ⟨_, rfl⟩
    · exact ⟨_, rfl⟩
  | unlock call i prevpred =>
    obtain ⟨recorded, -, -, -, highest⟩ := inv.here isPc
    simp only
    split
    · obtain ⟨pred, isPred, -⟩ := recorded.pred i (Nat.zero_le i) (by omega)
      simp only [isPred, Option.bind_eq_bind, Option.bind_some]
      exact ⟨_, rfl⟩
    · exact ⟨_, rfl⟩
  | loadNext call node i =>
    obtain ⟨ready, linking, -⟩ := inv.here isPc
    obtain ⟨pred, isPred⟩ := ready.pred linking.level
    simp only [isPred, Option.bind_eq_bind, Option.bind_some]
    exact ⟨_, rfl⟩
  | setPred call node i =>
    obtain ⟨ready, linking, -⟩ := inv.here isPc
    obtain ⟨pred, isPred⟩ := ready.pred linking.level
    simp only [isPred, Option.bind_eq_bind, Option.bind_some]
    split <;> exact ⟨_, rfl⟩
  | release call node i prevpred =>
    obtain ⟨recorded, bounded, -⟩ := inv.here isPc
    simp only
    split
    · rename_i more
      obtain ⟨pred, isPred, -⟩ :=
        recorded.pred i (Nat.zero_le i) (Nat.lt_of_lt_of_le more bounded)
      simp only [isPred, Option.bind_eq_bind, Option.bind_some]
      exact ⟨_, rfl⟩
    · exact ⟨_, rfl⟩
  | _ => exact ⟨_, rfl⟩

theorem Inv.correct : Correct w where
  levels := ⟨lists, inv.sound.levels, inv.sound.levels.sublist, inv.sound.linked⟩
  sameNode first inFirst second inSecond same := by
    obtain ⟨mem, key⟩ := inv.returned first inFirst
    obtain ⟨member', key'⟩ := inv.returned second inSecond
    exact inv.sound.levels.unique_key mem member' (by rw [key, key', same])
  finds := inv.found
  lockedOnce _ _ _ _ _ isPc isPred new := inv.unlocked isPc isPred new
  progress _ active := inv.progress active
  enabled _ active allocated free := inv.enabled active allocated free

end Threads

end Steps

/-- Whatever the interleaving, the levels are sorted lists, `Get` finds what was inserted before it,
and some thread can move. -/
theorem finegrain_correct (memory : Memory NodeId Key) (acts : List (Act Key)) (w : World Key)
    (reached : run step (initial memory) acts = some w) : Correct w := by
  have preserved : ∀ (state : World Key) act next, (∃ lists, Inv state lists) → True →
      step state act = some next → ∃ lists, Inv next lists := by
    rintro state act next ⟨lists, inv⟩ - taken
    exact inv.step taken
  obtain ⟨lists, inv⟩ := run_preserves preserved ⟨_, Inv.initial memory⟩
    (each_of_forall fun _ _ => trivial) reached
  exact inv.correct

def accesses (t : ThreadId) (count : Nat) : List (Act Nat) := List.replicate count (.advance t)

def contended : List (Act Nat) :=
  [.getWithInsert 0 5 2, .getWithInsert 1 5 1] ++ accesses 0 33 ++ accesses 1 33 ++ accesses 0 4 ++
    [.malloc 0 1] ++ accesses 0 9 ++ accesses 1 37 ++ [.get 2 5] ++ accesses 2 4

theorem finegrain_correct_contended :
    ∃ w, run step (initial ⟨fun _ => 0, fun _ _ => some 9⟩) contended = some w ∧
      w.returned = [(5, 1), (5, 1)] ∧ Correct w := by
  have finished : (run step (initial ⟨fun _ => 0, fun _ _ => some 9⟩) contended).map
      World.returned = some [(5, 1), (5, 1)] := by decide +kernel
  obtain ⟨w, reached, returned⟩ := Option.map_eq_some_iff.mp finished
  exact ⟨w, reached, returned, finegrain_correct _ _ w reached⟩

end EunoDb.FineGrainLock
