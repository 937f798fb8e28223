import BlockchainPG.Lib.Runs
import Mathlib

/-! The shared invalidation queue, `sinvaladt.c`. -/

namespace BlockchainPG.Storage.Sinval

section

open Lib Function

def maxNumMessages : Int := 4096

def msgNumWraparound : Int := maxNumMessages * 262144

def cleanupMin : Int := maxNumMessages / 2

def cleanupQuantum : Int := maxNumMessages / 16

def sigThreshold : Int := maxNumMessages / 2

def writeQuantum : Nat := 64

/-- `ProcState`, where no process stands for a `procPid` of zero. -/
structure ProcState (Proc : Type u) where
  procPid : Option Proc
  nextMsgNum : Int
  resetState : Bool
  signaled : Bool

structure SISeg (Proc : Type u) (Msg : Type v) where
  minMsgNum : Int
  maxMsgNum : Int
  nextThreshold : Int
  lastBackend : Nat
  maxBackends : Nat
  buffer : Nat → Msg
  procState : Nat → ProcState Proc

def place (msgNum : Int) : Nat := (msgNum % maxNumMessages).toNat

section Backends

variable {Proc : Type u} {Msg : Type v}

/-- What `CreateSharedInvalidationState` leaves, for any contents of the buffer. -/
def createSharedInvalidationState (maxBackends : Nat) (buffer : Nat → Msg) : SISeg Proc Msg where
  minMsgNum := 0
  maxMsgNum := 0
  nextThreshold := cleanupMin
  lastBackend := 0
  maxBackends := maxBackends
  buffer := buffer
  procState := fun _ => ⟨none, 0, false, false⟩

/-- The entry for a new backend; the array may be full. -/
def freeEntry (seg : SISeg Proc Msg) : Option Nat :=
  match (List.range seg.lastBackend).find? fun index => (seg.procState index).procPid.isNone with
  | some index => some index
  | none => if seg.lastBackend < seg.maxBackends then some seg.lastBackend else none

/-- `SharedInvalBackendInit` at an entry. -/
def sharedInvalBackendInit (seg : SISeg Proc Msg) (proc : Proc) (index : Nat) : SISeg Proc Msg :=
  { seg with
    lastBackend := if index = seg.lastBackend then seg.lastBackend + 1 else seg.lastBackend
    procState := update seg.procState index ⟨some proc, seg.maxMsgNum, false, false⟩ }

def lastActive (procState : Nat → ProcState Proc) : Nat → Nat
  | 0 => 0
  | i + 1 => if (procState i).procPid.isSome then i + 1 else lastActive procState i

def cleanupInvalidationState (seg : SISeg Proc Msg) (index : Nat) : SISeg Proc Msg :=
  let procState := update seg.procState index ⟨none, 0, false, false⟩
  { seg with
    procState := procState
    lastBackend := lastActive procState seg.lastBackend }

end Backends

section Cleanup

variable {Proc : Type u} {Msg : Type v}

/-- The variables of the loop of `SICleanupQueue`. -/
structure Scan (Proc : Type u) where
  procState : Nat → ProcState Proc
  min : Int
  minsig : Int
  needSig : Option Nat

def scanBackend (lowbound : Int) (scan : Scan Proc) (index : Nat) : Scan Proc :=
  let backend := scan.procState index
  if backend.procPid.isNone || backend.resetState then scan
  else if backend.nextMsgNum < lowbound then
    { scan with procState := update scan.procState index { backend with resetState := true } }
  else
    let signals := backend.nextMsgNum < scan.minsig ∧ backend.signaled = false
    { scan with
      min := if backend.nextMsgNum < scan.min then backend.nextMsgNum else scan.min
      minsig := if signals then backend.nextMsgNum else scan.minsig
      needSig := if signals then some index else scan.needSig }

def scanBackends (seg : SISeg Proc Msg) (minFree : Nat) : Scan Proc :=
  (List.range seg.lastBackend).foldl (scanBackend (seg.maxMsgNum - maxNumMessages + minFree))
    ⟨seg.procState, seg.maxMsgNum, seg.maxMsgNum - sigThreshold, none⟩

/-- All message numbers start again from lower values. -/
def renumber (seg : SISeg Proc Msg) : SISeg Proc Msg :=
  { seg with
    minMsgNum := seg.minMsgNum - msgNumWraparound
    maxMsgNum := seg.maxMsgNum - msgNumWraparound
    procState := fun index =>
      if index < seg.lastBackend then
        { seg.procState index with nextMsgNum := (seg.procState index).nextMsgNum - msgNumWraparound }
      else seg.procState index }

/-- The fullness at which the queue is to be cleaned again. -/
def threshold (numMsgs : Int) : Int :=
  if numMsgs < cleanupMin then cleanupMin else (numMsgs / cleanupQuantum + 1) * cleanupQuantum

/-- `SICleanupQueue` up to the release of the locks, with the backend that gets a signal. -/
def siCleanupQueue (seg : SISeg Proc Msg) (minFree : Nat) : SISeg Proc Msg × Option Nat :=
  let scan := scanBackends seg minFree
  let seg := { seg with procState := scan.procState, minMsgNum := scan.min }
  let seg := if scan.min ≥ msgNumWraparound then renumber seg else seg
  let seg := { seg with nextThreshold := threshold (seg.maxMsgNum - seg.minMsgNum) }
  match scan.needSig with
  | none => (seg, none)
  | some index =>
    ({ seg with procState := update seg.procState index { seg.procState index with signaled := true } }, some index)

end Cleanup

/-- Where a process is in the routines. `called` is how many messages had been inserted
when `SIGetDataEntries` was called, and `written` are the messages that are in the buffer
but not yet below `maxMsgNum`. -/
inductive Phase (Msg : Type v) where
  | away
  | idle
  | inserting (data : List Msg)
  | checking (chunk rest : List Msg)
  | cleaning (minFree : Nat) (caller : Option (List Msg × List Msg))
  | relocking (chunk rest : List Msg)
  | writing (max : Int) (written todo rest : List Msg)
  | fetching (datasize called : Nat)
  | fetched (max : Int) (datasize called : Nat)
  | reading (max : Int) (n datasize called : Nat)

/-- The queue, the holder of `SInvalWriteLock` and those of `SInvalReadLock` in shared
mode, and the processes. The last four fields record what happened: all messages
inserted so far, how many there were when a backend joined or was last told to reset,
what it has received since then, and how many messages had been inserted when it last
called `SIGetDataEntries` and got fewer than it had room for. -/
structure State (Proc : Type u) (Msg : Type v) where
  seg : SISeg Proc Msg
  writeLock : Option Proc
  readers : List Proc
  phase : Proc → Phase Msg
  backend : Proc → Nat
  log : List Msg
  start : Proc → Nat
  received : Proc → List Msg
  complete : Proc → Nat

inductive Event (Proc : Type u) (Msg : Type v) where
  | start (proc : Proc)
  | exit (proc : Proc)
  | insert (proc : Proc) (data : List Msg)
  | get (proc : Proc) (datasize : Nat)
  | cleanup (proc : Proc) (minFree : Nat)
  | proceed (proc : Proc)

variable {Proc : Type u} {Msg : Type v} [DecidableEq Proc]

def State.init (maxBackends : Nat) (buffer : Nat → Msg) : State Proc Msg where
  seg := createSharedInvalidationState maxBackends buffer
  writeLock := none
  readers := []
  phase := fun _ => .away
  backend := fun _ => 0
  log := []
  start := fun _ => 0
  received := fun _ => []
  complete := fun _ => 0

namespace State

def move (s : State Proc Msg) (proc : Proc) (phase : Phase Msg) : State Proc Msg :=
  { s with phase := update s.phase proc phase }

/-- The entry of a process. -/
def own (s : State Proc Msg) (proc : Proc) : ProcState Proc := s.seg.procState (s.backend proc)

def setOwn (s : State Proc Msg) (proc : Proc) (entry : ProcState Proc) : State Proc Msg :=
  { s with seg :=
      { s.seg with procState := update s.seg.procState (s.backend proc) entry } }

/-- Start of a backend under the write lock. -/
def join (s : State Proc Msg) (proc : Proc) : State Proc Msg :=
  match freeEntry s.seg with
  | none => s
  | some index =>
    { s with
      seg := sharedInvalBackendInit s.seg proc index
      phase := update s.phase proc .idle
      backend := update s.backend proc index
      start := update s.start proc s.log.length
      received := update s.received proc []
      complete := update s.complete proc s.log.length }

/-- Exit of a backend under the write lock. -/
def leave (s : State Proc Msg) (proc : Proc) : State Proc Msg :=
  { s.move proc .away with seg := cleanupInvalidationState s.seg (s.backend proc) }

/-- The check of `SIInsertDataEntries` whether there is room. -/
def check (s : State Proc Msg) (proc : Proc) (chunk rest : List Msg) : State Proc Msg :=
  let numMsgs := s.seg.maxMsgNum - s.seg.minMsgNum
  if numMsgs + chunk.length > maxNumMessages ∨ numMsgs ≥ s.seg.nextThreshold then
    s.move proc (.cleaning chunk.length (some (chunk, rest)))
  else s.move proc (.writing s.seg.maxMsgNum [] chunk rest)

/-- `SICleanupQueue` once it has both locks, and the release of the locks. -/
def clean (s : State Proc Msg) (proc : Proc) (minFree : Nat) (caller : Option (List Msg × List Msg)) :
    State Proc Msg :=
  let cleaned := siCleanupQueue s.seg minFree
  match caller with
  | none => { s.move proc .idle with seg := cleaned.1, writeLock := none }
  | some (chunk, rest) =>
    if cleaned.2.isSome then { s.move proc (.relocking chunk rest) with seg := cleaned.1, writeLock := none }
    else { s.move proc (.checking chunk rest) with seg := cleaned.1 }

/-- One round of the loop of `SIGetDataEntries`, or what comes after it. -/
def read (s : State Proc Msg) (proc : Proc) (max : Int) (n datasize called : Nat) : State Proc Msg :=
  let entry := s.own proc
  if n < datasize ∧ entry.nextMsgNum < max then
    { (s.setOwn proc { entry with nextMsgNum := entry.nextMsgNum + 1 }).move proc
        (.reading max (n + 1) datasize called) with
      received := update s.received proc
        (s.received proc ++ [s.seg.buffer (place entry.nextMsgNum)]) }
  else
    { (s.setOwn proc (if entry.nextMsgNum ≥ max then { entry with signaled := false } else entry)).move proc .idle with
      readers := s.readers.erase proc
      complete := if n < datasize then update s.complete proc called else s.complete }

def reset (s : State Proc Msg) (proc : Proc) (max : Int) (called : Nat) : State Proc Msg :=
  { (s.setOwn proc { s.own proc with nextMsgNum := max, resetState := false, signaled := false }).move
      proc .idle with
    readers := s.readers.erase proc
    start := update s.start proc (s.log.length - s.seg.maxMsgNum + max).toNat
    received := update s.received proc []
    complete := update s.complete proc called }

def proceed (s : State Proc Msg) (proc : Proc) : State Proc Msg :=
  match s.phase proc with
  | .away => s
  | .idle => s
  | .inserting [] => s.move proc .idle
  | .inserting data =>
    if s.writeLock.isNone then
      { s.move proc (.checking (data.take writeQuantum) (data.drop writeQuantum)) with writeLock := some proc }
    else s
  | .checking chunk rest => s.check proc chunk rest
  | .cleaning minFree caller => if s.readers.isEmpty then s.clean proc minFree caller else s
  | .relocking chunk rest =>
    if s.writeLock.isNone then { s.move proc (.checking chunk rest) with writeLock := some proc } else s
  | .writing max written (msg :: todo) rest =>
    { s.move proc (.writing (max + 1) (written ++ [msg]) todo rest) with
      seg := { s.seg with buffer := update s.seg.buffer (place max) msg } }
  | .writing max written [] rest =>
    { s.move proc (.inserting rest) with
      seg := { s.seg with maxMsgNum := max }
      writeLock := none
      log := s.log ++ written }
  | .fetching datasize called => s.move proc (.fetched s.seg.maxMsgNum datasize called)
  | .fetched max datasize called =>
    if (s.own proc).resetState then s.reset proc max called
    else s.move proc (.reading max 0 datasize called)
  | .reading max n datasize called => s.read proc max n datasize called

end State

/-- A step; a process that cannot take a lock stays where it is. -/
def step (s : State Proc Msg) : Event Proc Msg → State Proc Msg
  | .start proc =>
    match s.phase proc with
    | .away => if s.writeLock.isNone then s.join proc else s
    | _ => s
  | .exit proc =>
    match s.phase proc with
    | .idle => if s.writeLock.isNone then s.leave proc else s
    | _ => s
  | .insert proc data =>
    match s.phase proc with
    | .idle => s.move proc (.inserting data)
    | _ => s
  | .get proc datasize =>
    match s.phase proc with
    | .idle =>
      { s.move proc (.fetching datasize s.log.length) with readers := proc :: s.readers }
    | _ => s
  | .cleanup proc minFree =>
    match s.phase proc with
    | .idle =>
      if s.writeLock.isNone then { s.move proc (.cleaning minFree none) with writeLock := some proc } else s
    | _ => s
  | .proceed proc => s.proceed proc

end

open Function

variable {Proc : Type u} {Msg : Type v}

/-- The entry is looked at by `SICleanupQueue`. -/
def ProcState.Live (entry : ProcState Proc) : Prop := entry.procPid ≠ none ∧ entry.resetState = false

/-- What a part of the loop of `SICleanupQueue` does. -/
structure Scanned (lowbound : Int) (before after : Scan Proc) (indices : List Nat) : Prop where
  pid : ∀ index, (after.procState index).procPid = (before.procState index).procPid
  kept : ∀ index, (after.procState index).resetState = false → after.procState index = before.procState index
  min_le : after.min ≤ before.min
  below : ∀ index ∈ indices, (after.procState index).Live →
    after.min ≤ (after.procState index).nextMsgNum ∧ lowbound ≤ (after.procState index).nextMsgNum
  bound : ∀ low ≤ before.min, (∀ index ∈ indices, (after.procState index).Live →
    low ≤ (after.procState index).nextMsgNum) → low ≤ after.min

theorem scanBackend_scanned (lowbound : Int) (scan : Scan Proc) (index : Nat) :
    Scanned lowbound scan (scanBackend lowbound scan index) [index] := by
  unfold scanBackend
  dsimp only
  split
  · next ignored =>
    refine ⟨fun _ => rfl, fun _ _ => rfl, Int.le_refl _, fun other mem live => ?_, fun _ low _ => low⟩
    obtain rfl := List.mem_singleton.mp mem
    simp [live.1, live.2] at ignored
  · split
    · next far =>
      have others (other : Nat) (ne : other ≠ index) : update scan.procState index
          { scan.procState index with resetState := true } other = scan.procState other :=
        update_of_ne ne ..
      refine ⟨fun other => ?_, fun other fine => ?_, Int.le_refl _, fun other mem live => ?_, fun _ low _ => low⟩
      · grind
      · grind
      · obtain rfl := List.mem_singleton.mp mem
        have reset := live.2
        simp only [update_self] at reset
        cases reset
    · next counted near =>
      have live : (scan.procState index).Live := by
        rw [Bool.or_eq_true, not_or, Option.isNone_iff_eq_none, Bool.not_eq_true] at counted
        exact counted
      constructor <;> grind

theorem Scanned.trans (first : Scanned lowbound before middle indices) (second : Scanned lowbound middle after rest)
    (distinct : ∀ index ∈ indices, index ∉ rest)
    (untouched : ∀ index ∉ rest, after.procState index = middle.procState index) :
    Scanned lowbound before after (indices ++ rest) := by
  refine ⟨fun index => (second.pid index).trans (first.pid index), fun index fine => ?_,
    Int.le_trans second.min_le first.min_le, fun index mem live => ?_, fun low start bounds => ?_⟩
  · grind [kept]
  · rcases List.mem_append.mp mem with earlier | later
    · have same := untouched index (distinct index earlier)
      rw [same] at live ⊢
      have := first.below index earlier live
      have := second.min_le
      omega
    · exact second.below index later live
  · refine second.bound low (first.bound low start fun index earlier live => ?_) fun index later live =>
      bounds index (List.mem_append_right _ later) live
    grind

theorem scanBackend_other (lowbound : Int) (scan : Scan Proc) (ne : other ≠ index) :
    (scanBackend lowbound scan index).procState other = scan.procState other := by
  unfold scanBackend
  dsimp only
  split
  · rfl
  · split
    · exact update_of_ne ne ..
    · rfl

theorem scan_scanned (lowbound : Int) (scan : Scan Proc) (indices : List Nat) (distinct : indices.Nodup) :
    Scanned lowbound scan (indices.foldl (scanBackend lowbound) scan) indices ∧
      ∀ index ∉ indices, (indices.foldl (scanBackend lowbound) scan).procState index = scan.procState index := by
  induction indices generalizing scan with
  | nil =>
    refine ⟨⟨fun _ => rfl, fun _ _ => rfl, Int.le_refl _, nofun, fun _ low _ => low⟩, fun _ _ => rfl⟩
  | cons index rest ih =>
    obtain ⟨outside, distinct⟩ := List.nodup_cons.mp distinct
    obtain ⟨after, untouched⟩ := ih (scanBackend lowbound scan index) distinct
    refine ⟨(scanBackend_scanned lowbound scan index).trans after
      (fun other mem => by rwa [List.mem_singleton.mp mem]) untouched, fun other unlisted => ?_⟩
    grind [scanBackend_other]

/-- What `SICleanupQueue` does: some entries are told to reset, the others bound
`minMsgNum`, and all numbers may be lower by a multiple of the buffer size. -/
structure Cleaned (seg seg' : SISeg Proc Msg) (minFree : Nat) (shift : Int) : Prop where
  wraps : shift = 0 ∧ seg'.minMsgNum < msgNumWraparound ∨ shift = msgNumWraparound ∧ 0 ≤ seg'.minMsgNum
  last : seg'.lastBackend = seg.lastBackend
  most : seg'.maxBackends = seg.maxBackends
  buffer : seg'.buffer = seg.buffer
  max : seg'.maxMsgNum = seg.maxMsgNum - shift
  min_le : seg'.minMsgNum ≤ seg'.maxMsgNum
  pid : ∀ index, (seg'.procState index).procPid = (seg.procState index).procPid
  kept : ∀ index < seg.lastBackend, (seg'.procState index).resetState = false →
    (seg.procState index).resetState = false ∧
      (seg'.procState index).nextMsgNum = (seg.procState index).nextMsgNum - shift
  below : ∀ index < seg.lastBackend, (seg'.procState index).Live → seg'.minMsgNum ≤ (seg'.procState index).nextMsgNum
  bound : ∀ low ≤ seg.maxMsgNum, (∀ index < seg.lastBackend, (seg.procState index).Live →
    low ≤ (seg.procState index).nextMsgNum) → low ≤ seg'.minMsgNum + shift
  room : (minFree : Int) ≤ maxNumMessages → seg'.maxMsgNum - seg'.minMsgNum + minFree ≤ maxNumMessages
  threshold : seg'.maxMsgNum - seg'.minMsgNum < seg'.nextThreshold

theorem threshold_gt (numMsgs : Int) : numMsgs < threshold numMsgs := by
  unfold threshold cleanupMin cleanupQuantum maxNumMessages
  split <;> omega

theorem cleaned_of_scan (seg : SISeg Proc Msg) (minFree : Nat) : let scan := scanBackends seg minFree
    let seg' := { seg with procState := scan.procState, minMsgNum := scan.min }
    let seg'' := if scan.min ≥ msgNumWraparound then renumber seg' else seg'
    ∃ shift, Cleaned seg { seg'' with nextThreshold := threshold (seg''.maxMsgNum - seg''.minMsgNum) } minFree
      shift := by
  intro scan seg' seg''
  obtain ⟨scanned, -⟩ : Scanned (seg.maxMsgNum - maxNumMessages + minFree)
      ⟨seg.procState, seg.maxMsgNum, seg.maxMsgNum - sigThreshold, none⟩ scan (List.range seg.lastBackend) ∧ _ :=
    scan_scanned _ _ _ List.nodup_range
  have min_le : scan.min ≤ seg.maxMsgNum := scanned.min_le
  have kept : ∀ index, (scan.procState index).resetState = false → scan.procState index = seg.procState index :=
    scanned.kept
  have room : (minFree : Int) ≤ maxNumMessages → seg.maxMsgNum - maxNumMessages + minFree ≤ scan.min := by
    intro small
    refine scanned.bound _ (by dsimp only; omega) fun index mem live => ?_
    exact (scanned.below index mem live).2
  have bound : ∀ low ≤ seg.maxMsgNum, (∀ index < seg.lastBackend, (seg.procState index).Live →
      low ≤ (seg.procState index).nextMsgNum) → low ≤ scan.min := by
    intro low start bounds
    refine scanned.bound low start fun index mem live => ?_
    have same := kept index live.2
    grind
  by_cases wraps : scan.min ≥ msgNumWraparound
  · have renumbered : seg'' = renumber seg' := if_pos wraps
    have entry (index : Nat) (below : index < seg.lastBackend) : seg''.procState index =
        { scan.procState index with nextMsgNum := (scan.procState index).nextMsgNum - msgNumWraparound } := by
      rw [renumbered]
      exact if_pos below
    rw [renumbered] at entry ⊢
    refine ⟨msgNumWraparound, Or.inr ⟨rfl, ?_⟩, rfl, rfl, rfl, rfl, ?_, fun index => ?_, fun index below fine => ?_,
      fun index below live => ?_, fun low start bounds => ?_, fun small => ?_, threshold_gt _⟩
    · show 0 ≤ scan.min - msgNumWraparound
      omega
    · show scan.min - msgNumWraparound ≤ seg.maxMsgNum - msgNumWraparound
      omega
    · show ((renumber seg').procState index).procPid = _
      rw [← scanned.pid index]
      unfold renumber
      dsimp only
      split <;> rfl
    · grind
    · have live : ((renumber seg').procState index).Live := live
      rw [entry index below] at live
      show scan.min - msgNumWraparound ≤ ((renumber seg').procState index).nextMsgNum
      rw [entry index below]
      have := (scanned.below index (List.mem_range.mpr below) live).1
      dsimp only
      omega
    · show low ≤ scan.min - msgNumWraparound + msgNumWraparound
      have := bound low start bounds
      omega
    · show seg.maxMsgNum - msgNumWraparound - (scan.min - msgNumWraparound) + minFree ≤ maxNumMessages
      have := room small
      omega
  · have same : seg'' = seg' := if_neg wraps
    rw [same]
    refine ⟨0, Or.inl ⟨rfl, by show scan.min < _; omega⟩, rfl, rfl, rfl, (Int.sub_zero _).symm, min_le, scanned.pid,
      fun index below fine => ?_, fun index below live => ?_, fun low start bounds => ?_, fun small => ?_,
        threshold_gt _⟩
    · grind
    · exact (scanned.below index (List.mem_range.mpr below) live).1
    · grind
    · grind

theorem siCleanupQueue_cleaned (seg : SISeg Proc Msg) (minFree : Nat) :
    ∃ shift, Cleaned seg (siCleanupQueue seg minFree).1 minFree shift := by
  obtain ⟨shift, cleaned⟩ := cleaned_of_scan seg minFree
  refine ⟨shift, ?_⟩
  unfold siCleanupQueue
  dsimp only at cleaned ⊢
  split
  · exact cleaned
  · next index _ =>
    generalize (if (scanBackends seg minFree).min ≥ msgNumWraparound then
        renumber { seg with
          procState := (scanBackends seg minFree).procState, minMsgNum := (scanBackends seg minFree).min }
      else { seg with
        procState := (scanBackends seg minFree).procState, minMsgNum := (scanBackends seg minFree).min }) =
          seg' at cleaned ⊢
    have entry (other : Nat) : ∃ flag, update seg'.procState index
        { seg'.procState index with signaled := true } other = { seg'.procState other with signaled := flag } := by
      by_cases same : other = index
      · subst same
        exact ⟨true, update_self ..⟩
      · exact ⟨_, update_of_ne same ..⟩
    refine ⟨cleaned.wraps, cleaned.last, cleaned.most, cleaned.buffer, cleaned.max, cleaned.min_le, fun other => ?_,
      fun other below fine => ?_, fun other below live => ?_, cleaned.bound, cleaned.room, cleaned.threshold⟩
    · obtain ⟨flag, same⟩ := entry other
      simp only [same]
      exact cleaned.pid other
    · obtain ⟨flag, same⟩ := entry other
      simp only [same] at fine ⊢
      exact cleaned.kept other below fine
    · obtain ⟨flag, same⟩ := entry other
      simp only [same, ProcState.Live] at live ⊢
      exact cleaned.below other below live

end BlockchainPG.Storage.Sinval
