import BlockchainPG.Storage.SinvalProgress

/-! Others can keep `SIInsertDataEntries` from ending. -/

namespace BlockchainPG.Storage.Sinval

open Lib Function List

variable {Proc : Type u} {Msg : Type v}

/-- Entries that `SICleanupQueue` treats alike, up to a shift of all numbers. -/
structure SimilarEntry (shift : Int) (entry entry' : ProcState Proc) : Prop where
  pid : entry.procPid = entry'.procPid
  reset : entry.resetState = entry'.resetState
  live : entry.resetState = false → entry.signaled = entry'.signaled ∧ entry.nextMsgNum = entry'.nextMsgNum + shift

/-- Queues that behave alike. -/
structure Similar (seg seg' : SISeg Proc Msg) : Prop where
  count : seg.maxMsgNum - seg.minMsgNum = seg'.maxMsgNum - seg'.minMsgNum
  threshold : seg.nextThreshold = seg'.nextThreshold
  last : seg.lastBackend = seg'.lastBackend
  entries : ∀ index < seg.lastBackend,
    SimilarEntry (seg.maxMsgNum - seg'.maxMsgNum) (seg.procState index) (seg'.procState index)

structure SimilarScan (shift : Int) (last : Nat) (scan scan' : Scan Proc) : Prop where
  min : scan.min = scan'.min + shift
  minsig : scan.minsig = scan'.minsig + shift
  needSig : scan.needSig = scan'.needSig
  entries : ∀ index < last, SimilarEntry shift (scan.procState index) (scan'.procState index)

theorem scanBackend_similar (lowbound : Int) (similar : SimilarScan shift last scan scan') (inside : index < last) :
    SimilarScan shift last (scanBackend (lowbound + shift) scan index) (scanBackend lowbound scan' index) := by
  obtain ⟨min, minsig, needSig, entries⟩ := similar
  obtain ⟨pid, reset, live⟩ := entries index inside
  unfold scanBackend
  dsimp only
  rw [pid, reset]
  by_cases ignored : ((scan'.procState index).procPid.isNone || (scan'.procState index).resetState) = true
  · constructor <;> grind
  · rw [if_neg ignored, if_neg ignored]
    have fine : (scan.procState index).resetState = false := by
      grind
    obtain ⟨-, next⟩ := live fine
    by_cases far : (scan'.procState index).nextMsgNum < lowbound
    · rw [if_pos far, if_pos (by omega)]
      refine ⟨min, minsig, needSig, fun other below => ?_⟩
      by_cases same : other = index
      · constructor <;> grind
      · grind
    · constructor <;> grind

theorem scan_similar (lowbound : Int) {indices : List Nat} (similar : SimilarScan shift last scan scan')
    (inside : ∀ index ∈ indices, index < last) :
    SimilarScan shift last (indices.foldl (scanBackend (lowbound + shift)) scan)
      (indices.foldl (scanBackend lowbound) scan') := by
  induction indices generalizing scan scan' with
  | nil => exact similar
  | cons index rest ih =>
    grind [scanBackend_similar]

theorem siCleanupQueue_view (seg : SISeg Proc Msg) (minFree : Nat) : ∃ down,
    (siCleanupQueue seg minFree).1.maxMsgNum = seg.maxMsgNum - down ∧
    (siCleanupQueue seg minFree).1.minMsgNum = (scanBackends seg minFree).min - down ∧
    (siCleanupQueue seg minFree).1.nextThreshold = threshold (seg.maxMsgNum - (scanBackends seg minFree).min) ∧
    (siCleanupQueue seg minFree).1.lastBackend = seg.lastBackend ∧
    (siCleanupQueue seg minFree).2 = (scanBackends seg minFree).needSig ∧
    ∀ index < seg.lastBackend, (siCleanupQueue seg minFree).1.procState index =
      { (scanBackends seg minFree).procState index with
        nextMsgNum := ((scanBackends seg minFree).procState index).nextMsgNum - down
        signaled := if (scanBackends seg minFree).needSig = some index then true
          else ((scanBackends seg minFree).procState index).signaled } := by
  unfold siCleanupQueue
  dsimp only
  generalize scanBackends seg minFree = scan
  obtain ⟨down, seg', same, max, min, last, entries⟩ : ∃ down seg', (if scan.min ≥ msgNumWraparound then
        renumber { seg with procState := scan.procState, minMsgNum := scan.min }
      else { seg with procState := scan.procState, minMsgNum := scan.min }) = seg' ∧
      seg'.maxMsgNum = seg.maxMsgNum - down ∧ seg'.minMsgNum = scan.min - down ∧
      seg'.lastBackend = seg.lastBackend ∧ ∀ index < seg.lastBackend, seg'.procState index =
        { scan.procState index with nextMsgNum := (scan.procState index).nextMsgNum - down } := by
    split
    · exact ⟨msgNumWraparound, _, rfl, rfl, rfl, rfl, fun index below => if_pos below⟩
    · exact ⟨0, _, rfl, by simp⟩
  rw [same]
  cases signal : scan.needSig with
  | none =>
    grind
  | some target =>
    grind

theorem Similar.trans (first : Similar seg seg') (second : Similar seg' seg'') : Similar seg seg'' := by
  refine ⟨first.count.trans second.count, first.threshold.trans second.threshold, first.last.trans second.last,
    fun index below => ?_⟩
  obtain ⟨pid, reset, live⟩ := first.entries index below
  obtain ⟨pid', reset', live'⟩ := second.entries index (by rw [← first.last]; exact below)
  constructor <;> grind

theorem Similar.clean (similar : Similar seg seg') (minFree : Nat) :
    Similar (siCleanupQueue seg minFree).1 (siCleanupQueue seg' minFree).1 ∧
      (siCleanupQueue seg minFree).2 = (siCleanupQueue seg' minFree).2 := by
  have scans : SimilarScan (seg.maxMsgNum - seg'.maxMsgNum) seg.lastBackend (scanBackends seg minFree)
      (scanBackends seg' minFree) := by
    have starts : SimilarScan (seg.maxMsgNum - seg'.maxMsgNum) seg.lastBackend
        ⟨seg.procState, seg.maxMsgNum, seg.maxMsgNum - sigThreshold, none⟩
        ⟨seg'.procState, seg'.maxMsgNum, seg'.maxMsgNum - sigThreshold, none⟩ :=
      ⟨by simp only; omega, by simp only; omega, rfl, similar.entries⟩
    have folded := scan_similar (seg'.maxMsgNum - maxNumMessages + minFree) starts
      fun index (mem : index ∈ range seg.lastBackend) => mem_range.mp mem
    grind [scanBackends, last]
  obtain ⟨down, max, min, threshold, last, needSig, entries⟩ := siCleanupQueue_view seg minFree
  obtain ⟨down', max', min', threshold', last', needSig', entries'⟩ := siCleanupQueue_view seg' minFree
  have sameMin := scans.min
  refine ⟨⟨by omega, ?_, by rw [last, last', similar.last], fun index below => ?_⟩,
    by rw [needSig, needSig', scans.needSig]⟩
  · rw [threshold, threshold']
    congr 1
    omega
  · rw [last] at below
    obtain ⟨pid, reset, live⟩ := scans.entries index below
    constructor <;> grind [last, SimilarScan.needSig]

section Rounds

variable [DecidableEq Proc] {s : State Proc Msg}

/-- A process comes by itself to a state with a property. -/
def Leads (s : State Proc Msg) (proc : Proc) (target : State Proc Msg → Prop) : Prop :=
  ∃ n, target (run step s (replicate n (.proceed proc)))

theorem Leads.now (here : target s) : Leads s proc target := ⟨0, here⟩

theorem Leads.next {target : State Proc Msg → Prop} (leads : Leads (s.proceed proc) proc target) :
    Leads s proc target := by
  obtain ⟨n, there⟩ := leads
  exact ⟨n + 1, there⟩

theorem Leads.trans {middle target : State Proc Msg → Prop} (first : Leads s proc middle)
    (second : ∀ s', middle s' → Leads s' proc target) : Leads s proc target := by
  obtain ⟨n, there⟩ := first
  obtain ⟨m, target⟩ := second _ there
  refine ⟨n + m, ?_⟩
  rwa [← replicate_append_replicate, run, foldl_append]

/-- A state in which one process has come to a phase of `SIInsertDataEntries`. -/
def State.put (s : State Proc Msg) (proc : Proc) (phase : Phase Msg) (seg : SISeg Proc Msg)
    (writeLock : Option Proc) (log : List Msg) : State Proc Msg :=
  { s with phase := update s.phase proc phase, seg := seg, writeLock := writeLock, log := log }

theorem put_phase : (s.put proc phase seg writeLock log).phase proc = phase := update_self ..

theorem put_other (ne : other ≠ proc) : (s.put proc phase seg writeLock log).phase other = s.phase other :=
  update_of_ne ne ..

theorem put_move :
    (s.put proc phase seg writeLock log).move proc phase' = s.put proc phase' seg writeLock log := by
  simp only [State.put, State.move, update_idem]

/-- The check of `SIInsertDataEntries`. -/
def crowded (seg : SISeg Proc Msg) (nthistime : Nat) : Prop :=
  seg.maxMsgNum - seg.minMsgNum + nthistime > maxNumMessages ∨ seg.maxMsgNum - seg.minMsgNum ≥ seg.nextThreshold

instance (seg : SISeg Proc Msg) (nthistime : Nat) : Decidable (crowded seg nthistime) :=
  inferInstanceAs (Decidable (_ ∨ _))

omit [DecidableEq Proc] in
theorem Similar.crowded (similar : Similar seg seg') (nthistime : Nat) :
    Sinval.crowded seg nthistime ↔ Sinval.crowded seg' nthistime := by
  unfold Sinval.crowded
  rw [similar.count, similar.threshold]

def makeRoom (seg : SISeg Proc Msg) (nthistime : Nat) : SISeg Proc Msg :=
  if crowded seg nthistime then (siCleanupQueue seg nthistime).1 else seg

def insertGroup (seg : SISeg Proc Msg) (nthistime : Nat) : SISeg Proc Msg :=
  { makeRoom seg nthistime with maxMsgNum := (makeRoom seg nthistime).maxMsgNum + nthistime }

theorem leads_write (s : State Proc Msg) (proc : Proc) (max : Int) (written todo : List Msg)
    (seg : SISeg Proc Msg) (log : List Msg) :
    Leads (s.put proc (.writing max written todo []) seg (some proc) log) proc fun after => ∃ buffer log',
      after = s.put proc .idle { seg with maxMsgNum := max + todo.length, buffer := buffer } none log' := by
  induction todo generalizing max written seg with
  | nil =>
    have publish : (s.put proc (.writing max written [] []) seg (some proc) log).proceed proc =
        s.put proc (.inserting []) { seg with maxMsgNum := max } none (log ++ written) := by
      rw [State.proceed, put_phase]
      simp only [put_move]
      rfl
    have done : (s.put proc (.inserting []) { seg with maxMsgNum := max } none (log ++ written)).proceed proc =
        s.put proc .idle { seg with maxMsgNum := max } none (log ++ written) := by
      rw [State.proceed, put_phase]
      simp only [put_move]
    refine .next (.next (.now ⟨seg.buffer, log ++ written, ?_⟩))
    rw [publish, done, length_nil]
    simp
  | cons msg todo ih =>
    have next : (s.put proc (.writing max written (msg :: todo) []) seg (some proc) log).proceed proc =
        s.put proc (.writing (max + 1) (written ++ [msg]) todo [])
          { seg with buffer := update seg.buffer (place max) msg } (some proc) log := by
      rw [State.proceed, put_phase]
      simp only [put_move]
      rfl
    refine .next ?_
    rw [next]
    refine (ih (max + 1) (written ++ [msg]) _).trans ?_
    rintro after ⟨buffer, log', same⟩
    refine .now ⟨buffer, log', ?_⟩
    grind

theorem leads_checked (room : ¬ crowded seg chunk.length) :
    Leads (s.put proc (.checking chunk []) seg (some proc) log) proc fun after => ∃ buffer log',
      after = s.put proc .idle { seg with maxMsgNum := seg.maxMsgNum + chunk.length, buffer := buffer } none log' := by
  have next : (s.put proc (.checking chunk []) seg (some proc) log).proceed proc =
      s.put proc (.writing seg.maxMsgNum [] chunk []) seg (some proc) log := by
    rw [State.proceed, put_phase]
    simp only [State.check, put_move]
    exact if_neg room
  refine .next ?_
  rw [next]
  exact leads_write ..

omit [DecidableEq Proc] in
theorem cleaned_room (seg : SISeg Proc Msg) (short : n ≤ writeQuantum) : ¬ crowded (siCleanupQueue seg n).1 n := by
  obtain ⟨shift, cleaned⟩ := siCleanupQueue_cleaned seg n
  have threshold := cleaned.threshold
  have room := cleaned.room (by unfold writeQuantum at short; unfold maxNumMessages; omega)
  unfold crowded
  omega

theorem leads_group (s : State Proc Msg) (proc : Proc) (noReaders : s.readers = []) (data : List Msg)
    (nonempty : data ≠ []) (short : data.length ≤ writeQuantum) (seg : SISeg Proc Msg) (log : List Msg) :
    Leads (s.put proc (.inserting data) seg none log) proc fun after => ∃ buffer log',
      after = s.put proc .idle { insertGroup seg data.length with buffer := buffer } none log' := by
  have lock : (s.put proc (.inserting data) seg none log).proceed proc =
      s.put proc (.checking data []) seg (some proc) log := by
    obtain ⟨msg, rest, rfl⟩ := exists_cons_of_ne_nil nonempty
    rw [State.proceed, put_phase]
    simp only [put_move, take_of_length_le short, drop_of_length_le short]
    rfl
  refine .next ?_
  rw [lock]
  unfold insertGroup makeRoom
  by_cases full : crowded seg data.length
  · rw [if_pos full]
    have check : (s.put proc (.checking data []) seg (some proc) log).proceed proc =
        s.put proc (.cleaning data.length (some (data, []))) seg (some proc) log := by
      rw [State.proceed, put_phase]
      simp only [State.check, put_move]
      exact if_pos full
    refine .next ?_
    rw [check]
    by_cases signals : (siCleanupQueue seg data.length).2.isSome = true
    · have clean : (s.put proc (.cleaning data.length (some (data, []))) seg (some proc) log).proceed proc =
          s.put proc (.relocking data []) (siCleanupQueue seg data.length).1 none log := by
        grind [State.proceed, put_phase, State.clean, put_move, State.put]
      have relock : (s.put proc (.relocking data []) (siCleanupQueue seg data.length).1 none log).proceed proc =
          s.put proc (.checking data []) (siCleanupQueue seg data.length).1 (some proc) log := by
        rw [State.proceed, put_phase]
        simp only [put_move]
        rfl
      refine .next ?_
      rw [clean]
      refine .next ?_
      rw [relock]
      exact leads_checked (cleaned_room seg short)
    · have clean : (s.put proc (.cleaning data.length (some (data, []))) seg (some proc) log).proceed proc =
          s.put proc (.checking data []) (siCleanupQueue seg data.length).1 (some proc) log := by
        grind [State.proceed, put_phase, State.clean, put_move, State.put]
      refine .next ?_
      rw [clean]
      exact leads_checked (cleaned_room seg short)
  · rw [if_neg full]
    exact leads_checked full

/-- A state in which one process has come to a phase of `SIGetDataEntries`. -/
def State.readAt (s : State Proc Msg) (proc : Proc) (phase : Phase Msg) (entry : ProcState Proc)
    (readers : List Proc) (received : Proc → List Msg) (complete : Proc → Nat) : State Proc Msg :=
  { s with
    phase := update s.phase proc phase
    seg := { s.seg with procState := update s.seg.procState (s.backend proc) entry }
    readers := readers, received := received, complete := complete }

theorem readAt_phase : (s.readAt proc phase entry readers received complete).phase proc = phase := update_self ..

theorem readAt_own : (s.readAt proc phase entry readers received complete).own proc = entry := update_self ..

theorem leads_read (s : State Proc Msg) (proc : Proc) {max : Int} {n datasize : Nat} {entry : ProcState Proc}
    (received : Proc → List Msg) (complete : Proc → Nat) (below : entry.nextMsgNum ≤ max)
    (room : max - entry.nextMsgNum + (n : Int) < (datasize : Int)) :
    Leads (s.readAt proc (.reading max n datasize called) entry [proc] received complete) proc fun after =>
      ∃ received' complete', after = s.readAt proc .idle { entry with nextMsgNum := max, signaled := false } []
        received' complete' := by
  induction left : (max - entry.nextMsgNum).toNat generalizing entry n received with
  | zero =>
    have arrived : entry.nextMsgNum = max := by omega
    refine .next (.now ⟨received, update complete proc called, ?_⟩)
    rw [State.proceed, readAt_phase]
    simp only [State.read, readAt_own]
    grind [State.setOwn, State.move, State.readAt, update_idem]
  | succ left ih =>
    have next : (s.readAt proc (.reading max n datasize called) entry [proc] received complete).proceed proc =
        s.readAt proc (.reading max (n + 1) datasize called) { entry with nextMsgNum := entry.nextMsgNum + 1 } [proc]
          (update received proc (received proc ++ [s.seg.buffer (place entry.nextMsgNum)])) complete := by
      rw [State.proceed, readAt_phase]
      simp only [State.read, readAt_own]
      rw [if_pos (by omega)]
      simp only [State.setOwn, State.move, State.readAt, update_idem]
    refine .next ?_
    grind

/-- The queue after a backend has read everything. -/
def catchUp (seg : SISeg Proc Msg) (index : Nat) : SISeg Proc Msg :=
  { seg with
    procState := update seg.procState index
      { seg.procState index with nextMsgNum := seg.maxMsgNum, signaled := false } }

theorem get_catchUp (idle : s.phase proc = .idle) (noReaders : s.readers = [])
    (fine : (s.own proc).resetState = false) (below : (s.own proc).nextMsgNum ≤ s.seg.maxMsgNum) :
    ∃ datasize n received complete, run step s (.get proc datasize :: replicate n (.proceed proc)) =
      { s with seg := catchUp s.seg (s.backend proc), received := received, complete := complete } := by
  have start : ∀ datasize, step s (.get proc datasize) =
      { s.move proc (.fetching datasize s.log.length) with readers := [proc] } := by
    intro datasize
    simp only [step, idle, noReaders]
  have same (phase : Phase Msg) : ({ s.move proc phase with readers := [proc] } : State Proc Msg) =
      s.readAt proc phase (s.own proc) [proc] s.received s.complete := by
    simp only [State.move, State.readAt, State.own, update_eq_self]
  have reads : Leads (s.readAt proc (.fetching ((s.seg.maxMsgNum - (s.own proc).nextMsgNum).toNat + 1)
      s.log.length) (s.own proc) [proc] s.received s.complete) proc fun after =>
      ∃ received complete, after = s.readAt proc .idle
        { s.own proc with nextMsgNum := s.seg.maxMsgNum, signaled := false } [] received complete := by
    have fetch {datasize called : Nat} : (s.readAt proc (.fetching datasize called) (s.own proc) [proc] s.received
        s.complete).proceed proc = s.readAt proc (.fetched s.seg.maxMsgNum datasize called) (s.own proc)
          [proc] s.received s.complete := by
      rw [State.proceed, readAt_phase]
      simp only [State.move, State.readAt, update_idem]
    have begin_ {datasize called : Nat} : (s.readAt proc (.fetched s.seg.maxMsgNum datasize called) (s.own proc)
        [proc] s.received s.complete).proceed proc = s.readAt proc (.reading s.seg.maxMsgNum 0 datasize
          called) (s.own proc) [proc] s.received s.complete := by
      grind [State.proceed, readAt_phase, readAt_own, State.move, update_idem]
    refine .next ?_
    rw [fetch]
    refine .next ?_
    rw [begin_]
    exact leads_read s proc _ _ below (by omega)
  obtain ⟨n, received, complete, reached⟩ := reads
  refine ⟨(s.seg.maxMsgNum - (s.own proc).nextMsgNum).toNat + 1, n, received, complete, ?_⟩
  rw [run, foldl_cons, start, same, ← run, reached]
  have idleAgain : update s.phase proc .idle = s.phase := by rw [← idle, update_eq_self]
  simp only [State.readAt, idleAgain, noReaders]
  rfl

/-- A process that has the write lock finds the queue full and gives the lock up to send a signal. -/
theorem giveUp (s : State Proc Msg) (proc : Proc) (noReaders : s.readers = []) (full : crowded seg chunk.length)
    (signals : (siCleanupQueue seg chunk.length).2.isSome = true) (log : List Msg) :
    ((s.put proc (.checking chunk rest) seg (some proc) log).proceed proc).proceed proc =
      s.put proc (.relocking chunk rest) (siCleanupQueue seg chunk.length).1 none log := by
  have check : (s.put proc (.checking chunk rest) seg (some proc) log).proceed proc =
      s.put proc (.cleaning chunk.length (some (chunk, rest))) seg (some proc) log := by
    rw [State.proceed, put_phase]
    simp only [State.check, put_move]
    exact if_pos full
  grind [State.proceed, put_phase, State.clean, put_move, State.put]

theorem firstTurn {msg : Msg} (idle : s.phase proc = .idle) (free : s.writeLock = none) (noReaders : s.readers = [])
    (full : crowded s.seg [msg].length) (signals : (siCleanupQueue s.seg [msg].length).2.isSome = true) :
    run step s [.insert proc [msg], .proceed proc, .proceed proc, .proceed proc] =
      s.put proc (.relocking [msg] []) (siCleanupQueue s.seg [msg].length).1 none s.log := by
  have begins : step s (.insert proc [msg]) = s.put proc (.inserting [msg]) s.seg none s.log := by
    simp only [step, idle, State.move, State.put, ← free]
  have lock : (s.put proc (.inserting [msg]) s.seg none s.log).proceed proc =
      s.put proc (.checking [msg] []) s.seg (some proc) s.log := by
    rw [State.proceed, put_phase]
    simp only [put_move]
    rfl
  show (((step s (.insert proc [msg])).proceed proc).proceed proc).proceed proc = _
  grind [giveUp]

theorem nextTurn (relocks : s.phase proc = .relocking chunk rest) (free : s.writeLock = none)
    (noReaders : s.readers = []) (full : crowded s.seg chunk.length)
    (signals : (siCleanupQueue s.seg chunk.length).2.isSome = true) :
    (run step s [.proceed proc]).writeLock = some proc ∧
      run step s [.proceed proc, .proceed proc, .proceed proc] =
        s.put proc (.relocking chunk rest) (siCleanupQueue s.seg chunk.length).1 none s.log := by
  have lock : s.proceed proc = s.put proc (.checking chunk rest) s.seg (some proc) s.log := by
    rw [State.proceed, relocks]
    simp only [free]
    rfl
  refine ⟨?_, ?_⟩
  · show (s.proceed proc).writeLock = _
    rw [lock]
    rfl
  · show ((s.proceed proc).proceed proc).proceed proc = _
    grind [giveUp]

end Rounds

/-- Three backends, of which the last is in a given phase and the others do nothing. -/
structure Calm (phase : Phase Unit) (seg : SISeg (Fin 3) Unit) (s : State (Fin 3) Unit) : Prop where
  similar : Similar s.seg seg
  free : s.writeLock = none
  readers : s.readers = []
  backend : ∀ proc, s.backend proc = proc.val
  idle : ∀ proc ≠ 2, s.phase proc = .idle
  last : s.phase 2 = phase

/-- What the other two backends do: one inserts 64 messages, one reads everything. -/
inductive Interference where
  | group
  | catchUp

def Interference.apply (seg : SISeg (Fin 3) Unit) : Interference → SISeg (Fin 3) Unit
  | .group => insertGroup seg 64
  | .catchUp => Sinval.catchUp seg 0

/-- The reader is not about to be told to reset. -/
def Interference.enabled (seg : SISeg (Fin 3) Unit) : Interference → Prop
  | .group => True
  | .catchUp =>
    0 < seg.lastBackend ∧ (seg.procState 0).resetState = false ∧ (seg.procState 0).nextMsgNum ≤ seg.maxMsgNum

instance (seg : SISeg (Fin 3) Unit) : ∀ interference, Decidable (Interference.enabled seg interference)
  | .group => inferInstanceAs (Decidable True)
  | .catchUp => inferInstanceAs (Decidable (_ ∧ _ ∧ _))

theorem Similar.group (similar : Similar seg seg') (n : Nat) : Similar (insertGroup seg n) (insertGroup seg' n) := by
  have room : Similar (makeRoom seg n) (makeRoom seg' n) := by
    grind [makeRoom, crowded, clean]
  obtain ⟨count, threshold, last, entries⟩ := room
  constructor <;> grind [insertGroup]

theorem Similar.catchUp (similar : Similar seg seg') (index : Nat) (inside : index < seg.lastBackend) :
    Similar (Sinval.catchUp seg index) (Sinval.catchUp seg' index) := by
  refine ⟨similar.count, similar.threshold, similar.last, fun other below => ?_⟩
  obtain ⟨pid, reset, _⟩ := similar.entries index inside
  by_cases same : other = index
  · subst same
    simp only [Sinval.catchUp, update_self]
    exact ⟨pid, reset, fun _ => ⟨rfl, by simp only; omega⟩⟩
  · simp only [Sinval.catchUp, update_of_ne same]
    exact similar.entries other below

theorem Calm.interfere (calm : Calm phase seg s) (interference : Interference) (enabled : interference.enabled seg) :
    ∃ events, (∀ event ∈ events, event.proc ≠ 2) ∧ Calm phase (interference.apply seg) (run step s events) := by
  cases interference with
  | group =>
    have begins : step s (.insert 1 (replicate 64 ())) =
        s.put 1 (.inserting (replicate 64 ())) s.seg none s.log := by
      simp only [step, calm.idle 1 (by decide), State.move, State.put, ← calm.free]
    obtain ⟨n, buffer, log, reached⟩ := leads_group s 1 calm.readers (replicate 64 ()) (by decide)
      (by decide) s.seg s.log
    refine ⟨.insert 1 (replicate 64 ()) :: replicate n (.proceed 1), ?_, ?_⟩
    · intro event mem
      rcases mem_cons.mp mem with rfl | mem
      · exact Ne.symm (by decide : (2 : Fin 3) ≠ 1)
      · rw [eq_of_mem_replicate mem]
        exact Ne.symm (by decide : (2 : Fin 3) ≠ 1)
    · rw [run, foldl_cons, begins, ← run, reached, length_replicate]
      have ne : (2 : Fin 3) ≠ 1 := by decide
      have similar := calm.similar.group 64
      refine ⟨⟨similar.count, similar.threshold, similar.last, similar.entries⟩, rfl, calm.readers, calm.backend,
        fun proc other => ?_, (put_other ne).trans calm.last⟩
      grind [put_phase, put_other, idle]
  | catchUp =>
    obtain ⟨inside, fine, below⟩ := enabled
    have inside' : 0 < s.seg.lastBackend := by rw [calm.similar.last]; exact inside
    obtain ⟨_, reset, live⟩ := calm.similar.entries 0 inside'
    have own : s.own 0 = s.seg.procState 0 := congrArg s.seg.procState (calm.backend 0)
    have fine' : (s.own 0).resetState = false := by rw [own, reset, fine]
    have below' : (s.own 0).nextMsgNum ≤ s.seg.maxMsgNum := by
      grind
    obtain ⟨datasize, n, received, complete, reached⟩ :=
      get_catchUp (calm.idle 0 (by decide)) calm.readers fine' below'
    refine ⟨.get 0 datasize :: replicate n (.proceed 0), ?_, ?_⟩
    · intro event mem
      rcases mem_cons.mp mem with rfl | mem
      · exact Ne.symm (by decide : (2 : Fin 3) ≠ 0)
      · rw [eq_of_mem_replicate mem]
        exact Ne.symm (by decide : (2 : Fin 3) ≠ 0)
    · rw [reached, calm.backend 0]
      exact ⟨calm.similar.catchUp 0 inside', calm.free, calm.readers, calm.backend, calm.idle, calm.last⟩

/-- A series of interferences can be carried out one after the other. -/
def Enabled (seg : SISeg (Fin 3) Unit) : List Interference → Prop
  | [] => True
  | interference :: rest => interference.enabled seg ∧ Enabled (interference.apply seg) rest

instance decidableEnabled (seg : SISeg (Fin 3) Unit) : ∀ series, Decidable (Enabled seg series)
  | [] => inferInstanceAs (Decidable True)
  | interference :: rest =>
    have := decidableEnabled (interference.apply seg) rest
    inferInstanceAs (Decidable (interference.enabled seg ∧ _))

theorem Calm.series {series : List Interference} (calm : Calm phase seg s) (enabled : Enabled seg series) :
    ∃ events, (∀ event ∈ events, event.proc ≠ 2) ∧
      Calm phase (series.foldl Interference.apply seg) (run step s events) := by
  induction series generalizing seg s with
  | nil => exact ⟨[], nofun, calm⟩
  | cons interference rest ih =>
    obtain ⟨first, quiet, calm⟩ := calm.interfere interference enabled.1
    obtain ⟨second, quiet', calm⟩ := ih calm enabled.2
    refine ⟨first ++ second, ?_, ?_⟩
    · grind
    · rw [run, foldl_append]
      exact calm

def GivesUp (seg : SISeg (Fin 3) Unit) : Prop := crowded seg 1 ∧ (siCleanupQueue seg 1).2.isSome = true

instance (seg : SISeg (Fin 3) Unit) : Decidable (GivesUp seg) := inferInstanceAs (Decidable (_ ∧ _))

theorem Calm.turned (calm : Calm phase seg s) : Calm (.relocking [()] []) (siCleanupQueue seg 1).1
      (s.put 2 (.relocking [()] []) (siCleanupQueue s.seg 1).1 none s.log) where
  similar := (calm.similar.clean 1).1
  free := rfl
  readers := calm.readers
  backend := calm.backend
  idle := fun proc other => (put_other other).trans (calm.idle proc other)
  last := put_phase ..

theorem Calm.givesUp (calm : Calm phase seg s) (givesUp : GivesUp seg) :
    crowded s.seg 1 ∧ (siCleanupQueue s.seg 1).2.isSome = true :=
  ⟨(calm.similar.crowded 1).mpr givesUp.1, by rw [(calm.similar.clean 1).2]; exact givesUp.2⟩

def joined : SISeg (Fin 3) Unit where
  minMsgNum := 0
  maxMsgNum := 0
  nextThreshold := cleanupMin
  lastBackend := 3
  maxBackends := 3
  buffer := fun _ => ()
  procState := fun index =>
    ⟨if index = 0 then some 0 else if index = 1 then some 1 else if index = 2 then some 2 else none, 0, false, false⟩

/-- What comes before the call of the third backend: it falls behind and is to be reset. -/
def before : List Interference :=
  replicate 32 .group ++ [.catchUp] ++ replicate 33 .group ++ [.catchUp] ++ replicate 36 .group

/-- What comes before every further turn of the third backend. -/
def between : List Interference := .catchUp :: replicate 36 .group

/-- The queue when the third backend has given up the write lock for the first time. -/
def starving : SISeg (Fin 3) Unit := (siCleanupQueue (before.foldl Interference.apply joined) 1).1

theorem before_enabled : Enabled joined before ∧ GivesUp (before.foldl Interference.apply joined) := by
  decide +kernel

theorem between_enabled : Enabled starving between ∧ GivesUp (between.foldl Interference.apply starving) := by
  decide +kernel

/-- The queue after the next turn. -/
def starved : SISeg (Fin 3) Unit := (siCleanupQueue (between.foldl Interference.apply starving) 1).1

theorem between_similar : Similar starved starving := by
  have entries : ∀ index < starved.lastBackend,
      (starved.procState index).procPid = (starving.procState index).procPid ∧
      (starved.procState index).resetState = (starving.procState index).resetState ∧
      ((starved.procState index).resetState = false →
        (starved.procState index).signaled = (starving.procState index).signaled ∧
        (starved.procState index).nextMsgNum =
          (starving.procState index).nextMsgNum + (starved.maxMsgNum - starving.maxMsgNum)) := by
    decide +kernel
  exact ⟨by decide +kernel, by decide +kernel, by decide +kernel, fun index below =>
    ⟨(entries index below).1, (entries index below).2.1, (entries index below).2.2⟩⟩

theorem joined_calm : Calm .idle joined
    (run step (.init 3 fun _ => ()) [.start (0 : Fin 3), .start 1, .start 2] : State (Fin 3) Unit) := by
  refine ⟨⟨by decide, by decide, by decide, fun index below => ?_⟩, rfl, rfl, by decide, ?_, rfl⟩
  · have inside : index < 3 := below
    match index, inside with
    | 0, _ | 1, _ | 2, _ => exact ⟨rfl, rfl, fun _ => ⟨rfl, rfl⟩⟩
  · intro proc other
    match proc, other with
    | 0, _ | 1, _ => rfl
    | 2, other => exact absurd rfl other

theorem Calm.round (calm : Calm (.relocking [()] []) starving s) : ∃ events,
    ((∀ event ∈ events, event = .proceed 2 ∨ event.proc ≠ 2) ∧
      ∃ earlier later, events = earlier ++ .proceed 2 :: later ∧
        (run step s (earlier ++ [.proceed 2])).writeLock = some 2) ∧
    Calm (.relocking [()] []) starving (run step s events) := by
  obtain ⟨events, quiet, calm'⟩ := calm.series between_enabled.1
  obtain ⟨full, signals⟩ := calm'.givesUp between_enabled.2
  obtain ⟨locked, after⟩ := nextTurn calm'.last calm'.free calm'.readers full signals
  refine ⟨events ++ [.proceed 2, .proceed 2, .proceed 2], ⟨?_, events, _, rfl, ?_⟩, ?_⟩
  · grind
  · rw [run_append]
    exact locked
  · rw [run_append, after]
    have turned := calm'.turned
    exact { turned with similar := turned.similar.trans between_similar }

end BlockchainPG.Storage.Sinval
