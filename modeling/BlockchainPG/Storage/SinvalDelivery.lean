import BlockchainPG.Storage.Sinval

/-! Each backend receives the messages inserted after it joined. -/

namespace BlockchainPG.Storage.Sinval

open Lib Function List

variable {Proc : Type u} {Msg : Type v} [DecidableEq Proc] {s s' : State Proc Msg}

namespace Phase

def holdsWrite : Phase Msg → Bool
  | .checking .. | .cleaning .. | .writing .. => true
  | _ => false

def holdsRead : Phase Msg → Bool
  | .fetching .. | .fetched .. | .reading .. => true
  | _ => false

def active : Phase Msg → Bool
  | .away => false
  | _ => true

end Phase

/-- How many messages had been inserted when message number 0 was. -/
def State.base (s : State Proc Msg) : Int := s.log.length - s.seg.maxMsgNum

/-- The numbers are in bounds, and the buffer holds the messages between them. -/
structure Window (s : State Proc Msg) : Prop where
  low : 0 ≤ s.seg.minMsgNum
  order : s.seg.minMsgNum ≤ s.seg.maxMsgNum
  size : s.seg.maxMsgNum ≤ s.seg.minMsgNum + maxNumMessages
  wrap : s.seg.minMsgNum < msgNumWraparound
  based : 0 ≤ s.base
  stored : ∀ k, s.seg.minMsgNum ≤ k → k < s.seg.maxMsgNum →
    s.log[(s.base + k).toNat]? = some (s.seg.buffer (place k))

/-- The locks are held by the processes whose phase says so. -/
structure Locks (s : State Proc Msg) : Prop where
  write : ∀ proc, (s.phase proc).holdsWrite = true ↔ s.writeLock = some proc
  read : ∀ proc, (s.phase proc).holdsRead = true ↔ proc ∈ s.readers
  distinct : s.readers.Nodup

/-- The active backends have entries of their own. -/
structure Entries (s : State Proc Msg) : Prop where
  active : ∀ proc, (s.phase proc).active = true →
    s.backend proc < s.seg.lastBackend ∧ (s.own proc).procPid = some proc
  owner : ∀ index proc, (s.seg.procState index).procPid = some proc →
    (s.phase proc).active = true ∧ s.backend proc = index

/-- A backend has received what it should have. -/
structure Delivered (s : State Proc Msg) (proc : Proc) : Prop where
  position : (s.own proc).resetState = false → s.seg.minMsgNum ≤ (s.own proc).nextMsgNum ∧
    (s.own proc).nextMsgNum ≤ s.seg.maxMsgNum ∧
    s.base + (s.own proc).nextMsgNum = s.start proc + (s.received proc).length
  began : s.start proc ≤ s.log.length
  received : s.received proc <+: s.log.drop (s.start proc)
  complete : s.complete proc ≤ s.start proc + (s.received proc).length

/-- What is known about the variables of a routine. -/
def PhaseOk (s : State Proc Msg) (proc : Proc) : Phase Msg → Prop
  | .checking chunk _ | .relocking chunk _ => chunk.length ≤ writeQuantum
  | .cleaning minFree (some (chunk, _)) => minFree = chunk.length ∧ chunk.length ≤ writeQuantum
  | .writing max written todo _ => max = s.seg.maxMsgNum + written.length ∧
      max + todo.length ≤ s.seg.minMsgNum + maxNumMessages ∧
      ∀ i < written.length, written[i]? = some (s.seg.buffer (place (s.seg.maxMsgNum + i)))
  | .fetching _ called => called ≤ s.log.length
  | .fetched max _ called => s.seg.minMsgNum ≤ max ∧ max ≤ s.seg.maxMsgNum ∧ called ≤ s.base + max ∧
      ((s.own proc).resetState = false → (s.own proc).nextMsgNum ≤ max)
  | .reading max _ _ called => max ≤ s.seg.maxMsgNum ∧ called ≤ s.base + max ∧
      (s.own proc).resetState = false ∧ (s.own proc).nextMsgNum ≤ max
  | _ => True

structure Sound (s : State Proc Msg) : Prop where
  window : Window s
  locks : Locks s
  entries : Entries s
  delivered : ∀ proc, (s.phase proc).active = true → Delivered s proc
  phases : ∀ proc, PhaseOk s proc (s.phase proc)

omit [DecidableEq Proc] in
theorem PhaseOk.frame (ok : PhaseOk s proc phase) (writes : phase.holdsWrite = false)
    (min : s'.seg.minMsgNum = s.seg.minMsgNum) (max : s.seg.maxMsgNum ≤ s'.seg.maxMsgNum)
    (base : s'.base = s.base) (own : s'.own proc = s.own proc) : PhaseOk s' proc phase := by
  have log : s.log.length ≤ s'.log.length := by
    unfold State.base at base
    omega
  cases phase with
  | checking | cleaning | writing => cases writes
  | fetching => exact Nat.le_trans ok log
  | fetched =>
    grind [PhaseOk]
  | reading =>
    grind [PhaseOk]
  | _ => exact ok

omit [DecidableEq Proc] in
theorem PhaseOk.congr (ok : PhaseOk s proc phase)
    (min : s'.seg.minMsgNum = s.seg.minMsgNum) (max : s'.seg.maxMsgNum = s.seg.maxMsgNum)
    (buffer : s'.seg.buffer = s.seg.buffer) (log : s'.log = s.log)
    (own : s'.own proc = s.own proc) : PhaseOk s' proc phase := by
  have base : s'.base = s.base := by rw [State.base, max, log, State.base]
  unfold PhaseOk at ok ⊢
  rw [min, max, buffer, log, own, base]
  exact ok

omit [DecidableEq Proc] in
/-- A process that is away has no entry. -/
theorem PhaseOk.congr_active (ok : PhaseOk s proc (s.phase proc)) (min : s'.seg.minMsgNum = s.seg.minMsgNum)
    (max : s'.seg.maxMsgNum = s.seg.maxMsgNum) (buffer : s'.seg.buffer = s.seg.buffer)
    (log : s'.log = s.log) (own : (s.phase proc).active = true → s'.own proc = s.own proc) :
    PhaseOk s' proc (s.phase proc) := by
  by_cases active : (s.phase proc).active = true
  · exact ok.congr min max buffer log (own active)
  · cases phase : s.phase proc with
    | away => trivial
    | _ => simp [phase, Phase.active] at active

omit [DecidableEq Proc] in
theorem Entries.ne (entries : Entries s) (active : (s.phase proc).active = true)
    (active' : (s.phase other).active = true) (ne : other ≠ proc) : s.backend other ≠ s.backend proc := by
  intro same
  have first := (entries.active proc active).2
  have second := (entries.active other active').2
  grind [State.own]

theorem active_update (same : phase.active = (s.phase proc).active) (other : Proc) :
    (update s.phase proc phase other).active = (s.phase other).active := by
  by_cases own : other = proc
  · rw [own, update_self, same]
  · rw [update_of_ne own]

theorem Sound.relabel (sound : Sound s) (proc : Proc) (phase : Phase Msg)
    (active : phase.active = (s.phase proc).active) (locks : Locks { s with
      phase := update s.phase proc phase, writeLock := writeLock, readers := readers })
    (ok : PhaseOk s proc phase) :
    Sound { s with
      phase := update s.phase proc phase, writeLock := writeLock, readers := readers } := by
  have same := active_update active
  refine ⟨⟨sound.window.1, sound.window.2, sound.window.3, sound.window.4, sound.window.5, sound.window.6⟩, locks,
    ⟨fun other isActive => ?_, fun index other owns => ?_⟩, fun other isActive => ?_, fun other => ?_⟩
  · rw [same] at isActive
    exact sound.entries.active other isActive
  · simp only [same]
    exact sound.entries.owner index other owns
  · rw [same] at isActive
    obtain ⟨position, began, received, complete⟩ := sound.delivered other isActive
    exact ⟨position, began, received, complete⟩
  · by_cases own : other = proc
    · subst own
      simp only [update_self]
      exact ok.congr rfl rfl rfl rfl rfl
    · simp only [update_of_ne own]
      exact (sound.phases other).congr rfl rfl rfl rfl rfl

omit [DecidableEq Proc] in
theorem Locks.of_others (locks : Locks s) (proc : Proc) (others : ∀ other ≠ proc, s'.phase other = s.phase other)
    (writes : (s'.phase proc).holdsWrite = true ↔ s'.writeLock = some proc)
    (otherWrites : ∀ other ≠ proc, (s'.writeLock = some other ↔ s.writeLock = some other))
    (reads : (s'.phase proc).holdsRead = true ↔ proc ∈ s'.readers)
    (otherReads : ∀ other ≠ proc, (other ∈ s'.readers ↔ other ∈ s.readers))
    (distinct : s'.readers.Nodup) : Locks s' := by
  refine ⟨fun other => ?_, fun other => ?_, distinct⟩
  · by_cases own : other = proc
    · rw [own]
      exact writes
    · grind [write]
  · by_cases own : other = proc
    · rw [own]
      exact reads
    · grind [read]

theorem Locks.relabel (locks : Locks s) (was : s.phase proc = old)
    (phases : s'.phase = update s.phase proc phase) (writes : phase.holdsWrite = old.holdsWrite)
    (reads : phase.holdsRead = old.holdsRead) (writeLock : s'.writeLock = s.writeLock)
    (readers : s'.readers = s.readers) : Locks s' := by
  refine locks.of_others proc (fun other ne => by rw [phases, update_of_ne ne]) ?_ (fun _ _ => by rw [writeLock]) ?_
    (fun _ _ => by rw [readers]) (readers ▸ locks.distinct)
  · rw [phases, update_self, writes, ← was, writeLock]
    exact locks.write proc
  · rw [phases, update_self, reads, ← was, readers]
    exact locks.read proc

theorem Sound.move {old : Phase Msg} (sound : Sound s) (was : s.phase proc = old) (phase : Phase Msg)
    (active : phase.active = old.active) (writes : phase.holdsWrite = old.holdsWrite)
    (reads : phase.holdsRead = old.holdsRead) (ok : PhaseOk s proc phase) : Sound (s.move proc phase) :=
  sound.relabel proc phase (was ▸ active) (sound.locks.relabel was rfl writes reads rfl rfl) ok

theorem Sound.lock {old : Phase Msg} (sound : Sound s) (was : s.phase proc = old) (phase : Phase Msg)
    (free : s.writeLock = none) (active : phase.active = old.active) (writes : phase.holdsWrite = true)
    (reads : phase.holdsRead = old.holdsRead) (ok : PhaseOk s proc phase) :
    Sound { s.move proc phase with writeLock := some proc } := by
  refine sound.relabel proc phase (was ▸ active) (sound.locks.of_others proc (fun other ne => update_of_ne ne ..)
    ?_ (fun other ne => ?_) ?_ (fun _ _ => Iff.rfl) sound.locks.distinct) ok
  · simp only [update_self, writes]
  · grind
  · simp only [update_self, reads, ← was]
    exact sound.locks.read proc

theorem Sound.get (sound : Sound s) (idle : s.phase proc = .idle) (datasize : Nat) :
    Sound { s.move proc (.fetching datasize s.log.length) with readers := proc :: s.readers } := by
  have outside : proc ∉ s.readers := by
    rw [← sound.locks.read, idle]
    exact Bool.false_ne_true
  refine sound.relabel proc _ (by rw [idle]; rfl) (sound.locks.of_others proc
    (fun other ne => update_of_ne ne ..) ?_ (fun _ _ => Iff.rfl) ?_ (fun other ne => ?_)
    (nodup_cons.mpr ⟨outside, sound.locks.distinct⟩)) (Nat.le_refl _)
  · have before := sound.locks.write proc
    rw [idle] at before
    simp only [update_self]
    exact before
  · simp only [update_self, mem_cons, true_or, iff_true]
    rfl
  · simp [ne]

omit [DecidableEq Proc] in
theorem Sound.noWriter (sound : Sound s) (holds : (s.phase proc).holdsWrite = true) (ne : other ≠ proc) :
    (s.phase other).holdsWrite = false := by
  by_contra holder
  have mine := (sound.locks.write other).mp (by simpa using holder)
  have his := (sound.locks.write proc).mp holds
  exact ne (Option.some.inj (mine.symm.trans his))

theorem place_ne (less : a < b) (near : b < a + maxNumMessages) : place a ≠ place b := by
  unfold place maxNumMessages at *
  omega

theorem Sound.write {max : Int} (sound : Sound s) (writes : s.phase proc = .writing max written (msg :: todo) rest) :
    Sound { s.move proc (.writing (max + 1) (written ++ [msg]) todo rest) with
      seg := { s.seg with buffer := update s.seg.buffer (place max) msg } } := by
  obtain ⟨low, order, size, wrap, based, stored⟩ := sound.window
  have holds := sound.phases proc
  rw [writes] at holds
  obtain ⟨next, room, inBuffer⟩ := holds
  rw [length_cons] at room
  have same := active_update (show (Phase.writing (max + 1) (written ++ [msg]) todo rest : Phase Msg).active =
    (s.phase proc).active by rw [writes]; rfl)
  refine ⟨⟨low, order, size, wrap, based, fun k above below => ?_⟩, ?_,
    ⟨fun other active => ?_, fun index other owns => ?_⟩, fun other active => ?_, fun other => ?_⟩
  · have unchanged : update s.seg.buffer (place max) msg (place k) = s.seg.buffer (place k) :=
      update_of_ne (place_ne (by simp only at below; omega) (by simp only at above; omega)) ..
    simp only [unchanged]
    exact stored k above below
  · exact sound.locks.relabel writes rfl rfl rfl rfl rfl
  · simp only [State.move, same] at active
    exact sound.entries.active other active
  · simp only [State.move, same]
    exact sound.entries.owner index other owns
  · simp only [State.move, same] at active
    obtain ⟨position, began, received, complete⟩ := sound.delivered other active
    exact ⟨position, began, received, complete⟩
  · by_cases own : other = proc
    · subst own
      simp only [State.move, update_self]
      refine ⟨by rw [next, length_append, length_singleton]; push_cast; omega, by simp only; omega, fun i below => ?_⟩
      rw [length_append, length_singleton] at below
      by_cases last : i = written.length
      · grind [getElem?_concat_length]
      · rw [getElem?_append_left (by omega), inBuffer i (by omega)]
        simp only
        rw [update_of_ne (place_ne (by omega) (by omega))]
    · simp only [State.move, update_of_ne own]
      exact (sound.phases other).frame (sound.noWriter (by rw [writes]; rfl) own) rfl (Int.le_refl _) rfl rfl

theorem Sound.publish {max : Int} (sound : Sound s) (writes : s.phase proc = .writing max written [] rest) :
    Sound { s.move proc (.inserting rest) with
      seg := { s.seg with maxMsgNum := max }
      writeLock := none
      log := s.log ++ written } := by
  obtain ⟨low, order, -, wrap, based, stored⟩ := sound.window
  have holds := sound.phases proc
  rw [writes] at holds
  obtain ⟨next, room, inBuffer⟩ := holds
  rw [length_nil] at room
  have base : State.base { s.move proc (.inserting rest) with
      seg := { s.seg with maxMsgNum := max }, writeLock := none, log := s.log ++ written } = s.base := by
    simp only [State.base, length_append]
    omega
  have same := active_update (show (Phase.inserting rest : Phase Msg).active =
    (s.phase proc).active by rw [writes]; rfl)
  have logged : (s.log.length : Int) = s.base + s.seg.maxMsgNum := by
    unfold State.base
    omega
  refine ⟨⟨low, by simp only; omega, by simp only; omega, wrap, by rw [base]; exact based, fun k above below => ?_⟩, ?_,
    ⟨fun other active => ?_, fun index other owns => ?_⟩, fun other active => ?_, fun other => ?_⟩
  · rw [base]
    simp only at above below ⊢
    by_cases old : k < s.seg.maxMsgNum
    · grind
    · rw [getElem?_append_right (by omega)]
      have found := inBuffer (k - s.seg.maxMsgNum).toNat (by omega)
      rw [show (s.base + k).toNat - s.log.length = (k - s.seg.maxMsgNum).toNat by omega, found]
      rw [show s.seg.maxMsgNum + ((k - s.seg.maxMsgNum).toNat : Int) = k by omega]
  · refine sound.locks.of_others proc (fun other ne => update_of_ne ne ..) ?_ (fun other ne => ?_) ?_
      (fun _ _ => Iff.rfl) sound.locks.distinct
    · simp only [State.move, update_self]
      exact ⟨nofun, nofun⟩
    · have his := (sound.locks.write proc).mp (by rw [writes]; rfl)
      grind
    · have before := sound.locks.read proc
      rw [writes] at before
      simp only [State.move, update_self]
      exact before
  · simp only [State.move, same] at active
    exact sound.entries.active other active
  · simp only [State.move, same]
    exact sound.entries.owner index other owns
  · simp only [State.move, same] at active
    obtain ⟨position, began, received, complete⟩ := sound.delivered other active
    refine ⟨fun fine => ?_, ?_, ?_, complete⟩
    · obtain ⟨above, below, count⟩ := position fine
      rw [base]
      exact ⟨above, by simp only; exact Int.le_trans below (by omega), count⟩
    · show s.start other ≤ (s.log ++ written).length
      rw [length_append]
      omega
    · grind [State.move]
  · by_cases own : other = proc
    · subst own
      simp only [State.move, update_self]
      trivial
    · simp only [State.move, update_of_ne own]
      exact (sound.phases other).frame (sound.noWriter (by rw [writes]; rfl) own) rfl (by simp only; omega) base rfl

/-- Where `SICleanupQueue` leaves its caller. -/
theorem Sound.clean_eq (sound : Sound s) (cleans : s.phase proc = .cleaning minFree caller) :
    ∃ phase writeLock, s.clean proc minFree caller =
      { s.move proc phase with seg := (siCleanupQueue s.seg minFree).1, writeLock := writeLock } ∧
      phase.active = true ∧ (∀ s, PhaseOk s proc phase) ∧ phase.holdsRead = false ∧
      (phase.holdsWrite = true ∧ writeLock = some proc ∨ phase.holdsWrite = false ∧ writeLock = none) := by
  have ok := sound.phases proc
  have mine := (sound.locks.write proc).mp (by rw [cleans]; rfl)
  rw [cleans] at ok
  unfold State.clean
  dsimp only
  rcases caller with _ | ⟨chunk, rest⟩
  · exact ⟨.idle, none, rfl, rfl, fun _ => trivial, rfl, Or.inr ⟨rfl, rfl⟩⟩
  · dsimp only
    split
    · exact ⟨.relocking chunk rest, none, rfl, rfl, fun _ => ok.2, rfl, Or.inr ⟨rfl, rfl⟩⟩
    · exact ⟨.checking chunk rest, some proc, by rw [← mine]; rfl, rfl, fun _ => ok.2, rfl, Or.inl ⟨rfl, rfl⟩⟩

omit [DecidableEq Proc] in
/-- A backend that need not reset has read everything below `minMsgNum`. -/
theorem Sound.min_le_next (sound : Sound s) (live : (s.seg.procState index).Live) :
    s.seg.minMsgNum ≤ (s.seg.procState index).nextMsgNum := by
  obtain ⟨owner, owns⟩ := Option.ne_none_iff_exists'.mp live.1
  obtain ⟨ownerActive, rfl⟩ := sound.entries.owner index owner owns
  exact ((sound.delivered owner ownerActive).position live.2).1

theorem Sound.clean (sound : Sound s) (cleans : s.phase proc = .cleaning minFree caller)
    (noReaders : s.readers = []) : Sound (s.clean proc minFree caller) := by
  obtain ⟨low, order, size, wrap, based, stored⟩ := sound.window
  obtain ⟨shift, cleaned⟩ := siCleanupQueue_cleaned s.seg minFree
  obtain ⟨phase, writeLock, same, active, chunkOk, reads, locked⟩ := sound.clean_eq cleans
  rw [same]
  generalize (siCleanupQueue s.seg minFree).1 = seg at cleaned ⊢
  have base : State.base { s.move proc phase with seg := seg, writeLock := writeLock } = s.base + shift := by
    have := cleaned.max
    simp only [State.base, State.move]
    omega
  have aligned : shift % maxNumMessages = 0 ∧ 0 ≤ shift := by
    rcases cleaned.wraps with ⟨none, -⟩ | ⟨some, -⟩
    · rw [none]
      exact ⟨rfl, Int.le_refl _⟩
    · rw [some]
      exact ⟨rfl, by decide⟩
  have sameActive := active_update (active.trans (show true = (s.phase proc).active by rw [cleans]; rfl))
  have above := cleaned.bound s.seg.minMsgNum order fun _ _ live => sound.min_le_next live
  have max := cleaned.max
  have min_le := cleaned.min_le
  refine ⟨⟨?_, min_le, ?_, ?_, by rw [base]; omega, fun k low below => ?_⟩, ?_,
    ⟨fun other isActive => ?_, fun index other owns => ?_⟩, fun other isActive => ?_, fun other => ?_⟩
  · rcases cleaned.wraps with ⟨none, -⟩ | ⟨-, nonneg⟩
    · simp only
      omega
    · exact nonneg
  · simp only
    omega
  · simp only
    rcases cleaned.wraps with ⟨-, small⟩ | ⟨some, -⟩
    · exact small
    · unfold msgNumWraparound maxNumMessages at *
      omega
  · have found := stored (k + shift) (by simp only at low; omega) (by simp only at below; omega)
    have samePlace : place (k + shift) = place k := by
      unfold place
      rw [Int.add_emod, aligned.1, Int.add_zero, Int.emod_emod]
    grind [Cleaned.buffer, State.move]
  · refine sound.locks.of_others proc (fun other ne => update_of_ne ne ..) ?_ (fun other ne => ?_) ?_
      (fun _ _ => Iff.rfl) sound.locks.distinct
    · simp only [State.move, update_self]
      grind
    · have his := (sound.locks.write proc).mp (by rw [cleans]; rfl)
      grind
    · simp only [State.move, update_self, reads, noReaders]
      exact ⟨nofun, nofun⟩
  · simp only [State.move, sameActive] at isActive
    obtain ⟨inside, owns⟩ := sound.entries.active other isActive
    exact ⟨by rw [cleaned.last]; exact inside, (cleaned.pid _).trans owns⟩
  · simp only [State.move, sameActive]
    exact sound.entries.owner index other ((cleaned.pid index).symm.trans owns)
  · simp only [State.move, sameActive] at isActive
    obtain ⟨position, began, received, complete⟩ := sound.delivered other isActive
    obtain ⟨inside, owns⟩ := sound.entries.active other isActive
    refine ⟨fun fine => ?_, began, received, complete⟩
    have fine : (seg.procState (s.backend other)).resetState = false := fine
    obtain ⟨before, next⟩ := cleaned.kept _ inside fine
    obtain ⟨-, below, count⟩ := position before
    have isLive : (seg.procState (s.backend other)).Live := ⟨by rw [cleaned.pid, ← State.own, owns]; simp, fine⟩
    have least := cleaned.below _ inside isLive
    grind [State.own, State.move]
  · by_cases own : other = proc
    · subst own
      simp only [State.move, update_self]
      exact chunkOk _
    · have noWrite := sound.noWriter (by rw [cleans]; rfl) own
      have noRead : (s.phase other).holdsRead = false := by
        have := sound.locks.read other
        rw [noReaders] at this
        simpa using this
      have before := sound.phases other
      simp only [State.move, update_of_ne own]
      generalize s.phase other = phase' at noWrite noRead before
      cases phase' with
      | checking | cleaning | writing => cases noWrite
      | fetching | fetched | reading => cases noRead
      | _ => exact before

omit [DecidableEq Proc] in
theorem Entries.inactive (entries : Entries s) (outside : s.seg.lastBackend ≤ index) :
    (s.seg.procState index).procPid = none := by
  by_contra owned
  obtain ⟨owner, owns⟩ := Option.ne_none_iff_exists'.mp owned
  obtain ⟨active, rfl⟩ := entries.owner index owner owns
  have := (entries.active owner active).1
  omega

omit [DecidableEq Proc] in
theorem Entries.freeEntry (entries : Entries s) (free : freeEntry s.seg = some index) :
    (s.seg.procState index).procPid = none ∧ index ≤ s.seg.lastBackend := by
  unfold Sinval.freeEntry at free
  split at free
  · next found =>
    obtain rfl := Option.some.inj free
    have inside := mem_range.mp (mem_of_find?_eq_some found)
    have unused := find?_some found
    exact ⟨by simpa using unused, Nat.le_of_lt inside⟩
  · grind [inactive]

theorem Sound.join (sound : Sound s) (away : s.phase proc = .away) : Sound (s.join proc) := by
  unfold State.join
  split
  · exact sound
  · next index free =>
    obtain ⟨low, order, size, wrap, based, stored⟩ := sound.window
    obtain ⟨unused, inside⟩ := sound.entries.freeEntry free
    have ne (other : Proc) (active : (s.phase other).active = true) : s.backend other ≠ index := by
      intro same
      have := (sound.entries.active other active).2
      rw [State.own, same, unused] at this
      cases this
    have notSelf (other : Proc) (active : (s.phase other).active = true) : other ≠ proc := by
      rintro rfl
      rw [away] at active
      cases active
    have own (other : Proc) (active : (s.phase other).active = true) : update s.seg.procState index
        ⟨some proc, s.seg.maxMsgNum, false, false⟩ (s.backend other) = s.own other :=
      update_of_ne (ne other active) ..
    have inner : s.seg.lastBackend ≤
        if index = s.seg.lastBackend then s.seg.lastBackend + 1 else s.seg.lastBackend := by
      split <;> omega
    refine ⟨⟨low, order, size, wrap, based, stored⟩, ?_, ⟨fun other active => ?_, fun place other owns => ?_⟩,
      fun other active => ?_, fun other => ?_⟩
    · exact sound.locks.relabel away rfl rfl rfl rfl rfl
    · by_cases self : other = proc
      · subst self
        simp only [State.own, sharedInvalBackendInit, update_self, and_true]
        split <;> omega
      · simp only [update_of_ne self] at active
        have before := sound.entries.active other active
        simp only [State.own, sharedInvalBackendInit, update_of_ne self]
        grind
    · simp only [sharedInvalBackendInit] at owns
      by_cases same : place = index
      · rw [same, update_self] at owns
        obtain rfl := Option.some.inj owns
        simp only [update_self, same, and_true]
        rfl
      · rw [update_of_ne same] at owns
        obtain ⟨active, rfl⟩ := sound.entries.owner place other owns
        grind
    · by_cases self : other = proc
      · subst self
        refine ⟨fun _ => ?_, ?_, ?_, ?_⟩
        · simp only [State.own, State.base, sharedInvalBackendInit, update_self, length_nil]
          omega
        all_goals simp
      · simp only [update_of_ne self] at active
        obtain ⟨position, began, received, complete⟩ := sound.delivered other active
        refine ⟨?_, ?_, ?_, ?_⟩
        all_goals simp only [State.own, sharedInvalBackendInit, update_of_ne self]
        · rw [own other active]
          exact position
        · exact began
        · exact received
        · exact complete
    · by_cases self : other = proc
      · subst self
        simp only [update_self]
        trivial
      · simp only [update_of_ne self]
        refine (sound.phases other).congr_active rfl rfl rfl rfl fun active => ?_
        simp only [State.own, sharedInvalBackendInit, update_of_ne self]
        exact own other active

omit [DecidableEq Proc] in
theorem lastActive_spec (procState : Nat → ProcState Proc) (n : Nat) :
    ∀ index < n, (procState index).procPid ≠ none → index < lastActive procState n := by
  induction n with
  | zero => exact nofun
  | succ n ih =>
    grind [lastActive, Option.isSome_iff_ne_none]

theorem Sound.leave (sound : Sound s) (idle : s.phase proc = .idle) : Sound (s.leave proc) := by
  have active : (s.phase proc).active = true := by
    rw [idle]
    rfl
  have others (other : Proc) (otherActive : (update s.phase proc .away other).active = true) :
      other ≠ proc ∧ (s.phase other).active = true ∧ update s.seg.procState (s.backend proc)
        ⟨none, 0, false, false⟩ (s.backend other) = s.own other := by
    by_cases self : other = proc
    · rw [self, update_self] at otherActive
      cases otherActive
    · rw [update_of_ne self] at otherActive
      exact ⟨self, otherActive, update_of_ne (sound.entries.ne active otherActive self) ..⟩
  refine ⟨⟨sound.window.1, sound.window.2, sound.window.3, sound.window.4, sound.window.5, sound.window.6⟩, ?_,
    ⟨fun other otherActive => ?_, fun index other owns => ?_⟩, fun other otherActive => ?_, fun other => ?_⟩
  · exact sound.locks.relabel idle rfl rfl rfl rfl rfl
  · obtain ⟨self, wasActive, same⟩ := others other otherActive
    obtain ⟨inside, owns⟩ := sound.entries.active other wasActive
    simp only [State.leave, State.own, State.move, cleanupInvalidationState]
    refine ⟨lastActive_spec _ _ _ inside ?_, ?_⟩
    · rw [same, owns]
      exact nofun
    · rw [same, owns]
  · simp only [State.leave, State.move, cleanupInvalidationState] at owns ⊢
    by_cases same : index = s.backend proc
    · rw [same, update_self] at owns
      cases owns
    · rw [update_of_ne same] at owns
      obtain ⟨wasActive, rfl⟩ := sound.entries.owner index other owns
      grind
  · obtain ⟨self, wasActive, same⟩ := others other otherActive
    obtain ⟨position, began, received, complete⟩ := sound.delivered other wasActive
    refine ⟨?_, began, received, complete⟩
    simp only [State.leave, State.own, State.move, cleanupInvalidationState, same]
    exact position
  · by_cases self : other = proc
    · subst self
      simp only [State.leave, State.move, update_self]
      trivial
    · simp only [State.leave, State.move, update_of_ne self]
      exact (sound.phases other).congr_active rfl rfl rfl rfl fun isActive =>
        (others other (by rwa [update_of_ne self])).2.2

theorem Sound.reader (sound : Sound s) (proc : Proc) (reads : (s.phase proc).holdsRead = true)
    (entry : ProcState Proc) (pid : entry.procPid = (s.own proc).procPid) (seg : s'.seg = { s.seg with
      procState := update s.seg.procState (s.backend proc) entry })
    (backends : s'.backend = s.backend) (log : s'.log = s.log)
    (phases : ∀ other ≠ proc, s'.phase other = s.phase other)
    (active : (s'.phase proc).active = true) (noWrite : (s'.phase proc).holdsWrite = false)
    (writeLock : s'.writeLock = s.writeLock)
    (readers : (s'.phase proc).holdsRead = true ∧ s'.readers = s.readers ∨
      (s'.phase proc).holdsRead = false ∧ s'.readers = s.readers.erase proc)
    (others : ∀ other ≠ proc, s'.start other = s.start other ∧
      s'.received other = s.received other ∧ s'.complete other = s.complete other)
    (delivered : Delivered s' proc) (ok : PhaseOk s' proc (s'.phase proc)) : Sound s' := by
  have wasActive : (s.phase proc).active = true := by
    cases phase : s.phase proc with
    | away => simp [phase, Phase.holdsRead] at reads
    | _ => rfl
  have wasNoWrite : (s.phase proc).holdsWrite = false := by
    cases phase : s.phase proc with
    | checking | cleaning | writing => simp [phase, Phase.holdsRead] at reads
    | _ => rfl
  have sameActive (other : Proc) : (s'.phase other).active = (s.phase other).active := by
    by_cases self : other = proc
    · rw [self, active, wasActive]
    · rw [phases other self]
  have own (other : Proc) (otherActive : (s.phase other).active = true) (ne : other ≠ proc) :
      s'.own other = s.own other := by
    rw [State.own, seg, backends]
    exact update_of_ne (sound.entries.ne wasActive otherActive ne) ..
  have pids (index : Nat) : (s'.seg.procState index).procPid = (s.seg.procState index).procPid := by
    rw [seg]
    by_cases same : index = s.backend proc
    · rw [same]
      simp only [update_self]
      exact pid
    · simp only [update_of_ne same]
  have base : s'.base = s.base := by
    rw [State.base, seg, log]
    rfl
  obtain ⟨low, order, size, wrap, based, stored⟩ := sound.window
  refine ⟨⟨?_, ?_, ?_, ?_, by rw [base]; exact based, fun k => ?_⟩, ?_,
    ⟨fun other isActive => ?_, fun index other owns => ?_⟩,
    fun other isActive => ?_, fun other => ?_⟩
  · rw [seg]
    exact low
  · rw [seg]
    exact order
  · rw [seg]
    exact size
  · rw [seg]
    exact wrap
  · rw [base, seg, log]
    exact stored k
  · refine sound.locks.of_others proc phases ?_ (fun other _ => by rw [writeLock]) ?_ (fun other ne => ?_) ?_
    · rw [noWrite, writeLock, ← sound.locks.write proc, wasNoWrite]
    · rcases readers with ⟨yes, same⟩ | ⟨no, erased⟩
      · rw [yes, same, ← sound.locks.read proc, reads]
      · rw [no, erased]
        exact ⟨nofun, fun mem => absurd mem (List.Nodup.not_mem_erase sound.locks.distinct)⟩
    · grind
    · rcases readers with ⟨-, same⟩ | ⟨-, erased⟩
      · rw [same]
        exact sound.locks.distinct
      · rw [erased]
        exact sound.locks.distinct.erase proc
  · rw [sameActive] at isActive
    obtain ⟨inside, owns⟩ := sound.entries.active other isActive
    rw [State.own, pids, backends, seg]
    exact ⟨inside, owns⟩
  · rw [pids] at owns
    rw [sameActive, backends]
    exact sound.entries.owner index other owns
  · by_cases self : other = proc
    · rw [self]
      exact delivered
    · rw [sameActive] at isActive
      obtain ⟨position, began, received, complete⟩ := sound.delivered other isActive
      constructor <;> grind
  · by_cases self : other = proc
    · rw [self]
      exact ok
    · rw [phases other self]
      exact (sound.phases other).congr_active (by rw [seg]) (by rw [seg]) (by rw [seg]) log fun isActive =>
        own other isActive self

theorem prefix_concat (before : first <+: list) (next : list[first.length]? = some item) :
    first ++ [item] <+: list := by
  obtain ⟨rest, rfl⟩ := before
  rw [getElem?_append_right (Nat.le_refl _), Nat.sub_self] at next
  obtain ⟨others, rfl⟩ := List.head?_eq_some_iff.mp (by rwa [head?_eq_getElem?])
  exact ⟨others, by simp⟩

theorem Sound.read {max : Int} (sound : Sound s) (reads : s.phase proc = .reading max n datasize called) :
    Sound (s.read proc max n datasize called) := by
  have holds : (s.phase proc).holdsRead = true := by
    rw [reads]
    rfl
  have ok := sound.phases proc
  rw [reads] at ok
  obtain ⟨high, before, fine, next⟩ := ok
  obtain ⟨position, began, received, complete⟩ := sound.delivered proc (by rw [reads]; rfl)
  obtain ⟨above, below, count⟩ := position fine
  unfold State.read
  dsimp only
  split
  · next more =>
    have inside : s.log[s.start proc + (s.received proc).length]? =
        some (s.seg.buffer (place (s.own proc).nextMsgNum)) := by
      rw [← sound.window.stored (s.own proc).nextMsgNum above (by omega)]
      congr 1
      omega
    refine sound.reader proc holds { s.own proc with nextMsgNum := (s.own proc).nextMsgNum + 1 } rfl rfl rfl rfl
      (fun other ne => update_of_ne ne ..) ?_ ?_ rfl (Or.inl ⟨?_, rfl⟩) (fun other ne => ?_)
      ⟨fun _ => ?_, began, ?_, ?_⟩ ?_
    all_goals simp only [State.move, State.setOwn, State.own, State.base, update_self]
    · rfl
    · rfl
    · rfl
    · exact ⟨trivial, update_of_ne ne .., trivial⟩
    · grind [State.own, State.base]
    · refine prefix_concat received ?_
      rw [getElem?_drop]
      exact inside
    · rw [length_append, length_singleton]
      omega
    · refine ⟨high, ?_, ?_, ?_⟩
      · exact before
      · grind [State.own]
      · grind [State.own]
  · next stops =>
    obtain ⟨flag, entry⟩ : ∃ flag, (if (s.own proc).nextMsgNum ≥ max then { s.own proc with signaled := false }
        else s.own proc) = { s.own proc with signaled := flag } := by
      split
      · exact ⟨false, rfl⟩
      · exact ⟨_, rfl⟩
    rw [entry]
    refine sound.reader proc holds { s.own proc with signaled := flag } rfl rfl rfl rfl
      (fun other ne => update_of_ne ne ..) ?_ ?_ rfl (Or.inr ⟨?_, rfl⟩) (fun other ne => ?_)
      ⟨fun _ => ?_, began, received, ?_⟩ ?_
    all_goals simp only [State.move, State.setOwn, State.own, State.base, update_self]
    · rfl
    · rfl
    · rfl
    · grind
    · exact ⟨above, below, count⟩
    · grind
    · trivial

theorem Sound.reset {max : Int} (sound : Sound s) (fetched : s.phase proc = .fetched max datasize called) :
    Sound (s.reset proc max called) := by
  have ok := sound.phases proc
  rw [fetched] at ok
  obtain ⟨low, high, before, -⟩ := ok
  refine sound.reader proc (by rw [fetched]; rfl)
    { s.own proc with nextMsgNum := max, resetState := false, signaled := false } rfl rfl rfl rfl
    (fun other ne => update_of_ne ne ..) ?_ ?_ rfl (Or.inr ⟨?_, rfl⟩) (fun other ne => ?_)
    ⟨fun _ => ?_, ?_, ?_, ?_⟩ ?_
  all_goals simp only [State.reset, State.move, State.setOwn, State.own, State.base, update_self]
  · rfl
  · rfl
  · rfl
  · grind
  · unfold State.base at *
    rw [length_nil]
    omega
  · omega
  · exact nil_prefix
  · unfold State.base at *
    rw [length_nil]
    omega
  · trivial

theorem Sound.proceed (sound : Sound s) (proc : Proc) : Sound (s.proceed proc) := by
  unfold State.proceed
  split
  · exact sound
  · exact sound
  · next inserts => exact sound.move inserts .idle rfl rfl rfl trivial
  · next inserts =>
    split
    · next free =>
      refine sound.lock inserts _ (by simpa using free) rfl rfl rfl ?_
      exact length_take_le ..
    · exact sound
  · next chunk rest checks =>
    have ok := sound.phases proc
    rw [checks] at ok
    unfold State.check
    dsimp only
    split
    · exact sound.move checks _ rfl rfl rfl ⟨rfl, ok⟩
    · next room =>
      refine sound.move checks _ rfl rfl rfl
        ⟨by simp, by omega, nofun⟩
  · grind [clean]
  · next relocks =>
    have ok := sound.phases proc
    rw [relocks] at ok
    split
    · next free => exact sound.lock relocks _ (by simpa using free) rfl rfl rfl ok
    · exact sound
  · next writes => exact sound.write writes
  · next writes => exact sound.publish writes
  · next fetches =>
    have ok := sound.phases proc
    rw [fetches] at ok
    obtain ⟨position, -⟩ := sound.delivered proc (by rw [fetches]; rfl)
    refine sound.move fetches _ rfl rfl rfl
      ⟨sound.window.order, Int.le_refl _, ?_, fun fine => (position fine).2.1⟩
    have ok : _ ≤ s.log.length := ok
    unfold State.base
    omega
  · next fetched =>
    split
    · exact sound.reset fetched
    · next fine =>
      have ok := sound.phases proc
      rw [fetched] at ok
      obtain ⟨-, high, before, next⟩ := ok
      have fine : (s.own proc).resetState = false := by simpa using fine
      exact sound.move fetched _ rfl rfl rfl
        ⟨high, before, fine, next fine⟩
  · next reads => exact sound.read reads

theorem Sound.step (sound : Sound s) (event : Event Proc Msg) : Sound (step s event) := by
  cases event with
  | start proc =>
    grind [step, join]
  | exit proc =>
    grind [step, leave]
  | insert proc data =>
    simp only [Sinval.step]
    split
    · next idle => exact sound.move idle _ rfl rfl rfl trivial
    · exact sound
  | get proc datasize =>
    grind [step, get]
  | cleanup proc minFree =>
    simp only [Sinval.step]
    split
    · next idle =>
      split
      · next free =>
        exact sound.lock idle _ (by simpa using free) rfl rfl rfl trivial
      · exact sound
    · exact sound
  | proceed proc => exact sound.proceed proc

omit [DecidableEq Proc] in
theorem init_sound (maxBackends : Nat) (buffer : Nat → Msg) : Sound (.init maxBackends buffer : State Proc Msg) := by
  refine ⟨⟨Int.le_refl _, Int.le_refl _, show (0 : Int) ≤ 0 + maxNumMessages by decide,
    show 0 < msgNumWraparound by decide, Int.le_refl _, fun k above below => ?_⟩,
    ⟨fun _ => ⟨nofun, nofun⟩, fun _ => ⟨nofun, nofun⟩, nodup_nil⟩, ⟨nofun, nofun⟩, nofun, fun _ => trivial⟩
  exact absurd (Int.lt_of_le_of_lt above below) (Int.lt_irrefl 0)

theorem run_sound (maxBackends : Nat) (buffer : Nat → Msg) (events : List (Event Proc Msg)) :
    Sound (run step (.init maxBackends buffer) events) :=
  run_keeps (init_sound maxBackends buffer) (fun _ event sound => sound.step event) events

end BlockchainPG.Storage.Sinval
