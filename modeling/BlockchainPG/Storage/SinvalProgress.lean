import BlockchainPG.Storage.SinvalDelivery

/-! A call of `SIInsertDataEntries` takes a bounded number of steps for each insertion by others. -/

namespace BlockchainPG.Storage.Sinval

open Lib Function List

variable {Proc : Type u} {Msg : Type v}

def Event.proc : Event Proc Msg → Proc
  | .start proc | .exit proc | .insert proc _ | .get proc _ | .cleanup proc _ | .proceed proc => proc

/-- The messages of a call of `SIInsertDataEntries` that are not visible yet. -/
def Phase.pending : Phase Msg → Option (List Msg)
  | .inserting data => some data
  | .checking chunk rest | .relocking chunk rest => some (chunk ++ rest)
  | .cleaning _ (some (chunk, rest)) => some (chunk ++ rest)
  | .writing _ written todo rest => some (written ++ todo ++ rest)
  | _ => none

/-- `SIInsertDataEntries` would write the group without cleaning the queue first. -/
def SISeg.Roomy (seg : SISeg Proc Msg) (chunk : List Msg) : Prop :=
  seg.maxMsgNum - seg.minMsgNum + chunk.length ≤ maxNumMessages ∧ seg.maxMsgNum - seg.minMsgNum < seg.nextThreshold

instance (seg : SISeg Proc Msg) (chunk : List Msg) : Decidable (seg.Roomy chunk) := inferInstanceAs (Decidable (_ ∧ _))

/-- A bound for the steps that a call of `SIInsertDataEntries` takes if the queue does not get fuller meanwhile. -/
def Phase.work (seg : SISeg Proc Msg) : Phase Msg → Nat
  | .inserting data => 7 * data.length + 1
  | .relocking chunk rest => (if seg.Roomy chunk then 2 else 5) + (chunk.length + 7 * rest.length + 2)
  | .checking chunk rest => (if seg.Roomy chunk then 1 else 4) + (chunk.length + 7 * rest.length + 2)
  | .cleaning _ (some (chunk, rest)) => 3 + (chunk.length + 7 * rest.length + 2)
  | .writing _ _ todo rest => todo.length + 7 * rest.length + 2
  | _ => 0

/-- The queue is not fuller, and is to be cleaned no earlier unless it was just cleaned. -/
structure Eased (seg seg' : SISeg Proc Msg) : Prop where
  count : seg'.maxMsgNum - seg'.minMsgNum ≤ seg.maxMsgNum - seg.minMsgNum
  threshold : seg'.nextThreshold = seg.nextThreshold ∨ seg'.maxMsgNum - seg'.minMsgNum < seg'.nextThreshold

theorem Eased.of_eq {seg seg' : SISeg Proc Msg} (max : seg'.maxMsgNum = seg.maxMsgNum)
    (min : seg'.minMsgNum = seg.minMsgNum) (threshold : seg'.nextThreshold = seg.nextThreshold) : Eased seg seg' :=
  ⟨by rw [max, min], .inl threshold⟩

theorem Eased.roomy (eased : Eased seg seg') (roomy : seg.Roomy chunk) : seg'.Roomy chunk := by
  obtain ⟨count, threshold⟩ := eased
  unfold SISeg.Roomy at *
  omega

theorem Eased.work_le (eased : Eased seg seg') (phase : Phase Msg) : phase.work seg' ≤ phase.work seg := by
  unfold Phase.work
  grind [roomy]

theorem work_le_add (seg seg' : SISeg Proc Msg) (phase : Phase Msg) : phase.work seg' ≤ phase.work seg + 3 := by
  unfold Phase.work
  grind

theorem work_le_four (seg : SISeg Proc Msg) (chunk rest : List Msg) :
    (Phase.checking chunk rest).work seg ≤ 4 + (chunk.length + 7 * rest.length + 2) := by
  unfold Phase.work
  grind

theorem work_le (seg : SISeg Proc Msg) {phase : Phase Msg} (pending : phase.pending = some messages) :
    phase.work seg ≤ 7 * messages.length + 7 := by
  cases phase with
  | cleaning _ caller => cases caller <;> grind [Phase.pending, Phase.work]
  | _ => grind [Phase.pending, Phase.work]

variable [DecidableEq Proc] {s : State Proc Msg}

namespace State

/-- The process cannot have the lock that it needs for its next step. -/
def waits (s : State Proc Msg) (proc : Proc) : Bool :=
  match s.phase proc with
  | .inserting (_ :: _) | .relocking .. => s.writeLock.isSome
  | .cleaning .. => !s.readers.isEmpty
  | _ => false

/-- Whether a process takes a step of its routine. -/
def takesTurn (s : State Proc Msg) (proc : Proc) : Event Proc Msg → Bool
  | .proceed other => other = proc && !s.waits proc
  | _ => false

/-- Whether another process makes messages visible. -/
def intrudes (s : State Proc Msg) (proc : Proc) (event : Event Proc Msg) : Bool :=
  event.proc ≠ proc && (step s event).log.length != s.log.length

/-- How often something happens in a run. -/
def count (happens : State Proc Msg → Event Proc Msg → Bool) : State Proc Msg → List (Event Proc Msg) → Nat
  | _, [] => 0
  | s, event :: rest => (happens s event).toNat + count happens (step s event) rest

end State

/-- What a step leaves of the messages of a call: the others are at the end of the queue. -/
structure Advances (messages : List Msg) (proc : Proc) (s after : State Proc Msg) (added : List Msg) : Prop where
  log : after.log = s.log ++ added
  left : (after.phase proc).pending = none ∧ messages = [] ∨
    ∃ rest written, (after.phase proc).pending = some rest ∧ messages = written ++ rest ∧ written <+ added

omit [DecidableEq Proc] in
theorem Advances.moved {after : State Proc Msg} (log : after.log = s.log)
    (pending : (after.phase proc).pending = some messages) : ∃ added, Advances messages proc s after added :=
  ⟨[], by rw [log, append_nil], .inr ⟨_, [], pending, rfl, .slnil⟩⟩

theorem Sound.turn (sound : Sound s) (pending : (s.phase proc).pending = some messages)
    (goes : s.waits proc = false) :
    ((s.proceed proc).phase proc).work (s.proceed proc).seg < (s.phase proc).work s.seg ∧
      ∃ added, Advances messages proc s (s.proceed proc) added := by
  have ok := sound.phases proc
  unfold State.waits at goes
  unfold State.proceed
  cases phase : s.phase proc with
  | away | idle | fetching | fetched | reading => simp [phase, Phase.pending] at pending
  | inserting data =>
    rw [phase] at pending goes
    obtain rfl := Option.some.inj pending
    cases data with
    | nil =>
      refine ⟨by simp [State.move, Phase.work], [], (append_nil _).symm, .inl ⟨?_, rfl⟩⟩
      simp [State.move, Phase.pending]
    | cons msg data =>
      have free : s.writeLock.isNone = true := by simpa using goes
      simp only [free, ↓reduceIte]
      refine ⟨?_, Advances.moved rfl ?_⟩
      · have bound := work_le_four s.seg ((msg :: data).take writeQuantum) ((msg :: data).drop writeQuantum)
        simp only [State.move, update_self, length_take, length_drop, length_cons, writeQuantum] at bound ⊢
        simp only [Phase.work, length_cons] at bound ⊢
        omega
      · simp only [State.move, update_self, Phase.pending, take_append_drop]
  | checking chunk rest =>
    rw [phase] at pending
    obtain rfl := Option.some.inj pending
    simp only [State.check]
    split
    · next full =>
      have tight : ¬s.seg.Roomy chunk := by
        unfold SISeg.Roomy
        omega
      refine ⟨?_, Advances.moved rfl ?_⟩
      · simp [State.move, Phase.work, tight]
      · simp [State.move, Phase.pending]
    · next room =>
      have roomy : s.seg.Roomy chunk := by
        unfold SISeg.Roomy
        omega
      refine ⟨?_, Advances.moved rfl ?_⟩
      · simp [State.move, Phase.work, roomy]
      · simp [State.move, Phase.pending]
  | cleaning minFree caller =>
    rw [phase] at pending ok goes
    rcases caller with _ | ⟨chunk, rest⟩
    · cases pending
    · obtain rfl := Option.some.inj pending
      obtain ⟨rfl, short⟩ : minFree = chunk.length ∧ chunk.length ≤ writeQuantum := ok
      obtain ⟨shift, cleaned⟩ := siCleanupQueue_cleaned s.seg chunk.length
      have roomy : (siCleanupQueue s.seg chunk.length).1.Roomy chunk := by
        refine ⟨cleaned.room ?_, cleaned.threshold⟩
        unfold writeQuantum at short
        unfold maxNumMessages
        omega
      have free : s.readers.isEmpty = true := by simpa using goes
      simp only [free, ↓reduceIte, State.clean]
      split
      all_goals
        refine ⟨?_, Advances.moved rfl ?_⟩
        · simp [State.move, Phase.work, roomy]
        · simp [State.move, Phase.pending]
  | relocking chunk rest =>
    rw [phase] at pending goes
    obtain rfl := Option.some.inj pending
    have free : s.writeLock.isNone = true := by simpa using goes
    simp only [free, ↓reduceIte]
    refine ⟨?_, Advances.moved rfl ?_⟩
    · by_cases roomy : s.seg.Roomy chunk <;> simp [State.move, Phase.work, roomy]
    · simp [State.move, Phase.pending]
  | writing max written todo rest =>
    rw [phase] at pending
    obtain rfl := Option.some.inj pending
    cases todo with
    | nil =>
      refine ⟨by simp [State.move, Phase.work], written, rfl, .inr ⟨rest, written, ?_, by simp, .refl _⟩⟩
      simp [State.move, Phase.pending]
    | cons msg todo =>
      refine ⟨by simp [State.move, Phase.work], Advances.moved rfl ?_⟩
      simp [State.move, Phase.pending]

omit [DecidableEq Proc] in
theorem Sound.clean_eases (sound : Sound s) (minFree : Nat) :
    Eased s.seg (siCleanupQueue s.seg minFree).1 := by
  obtain ⟨shift, cleaned⟩ := siCleanupQueue_cleaned s.seg minFree
  have above := cleaned.bound s.seg.minMsgNum sound.window.order fun _ _ live => sound.min_le_next live
  have max := cleaned.max
  exact ⟨by omega, .inr cleaned.threshold⟩

/-- Nothing but an insertion makes the queue fuller. -/
theorem Sound.proceed_eases (sound : Sound s) (proc : Proc) :
    ∃ added, (s.proceed proc).log = s.log ++ added ∧
      (added = [] → Eased s.seg (s.proceed proc).seg) := by
  have ok := sound.phases proc
  have same {after : State Proc Msg} (log : after.log = s.log) (eased : Eased s.seg after.seg) :
      ∃ added, after.log = s.log ++ added ∧ (added = [] → Eased s.seg after.seg) :=
    ⟨[], by rw [log, append_nil], fun _ => eased⟩
  unfold State.proceed
  split
  case h_9 max written rest writes =>
    rw [writes] at ok
    refine ⟨written, rfl, fun none => ⟨?_, .inl rfl⟩⟩
    have next := ok.1
    rw [none, length_nil] at next
    simp only
    omega
  case h_6 minFree caller cleans =>
    split
    · obtain ⟨phase, writeLock, cleaned, -⟩ := sound.clean_eq cleans
      rw [cleaned]
      exact same rfl (sound.clean_eases minFree)
    · exact same rfl (.of_eq rfl rfl rfl)
  all_goals
    refine same ?_ (.of_eq ?_ ?_ ?_) <;>
      grind [State.check, State.move, State.reset, State.read, State.setOwn]

theorem Sound.step_eases (sound : Sound s) (event : Event Proc Msg) :
    ∃ added, (Sinval.step s event).log = s.log ++ added ∧ (added = [] → Eased s.seg (Sinval.step s event).seg) := by
  cases event with
  | proceed proc => exact sound.proceed_eases proc
  | start proc =>
    refine ⟨[], ?_, fun _ => .of_eq ?_ ?_ ?_⟩ <;> grind [Sinval.step, State.join, sharedInvalBackendInit]
  | _ =>
    refine ⟨[], ?_, fun _ => .of_eq ?_ ?_ ?_⟩ <;> grind [Sinval.step, State.leave, State.move, cleanupInvalidationState]

theorem clean_phase (minFree : Nat) (caller : Option (List Msg × List Msg)) :
    ∃ phase, (s.clean proc minFree caller).phase = update s.phase proc phase := by
  rcases caller with _ | ⟨chunk, rest⟩
  · exact ⟨_, rfl⟩
  · simp only [State.clean]
    split <;> exact ⟨_, rfl⟩

theorem proceed_phase (proc : Proc) : (s.proceed proc).phase = s.phase ∨
    ∃ phase, (s.proceed proc).phase = update s.phase proc phase := by
  unfold State.proceed
  split
  case h_6 =>
    split
    · exact .inr (clean_phase ..)
    · exact .inl rfl
  all_goals grind [State.move, State.check, State.read, State.reset, State.setOwn]

theorem step_phase_other (event : Event Proc Msg) (ne : event.proc ≠ proc) :
    (step s event).phase proc = s.phase proc := by
  have moves : (step s event).phase = s.phase ∨
      ∃ phase, (step s event).phase = update s.phase event.proc phase := by
    cases event with
    | proceed other => exact proceed_phase other
    | _ => grind [step, Event.proc, State.join, State.leave, State.move]
  rcases moves with same | ⟨phase, same⟩
  · rw [same]
  · rw [same, update_of_ne ne.symm]

/-- A process inside `SIInsertDataEntries` does nothing else. -/
theorem step_own {event : Event Proc Msg} (inside : (s.phase proc).pending = some messages) (own : event.proc = proc)
    (stays : s.takesTurn proc event = false) : step s event = s := by
  cases event with
  | proceed other =>
    obtain rfl : other = proc := own
    simp only [State.takesTurn, decide_true, Bool.true_and, Bool.not_eq_false'] at stays
    simp only [step]
    cases lock : s.writeLock <;> grind [State.waits, State.proceed]
  | _ =>
    cases own
    grind [step, Event.proc, Phase.pending]

theorem Sound.advances (sound : Sound s) (pending : (s.phase proc).pending = some messages)
    (event : Event Proc Msg) :
    ((Sinval.step s event).phase proc).work (Sinval.step s event).seg + (s.takesTurn proc event).toNat ≤
        (s.phase proc).work s.seg + 3 * (s.intrudes proc event).toNat ∧
      ∃ added, Advances messages proc s (Sinval.step s event) added := by
  by_cases own : event.proc = proc
  · cases turn : s.takesTurn proc event with
    | false =>
      rw [step_own pending own turn]
      exact ⟨by simp, Advances.moved rfl pending⟩
    | true =>
      obtain ⟨rfl, goes⟩ : event = .proceed proc ∧ s.waits proc = false := by
        cases event <;> simp_all [State.takesTurn]
      obtain ⟨less, advances⟩ := sound.turn pending goes
      refine ⟨?_, advances⟩
      simp only [Sinval.step, Bool.toNat_true]
      omega
  · obtain ⟨added, log, eases⟩ := sound.step_eases event
    have phase := step_phase_other (s := s) event own
    have idle : s.takesTurn proc event = false := by
      cases event <;> simp_all [State.takesTurn, Event.proc]
    rw [phase, idle]
    refine ⟨?_, added, log, .inr ⟨messages, [], by rw [phase, pending], rfl, nil_sublist _⟩⟩
    by_cases none : added = []
    · exact ((eases none).work_le _).trans (Nat.le_add_right ..)
    · have intrudes : s.intrudes proc event = true := by
        simp [State.intrudes, own, log, none]
      rw [intrudes]
      exact work_le_add ..

/-- As long as a call goes on its steps are bounded by the work that was left and by what others insert, and
when it ends its messages are in the queue. -/
theorem Sound.bounded (sound : Sound s) (pending : (s.phase proc).pending = some messages)
    (goesOn : Meets Sinval.step (fun s _ => (s.phase proc).pending ≠ none) s later) :
    s.count (·.takesTurn proc) later ≤
        (s.phase proc).work s.seg + 3 * s.count (·.intrudes proc) later ∧
      (((run Sinval.step s later).phase proc).pending = none →
        messages <+ (run Sinval.step s later).log.drop s.log.length) ∧
      s.log <+: (run Sinval.step s later).log := by
  induction later generalizing s messages with
  | nil => exact ⟨Nat.zero_le _, fun none => absurd (pending.symm.trans none) nofun, prefix_refl _⟩
  | cons event rest ih =>
    obtain ⟨step_le, added, log, left⟩ := sound.advances pending event
    simp only [State.count]
    rcases left with ⟨none, rfl⟩ | ⟨messages', written, pending', rfl, sublist⟩
    · cases rest with
      | nil =>
        simp only [State.count]
        exact ⟨by omega, fun _ => nil_sublist _, log ▸ prefix_append ..⟩
      | cons => exact absurd none goesOn.2.1
    · obtain ⟨bound, ended, logged⟩ := ih (sound.step event) pending' goesOn.2
      refine ⟨by omega, fun none => ?_, (log ▸ prefix_append ..).trans logged⟩
      have arrived := ended none
      obtain ⟨more, whole⟩ := logged
      have split : (run Sinval.step (Sinval.step s event) rest).log = s.log ++ (added ++ more) := by
        rw [← whole, log, append_assoc]
      rw [← whole, drop_left] at arrived
      show written ++ messages' <+ (run Sinval.step (Sinval.step s event) rest).log.drop s.log.length
      rw [split, drop_left]
      exact sublist.append arrived

end BlockchainPG.Storage.Sinval
