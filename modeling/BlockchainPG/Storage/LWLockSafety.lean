import BlockchainPG.Storage.LWLockQueues

/-! What holds in every interleaving of acquisitions and releases. -/

namespace BlockchainPG.Storage.LWLock

open Lib Function
open State hiding lock

variable {Proc : Type u} {LockId : Type v} [DecidableEq Proc] [DecidableEq LockId] [Fintype Proc]
variable {s s' : State Proc LockId}

/-- What every step keeps. -/
structure Safe (s : State Proc LockId) : Prop where
  counted : Counted s
  balanced : Balanced s
  queues : ∃ queue batch place, Queues s queue batch place ∧ Alert s queue place

theorem Safe.own (safe : Safe s) (proc : Proc) (locks : s'.lock = s.lock) (held : s'.held = s.held)
    (links : s'.lwWaitLink = s.lwWaitLink) (waiting : s'.lwWaiting = s.lwWaiting)
    (phases : ∀ other ≠ proc, s'.phase other = s.phase other)
    (heads : (s'.phase proc).head = (s.phase proc).head)
    (detached : (s'.phase proc).detached = none ∧ (s.phase proc).detached = none)
    (waits : (s'.phase proc).waitsFor = (s.phase proc).waitsFor ∧
        (s'.phase proc).retries = (s.phase proc).retries ∨
      s.lwWaiting proc = false ∧ (s'.phase proc).waitsFor = none ∧ (s.phase proc).retries = none ∧
        (s'.phase proc).retries = (s.phase proc).waitsFor) (balanced : Balanced s') : Safe s' := by
  obtain ⟨queue, batch, place, queues, alert⟩ := safe.queues
  refine ⟨safe.counted.frame held fun lockid => by rw [locks]; exact ⟨rfl, rfl⟩, balanced, queue, batch, place,
    queues.frame (fun lockid => by rw [locks]; exact ⟨rfl, rfl⟩) links waiting fun other => ?_, fun lockid quiet => ?_⟩
  · by_cases own : other = proc
    · grind [Queues.waits]
    · rw [phases other own]
      exact ⟨rfl, rfl, Or.inl rfl⟩
  · rw [locks] at quiet
    obtain ⟨awakened, awaits⟩ := alert lockid quiet
    refine ⟨awakened, ?_⟩
    unfold AwaitsRetry at awaits ⊢
    rw [waiting]
    by_cases own : awakened = proc
    · grind
    · rw [phases awakened own]
      exact awaits

theorem Safe.allow (safe : Safe s) (lockid : LockId) :
    Safe { s with lock := update s.lock lockid { s.lock lockid with releaseOK := true } } := by
  obtain ⟨queue, batch, place, queues, alert⟩ := safe.queues
  have locks (other : LockId) : ∃ flag, update s.lock lockid { s.lock lockid with releaseOK := true } other =
      { s.lock other with releaseOK := flag } ∧ (flag = false → (s.lock other).releaseOK = false) := by
    by_cases same : other = lockid
    · subst same
      exact ⟨true, update_self .., nofun⟩
    · exact ⟨_, update_of_ne same .., fun no => no⟩
  refine ⟨safe.counted.frame rfl fun other => ?_, ⟨safe.balanced.1, safe.balanced.2, safe.balanced.3⟩,
    queue, batch, place, queues.frame (fun other => ?_) rfl rfl fun _ => ⟨rfl, rfl, Or.inl rfl⟩, fun other quiet => ?_⟩
  · grind
  · grind
  · obtain ⟨flag, same, stays⟩ := locks other
    simp only [same] at quiet
    exact alert other (quiet.imp stays id)

omit [DecidableEq LockId] in
theorem Balanced.quiet (balanced : Balanced s) (proc : Proc)
    (phases : ∀ other ≠ proc, s'.phase other = s.phase other)
    (posts : (s.phase proc).posts = none) (posts' : (s'.phase proc).posts = none)
    (extraWaits : (s'.phase proc).extraWaits = (s.phase proc).extraWaits)
    (taken : (s'.phase proc).taken = 0 ∧ (s.phase proc).taken = 0)
    (ended : s'.ended proc = 0 ∧ s.ended proc = 0) (sem : s'.sem = s.sem)
    (waiting : ∀ other ≠ proc, s'.lwWaiting other = s.lwWaiting other)
    (signalled : s'.signalled = s.signalled) (awaited : s'.awaited = s.awaited)
    (absorbed : s'.absorbed = s.absorbed) (postedBack : s'.postedBack = s.postedBack) :
    Balanced s' := by
  refine balanced.own proc phases posts posts' (fun other ne => ?_) ?_ ?_ ?_
  · grind
  · grind [balance]
  · grind [covered]
  · rw [extraWaits, absorbed, postedBack]
    exact balanced.absorbed proc

omit [DecidableEq Proc] [DecidableEq LockId] [Fintype Proc] in
theorem State.ended_of_none (none : (s.phase proc).waitsFor = none) : s.ended proc = 0 := by
  rw [State.ended, none, if_neg]
  simp

omit [DecidableEq LockId] in
theorem Balanced.calm (balanced : Balanced s) (was : s.phase proc = before)
    (own : s'.phase proc = after) (others : ∀ other ≠ proc, s'.phase other = s.phase other)
    (calm : before.posts = none ∧ before.taken = 0 ∧ before.waitsFor = none)
    (calm' : after.posts = none ∧ after.taken = 0 ∧ after.waitsFor = none)
    (extraWaits : after.extraWaits = before.extraWaits)
    (ghosts : s'.sem = s.sem ∧ s'.lwWaiting = s.lwWaiting ∧ s'.signalled = s.signalled ∧
      s'.awaited = s.awaited ∧ s'.absorbed = s.absorbed ∧ s'.postedBack = s.postedBack) :
    Balanced s' := by
  subst was own
  obtain ⟨sem, waiting, signalled, awaited, absorbed, postedBack⟩ := ghosts
  exact balanced.quiet proc others calm.1 calm'.1 extraWaits ⟨calm'.2.1, calm.2.1⟩
    ⟨ended_of_none calm'.2.2, ended_of_none calm.2.2⟩ sem (fun _ _ => by rw [waiting]) signalled awaited absorbed
      postedBack

/-- The phases from which a lock is taken. -/
structure Ready (s : State Proc LockId) (proc : Proc) (lockid : LockId) (extraWaits : Nat) : Prop where
  waitsFor : (s.phase proc).waitsFor = none
  head : (s.phase proc).head = none
  detached : (s.phase proc).detached = none
  posts : (s.phase proc).posts = none
  taken : (s.phase proc).taken = 0
  extraWaits : (s.phase proc).extraWaits = extraWaits
  retries : (s.phase proc).retries = none ∨
    (s.phase proc).retries = some lockid ∧ (s.lock lockid).releaseOK = true

omit [DecidableEq Proc] [DecidableEq LockId] [Fintype Proc] in
theorem Ready.somebodyElse {extraWaits : Nat} (ready : Ready s proc lockid extraWaits)
    (awaits : AwaitsRetry s place other awakened)
    (quiet : other ≠ lockid ∨ (s.lock lockid).releaseOK = false) : awakened ≠ proc := by
  rintro rfl
  rcases awaits with ⟨waits, -⟩ | retries
  · rw [ready.waitsFor] at waits
    cases waits
  · rcases ready.retries with none | ⟨own, allowed⟩
    · rw [none] at retries
      cases retries
    · grind

section

variable (safe : Safe s)
include safe

theorem Safe.hold (ready : Ready s proc lockid extraWaits)
    (grabbed : (s.lock lockid).grab mode = some lock) {phase : Phase Proc LockId}
    (next : phase = .repaying extraWaits ∨ phase = .running ∧ extraWaits = 0) :
    Safe (s.hold proc lockid mode lock phase) := by
  obtain ⟨queue, batch, place, queues, alert⟩ := safe.queues
  obtain ⟨-, -, counts, head, tail, releaseOK⟩ := grab_some grabbed
  have after : phase.waitsFor = none ∧ phase.head = none ∧ phase.detached = none ∧ phase.posts = none ∧
      phase.taken = 0 ∧ phase.extraWaits = extraWaits := by
    rcases next with rfl | ⟨rfl, rfl⟩ <;> exact ⟨rfl, rfl, rfl, rfl, rfl, rfl⟩
  obtain ⟨waitsFor', head', detached', posts', taken', extraWaits'⟩ := after
  have own : (s.hold proc lockid mode lock phase).phase proc = phase := update_self ..
  have others (other : Proc) (ne : other ≠ proc) :
      (s.hold proc lockid mode lock phase).phase other = s.phase other := update_of_ne ne ..
  refine ⟨safe.counted.hold proc grabbed phase, ?_, queue, batch, place, ?_, fun other quiet => ?_⟩
  · exact safe.balanced.calm rfl own others ⟨ready.posts, ready.taken, ready.waitsFor⟩ ⟨posts', taken', waitsFor'⟩
      (extraWaits'.trans ready.extraWaits.symm) ⟨rfl, rfl, rfl, rfl, rfl, rfl⟩
  · refine queues.frame (fun other => ?_) rfl rfl fun other => ?_
    · by_cases same : other = lockid
      · subst same
        simp only [State.hold, update_self, head, tail, and_self]
      · simp only [State.hold, update_of_ne same, and_self]
    · by_cases same : other = proc
      · grind [Ready.head, Ready.detached, Ready.waitsFor]
      · grind
  · have before : (other ≠ lockid ∨ (s.lock lockid).releaseOK = false) ∧ ∃ q, AwaitsRetry s place other q := by
      by_cases same : other = lockid
      · subst same
        simp only [State.hold, update_self, releaseOK] at quiet
        have refused : (s.lock other).releaseOK = false := by
          refine quiet.resolve_right fun free => ?_
          have := counts mode
          cases mode <;> simp only [count, ↓reduceIte] at this <;> omega
        exact ⟨Or.inr refused, alert other (Or.inl refused)⟩
      · simp only [State.hold, update_of_ne same] at quiet
        exact ⟨Or.inl same, alert other quiet⟩
    obtain ⟨side, awakened, awaits⟩ := before
    refine ⟨awakened, ?_⟩
    unfold AwaitsRetry
    rw [others awakened (ready.somebodyElse awaits side)]
    exact awaits

theorem Safe.enqueue (ready : Ready s proc lockid extraWaits)
    (refused : (s.lock lockid).grab mode = none) : Safe (s.enqueue proc lockid mode extraWaits) := by
  obtain ⟨queue, batch, place, queues, alert⟩ := safe.queues
  have own : (s.enqueue proc lockid mode extraWaits).phase proc = .waiting lockid mode extraWaits :=
    update_self ..
  have others (other : Proc) (ne : other ≠ proc) :
      (s.enqueue proc lockid mode extraWaits).phase other = s.phase other := update_of_ne ne ..
  have waiting (other : Proc) (ne : other ≠ proc) :
      (s.enqueue proc lockid mode extraWaits).lwWaiting other = s.lwWaiting other :=
    update_of_ne ne ..
  refine ⟨safe.counted.frame rfl fun other => ?_, ?_, _, _, _,
    queues.enqueue ready.waitsFor ready.head ready.detached lockid mode extraWaits, fun other quiet => ?_⟩
  · by_cases same : other = lockid
    · subst same
      simp only [State.enqueue, update_self, and_self]
    · simp only [State.enqueue, update_of_ne same, and_self]
  · refine safe.balanced.quiet proc others ready.posts (by rw [own]; rfl) (by rw [own, ready.extraWaits]; rfl)
      ⟨by rw [own]; rfl, ready.taken⟩ ⟨?_, ended_of_none ready.waitsFor⟩ rfl waiting rfl rfl rfl rfl
    have set : (s.enqueue proc lockid mode extraWaits).lwWaiting proc = true := update_self ..
    rw [State.ended, set, if_neg]
    simp
  · have before : (other ≠ lockid ∨ (s.lock lockid).releaseOK = false) ∧ ∃ q, AwaitsRetry s place other q := by
      by_cases same : other = lockid
      · subst same
        simp only [State.enqueue, update_self] at quiet
        have notAllowed : (s.lock other).releaseOK = false := by
          grind [grab_none]
        exact ⟨Or.inr notAllowed, alert other (Or.inl notAllowed)⟩
      · simp only [State.enqueue, update_of_ne same] at quiet
        exact ⟨Or.inl same, alert other quiet⟩
    obtain ⟨side, awakened, awaits⟩ := before
    have ne := ready.somebodyElse awaits side
    refine ⟨awakened, ?_⟩
    grind [AwaitsRetry]

theorem Safe.attempt (acquires : s.phase proc = .acquiring lockid mode retry extraWaits) :
    Safe (s.attempt proc lockid mode retry extraWaits) := by
  obtain ⟨lock, same, allowed⟩ : ∃ lock, lock = (if retry then { s.lock lockid with releaseOK := true }
      else s.lock lockid) ∧ Safe { s with lock := update s.lock lockid lock } := by
    refine ⟨_, rfl, ?_⟩
    cases retry with
    | true => exact safe.allow lockid
    | false =>
      simp only [Bool.false_eq_true, ↓reduceIte, update_eq_self]
      exact safe
  have ready : Ready { s with lock := update s.lock lockid lock } proc lockid extraWaits := by
    refine ⟨?_, ?_, ?_, ?_, ?_, ?_, ?_⟩ <;> simp only [acquires] <;> try rfl
    cases retry with
    | true => exact Or.inr ⟨rfl, by rw [update_self, same]; rfl⟩
    | false => exact Or.inl rfl
  have own {result} (grabbed : lock.grab mode = result) : (update s.lock lockid lock lockid).grab mode = result := by
    rw [update_self, grabbed]
  rw [State.attempt, ← same]
  cases grabbed : lock.grab mode with
  | some lock' =>
    have held := allowed.hold ready (own grabbed) (Or.inl rfl)
    simpa only [State.hold, update_idem] using held
  | none => exact allowed.enqueue ready (own grabbed)

section

variable {lockid : LockId} {proc : Proc} (runs : s.phase proc = .running)
    (holds : ((s.held proc).any fun hold => hold.1 = lockid) = true)
include runs holds

theorem Safe.releaseQuietly
    (awake : ((s.lock lockid).drop).head = none ∨ ¬ (((s.lock lockid).drop).exclusive = 0 ∧
      ((s.lock lockid).drop).shared = 0 ∧ ((s.lock lockid).drop).releaseOK = true)) : Safe { s with
      held := update s.held proc (removeHeld (s.held proc) lockid)
      lock := update s.lock lockid (s.lock lockid).drop
      phase := update s.phase proc (.awakening none) } := by
  obtain ⟨queue, batch, place, queues, alert⟩ := safe.queues
  obtain ⟨own, others⟩ := phase_update s proc (.awakening none)
  obtain ⟨head, tail, releaseOK⟩ : ((s.lock lockid).drop).head = (s.lock lockid).head ∧
      ((s.lock lockid).drop).tail = (s.lock lockid).tail ∧
      ((s.lock lockid).drop).releaseOK = (s.lock lockid).releaseOK := by
    unfold LWLock.drop
    split <;> exact ⟨rfl, rfl, rfl⟩
  refine ⟨safe.counted.release proc holds rfl (fun other ne => update_of_ne ne ..) ?_, ?_,
    queue, batch, place, queues.frame (fun other => ?_) rfl rfl fun other => ?_, fun other quiet => ?_⟩
  · simp only [update_self, and_self]
  · exact safe.balanced.calm runs own others ⟨rfl, rfl, rfl⟩ ⟨rfl, rfl, rfl⟩ rfl ⟨rfl, rfl, rfl, rfl, rfl, rfl⟩
  · grind
  · by_cases ne : other = proc
    · subst ne
      simp only [update_self, runs]
      exact ⟨rfl, rfl, Or.inl rfl⟩
    · simp only [others other ne, true_or, and_self]
  · have before : ∃ q, AwaitsRetry s place other q := by
      by_cases same : other = lockid
      · subst same
        simp only [update_self, releaseOK] at quiet
        refine alert other (Or.inl ?_)
        rcases quiet with refused | ⟨⟨noExclusive, noShared⟩, nonempty⟩
        · exact refused
        · rcases awake with empty | held
          · exact absurd ((queues.chain other).nil_iff.mp (head.symm.trans empty)) nonempty
          · grind
      · simp only [update_of_ne same] at quiet
        exact alert other quiet
    obtain ⟨awakened, awaits⟩ := before
    refine ⟨awakened, ?_⟩
    grind [AwaitsRetry, Phase.waitsFor, Phase.retries]

theorem Safe.releaseAwakening (front : (s.lock lockid).head = some first) :
    let last := if s.lwExclusive first then first
      else lastReleased s.lwExclusive s.lwWaitLink (Fintype.card Proc) first
    Safe { s with
      held := update s.held proc (removeHeld (s.held proc) lockid)
      lock := update s.lock lockid
        { (s.lock lockid).drop with head := s.lwWaitLink last, releaseOK := false }
      lwWaitLink := update s.lwWaitLink last none
      phase := update s.phase proc (.awakening (some first)) } := by
  intro last
  obtain ⟨queue, batch, place, queues, alert⟩ := safe.queues
  obtain ⟨own, others⟩ := phase_update s proc (.awakening (some first))
  have chain := queues.chain lockid
  rw [front] at chain
  obtain ⟨second, split, ends⟩ := released_last s.lwExclusive chain (queues.distinct lockid)
  have tail : ((s.lock lockid).drop).tail = (s.lock lockid).tail := by
    unfold LWLock.drop
    split <;> rfl
  refine ⟨safe.counted.release proc holds rfl (fun other ne => update_of_ne ne ..) ?_, ?_, _, _, _,
    queues.awaken runs split ends rfl (fun other ne => update_of_ne ne ..) ?_ ?_ (by rw [front]) rfl,
    fun other quiet => ?_⟩
  · simp only [update_self, and_self]
  · exact safe.balanced.calm runs own others ⟨rfl, rfl, rfl⟩ ⟨rfl, rfl, rfl⟩ rfl ⟨rfl, rfl, rfl, rfl, rfl, rfl⟩
  · simp only [update_self]
    rfl
  · simp only [update_self, tail]
  · by_cases same : other = lockid
    · have firstIn : last ∈ released s.lwExclusive (queue lockid) := List.mem_of_getLast? ends
      have queued : place last = .queued lockid :=
        (queues.queued lockid last).mp (by rw [split]; exact List.mem_append_left _ firstIn)
      have waits := queues.waitsQueued lockid last queued
      have ne : last ≠ proc := by
        intro own
        rw [own, runs] at waits
        cases waits
      refine ⟨last, Or.inl ⟨?_, Or.inr ⟨proc, if_pos firstIn⟩⟩⟩
      simp only [others last ne, same]
      exact waits
    · simp only [update_of_ne same] at quiet
      obtain ⟨awakened, awaits⟩ := alert other quiet
      have ne : awakened ≠ proc := by
        rintro rfl
        simp [AwaitsRetry, runs, Phase.waitsFor, Phase.retries] at awaits
      refine ⟨awakened, ?_⟩
      grind [AwaitsRetry]

theorem Safe.release : Safe (s.release proc lockid) := by
  have head : ((s.lock lockid).drop).head = (s.lock lockid).head := by
    unfold LWLock.drop
    split <;> rfl
  grind [State.release, releaseQuietly, releaseAwakening]

end

theorem Safe.unlink (awakens : s.phase proc = .awakening (some waiter)) :
    Safe { s.move proc (.unlinked waiter (s.lwWaitLink waiter)) with
      lwWaitLink := update s.lwWaitLink waiter none } := by
  obtain ⟨queue, batch, place, queues, alert⟩ := safe.queues
  obtain ⟨own, others⟩ := phase_update s proc (.unlinked waiter (s.lwWaitLink waiter))
  refine ⟨safe.counted.frame rfl fun _ => ⟨rfl, rfl⟩, ?_, _, _, _, queues.unlink awakens, fun lockid quiet => ?_⟩
  · exact safe.balanced.calm awakens own others ⟨rfl, rfl, rfl⟩ ⟨rfl, rfl, rfl⟩ rfl ⟨rfl, rfl, rfl, rfl, rfl, rfl⟩
  · obtain ⟨awakened, awaits⟩ := alert lockid quiet
    have ne : awakened ≠ proc := by
      rintro rfl
      simp [AwaitsRetry, awakens, Phase.waitsFor, Phase.retries] at awaits
    refine ⟨awakened, ?_⟩
    unfold AwaitsRetry
    simp only [State.move, others awakened ne]
    exact awaits

theorem Safe.clear (holds : s.phase proc = .unlinked waiter rest) :
    Safe { s.move proc (.posting waiter rest) with lwWaiting := update s.lwWaiting waiter false } := by
  obtain ⟨queue, batch, place, queues, alert⟩ := safe.queues
  obtain ⟨picked, queues'⟩ := queues.clear holds
  obtain ⟨waiting, waits⟩ := queues.waits waiter (by rw [picked]; exact nofun)
  obtain ⟨own, others⟩ := phase_update s proc (.posting waiter rest)
  have same (other : Proc) : (update s.phase proc (.posting waiter rest) other).waitsFor =
      (s.phase other).waitsFor ∧
      (update s.phase proc (.posting waiter rest) other).extraWaits = (s.phase other).extraWaits ∧
      (update s.phase proc (.posting waiter rest) other).taken = (s.phase other).taken ∧
      (update s.phase proc (.posting waiter rest) other).retries = (s.phase other).retries := by
    by_cases self : other = proc
    · rw [self, own, holds]
      exact ⟨rfl, rfl, rfl, rfl⟩
    · rw [others other self]
      exact ⟨rfl, rfl, rfl, rfl⟩
  refine ⟨safe.counted.frame rfl fun _ => ⟨rfl, rfl⟩, ⟨fun other => ?_, fun other => ?_, fun other => ?_⟩,
    queue, batch, _, queues', fun lockid quiet => ?_⟩
  · have before := safe.balanced.balance other
    have change := pendingPosts_move { s.move proc (.posting waiter rest) with
      lwWaiting := update s.lwWaiting waiter false } proc others other
    simp only [State.move, own, holds, Phase.posts, reduceCtorEq, ↓reduceIte, Option.some.injEq] at change
    simp only [State.move, State.ended, same]
    grind [State.ended, Option.isSome_iff_ne_none]
  · simp only [State.move, same]
    exact safe.balanced.covered other
  · simp only [State.move, same]
    exact safe.balanced.absorbed other
  · obtain ⟨awakened, awaits⟩ := alert lockid quiet
    refine ⟨awakened, ?_⟩
    unfold AwaitsRetry at awaits ⊢
    simp only [State.move, same]
    grind

theorem Safe.post (posting : s.phase proc = .posting waiter rest) :
    Safe { s.move proc (.awakening rest) with sem := update s.sem waiter (s.sem waiter + 1) } := by
  obtain ⟨own, others⟩ := phase_update s proc (.awakening rest)
  have same (other : Proc) : (update s.phase proc (.awakening rest) other).waitsFor =
      (s.phase other).waitsFor ∧
      (update s.phase proc (.awakening rest) other).extraWaits = (s.phase other).extraWaits ∧
      (update s.phase proc (.awakening rest) other).taken = (s.phase other).taken := by
    by_cases self : other = proc
    · rw [self, own, posting]
      exact ⟨rfl, rfl, rfl⟩
    · rw [others other self]
      exact ⟨rfl, rfl, rfl⟩
  refine safe.own proc rfl rfl rfl rfl others ?_ ⟨congrArg Phase.detached own, congrArg Phase.detached posting⟩
    (Or.inl ⟨(same proc).1, ?_⟩) ⟨fun other => ?_, fun other => ?_, fun other => ?_⟩
  · exact (congrArg Phase.head own).trans (congrArg Phase.head posting).symm
  · exact (congrArg Phase.retries own).trans (congrArg Phase.retries posting).symm
  · have before := safe.balanced.balance other
    have change := pendingPosts_move { s.move proc (.awakening rest) with
      sem := update s.sem waiter (s.sem waiter + 1) } proc others other
    simp only [State.move, own, posting, Phase.posts, reduceCtorEq, ↓reduceIte, Option.some.injEq] at change
    simp only [State.move, State.ended, same]
    grind [State.ended]
  · simp only [State.move, same]
    exact safe.balanced.covered other
  · simp only [State.move, same]
    exact safe.balanced.absorbed other

/-- A phase outside waits and wakeups. -/
structure Phase.Quiet (phase : Phase Proc LockId) : Prop where
  detached : phase.detached = none
  waitsFor : phase.waitsFor = none
  retries : phase.retries = none
  posts : phase.posts = none
  taken : phase.taken = 0

theorem Safe.move {before after : Phase Proc LockId} (runs : s.phase proc = before)
    (head : after.head = before.head) (extraWaits : after.extraWaits = before.extraWaits) (quiet : before.Quiet)
    (quiet' : after.Quiet) : Safe (s.move proc after) := by
  subst runs
  have own : (s.move proc after).phase proc = after := update_self ..
  have others (other : Proc) (ne : other ≠ proc) : (s.move proc after).phase other = s.phase other :=
    update_of_ne ne ..
  refine safe.own proc rfl rfl rfl rfl others (by rw [own, head]) ⟨by rw [own, quiet'.detached], quiet.detached⟩
    (Or.inl ⟨by rw [own, quiet'.waitsFor, quiet.waitsFor], by rw [own, quiet'.retries, quiet.retries]⟩) ?_
  exact safe.balanced.calm rfl own others ⟨quiet.posts, quiet.taken, quiet.waitsFor⟩
    ⟨quiet'.posts, quiet'.taken, quiet'.waitsFor⟩ extraWaits ⟨rfl, rfl, rfl, rfl, rfl, rfl⟩

theorem Safe.semaphore (proc : Proc) (locks : s'.lock = s.lock) (held : s'.held = s.held)
    (links : s'.lwWaitLink = s.lwWaitLink) (waiting : s'.lwWaiting = s.lwWaiting)
    (others : ∀ other ≠ proc, s'.phase other = s.phase other ∧ s'.sem other = s.sem other ∧
      s'.signalled other = s.signalled other ∧ s'.awaited other = s.awaited other ∧
      s'.absorbed other = s.absorbed other ∧ s'.postedBack other = s.postedBack other)
    (same : (s'.phase proc).head = (s.phase proc).head ∧
      (s'.phase proc).waitsFor = (s.phase proc).waitsFor ∧
      (s'.phase proc).retries = (s.phase proc).retries)
    (detached : (s'.phase proc).detached = none ∧ (s.phase proc).detached = none)
    (posts : (s'.phase proc).posts = none ∧ (s.phase proc).posts = none)
    (balance : s'.sem proc + (s'.phase proc).extraWaits + (s'.phase proc).taken + s'.awaited proc +
        s.signalled proc =
      s.sem proc + (s.phase proc).extraWaits + (s.phase proc).taken + s.awaited proc +
        s'.signalled proc)
    (covered : (s'.phase proc).extraWaits + s'.awaited proc ≤ s'.signalled proc)
    (absorbed : s'.absorbed proc = s'.postedBack proc + (s'.phase proc).extraWaits) : Safe s' := by
  obtain ⟨head, waitsFor, retries⟩ := same
  refine safe.own proc locks held links waiting (fun other ne => (others other ne).1) head detached
    (Or.inl ⟨waitsFor, retries⟩) (safe.balanced.own proc (fun other ne => (others other ne).1) posts.2 posts.1
      (fun other ne => ?_) ?_ covered absorbed)
  · grind
  · have before := safe.balanced.balance proc
    rw [State.ended, waiting, waitsFor, ← State.ended]
    omega

theorem Safe.take (waits : s.phase proc = .waiting lockid mode extraWaits) (posted : s.sem proc ≠ 0) :
    Safe { s.move proc (.checking lockid mode extraWaits) with
      sem := update s.sem proc (s.sem proc - 1) } := by
  have own := (phase_update s proc (.checking lockid mode extraWaits)).1
  have covered := safe.balanced.covered proc
  have absorbed := safe.balanced.absorbed proc
  rw [waits] at covered absorbed
  refine safe.semaphore proc rfl rfl rfl rfl (fun other ne => ?_) ?_ ?_ ?_ ?_ ?_ ?_
  · exact ⟨update_of_ne ne .., update_of_ne ne .., rfl, rfl, rfl, rfl⟩
  all_goals simp only [State.move, own, waits, update_self]
  · exact ⟨rfl, rfl, rfl⟩
  · exact ⟨rfl, rfl⟩
  · exact ⟨rfl, rfl⟩
  · simp only [Phase.extraWaits, Phase.taken]
    omega
  · exact covered
  · exact absorbed

theorem Safe.absorb (checks : s.phase proc = .checking lockid mode extraWaits)
    (waiting : s.lwWaiting proc = true) : Safe { s.move proc (.waiting lockid mode (extraWaits + 1)) with
      absorbed := update s.absorbed proc (s.absorbed proc + 1) } := by
  have own := (phase_update s proc (.waiting lockid mode (extraWaits + 1))).1
  have balance := safe.balanced.balance proc
  have absorbed := safe.balanced.absorbed proc
  rw [State.ended, waiting, if_neg (fun both => Bool.noConfusion both.2)] at balance
  rw [checks] at balance absorbed
  simp only [Phase.extraWaits, Phase.taken] at balance absorbed
  refine safe.semaphore proc rfl rfl rfl rfl (fun other ne => ?_) ?_ ?_ ?_ ?_ ?_ ?_
  · exact ⟨update_of_ne ne .., rfl, rfl, rfl, update_of_ne ne .., rfl⟩
  all_goals simp only [State.move, own, checks, update_self]
  · exact ⟨rfl, rfl, rfl⟩
  · exact ⟨rfl, rfl⟩
  · exact ⟨rfl, rfl⟩
  · simp only [Phase.extraWaits, Phase.taken]
    omega
  · simp only [Phase.extraWaits]
    omega
  · simp only [Phase.extraWaits]
    omega

theorem Safe.wake (checks : s.phase proc = .checking lockid mode extraWaits)
    (waiting : s.lwWaiting proc = false) : Safe (s.move proc (.acquiring lockid mode true extraWaits)) := by
  have own : (s.move proc (.acquiring lockid mode true extraWaits)).phase proc =
    .acquiring lockid mode true extraWaits := update_self ..
  have others (other : Proc) (ne : other ≠ proc) :
      (s.move proc (.acquiring lockid mode true extraWaits)).phase other = s.phase other :=
    update_of_ne ne ..
  have balance := safe.balanced.balance proc
  have covered := safe.balanced.covered proc
  have absorbed := safe.balanced.absorbed proc
  rw [State.ended, waiting, checks, if_pos ⟨rfl, rfl⟩] at balance
  rw [checks] at covered absorbed
  simp only [Phase.extraWaits, Phase.taken] at balance
  refine safe.own proc rfl rfl rfl rfl others (by rw [own, checks]; rfl) (by rw [own, checks]; exact ⟨rfl, rfl⟩)
    (Or.inr ⟨waiting, by rw [own, checks]; exact ⟨rfl, rfl, rfl⟩⟩) ?_
  refine safe.balanced.own proc others (by rw [checks]; rfl) (by rw [own]; rfl)
    (fun _ _ => ⟨rfl, rfl, rfl, rfl, rfl, rfl⟩) ?_ (by rw [own]; exact covered) (by rw [own]; exact absorbed)
  rw [ended_of_none (by rw [own]; rfl), own]
  simp only [Phase.extraWaits, Phase.taken, State.move]
  omega

theorem Safe.repay (repays : s.phase proc = .repaying (extraWaits + 1)) :
    Safe { s.move proc (.repaying extraWaits) with
      sem := update s.sem proc (s.sem proc + 1)
      postedBack := update s.postedBack proc (s.postedBack proc + 1) } := by
  have own := (phase_update s proc (.repaying extraWaits)).1
  have covered := safe.balanced.covered proc
  have absorbed := safe.balanced.absorbed proc
  rw [repays] at covered absorbed
  simp only [Phase.extraWaits] at covered absorbed
  refine safe.semaphore proc rfl rfl rfl rfl (fun other ne => ?_) ?_ ?_ ?_ ?_ ?_ ?_
  · exact ⟨update_of_ne ne .., update_of_ne ne .., rfl, rfl, rfl, update_of_ne ne ..⟩
  all_goals simp only [State.move, own, repays, update_self]
  · exact ⟨rfl, rfl, rfl⟩
  · exact ⟨rfl, rfl⟩
  · exact ⟨rfl, rfl⟩
  all_goals simp only [Phase.extraWaits, Phase.taken]
  all_goals omega

theorem Safe.proceed (proc : Proc) : Safe (s.proceed proc) := by
  unfold State.proceed
  split
  · exact safe
  · next acquires => exact safe.attempt acquires
  · grind [take]
  · grind [absorb, wake]
  · next repays => exact safe.move repays rfl rfl ⟨rfl, rfl, rfl, rfl, rfl⟩ ⟨rfl, rfl, rfl, rfl, rfl⟩
  · next repays => exact safe.repay repays
  · next done => exact safe.move done rfl rfl ⟨rfl, rfl, rfl, rfl, rfl⟩ ⟨rfl, rfl, rfl, rfl, rfl⟩
  · next awakens => exact safe.unlink awakens
  · next holds => exact safe.clear holds
  · next posting => exact safe.post posting

theorem Safe.step (event : Event Proc LockId) : Safe (step s event) := by
  cases event with
  | acquire proc lockid mode =>
    simp only [LWLock.step]
    split
    · next runs =>
      split
      · exact safe
      · exact safe.move runs rfl rfl ⟨rfl, rfl, rfl, rfl, rfl⟩ ⟨rfl, rfl, rfl, rfl, rfl⟩
    · exact safe
  | conditionalAcquire proc lockid mode =>
    simp only [LWLock.step]
    split
    · next runs =>
      split
      · exact safe
      · split
        · next grabbed =>
          have ready : Ready s proc lockid 0 := by
            refine ⟨?_, ?_, ?_, ?_, ?_, ?_, Or.inl ?_⟩ <;> rw [runs] <;> rfl
          exact safe.hold ready grabbed (Or.inr ⟨rfl, rfl⟩)
        · exact safe
    · exact safe
  | release proc lockid =>
    grind [step, release]
  | proceed proc => exact safe.proceed proc
  | signal proc =>
    obtain ⟨queue, batch, place, queues, alert⟩ := safe.queues
    refine ⟨safe.counted.frame rfl fun _ => ⟨rfl, rfl⟩, ⟨fun other => ?_, fun other => ?_, safe.balanced.absorbed⟩,
      queue, batch, place, queues.frame (fun _ => ⟨rfl, rfl⟩) rfl rfl fun _ => ⟨rfl, rfl, Or.inl rfl⟩, alert⟩
    · have before := safe.balanced.balance other
      show update s.sem proc (s.sem proc + 1) other + (s.phase other).extraWaits +
        (s.phase other).taken + s.pendingPosts other + s.awaited other =
          update s.signalled proc (s.signalled proc + 1) other + s.ended other
      grind
    · have before := safe.balanced.covered other
      simp only [LWLock.step]
      grind
  | await proc =>
    simp only [LWLock.step]
    split
    · next runs =>
      split
      · exact safe
      · next posted =>
        have balance := safe.balanced.balance proc
        rw [ended_of_none (by rw [runs]; rfl), runs] at balance
        simp only [Phase.extraWaits, Phase.taken] at balance
        have absorbed := safe.balanced.absorbed proc
        rw [runs] at absorbed
        refine safe.semaphore proc rfl rfl rfl rfl (fun other ne => ?_) ⟨rfl, rfl, rfl⟩ ?_ ?_ ?_ ?_ ?_
        · grind
        all_goals simp only [runs, update_self]
        · exact ⟨rfl, rfl⟩
        · exact ⟨rfl, rfl⟩
        · omega
        · simp only [Phase.extraWaits]
          omega
        · exact absorbed
    · exact safe

end

theorem init_safe : Safe (.init : State Proc LockId) := by
  have none (lockid : LockId) (mode : LWLockMode) : (State.init : State Proc LockId).holders lockid mode = 0 := by
    simp [State.holders, State.init]
  refine ⟨⟨fun lockid mode => ?_, fun _ => Or.inl rfl⟩, ⟨fun proc => ?_, fun _ => Nat.le_refl _, fun _ => rfl⟩,
    fun _ => [], fun _ => [], fun _ => .away, ⟨fun _ => rfl, fun _ some => absurd rfl some, fun _ => .nil,
      fun _ _ => ⟨by rintro ⟨⟩, by rintro ⟨⟩⟩, fun _ => rfl, fun _ => .nil, by rintro _ _ ⟨⟩,
      fun _ _ => ⟨by rintro ⟨⟩, by rintro (⟨⟨⟩⟩ | ⟨⟨⟩⟩)⟩, fun _ placed => absurd rfl placed, by rintro _ _ ⟨⟩,
      fun _ waits => absurd rfl waits⟩, fun lockid quiet => ?_⟩
  · rw [none]
    cases mode <;> rfl
  · simp [State.init, State.pendingPosts, State.ended, Phase.extraWaits, Phase.taken, Phase.posts, Phase.waitsFor]
  · rcases quiet with no | ⟨-, nonempty⟩
    · cases no
    · exact absurd rfl nonempty

/-- A process that a release has taken from the queue of a lock, or is about to awaken,
and that has yet to try again. -/
def Awakened (s : State Proc LockId) (lockid : LockId) (proc : Proc) : Prop :=
  (s.phase proc).retries = some lockid ∨ (s.phase proc).waitsFor = some lockid ∧
    (s.lwWaiting proc = false ∨ ∃ releaser, (s.phase releaser).detached = some proc ∨
      ∃ batch, Chain s.lwWaitLink (s.phase releaser).head batch ∧ proc ∈ batch)

/-- In every interleaving an exclusive holder is alone, somebody has been awakened
whenever a lock is free and its queue is not empty, and the wakeups that were absorbed
have been posted back, so that the semaphores keep those of other waits. -/
theorem lwlocks_safe (events : List (Event Proc LockId)) : let s := run step .init events
    (∀ proc lockid, (lockid, .exclusive) ∈ s.held proc →
      (s.held proc).countP (fun hold => hold.1 = lockid) = 1 ∧
        ∀ other ≠ proc, ∀ mode, (lockid, mode) ∉ s.held other) ∧
    (∀ lockid, (∀ proc mode, (lockid, mode) ∉ s.held proc) → (s.lock lockid).head ≠ none →
      ∃ proc, Awakened s lockid proc) ∧
    (∀ proc lockid, (s.phase proc).waitsFor = some lockid → s.lwWaiting proc = false →
      0 < s.sem proc + (s.phase proc).taken + s.pendingPosts proc) ∧
    ∀ proc, s.phase proc = .running → s.absorbed proc = s.postedBack proc ∧
      s.sem proc + s.pendingPosts proc + s.awaited proc = s.signalled proc := by
  intro s
  have safe : Safe s := run_keeps init_safe (fun _ event safe => safe.step event) events
  obtain ⟨queue, batch, place, queues, alert⟩ := safe.queues
  refine ⟨fun proc lockid holds => safe.counted.exclusive holds, fun lockid free waiting => ?_,
    fun proc lockid waits ended => ?_, fun proc runs => ?_⟩
  · have noHolders (mode : LWLockMode) : (s.lock lockid).count mode = 0 := by
      rw [safe.counted.counts, State.holders]
      exact Finset.sum_eq_zero fun proc _ => List.count_eq_zero.mpr (free proc mode)
    have nonempty : queue lockid ≠ [] := mt (queues.chain lockid).nil_iff.mpr waiting
    obtain ⟨proc, ⟨waits, taken⟩ | retries⟩ := alert lockid
      (Or.inr ⟨⟨noHolders .exclusive, noHolders .shared⟩, nonempty⟩)
    · refine ⟨proc, Or.inr ⟨waits, taken.imp_right ?_⟩⟩
      rintro ⟨releaser, picked⟩
      refine ⟨releaser, ?_⟩
      grind [Queues.picked, Queues.batchChain]
    · exact ⟨proc, Or.inl retries⟩
  · have balance := safe.balanced.balance proc
    have covered := safe.balanced.covered proc
    grind [State.ended]
  · have balance := safe.balanced.balance proc
    have absorbed := safe.balanced.absorbed proc
    rw [ended_of_none (by rw [runs]; rfl), runs] at balance
    grind [Phase.extraWaits, Phase.taken]

end BlockchainPG.Storage.LWLock
