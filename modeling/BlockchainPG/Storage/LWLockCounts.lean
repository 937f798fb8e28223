import BlockchainPG.Storage.LWLock

/-! Lightweight locks count their holders, and semaphores their wakeups. -/

namespace BlockchainPG.Storage.LWLock

open Lib Function List

variable {Proc : Type u} {LockId : Type v} [DecidableEq Proc] [DecidableEq LockId] [Fintype Proc]
variable {s s' : State Proc LockId}

theorem sum_except (f f' : Proc → Nat) (proc : Proc) (same : ∀ other ≠ proc, f' other = f other) :
    ∑ other, f' other + f proc = ∑ other, f other + f' proc := by
  have others : ∑ other ∈ Finset.univ.erase proc, f' other = ∑ other ∈ Finset.univ.erase proc, f other :=
    Finset.sum_congr rfl fun other mem => same other (Finset.ne_of_mem_erase mem)
  grind [Finset.sum_erase_add]

def count (lock : LWLock Proc) : LWLockMode → Nat
  | .exclusive => lock.exclusive
  | .shared => lock.shared

def State.holders (s : State Proc LockId) (lockid : LockId) (mode : LWLockMode) : Nat :=
  ∑ proc, (s.held proc).count (lockid, mode)

/-- The locks count their holders, and an exclusive one excludes all others. -/
structure Counted (s : State Proc LockId) : Prop where
  counts : ∀ lockid mode, (s.lock lockid).count mode = s.holders lockid mode
  alone : ∀ lockid, (s.lock lockid).exclusive = 0 ∨
    (s.lock lockid).exclusive = 1 ∧ (s.lock lockid).shared = 0

omit [DecidableEq Proc] in
theorem Counted.frame (counted : Counted s) (held : s'.held = s.held)
    (locks : ∀ lockid, (s'.lock lockid).exclusive = (s.lock lockid).exclusive ∧
      (s'.lock lockid).shared = (s.lock lockid).shared) : Counted s' := by
  refine ⟨fun lockid mode => ?_, fun lockid => ?_⟩
  · rw [State.holders, held, ← State.holders, ← counted.counts]
    cases mode
    · exact (locks lockid).1
    · exact (locks lockid).2
  · grind [alone]

omit [DecidableEq Proc] [Fintype Proc] in
theorem grab_some {lock lock' : LWLock Proc} (grabbed : lock.grab mode = some lock') :
    lock.exclusive = 0 ∧ (mode = .exclusive → lock.shared = 0) ∧
      (∀ other, lock'.count other = lock.count other + if other = mode then 1 else 0) ∧
      lock'.head = lock.head ∧ lock'.tail = lock.tail ∧ lock'.releaseOK = lock.releaseOK := by
  cases mode with
  | exclusive =>
    rw [grab, Option.ite_none_right_eq_some, Option.some.injEq] at grabbed
    obtain ⟨⟨noExclusive, noShared⟩, rfl⟩ := grabbed
    refine ⟨noExclusive, fun _ => noShared, fun other => ?_, rfl, rfl, rfl⟩
    cases other <;> rfl
  | shared =>
    rw [grab, Option.ite_none_right_eq_some, Option.some.injEq] at grabbed
    obtain ⟨noExclusive, rfl⟩ := grabbed
    refine ⟨noExclusive, nofun, fun other => ?_, rfl, rfl, rfl⟩
    cases other <;> rfl

omit [DecidableEq Proc] [Fintype Proc] in
theorem grab_none {lock : LWLock Proc} (refused : lock.grab mode = none) : lock.exclusive ≠ 0 ∨ lock.shared ≠ 0 := by
  cases mode with
  | exclusive =>
    grind [grab]
  | shared =>
    grind [grab]

theorem Counted.hold (counted : Counted s) (proc : Proc) (grabbed : (s.lock lockid).grab mode = some lock)
    (phase : Phase Proc LockId) : Counted (s.hold proc lockid mode lock phase) := by
  obtain ⟨noExclusive, noShared, counts, -⟩ := grab_some grabbed
  refine ⟨fun other mode' => ?_, fun other => ?_⟩
  · have before := counted.counts other mode'
    have change := sum_except (fun p => (s.held p).count (other, mode'))
      (fun p => ((s.hold proc lockid mode lock phase).held p).count (other, mode')) proc
      fun q ne => by simp only [State.hold, update_of_ne ne]
    simp only [State.hold, update_self, count_append] at change
    rw [State.holders] at before ⊢
    simp only [State.hold]
    grind
  · simp only [State.hold]
    by_cases same : other = lockid
    · subst same
      rw [update_self]
      have exclusive := counts .exclusive
      have shared := counts .shared
      grind [count]
    · grind [alone]

theorem removeHeld_perm {held : List (LockId × LWLockMode)} (holds : (held.any fun hold => hold.1 = lockid) = true) :
    ∃ mode, held.Perm ((lockid, mode) :: removeHeld held lockid) := by
  obtain ⟨hold, mem, same⟩ := any_eq_true.mp holds
  obtain ⟨⟨other, mode⟩, before, after, -, same', split, rest⟩ :=
    exists_of_eraseP (p := fun hold : LockId × LWLockMode => decide (hold.1 = lockid))
      (mem_reverse.mpr mem) same
  grind [removeHeld, perm_middle]

theorem Counted.drop (counted : Counted s) (proc : Proc) (perm : (s.held proc).Perm ((lockid, mode) :: rest)) :
    (∀ other, ((s.lock lockid).drop).count other + (if other = mode then 1 else 0) =
      (s.lock lockid).count other) := by
  have one : 0 < (s.lock lockid).count mode := by
    have own := Finset.sum_erase_add Finset.univ (fun p => (s.held p).count (lockid, mode)) (Finset.mem_univ proc)
    grind [counts, State.holders]
  have alone := counted.alone lockid
  intro other
  cases mode with
  | exclusive =>
    have one : 0 < (s.lock lockid).exclusive := one
    rw [LWLock.drop, if_pos one]
    cases other <;> simp only [count, ↓reduceIte, reduceCtorEq] <;> omega
  | shared =>
    have one : 0 < (s.lock lockid).shared := one
    rw [LWLock.drop, if_neg (by omega)]
    cases other <;> simp only [count, ↓reduceIte, reduceCtorEq] <;> omega

theorem Counted.release (counted : Counted s) (proc : Proc)
    (holds : ((s.held proc).any fun hold => hold.1 = lockid) = true)
    (held : s'.held = update s.held proc (removeHeld (s.held proc) lockid))
    (others : ∀ other ≠ lockid, s'.lock other = s.lock other)
    (own : (s'.lock lockid).exclusive = ((s.lock lockid).drop).exclusive ∧
      (s'.lock lockid).shared = ((s.lock lockid).drop).shared) : Counted s' := by
  obtain ⟨mode, perm⟩ := removeHeld_perm holds
  have dropped := counted.drop proc perm
  have ownCount : ∀ other, (s'.lock lockid).count other = ((s.lock lockid).drop).count other := by
    intro other
    cases other
    · exact own.1
    · exact own.2
  refine ⟨fun other mode' => ?_, fun other => ?_⟩
  · have before := counted.counts other mode'
    have change := sum_except (fun p => (s.held p).count (other, mode'))
      (fun p => (s'.held p).count (other, mode')) proc
      fun q ne => by simp only [held, update_of_ne ne]
    simp only [held, update_self, perm.count_eq, count_cons] at change
    rw [State.holders] at before ⊢
    rw [held]
    by_cases same : other = lockid
    · grind
    · grind
  · by_cases same : other = lockid
    · subst same
      have alone := counted.alone other
      have exclusive := dropped .exclusive
      have shared := dropped .shared
      grind [count]
    · rw [others other same]
      exact counted.alone other

theorem Counted.exclusive (counted : Counted s) (holds : (lockid, .exclusive) ∈ s.held proc) :
    (s.held proc).countP (fun hold => hold.1 = lockid) = 1 ∧
      ∀ other ≠ proc, ∀ mode, (lockid, mode) ∉ s.held other := by
  have alone := counted.alone lockid
  have exclusive := counted.counts lockid .exclusive
  have shared := counted.counts lockid .shared
  simp only [count, State.holders] at exclusive shared
  have one : 0 < (s.held proc).count (lockid, .exclusive) := count_pos_iff.mpr holds
  have split := Finset.sum_erase_add Finset.univ (fun p => (s.held p).count (lockid, .exclusive)) (Finset.mem_univ proc)
  have single : (s.held proc).count (lockid, .exclusive) = 1 := by omega
  have noShared (p : Proc) : (s.held p).count (lockid, .shared) = 0 :=
    Finset.sum_eq_zero_iff.mp (by omega : ∑ p, (s.held p).count (lockid, .shared) = 0) p (Finset.mem_univ p)
  have noOther : ∑ p ∈ Finset.univ.erase proc, (s.held p).count (lockid, .exclusive) = 0 := by omega
  refine ⟨?_, fun other ne mode mem => ?_⟩
  · rw [← single]
    refine countP_congr fun hold mem => ?_
    obtain ⟨lock, mode⟩ := hold
    cases mode with
    | exclusive => simp
    | shared =>
      grind
  · cases mode with
    | exclusive =>
      grind [Finset.sum_eq_zero_iff]
    | shared => exact count_eq_zero.mp (noShared other) mem

namespace Phase

/-- Wakeups that have been absorbed and not yet posted back. -/
def extraWaits : Phase Proc LockId → Nat
  | .acquiring _ _ _ extraWaits | .waiting _ _ extraWaits | .checking _ _ extraWaits | .repaying extraWaits =>
    extraWaits
  | _ => 0

def taken : Phase Proc LockId → Nat
  | .checking .. => 1
  | _ => 0

/-- The process that is to get a wakeup next. -/
def posts : Phase Proc LockId → Option Proc
  | .posting proc _ => some proc
  | _ => none

def waitsFor : Phase Proc LockId → Option LockId
  | .waiting lockid _ _ | .checking lockid _ _ => some lockid
  | _ => none

end Phase

/-- The wakeups that `LWLockRelease` is about to post to a process. -/
def State.pendingPosts (s : State Proc LockId) (proc : Proc) : Nat :=
  ∑ other, if (s.phase other).posts = some proc then 1 else 0

def State.ended (s : State Proc LockId) (proc : Proc) : Nat :=
  if (s.phase proc).waitsFor.isSome ∧ s.lwWaiting proc = false then 1 else 0

/-- No wakeup gets lost or invented. -/
structure Balanced (s : State Proc LockId) : Prop where
  balance : ∀ proc, s.sem proc + (s.phase proc).extraWaits + (s.phase proc).taken +
    s.pendingPosts proc + s.awaited proc = s.signalled proc + s.ended proc
  covered : ∀ proc, (s.phase proc).extraWaits + s.awaited proc ≤ s.signalled proc
  absorbed : ∀ proc, s.absorbed proc = s.postedBack proc + (s.phase proc).extraWaits

omit [DecidableEq LockId] in
theorem State.pendingPosts_move (s' : State Proc LockId) (proc : Proc)
    (others : ∀ other ≠ proc, s'.phase other = s.phase other) (waiter : Proc) :
    s'.pendingPosts waiter + (if (s.phase proc).posts = some waiter then 1 else 0) =
      s.pendingPosts waiter + if (s'.phase proc).posts = some waiter then 1 else 0 :=
  sum_except (fun other => if (s.phase other).posts = some waiter then 1 else 0)
    (fun other => if (s'.phase other).posts = some waiter then 1 else 0) proc
    fun other ne => by rw [others other ne]

omit [DecidableEq LockId] in
theorem Balanced.own (balanced : Balanced s) (proc : Proc)
    (phases : ∀ other ≠ proc, s'.phase other = s.phase other)
    (posts : (s.phase proc).posts = none) (posts' : (s'.phase proc).posts = none)
    (others : ∀ other ≠ proc, s'.sem other = s.sem other ∧
      s'.lwWaiting other = s.lwWaiting other ∧ s'.signalled other = s.signalled other ∧
      s'.awaited other = s.awaited other ∧ s'.absorbed other = s.absorbed other ∧
      s'.postedBack other = s.postedBack other)
    (balance : s'.sem proc + (s'.phase proc).extraWaits + (s'.phase proc).taken +
      s.pendingPosts proc + s'.awaited proc = s'.signalled proc + s'.ended proc)
    (covered : (s'.phase proc).extraWaits + s'.awaited proc ≤ s'.signalled proc)
    (absorbed : s'.absorbed proc = s'.postedBack proc + (s'.phase proc).extraWaits) :
    Balanced s' := by
  have pending : ∀ waiter, s'.pendingPosts waiter = s.pendingPosts waiter := by
    intro waiter
    have change := State.pendingPosts_move s' proc phases waiter
    grind
  refine ⟨fun other => ?_, fun other => ?_, fun other => ?_⟩
  · rw [pending]
    by_cases same : other = proc
    · subst same
      exact balance
    · grind [State.ended, balance]
  · by_cases same : other = proc
    · subst same
      exact covered
    · grind [covered]
  · by_cases same : other = proc
    · subst same
      exact absorbed
    · grind [absorbed]

end BlockchainPG.Storage.LWLock
