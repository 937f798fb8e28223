import BlockchainPG.Lib.Chain
import BlockchainPG.Lib.Runs
import Mathlib

/-! Lightweight locks, `lwlock.c`. -/

namespace BlockchainPG.Storage

open Lib Function

inductive LWLockMode where
  | exclusive
  | shared
deriving DecidableEq

/-- `LWLock`, whose queue is linked through the waiting processes. -/
structure LWLock (Proc : Type u) where
  releaseOK : Bool
  exclusive : Nat
  shared : Nat
  head : Option Proc
  tail : Option Proc

namespace LWLock

def maxSimulLwlocks : Nat := 100

/-- Where a process is in the routines: the retry loop of `LWLockAcquire`, before and
after `PGSemaphoreLock`, at the loop that posts absorbed wakeups back, or in the loop of
`LWLockRelease` that awakens processes. -/
inductive Phase (Proc : Type u) (LockId : Type v) where
  | running
  | acquiring (lockid : LockId) (mode : LWLockMode) (retry : Bool) (extraWaits : Nat)
  | waiting (lockid : LockId) (mode : LWLockMode) (extraWaits : Nat)
  | checking (lockid : LockId) (mode : LWLockMode) (extraWaits : Nat)
  | repaying (extraWaits : Nat)
  | awakening (head : Option Proc)
  | unlinked (proc : Proc) (head : Option Proc)
  | posting (proc : Proc) (head : Option Proc)

/-- The locks, `held_lwlocks` of each process together with the modes, and the fields of
each `PGPROC`. The last four fields only count: wakeups for other waits that were posted
and taken, and wakeups that `LWLockAcquire` absorbed and posted back. -/
structure State (Proc : Type u) (LockId : Type v) where
  lock : LockId → LWLock Proc
  held : Proc → List (LockId × LWLockMode)
  phase : Proc → Phase Proc LockId
  lwWaiting : Proc → Bool
  lwExclusive : Proc → Bool
  lwWaitLink : Proc → Option Proc
  sem : Proc → Nat
  signalled : Proc → Nat
  awaited : Proc → Nat
  absorbed : Proc → Nat
  postedBack : Proc → Nat

/-- What `CreateLWLocks` leaves. -/
def State.init : State Proc LockId where
  lock := fun _ => ⟨true, 0, 0, none, none⟩
  held := fun _ => []
  phase := fun _ => .running
  lwWaiting := fun _ => false
  lwExclusive := fun _ => false
  lwWaitLink := fun _ => none
  sem := fun _ => 0
  signalled := fun _ => 0
  awaited := fun _ => 0
  absorbed := fun _ => 0
  postedBack := fun _ => 0

/-- The lock after it has been taken, unless `mustwait`. -/
def grab (lock : LWLock Proc) : LWLockMode → Option (LWLock Proc)
  | .exclusive =>
    if lock.exclusive = 0 ∧ lock.shared = 0 then some { lock with exclusive := lock.exclusive + 1 } else none
  | .shared => if lock.exclusive = 0 then some { lock with shared := lock.shared + 1 } else none

/-- The lock without one hold. -/
def drop (lock : LWLock Proc) : LWLock Proc :=
  if lock.exclusive > 0 then { lock with exclusive := lock.exclusive - 1 }
  else { lock with shared := lock.shared - 1 }

/-- The last process that `LWLockRelease` takes from the queue together with a shared
waiter at its front. -/
def lastReleased (lwExclusive : Proc → Bool) (lwWaitLink : Proc → Option Proc) : Nat → Proc → Proc
  | 0, proc => proc
  | fuel + 1, proc =>
    match lwWaitLink proc with
    | some next => if lwExclusive next then proc else lastReleased lwExclusive lwWaitLink fuel next
    | none => proc

/-- `held_lwlocks` without the latest entry for a lock. -/
def removeHeld [DecidableEq LockId] (held : List (LockId × LWLockMode)) (lockid : LockId) :
    List (LockId × LWLockMode) :=
  (held.reverse.eraseP fun hold => hold.1 = lockid).reverse

namespace State

variable {Proc : Type u} {LockId : Type v} [DecidableEq Proc] [DecidableEq LockId]

/-- Put the process at the end of the queue. -/
def enqueue (s : State Proc LockId) (proc : Proc) (lockid : LockId) (mode : LWLockMode) (extraWaits : Nat) :
    State Proc LockId :=
  let lock := s.lock lockid
  let lwWaitLink := update s.lwWaitLink proc none
  { s with
    lwWaiting := update s.lwWaiting proc true
    lwExclusive := update s.lwExclusive proc (mode = .exclusive)
    lwWaitLink := match lock.head, lock.tail with
      | some _, some tail => update lwWaitLink tail (some proc)
      | _, _ => lwWaitLink
    lock := update s.lock lockid { lock with head := some (lock.head.getD proc), tail := some proc }
    phase := update s.phase proc (.waiting lockid mode extraWaits) }

/-- The process has taken the lock. -/
def hold (s : State Proc LockId) (proc : Proc) (lockid : LockId) (mode : LWLockMode) (lock : LWLock Proc)
    (phase : Phase Proc LockId) : State Proc LockId :=
  { s with
    lock := update s.lock lockid lock
    held := update s.held proc (s.held proc ++ [(lockid, mode)])
    phase := update s.phase proc phase }

/-- The section of `LWLockAcquire` under the spinlock. -/
def attempt (s : State Proc LockId) (proc : Proc) (lockid : LockId) (mode : LWLockMode) (retry : Bool)
    (extraWaits : Nat) : State Proc LockId :=
  let lock := if retry then { s.lock lockid with releaseOK := true } else s.lock lockid
  match lock.grab mode with
  | some lock => s.hold proc lockid mode lock (.repaying extraWaits)
  | none => enqueue { s with lock := update s.lock lockid lock } proc lockid mode extraWaits

/-- The section of `LWLockRelease` under the spinlock. -/
def release [Fintype Proc] (s : State Proc LockId) (proc : Proc) (lockid : LockId) : State Proc LockId :=
  let lock := (s.lock lockid).drop
  let held := update s.held proc (removeHeld (s.held proc) lockid)
  match lock.head with
  | some head =>
    if lock.exclusive = 0 ∧ lock.shared = 0 ∧ lock.releaseOK = true then
      let last := if s.lwExclusive head then head
        else lastReleased s.lwExclusive s.lwWaitLink (Fintype.card Proc) head
      { s with
        held := held
        lock := update s.lock lockid { lock with head := s.lwWaitLink last, releaseOK := false }
        lwWaitLink := update s.lwWaitLink last none
        phase := update s.phase proc (.awakening (some head)) }
    else
      { s with
        held := held
        lock := update s.lock lockid lock
        phase := update s.phase proc (.awakening none) }
  | none =>
    { s with
      held := held
      lock := update s.lock lockid lock
      phase := update s.phase proc (.awakening none) }

def move (s : State Proc LockId) (proc : Proc) (phase : Phase Proc LockId) : State Proc LockId :=
  { s with phase := update s.phase proc phase }

def proceed (s : State Proc LockId) (proc : Proc) : State Proc LockId :=
  match s.phase proc with
  | .running => s
  | .acquiring lockid mode retry extraWaits => s.attempt proc lockid mode retry extraWaits
  | .waiting lockid mode extraWaits =>
    if s.sem proc = 0 then s
    else { s.move proc (.checking lockid mode extraWaits) with
      sem := update s.sem proc (s.sem proc - 1) }
  | .checking lockid mode extraWaits =>
    if s.lwWaiting proc then
      { s.move proc (.waiting lockid mode (extraWaits + 1)) with
        absorbed := update s.absorbed proc (s.absorbed proc + 1) }
    else s.move proc (.acquiring lockid mode true extraWaits)
  | .repaying 0 => s.move proc .running
  | .repaying (extraWaits + 1) =>
    { s.move proc (.repaying extraWaits) with
      sem := update s.sem proc (s.sem proc + 1)
      postedBack := update s.postedBack proc (s.postedBack proc + 1) }
  | .awakening none => s.move proc .running
  | .awakening (some waiter) =>
    { s.move proc (.unlinked waiter (s.lwWaitLink waiter)) with
      lwWaitLink := update s.lwWaitLink waiter none }
  | .unlinked waiter head =>
    { s.move proc (.posting waiter head) with
      lwWaiting := update s.lwWaiting waiter false }
  | .posting waiter head =>
    { s.move proc (.awakening head) with
      sem := update s.sem waiter (s.sem waiter + 1) }

end State

/-- A process calls one of the routines or goes on in it, somebody posts a wakeup for
another wait of a process, or a process takes one in another wait. -/
inductive Event (Proc : Type u) (LockId : Type v) where
  | acquire (proc : Proc) (lockid : LockId) (mode : LWLockMode)
  | conditionalAcquire (proc : Proc) (lockid : LockId) (mode : LWLockMode)
  | release (proc : Proc) (lockid : LockId)
  | proceed (proc : Proc)
  | signal (proc : Proc)
  | await (proc : Proc)

variable {Proc : Type u} {LockId : Type v} [DecidableEq Proc] [DecidableEq LockId] [Fintype Proc]

def step (s : State Proc LockId) : Event Proc LockId → State Proc LockId
  | .acquire proc lockid mode =>
    match s.phase proc with
    | .running =>
      if (s.held proc).length ≥ maxSimulLwlocks then s else s.move proc (.acquiring lockid mode false 0)
    | _ => s
  | .conditionalAcquire proc lockid mode =>
    match s.phase proc with
    | .running =>
      if (s.held proc).length ≥ maxSimulLwlocks then s
      else
        match (s.lock lockid).grab mode with
        | some lock => s.hold proc lockid mode lock .running
        | none => s
    | _ => s
  | .release proc lockid =>
    match s.phase proc with
    | .running => if (s.held proc).any fun hold => hold.1 = lockid then s.release proc lockid else s
    | _ => s
  | .proceed proc => s.proceed proc
  | .signal proc =>
    { s with
      sem := update s.sem proc (s.sem proc + 1)
      signalled := update s.signalled proc (s.signalled proc + 1) }
  | .await proc =>
    match s.phase proc with
    | .running =>
      if s.sem proc = 0 then s
      else { s with
        sem := update s.sem proc (s.sem proc - 1)
        awaited := update s.awaited proc (s.awaited proc + 1) }
    | _ => s

end LWLock

end BlockchainPG.Storage
