import BlockchainPG.Lib.Runs
import BlockchainPG.Mvcc.Transam

/-! Backends that assign ids, end transactions and take snapshots at the same time. -/

namespace BlockchainPG.Mvcc

open Lib Function

/-- `PGPROC_MAX_CACHED_SUBXIDS` -/
def maxCachedSubxids : Nat := 64

structure XidCache where
  xids : Nat → TransactionId
  nxids : Nat
  overflowed : Bool

/-- What a backend shows to the others. `inVacuum` is `PROC_IN_VACUUM` of `vacuumFlags`. -/
structure PGPROC where
  xid : TransactionId
  xmin : TransactionId
  inVacuum : Bool
  subxids : XidCache

/-- The field of a `PGPROC` that `GetSnapshotData` reads next. -/
inductive Stage where
  | vacuumFlags
  | xmin
  | xid
  | overflowed
  | nxids
  | entries (nxids copied : Nat)
deriving DecidableEq

/-- The variables of `GetSnapshotData`, with the part of the array still to be
visited. `ended` only serves to say what the snapshot should show: the ids whose
transaction had ended when the lock was taken. -/
structure Scan (Proc : Type) where
  xmax : TransactionId
  xmin : TransactionId
  globalxmin : TransactionId
  xip : List TransactionId
  subxip : Option (List TransactionId)
  rest : List Proc
  stage : Stage
  ended : TransactionId → Bool

/-- What a backend is doing. While `storing` or `counting` it holds `XidGenLock`,
while `scanning` it holds `ProcArrayLock` in shared mode. -/
inductive Activity (Proc : Type) where
  | idle
  | storing (xid : TransactionId) (parent : Option TransactionId)
  | counting (xid parent : TransactionId)
  | linking (xid parent : TransactionId)
  | scanning (scan : Scan Proc)

namespace Activity

variable {Proc : Type}

def isIdle : Activity Proc → Bool
  | .idle => true
  | _ => false

def isScanning : Activity Proc → Bool
  | .scanning _ => true
  | _ => false

/-- The subtransaction id that is on its way into `pg_subtrans`. -/
def pending : Activity Proc → Option TransactionId
  | .storing xid (some _) => some xid
  | .counting xid _ => some xid
  | .linking xid _ => some xid
  | _ => none

/-- The id that is on its way into the `PGPROC`. -/
def unstored : Activity Proc → Option TransactionId
  | .storing xid _ => some xid
  | .counting xid _ => some xid
  | _ => none

end Activity

/-- A snapshot in use, and the ids whose transaction had ended when it was taken. -/
structure Taken where
  snapshot : SnapshotData
  ended : TransactionId → Bool

/-- The variables of one backend: the ids of its transaction and of the
subtransactions, and the snapshots it has taken in this transaction. -/
structure Backend (Proc : Type) where
  main : TransactionId
  children : List TransactionId
  transactionXmin : TransactionId
  recentXmin : TransactionId
  recentGlobalXmin : TransactionId
  currentCommandId : Nat
  activity : Activity Proc
  taken : List Taken

/-- What has become of an id: whose it is, the id of its top-level transaction,
whether that is a lazy vacuum, and whether it has ended. -/
structure Record (Proc : Type) where
  owner : Proc
  top : TransactionId
  lazyVacuum : Bool
  isOver : Bool

/-- Shared memory, the backends, and the history of the ids. -/
structure State (Proc : Type) where
  nextXid : TransactionId
  latestCompletedXid : TransactionId
  xidGenLock : Option Proc
  pgSubtrans : TransactionId → TransactionId
  procs : Proc → PGPROC
  backends : Proc → Backend Proc
  record : TransactionId → Option (Record Proc)

/-- The backends of a server that has started with the id `startXid`. -/
structure Cluster (Proc : Type) where
  limits : Limits
  procArray : List Proc
  everyone : ∀ proc, proc ∈ procArray
  startXid : TransactionId
  startLive : limits.Live startXid

inductive Event (Proc : Type) where
  /-- `GetNewTransactionId`, for a subtransaction of `parent` if there is one. -/
  | assign (proc : Proc) (parent : Option TransactionId)
  /-- The next access of what the backend is doing. -/
  | proceed (proc : Proc)
  | endTransaction (proc : Proc)
  | getSnapshot (proc : Proc)
  /-- Lazy vacuum sets `PROC_IN_VACUUM`. -/
  | beginVacuum (proc : Proc)

def transactionIdLatest (main : TransactionId) (children : List TransactionId) : TransactionId :=
  children.foldr (fun xid result => if transactionIdPrecedes result xid then xid else result) main

namespace Cluster

variable {Proc : Type} [DecidableEq Proc] (c : Cluster Proc)

/-- The transaction of the id is over; permanent ids and those from before the start belong to none. -/
def hasEnded (s : State Proc) (xid : TransactionId) : Bool :=
  match s.record xid with
  | some record => record.isOver
  | none => !transactionIdIsNormal xid || decide (c.limits.pos xid < c.limits.pos c.startXid)

/-- `GetNewTransactionId` up to the point where `nextXid` is advanced. The entry of
the new id in `pg_subtrans` is an empty one (`ExtendSUBTRANS`). -/
def assign (s : State Proc) (proc : Proc) (parent : Option TransactionId) : State Proc :=
  let xid := s.nextXid
  let backend := s.backends proc
  if c.limits.refuses xid then s
  else { s with
    nextXid := transactionIdAdvance xid
    xidGenLock := some proc
    pgSubtrans := update s.pgSubtrans xid InvalidTransactionId
    backends := update s.backends proc { backend with
      main := if parent.isSome then backend.main else xid
      children := if parent.isSome then backend.children ++ [xid] else backend.children
      activity := .storing xid parent }
    record := update s.record xid (some {
      owner := proc
      top := if parent.isSome then backend.main else xid
      lazyVacuum := (s.procs proc).inVacuum
      isOver := false }) }

def setActivity (s : State Proc) (proc : Proc) (activity : Activity Proc) : State Proc :=
  { s with backends := update s.backends proc { s.backends proc with activity := activity } }

/-- The rest of `GetNewTransactionId`: the store into the own `PGPROC`. The lock is
released with the last store, since that is all others can notice. -/
def store (s : State Proc) (proc : Proc) (xid : TransactionId) : Option TransactionId → State Proc
  | none =>
    { setActivity s proc .idle with
      xidGenLock := none
      procs := update s.procs proc { s.procs proc with xid := xid } }
  | some parent =>
    let shown := s.procs proc
    let cache := shown.subxids
    if cache.nxids < maxCachedSubxids then
      { setActivity s proc (.counting xid parent) with
        procs := update s.procs proc
          { shown with subxids := { cache with xids := update cache.xids cache.nxids xid } } }
    else
      { setActivity s proc (.linking xid parent) with
        xidGenLock := none
        procs := update s.procs proc { shown with subxids := { cache with overflowed := true } } }

def count (s : State Proc) (proc : Proc) (xid parent : TransactionId) : State Proc :=
  let shown := s.procs proc
  let cache := shown.subxids
  { setActivity s proc (.linking xid parent) with
    xidGenLock := none
    procs := update s.procs proc { shown with subxids := { cache with nxids := cache.nxids + 1 } } }

/-- `SubTransSetParent`. -/
def link (s : State Proc) (proc : Proc) (xid parent : TransactionId) : State Proc :=
  { setActivity s proc .idle with pgSubtrans := update s.pgSubtrans xid parent }

/-- `GetSnapshotData` up to the loop. -/
def getSnapshot (s : State Proc) (proc : Proc) : State Proc :=
  let xmax := transactionIdAdvance s.latestCompletedXid
  setActivity s proc (.scanning {
    xmax := xmax
    xmin := xmax
    globalxmin := xmax
    xip := []
    subxip := some []
    rest := c.procArray
    stage := .vacuumFlags
    ended := c.hasEnded s })

end Cluster

namespace Scan

variable {Proc : Type} [DecidableEq Proc]

/-- On to the next `PGPROC`. -/
def advance (scan : Scan Proc) : Scan Proc := { scan with rest := scan.rest.tail, stage := .vacuumFlags }

/-- The visit of `proc->xid`: an id before `xmax` goes into the snapshot, unless it is the own one. -/
def visitXid (scan : Scan Proc) (own : Bool) (xid : TransactionId) : Scan Proc :=
  if transactionIdIsNormal xid then
    if transactionIdFollowsOrEquals xid scan.xmax then scan.advance
    else { scan with
      xip := if own then scan.xip else scan.xip ++ [xid]
      xmin := if transactionIdPrecedes xid scan.xmin then xid else scan.xmin
      stage := .overflowed }
  else { scan with stage := .overflowed }

/-- The visit of `proc->subxids.overflowed`, unless there is no point. -/
def visitOverflowed (scan : Scan Proc) (own overflowed : Bool) : Scan Proc :=
  if scan.subxip.isSome && !own then
    if overflowed then { scan.advance with subxip := none } else { scan with stage := .nxids }
  else scan.advance

/-- One access of the loop of `GetSnapshotData` to a `PGPROC`. -/
def visit (scan : Scan Proc) (own : Bool) (shown : PGPROC) : Scan Proc :=
  match scan.stage with
  | .vacuumFlags => if shown.inVacuum then scan.advance else { scan with stage := .xmin }
  | .xmin =>
    { scan with
      globalxmin :=
        if transactionIdIsNormal shown.xmin && transactionIdPrecedes shown.xmin scan.globalxmin then shown.xmin
        else scan.globalxmin
      stage := .xid }
  | .xid => scan.visitXid own shown.xid
  | .overflowed => scan.visitOverflowed own shown.subxids.overflowed
  | .nxids => { scan with stage := .entries shown.subxids.nxids 0 }
  | .entries nxids copied =>
    if copied < nxids then
      { scan with
        subxip := scan.subxip.map (· ++ [shown.subxids.xids copied])
        stage := .entries nxids (copied + 1) }
    else scan.advance

end Scan

namespace Cluster

variable {Proc : Type} [DecidableEq Proc] (c : Cluster Proc)

/-- The end of `GetSnapshotData`. -/
def finishSnapshot (s : State Proc) (proc : Proc) (scan : Scan Proc) : State Proc :=
  let shown := s.procs proc
  let backend := s.backends proc
  let first := shown.xmin == InvalidTransactionId
  { s with
    procs := update s.procs proc { shown with xmin := if first then scan.xmin else shown.xmin }
    backends := update s.backends proc { backend with
      transactionXmin := if first then scan.xmin else backend.transactionXmin
      recentXmin := scan.xmin
      recentGlobalXmin :=
        if transactionIdPrecedes scan.xmin scan.globalxmin then scan.xmin else scan.globalxmin
      activity := .idle
      taken := {
        snapshot := {
          xmin := scan.xmin
          xmax := scan.xmax
          xip := scan.xip
          subxip := scan.subxip
          curcid := backend.currentCommandId }
        ended := scan.ended } :: backend.taken } }

/-- One access of `GetSnapshotData`. -/
def scan (s : State Proc) (proc : Proc) (scan : Scan Proc) : State Proc :=
  match scan.rest with
  | [] => finishSnapshot s proc scan
  | head :: _ => setActivity s proc (.scanning (scan.visit (decide (head = proc)) (s.procs head)))

def proceed (s : State Proc) (proc : Proc) : State Proc :=
  match (s.backends proc).activity with
  | .idle => s
  | .storing xid parent => store s proc xid parent
  | .counting xid parent => count s proc xid parent
  | .linking xid parent => link s proc xid parent
  | .scanning scan => Cluster.scan s proc scan

/-- `ProcArrayEndTransaction`. -/
def procArrayEndTransaction (s : State Proc) (proc : Proc) (latestXid : TransactionId) : State Proc :=
  let shown := s.procs proc
  if latestXid ≠ InvalidTransactionId then
    { s with
      latestCompletedXid :=
        if transactionIdPrecedes s.latestCompletedXid latestXid then latestXid else s.latestCompletedXid
      procs := update s.procs proc {
        xid := InvalidTransactionId
        xmin := InvalidTransactionId
        inVacuum := false
        subxids := { shown.subxids with nxids := 0, overflowed := false } } }
  else { s with procs := update s.procs proc { shown with xmin := InvalidTransactionId, inVacuum := false } }

/-- A transaction ends: `ProcArrayEndTransaction` is called, the ids are over from then on whatever the
call does, and the backend forgets them and its snapshots. -/
def endTransaction (s : State Proc) (proc : Proc) : State Proc :=
  let backend := s.backends proc
  if backend.main ≠ InvalidTransactionId then
    { procArrayEndTransaction s proc (transactionIdLatest backend.main backend.children) with
      backends := update s.backends proc { backend with
        main := InvalidTransactionId
        children := []
        taken := [] }
      record := fun xid => (s.record xid).map fun record =>
        if record.owner = proc then { record with isOver := true } else record }
  else
    { procArrayEndTransaction s proc InvalidTransactionId with
      backends := update s.backends proc { backend with taken := [] } }

def beginVacuum (s : State Proc) (proc : Proc) : State Proc :=
  { s with procs := update s.procs proc { s.procs proc with inVacuum := true } }

def perform (s : State Proc) : Event Proc → State Proc
  | .assign proc parent => c.assign s proc parent
  | .proceed proc => proceed s proc
  | .endTransaction proc => endTransaction s proc
  | .getSnapshot proc => c.getSnapshot s proc
  | .beginVacuum proc => beginVacuum s proc

/-- Nobody holds `ProcArrayLock` in shared mode. -/
def Unlocked (s : State Proc) : Prop :=
  ∀ proc ∈ c.procArray, (s.backends proc).activity.isScanning = false

instance (s : State Proc) : Decidable (c.Unlocked s) := inferInstanceAs (Decidable (∀ _ ∈ _, _))

/-- What a backend can do in a state: it does one thing at a time, it waits for
the locks, a subtransaction gets an id after its parent, and a transaction is
known to be a lazy vacuum before it gets an id. -/
def Allowed (s : State Proc) : Event Proc → Prop
  | .assign proc parent =>
    (s.backends proc).activity.isIdle = true ∧ s.xidGenLock = none ∧ match parent with
      | none => (s.backends proc).main = InvalidTransactionId
      | some xid => (s.backends proc).main ≠ InvalidTransactionId ∧
          xid ∈ (s.backends proc).main :: (s.backends proc).children
  | .proceed _ => True
  | .endTransaction proc =>
    (s.backends proc).activity.isIdle = true ∧
      ((s.backends proc).main ≠ InvalidTransactionId → c.Unlocked s)
  | .getSnapshot proc => (s.backends proc).activity.isIdle = true
  | .beginVacuum proc =>
    (s.backends proc).activity.isIdle = true ∧ (s.backends proc).main = InvalidTransactionId ∧
      c.Unlocked s

instance (s : State Proc) (event : Event Proc) : Decidable (c.Allowed s event) := by
  cases event with
  | assign proc parent =>
    cases parent with
    | none => exact inferInstanceAs (Decidable (_ ∧ _ ∧ _))
    | some xid => exact inferInstanceAs (Decidable (_ ∧ _ ∧ _ ∧ _))
  | proceed proc => exact inferInstanceAs (Decidable True)
  | endTransaction proc => exact inferInstanceAs (Decidable (_ ∧ _))
  | getSnapshot proc => exact inferInstanceAs (Decidable (_ = _))
  | beginVacuum proc => exact inferInstanceAs (Decidable (_ ∧ _ ∧ _))

/-- The server has just started: all ids before `startXid` belong to the past. -/
structure Start (s : State Proc) : Prop where
  next : s.nextXid = c.startXid
  completed : c.limits.Live s.latestCompletedXid
  advance : transactionIdAdvance s.latestCompletedXid = c.startXid
  free : s.xidGenLock = none
  rises : ∀ xid, s.pgSubtrans xid ≠ InvalidTransactionId →
    c.limits.pos (s.pgSubtrans xid) < c.limits.pos xid
  noXid : ∀ proc, (s.procs proc).xid = InvalidTransactionId
  noXmin : ∀ proc, (s.procs proc).xmin = InvalidTransactionId
  noCache : ∀ proc, (s.procs proc).subxids.nxids = 0 ∧ (s.procs proc).subxids.overflowed = false
  noMain : ∀ proc, (s.backends proc).main = InvalidTransactionId
  noChildren : ∀ proc, (s.backends proc).children = []
  idle : ∀ proc, (s.backends proc).activity = .idle
  noTaken : ∀ proc, (s.backends proc).taken = []
  noRecord : ∀ xid, s.record xid = none

/-- `pg_subtrans` as a backend may read it. -/
def subTrans (s : State Proc) (proc : Proc)
    (rises : ∀ xid, s.pgSubtrans xid ≠ InvalidTransactionId →
      c.limits.pos (s.pgSubtrans xid) < c.limits.pos xid) : SubTrans where
  parent := s.pgSubtrans
  transactionXmin := (s.backends proc).transactionXmin
  depth := c.limits.pos
  rises := rises

/-- The `pg_subtrans` entry of the id has yet to be written. -/
def Pending (s : State Proc) (xid : TransactionId) : Prop :=
  ∃ proc, (s.backends proc).activity.pending = some xid

end Cluster

end BlockchainPG.Mvcc
