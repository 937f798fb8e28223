import BlockchainPG.Mvcc.SnapshotAtomic

/-! `GetOldestXmin` against the snapshots in use and later. -/

namespace BlockchainPG.Mvcc

open Lib Function

variable {Proc : Type}

/-- The field of a `PGPROC` that `GetOldestXmin` reads next. -/
inductive OldestStage where
  | vacuumFlags
  | xid
  | xmin
deriving DecidableEq

/-- The variables of `GetOldestXmin`, with the part of the array still to be visited. -/
structure OldestScan (Proc : Type) where
  ignoreVacuum : Bool
  result : TransactionId
  rest : List Proc
  stage : OldestStage

namespace OldestScan

/-- On to the next `PGPROC`. -/
def advance (scan : OldestScan Proc) : OldestScan Proc :=
  { scan with rest := scan.rest.tail, stage := .vacuumFlags }

/-- The earlier one of the result and an id that has been read. -/
def consider (scan : OldestScan Proc) (xid : TransactionId) : TransactionId :=
  if transactionIdIsNormal xid && transactionIdPrecedes xid scan.result then xid else scan.result

/-- One access of the loop of `GetOldestXmin` to a `PGPROC`. -/
def visit (scan : OldestScan Proc) (shown : PGPROC) : OldestScan Proc :=
  match scan.stage with
  | .vacuumFlags => if scan.ignoreVacuum && shown.inVacuum then scan.advance else { scan with stage := .xid }
  | .xid => { scan with result := scan.consider shown.xid, stage := .xmin }
  | .xmin => { scan.advance with result := scan.consider shown.xmin }

/-- The `xid` of the backend needs no further visit. -/
def SeenXid (scan : OldestScan Proc) (proc : Proc) : Prop :=
  proc ∉ scan.rest ∨ (scan.rest.head? = some proc ∧ scan.stage = .xmin)

end OldestScan

/-- A server, the calls of `GetOldestXmin` on their way, which hold `ProcArrayLock` in
shared mode, and what the finished ones have returned. -/
structure Watched (Proc : Type) where
  state : State Proc
  asking : Proc → Option (OldestScan Proc)
  returned : List TransactionId

def Watched.start (s : State Proc) : Watched Proc := ⟨s, fun _ => none, []⟩

inductive WatchedEvent (Proc : Type) where
  | other (event : Event Proc)
  /-- `GetOldestXmin` up to the loop. -/
  | getOldestXmin (proc : Proc) (ignoreVacuum : Bool)
  /-- The next access of the loop. -/
  | look (proc : Proc)

def Event.proc : Event Proc → Proc
  | .assign proc _ => proc
  | .proceed proc => proc
  | .endTransaction proc => proc
  | .getSnapshot proc => proc
  | .beginVacuum proc => proc

/-- The event needs `ProcArrayLock` in exclusive mode. -/
def Event.exclusive (s : State Proc) : Event Proc → Bool
  | .endTransaction proc => decide ((s.backends proc).main ≠ InvalidTransactionId)
  | .beginVacuum _ => true
  | _ => false

def PGPROC.showing (shown : PGPROC) : TransactionId × Bool := (shown.xmin, shown.inVacuum)

def Backend.holding (backend : Backend Proc) : TransactionId × List Taken := (backend.transactionXmin, backend.taken)

namespace Cluster

section Model

variable [DecidableEq Proc] (c : Cluster Proc)

def getOldestXmin (w : Watched Proc) (proc : Proc) (ignoreVacuum : Bool) : Watched Proc :=
  { w with asking := update w.asking proc (some {
      ignoreVacuum := ignoreVacuum
      result := transactionIdAdvance w.state.latestCompletedXid
      rest := c.procArray
      stage := .vacuumFlags }) }

def look (w : Watched Proc) (proc : Proc) : Watched Proc :=
  match w.asking proc with
  | none => w
  | some scan =>
    match scan.rest with
    | [] => { w with
        asking := update w.asking proc none
        returned := scan.result :: w.returned }
    | head :: _ => { w with
        asking := update w.asking proc (some (scan.visit (w.state.procs head))) }

def watch (w : Watched Proc) : WatchedEvent Proc → Watched Proc
  | .other event => { w with state := c.perform w.state event }
  | .getOldestXmin proc ignoreVacuum => c.getOldestXmin w proc ignoreVacuum
  | .look proc => look w proc

/-- A backend does one thing at a time, and who needs the lock for itself waits for
the calls of `GetOldestXmin`, too. -/
def Watches (w : Watched Proc) : WatchedEvent Proc → Prop
  | .other event => c.Allowed w.state event ∧ (w.asking event.proc).isNone = true ∧
      (event.exclusive w.state = true → ∀ proc ∈ c.procArray, (w.asking proc).isNone = true)
  | .getOldestXmin proc _ =>
    (w.state.backends proc).activity.isIdle = true ∧ (w.asking proc).isNone = true
  | .look _ => True

instance (w : Watched Proc) (event : WatchedEvent Proc) : Decidable (c.Watches w event) := by
  cases event with
  | other event => exact inferInstanceAs (Decidable (_ ∧ _ ∧ (_ → ∀ _ ∈ _, _)))
  | getOldestXmin proc ignoreVacuum => exact inferInstanceAs (Decidable (_ ∧ _))
  | look proc => exact inferInstanceAs (Decidable True)

end Model

/-- What matters of a backend here: the `xmin` it shows and the one it keeps, and its snapshots. -/
def usage (s : State Proc) (proc : Proc) : (TransactionId × Bool) × TransactionId × List Taken :=
  ((s.procs proc).showing, (s.backends proc).holding)

theorem update_view [DecidableEq Proc] (view : α → β) (same : view new = view (row proc))
    (other : Proc) : view (update row proc new other) = view (row other) := by
  grind

/-- The `xmin` that a backend shows is the one it keeps. -/
def Published (s : State Proc) : Prop :=
  ∀ proc, (s.procs proc).xmin ≠ InvalidTransactionId →
    (s.procs proc).xmin = (s.backends proc).transactionXmin

variable (c : Cluster Proc)

/-- What a step can do to ids and snapshots: new ids and new snapshots start from what
is running and from what is yet to come. -/
structure Succeeds (s s' : State Proc) : Prop where
  completed : c.limits.pos (transactionIdAdvance s.latestCompletedXid) ≤
    c.limits.pos (transactionIdAdvance s'.latestCompletedXid)
  running : ∀ xid found, s'.Running xid found → s.Running xid found ∨
    c.limits.pos (transactionIdAdvance s.latestCompletedXid) ≤ c.limits.pos xid
  held : ∀ proc, (s'.procs proc).inVacuum = false → ∀ taken ∈ (s'.backends proc).taken,
    ((s.procs proc).inVacuum = false ∧ taken ∈ (s.backends proc).taken) ∨
      c.limits.pos (transactionIdAdvance s.latestCompletedXid) ≤ c.limits.pos taken.snapshot.xmin ∨
        ∃ found, s.Running taken.snapshot.xmin found ∧ found.lazyVacuum = false

/-- What can happen while the lock is held in shared mode. -/
structure Quiet (s s' : State Proc) : Prop extends c.Succeeds s s' where
  same : s'.latestCompletedXid = s.latestCompletedXid
  keeps : ∀ xid found, s.Running xid found → s'.Running xid found

/-- A `xmin` is not before the result, or it is an id that is running and will be visited. -/
def Covered (s : State Proc) (scan : OldestScan Proc) (xmin : TransactionId) : Prop :=
  c.limits.pos scan.result ≤ c.limits.pos xmin ∨
    ∃ found, s.Running xmin found ∧ found.lazyVacuum = false ∧ ¬scan.SeenXid found.owner

/-- What `GetOldestXmin` knows about the part of the array it has visited. -/
structure Asked (s : State Proc) (scan : OldestScan Proc) : Prop where
  live : c.limits.Live scan.result
  completed : c.limits.pos scan.result ≤ c.limits.pos (transactionIdAdvance s.latestCompletedXid)
  running : ∀ xid found, s.Running xid found → found.lazyVacuum = false → scan.SeenXid found.owner →
    c.limits.pos scan.result ≤ c.limits.pos xid
  held : ∀ proc, (s.procs proc).inVacuum = false → proc ∉ scan.rest →
    ∀ taken ∈ (s.backends proc).taken, c.Covered s scan taken.snapshot.xmin

/-- An id that is not after anything a snapshot can start from. -/
structure Below (s : State Proc) (result : TransactionId) : Prop where
  live : c.limits.Live result
  completed : c.limits.pos result ≤ c.limits.pos (transactionIdAdvance s.latestCompletedXid)
  running : ∀ xid found, s.Running xid found → found.lazyVacuum = false →
    c.limits.pos result ≤ c.limits.pos xid
  held : ∀ proc, (s.procs proc).inVacuum = false → ∀ taken ∈ (s.backends proc).taken,
    c.limits.pos result ≤ c.limits.pos taken.snapshot.xmin

variable {c}

theorem Below.succeeds (below : c.Below s result) (succeeds : c.Succeeds s s') :
    c.Below s' result := by
  have completed := below.completed
  refine ⟨below.live, completed.trans succeeds.completed, fun xid found alive busy => ?_, fun proc busy taken mem => ?_⟩
  · rcases succeeds.running xid found alive with before | late
    · exact below.running xid found before busy
    · exact completed.trans late
  · rcases succeeds.held proc busy taken mem with ⟨was, before⟩ | late | ⟨found, alive, foundBusy⟩
    · exact below.held proc was taken before
    · exact completed.trans late
    · exact below.running _ found alive foundBusy

theorem Asked.quiet {scan : OldestScan Proc} (asked : c.Asked s scan)
    (quiet : c.Quiet s s') : c.Asked s' scan := by
  have completed := asked.completed
  refine ⟨asked.live, completed.trans quiet.completed, fun xid found alive busy seen => ?_,
    fun proc busy visited taken mem => ?_⟩
  · rcases quiet.running xid found alive with before | late
    · exact asked.running xid found before busy seen
    · exact completed.trans late
  · rcases quiet.held proc busy taken mem with ⟨was, before⟩ | late | ⟨found, alive, foundBusy⟩
    · rcases asked.held proc was visited taken before with covered | ⟨found, alive, foundBusy, unseen⟩
      · exact Or.inl covered
      · exact Or.inr ⟨found, quiet.keeps _ found alive, foundBusy, unseen⟩
    · exact Or.inl (completed.trans late)
    · by_cases seen : scan.SeenXid found.owner
      · exact Or.inl (asked.running _ found alive foundBusy seen)
      · exact Or.inr ⟨found, quiet.keeps _ found alive, foundBusy, seen⟩

theorem Asked.below {scan : OldestScan Proc} (asked : c.Asked s scan) (finished : scan.rest = []) :
    c.Below s scan.result := by
  have seen (proc : Proc) : scan.SeenXid proc := Or.inl (by simp [finished])
  refine ⟨asked.live, asked.completed, fun xid found alive busy => asked.running xid found alive busy (seen _),
    fun proc busy taken mem => ?_⟩
  rcases asked.held proc busy (by simp [finished]) taken mem with covered | ⟨found, -, -, unseen⟩
  · exact covered
  · exact absurd (seen _) unseen

theorem Orderly.asked_start (orderly : c.Orderly s) (ignoreVacuum : Bool) : c.Asked s
      ⟨ignoreVacuum, transactionIdAdvance s.latestCompletedXid, c.procArray, .vacuumFlags⟩ := by
  refine ⟨orderly.xmaxLive, le_refl _, fun xid found alive busy seen => ?_, fun proc _ visited => ?_⟩
  · rcases seen with outside | ⟨-, past⟩
    · exact absurd (c.everyone _) outside
    · exact (nomatch past)
  · exact absurd (c.everyone proc) visited

theorem consider_spec {scan : OldestScan Proc} (live : c.limits.Live scan.result)
    (near : transactionIdIsNormal xid = true → c.limits.Live xid) : c.limits.Live (scan.consider xid) ∧
      c.limits.pos (scan.consider xid) ≤ c.limits.pos scan.result ∧
        (transactionIdIsNormal xid = true → c.limits.pos (scan.consider xid) ≤ c.limits.pos xid) := by
  unfold OldestScan.consider
  grind [Limits.precedes_iff]

theorem Orderly.shown_le (orderly : c.Orderly s) (alive : s.Running xid found) :
    (transactionIdIsNormal (s.procs found.owner).xid = true ∧
        c.limits.pos (s.procs found.owner).xid ≤ c.limits.pos xid) ∨
      c.limits.pos (transactionIdAdvance s.latestCompletedXid) ≤ c.limits.pos xid := by
  obtain ⟨owns, top, -, upper⟩ := orderly.running_spec alive
  rw [top] at upper
  rcases (orderly.shows found.owner).stored with stored | ⟨unstored, -⟩
  · left
    rw [stored]
    have live := ((orderly.accounts found.owner).live orderly.numbered ⟨owns.1, List.mem_cons_self⟩).1
    exact ⟨live.normal, upper⟩
  · exact Or.inr ((orderly.unstored_late unstored).trans upper)

theorem Orderly.shown_live (orderly : c.Orderly s)
    (normal : transactionIdIsNormal (s.procs proc).xid = true) : c.limits.Live (s.procs proc).xid := by
  rcases (orderly.shows proc).stored with stored | ⟨-, invalid⟩
  · rw [stored] at normal ⊢
    exact ((orderly.accounts proc).live orderly.numbered ⟨ne_invalid_of_normal normal, List.mem_cons_self⟩).1
  · rw [invalid] at normal
    cases normal

theorem Asked.step {scan scan' : OldestScan Proc} (asked : c.Asked s scan)
    (live : c.limits.Live scan'.result)
    (lower : c.limits.pos scan'.result ≤ c.limits.pos scan.result)
    (running : ∀ xid found, s.Running xid found → found.lazyVacuum = false → scan'.SeenXid found.owner →
      ¬scan.SeenXid found.owner → c.limits.pos scan'.result ≤ c.limits.pos xid)
    (held : ∀ proc, (s.procs proc).inVacuum = false → proc ∉ scan'.rest → proc ∈ scan.rest →
      ∀ taken ∈ (s.backends proc).taken,
        c.limits.pos scan'.result ≤ c.limits.pos taken.snapshot.xmin) : c.Asked s scan' := by
  refine ⟨live, lower.trans asked.completed, fun xid found alive busy seen => ?_,
    fun proc busy visited taken mem => ?_⟩
  · grind [LE.le.trans, running]
  · by_cases before : proc ∈ scan.rest
    · exact Or.inl (held proc busy visited before taken mem)
    · rcases asked.held proc busy before taken mem with covered | ⟨found, alive, foundBusy, unseen⟩
      · exact Or.inl (lower.trans covered)
      · by_cases seen : scan'.SeenXid found.owner
        · exact Or.inl (running _ found alive foundBusy seen unseen)
        · exact Or.inr ⟨found, alive, foundBusy, seen⟩

theorem eq_head_of_tail {scan : OldestScan Proc} (shape : scan.rest = head :: rest) (outside : proc ∉ scan.rest.tail)
    (inside : proc ∈ scan.rest) : proc = head := by
  grind

section

variable {s : State Proc} {scan : OldestScan Proc} (asked : c.Asked s scan)
include scan asked

theorem Asked.visitVacuumFlags (orderly : c.Orderly s) (shape : scan.rest = head :: rest) :
    c.Asked s (if scan.ignoreVacuum && (s.procs head).inVacuum then scan.advance
      else { scan with stage := .xid }) := by
  split
  · next skipped =>
    have vacuum : (s.procs head).inVacuum = true := (Bool.and_eq_true_iff.mp skipped).2
    refine asked.step asked.live (le_refl _) (fun xid found alive busy seen unseen => ?_)
      (fun proc busy visited inside => ?_)
    · rcases seen with outside | ⟨-, past⟩
      · have isHead := eq_head_of_tail shape outside (not_not.mp (mt Or.inl unseen))
        have same := (orderly.running_spec alive).2.2.1
        grind
      · exact (nomatch past)
    · rw [eq_head_of_tail shape visited inside, vacuum] at busy
      exact (nomatch busy)
  · refine asked.step asked.live (le_refl _) (fun xid found alive busy seen unseen => ?_)
      (fun proc busy visited inside => absurd inside visited)
    rcases seen with outside | ⟨-, past⟩
    · exact absurd (Or.inl outside) unseen
    · exact (nomatch past)

theorem Asked.visitXid (orderly : c.Orderly s) (shape : scan.rest = head :: rest) :
    c.Asked s { scan with result := scan.consider (s.procs head).xid, stage := .xmin } := by
  obtain ⟨live, lower, upper⟩ := consider_spec asked.live (@Orderly.shown_live _ _ _ head orderly)
  refine asked.step live lower (fun xid found alive busy seen unseen => ?_)
    (fun proc busy visited inside => absurd inside visited)
  rcases seen with outside | ⟨isHead, -⟩
  · exact absurd (Or.inl outside) unseen
  · simp only [shape, List.head?_cons, Option.some.injEq] at isHead
    rcases orderly.shown_le alive with ⟨normal, le⟩ | late
    · grind
    · exact (lower.trans asked.completed).trans late

theorem Asked.visitXmin (atomic : c.Atomic s)
    (published : Published s) (shape : scan.rest = head :: rest) (stage : scan.stage = .xmin) :
    c.Asked s { scan.advance with result := scan.consider (s.procs head).xmin } := by
  have near : transactionIdIsNormal (s.procs head).xmin = true → c.limits.Live (s.procs head).xmin := by
    intro normal
    have valid := ne_invalid_of_normal normal
    rw [published head valid]
    exact (atomic.oldest head).live valid
  obtain ⟨live, lower, upper⟩ := consider_spec asked.live near
  refine asked.step live lower (fun xid found alive busy seen unseen => ?_)
    (fun proc busy visited inside taken mem => ?_)
  · obtain ⟨inside, other⟩ := not_or.mp unseen
    rcases seen with outside | ⟨-, past⟩
    · rw [eq_head_of_tail shape outside (not_not.mp inside)] at other
      exact absurd ⟨by rw [shape]; rfl, stage⟩ other
    · exact (nomatch past)
  · have isHead := eq_head_of_tail shape visited inside
    subst isHead
    by_cases valid : (s.procs proc).xmin = InvalidTransactionId
    · rw [(atomic.oldest proc).used valid] at mem
      cases mem
    · have bound := (atomic.faithful proc taken mem).transactionXmin_le
      have normal := ((atomic.oldest proc).live valid).normal
      rw [← published proc valid] at bound normal
      exact (upper normal).trans bound

theorem Asked.visit (atomic : c.Atomic s) (published : Published s) (shape : scan.rest = head :: rest) :
    c.Asked s (scan.visit (s.procs head)) := by
  grind [OldestScan.visit, visitVacuumFlags, Atomic.orderly, visitXid, visitXmin]

end

theorem Published.plain (published : Published s) (same : ∀ proc, usage s' proc = usage s proc) :
    Published s' := by
  intro proc valid
  have parts := same proc
  simp only [usage, PGPROC.showing, Backend.holding, Prod.mk.injEq] at parts
  rw [parts.1.1] at valid ⊢
  rw [parts.2.1]
  exact published proc valid

theorem Quiet.plain (completed : s'.latestCompletedXid = s.latestCompletedXid)
    (running : ∀ xid found, s'.Running xid found → s.Running xid found ∨
      c.limits.pos (transactionIdAdvance s.latestCompletedXid) ≤ c.limits.pos xid)
    (keeps : ∀ xid found, s.Running xid found → s'.Running xid found)
    (same : ∀ proc, usage s' proc = usage s proc) : c.Quiet s s' := by
  refine ⟨⟨by rw [completed], running, fun proc busy taken mem => Or.inl ?_⟩, completed, keeps⟩
  have parts := same proc
  grind [usage, PGPROC.showing, Backend.holding]

/-- The ids and the snapshots stay as they are. -/
structure Idles (s s' : State Proc) : Prop where
  completed : s'.latestCompletedXid = s.latestCompletedXid
  record : s'.record = s.record
  usage : ∀ proc, usage s' proc = usage s proc

theorem Idles.quiet (idles : Idles s s') : c.Quiet s s' := by
  refine Quiet.plain idles.completed (fun xid found alive => Or.inl ?_) (fun xid found alive => ?_) idles.usage
  · exact ⟨idles.record ▸ alive.1, alive.2⟩
  · exact ⟨idles.record.symm ▸ alive.1, alive.2⟩

section Steps

variable [DecidableEq Proc]

theorem setActivity_idles (s : State Proc) (proc : Proc) (activity : Activity Proc) :
    Idles s (setActivity s proc activity) :=
  ⟨rfl, rfl, fun _ => Prod.ext rfl (update_view Backend.holding (by rfl) _)⟩

theorem usage_stored {s : State Proc} {shown : PGPROC} (activity : Activity Proc)
    (xmin : shown.xmin = (s.procs proc).xmin) (inVacuum : shown.inVacuum = (s.procs proc).inVacuum)
    (lock : Option Proc) (other : Proc) : usage { setActivity s proc activity with
      xidGenLock := lock, procs := update s.procs proc shown } other = usage s other := by
  refine Prod.ext (update_view PGPROC.showing ?_ _) (update_view Backend.holding (by rfl) _)
  rw [PGPROC.showing, PGPROC.showing, xmin, inVacuum]

theorem store_idles (s : State Proc) (proc : Proc) (xid : TransactionId) (parent : Option TransactionId) :
    Idles s (store s proc xid parent) := by
  unfold store
  split
  · exact ⟨rfl, rfl, usage_stored _ (by rfl) (by rfl) _⟩
  · simp only
    split
    · exact ⟨rfl, rfl, usage_stored _ (by rfl) (by rfl) _⟩
    · exact ⟨rfl, rfl, usage_stored _ (by rfl) (by rfl) _⟩

theorem finishSnapshot_quiet {scan : Scan Proc} (scanned : c.Scanned s proc scan) :
    c.Quiet s (finishSnapshot s proc scan) := by
  refine ⟨⟨le_refl _, fun xid found alive => Or.inl alive, fun other busy taken mem => ?_⟩, rfl,
    fun xid found alive => alive⟩
  have was : (s.procs other).inVacuum = false := by
    rw [← busy]
    exact (update_view PGPROC.inVacuum (by rfl) other).symm
  by_cases isProc : other = proc
  · subst isProc
    simp only [finishSnapshot, update_self, List.mem_cons] at mem
    grind [Scanned.xmin_from, Scanned.xmax]
  · simp only [finishSnapshot, update_of_ne isProc] at mem
    exact Or.inl ⟨was, mem⟩

theorem finishSnapshot_published (published : Published s) (scan : Scan Proc) :
    Published (finishSnapshot s proc scan) := by
  intro other valid
  by_cases isProc : other = proc
  · subst isProc
    simp only [finishSnapshot, update_self]
    split
    · rfl
    · next nonzero => exact published other (by simpa using nonzero)
  · simp only [finishSnapshot, update_of_ne isProc] at valid ⊢
    exact published other valid

theorem Atomic.proceed_quiet (atomic : c.Atomic s) (published : Published s) (proc : Proc) :
    c.Quiet s (Cluster.proceed s proc) ∧ Published (Cluster.proceed s proc) := by
  have ofIdles {s' : State Proc} (idles : Idles s s') : c.Quiet s s' ∧ Published s' :=
    ⟨idles.quiet, published.plain idles.usage⟩
  unfold Cluster.proceed
  split
  · exact ofIdles ⟨rfl, rfl, fun _ => rfl⟩
  · exact ofIdles (store_idles ..)
  · exact ofIdles ⟨rfl, rfl, usage_stored _ (by rfl) (by rfl) _⟩
  · exact ofIdles ⟨rfl, rfl, (setActivity_idles s proc .idle).usage⟩
  · grind [Cluster.scan, finishSnapshot_quiet, scanned, finishSnapshot_published, setActivity_idles]

theorem Orderly.assign_quiet (orderly : c.Orderly s) (proc : Proc) (parent : Option TransactionId) :
    c.Quiet s (c.assign s proc parent) ∧
      ∀ other, usage (c.assign s proc parent) other = usage s other := by
  unfold Cluster.assign
  simp only
  split
  · exact ⟨Idles.quiet ⟨rfl, rfl, fun _ => rfl⟩, fun _ => rfl⟩
  · refine ⟨Quiet.plain rfl (fun xid found alive => ?_) (fun xid found alive => ⟨?_, alive.2⟩)
      fun other => Prod.ext rfl (update_view Backend.holding (by rfl) other),
      fun other => Prod.ext rfl (update_view Backend.holding (by rfl) other)⟩
    · by_cases new : xid = s.nextXid
      · right
        rw [new]
        exact orderly.xmax_le
      · left
        refine ⟨?_, alive.2⟩
        rw [← alive.1]
        exact (update_of_ne new ..).symm
    · have old : xid ≠ s.nextXid := by
        rintro rfl
        exact (nomatch orderly.numbered.fresh.symm.trans alive.1)
      rw [← alive.1]
      exact update_of_ne old ..

theorem endTransaction_usage (s : State Proc) (proc other : Proc) :
    ((endTransaction s proc).procs other).xmin = InvalidTransactionId ∧
        ((endTransaction s proc).backends other).taken = [] ∨
      usage (endTransaction s proc) other = usage s other := by
  rw [endTransaction_eq]
  by_cases isProc : other = proc
  · subst isProc
    left
    split <;> simp
  · right
    split <;> simp [usage, isProc]

theorem endTransaction_published {s : State Proc} (published : Published s) : Published (endTransaction s proc) := by
  intro other valid
  rcases endTransaction_usage s proc other with ⟨none, -⟩ | same
  · exact absurd none valid
  · simp only [usage, PGPROC.showing, Backend.holding, Prod.mk.injEq] at same
    rw [same.1.1] at valid ⊢
    rw [same.2.1]
    exact published other valid

theorem endTransaction_held {s : State Proc} (busy : ((endTransaction s proc).procs other).inVacuum = false)
    (mem : taken ∈ ((endTransaction s proc).backends other).taken) :
    (s.procs other).inVacuum = false ∧ taken ∈ (s.backends other).taken := by
  grind [endTransaction_usage, usage, PGPROC.showing, Backend.holding]

theorem endTransaction_quiet (none : (s.backends proc).main = InvalidTransactionId) :
    c.Quiet s (endTransaction s proc) := by
  have completed : (endTransaction s proc).latestCompletedXid = s.latestCompletedXid := by
    simp [endTransaction_eq, none]
  have record : (endTransaction s proc).record = s.record := by
    simp [endTransaction_eq, none]
  refine ⟨⟨by rw [completed], fun xid found alive => Or.inl ⟨record ▸ alive.1, alive.2⟩,
    fun other busy taken mem => Or.inl (endTransaction_held busy mem)⟩, completed,
    fun xid found alive => ⟨record.symm ▸ alive.1, alive.2⟩⟩

theorem Orderly.endTransaction_succeeds (orderly : c.Orderly s)
    (valid : (s.backends proc).main ≠ InvalidTransactionId) :
    c.Succeeds s (Cluster.endTransaction s proc) := by
  have numbered := orderly.numbered
  have accounts := orderly.accounts proc
  have latestLive := (accounts.live numbered (accounts.latest_spec numbered valid).1).1
  obtain ⟨live, value⟩ := pos_completed numbered latestLive
  have completed : (Cluster.endTransaction s proc).latestCompletedXid =
      if transactionIdPrecedes s.latestCompletedXid
          (transactionIdLatest (s.backends proc).main (s.backends proc).children)
        then transactionIdLatest (s.backends proc).main (s.backends proc).children
        else s.latestCompletedXid := by
    rw [endTransaction_eq, if_pos valid]
  have record : (Cluster.endTransaction s proc).record = closeRecords s.record proc := by
    rw [endTransaction_eq, if_pos valid]
  rw [← completed] at live value
  refine ⟨?_, fun xid found alive => Or.inl ?_, fun other busy taken mem => Or.inl (endTransaction_held busy mem)⟩
  · rcases Nat.eq_or_lt_of_le ((le_max_left _ _).trans_eq value.symm) with same | later
    · rw [Limits.pos_inj same]
    · have next := Limits.pos_advance_le numbered.completedLive live.normal later
      have := (Limits.pos_advance live).1
      omega
  · obtain ⟨closed, alive⟩ := alive
    rw [record] at closed
    obtain ⟨before, recorded, rfl⟩ := Option.map_eq_some_iff.mp closed
    by_cases own : before.owner = proc
    · simp [own] at alive
    · simp only [own, ↓reduceIte] at alive ⊢
      exact ⟨recorded, alive⟩

theorem beginVacuum_succeeds (s : State Proc) (proc : Proc) : c.Succeeds s (beginVacuum s proc) := by
  refine ⟨le_refl _, fun xid found alive => Or.inl alive, fun other busy taken mem => Or.inl ⟨?_, mem⟩⟩
  by_cases isProc : other = proc
  · simp [beginVacuum, isProc] at busy
  · simpa only [beginVacuum, update_of_ne isProc] using busy

theorem beginVacuum_published {s : State Proc} (published : Published s) : Published (beginVacuum s proc) := by
  intro other valid
  have same : ((beginVacuum s proc).procs other).xmin = (s.procs other).xmin :=
    update_view PGPROC.xmin (by rfl) other
  rw [same] at valid ⊢
  exact published other valid

section

variable {s : State Proc} (atomic : c.Atomic s) (published : Published s)
include atomic published

theorem Atomic.perform_published (event : Event Proc) : Published (c.perform s event) := by
  cases event with
  | assign proc parent => exact published.plain (atomic.orderly.assign_quiet proc parent).2
  | proceed proc => exact (atomic.proceed_quiet published proc).2
  | endTransaction proc => exact endTransaction_published published
  | getSnapshot proc => exact published.plain (setActivity_idles ..).usage
  | beginVacuum proc => exact beginVacuum_published published

theorem Atomic.perform_quiet {event : Event Proc}
    (isShared : event.exclusive s = false) : c.Quiet s (c.perform s event) := by
  cases event with
  | assign proc parent => exact (atomic.orderly.assign_quiet proc parent).1
  | proceed proc => exact (atomic.proceed_quiet published proc).1
  | endTransaction proc => exact endTransaction_quiet (by simpa [Event.exclusive] using isShared)
  | getSnapshot proc => exact (setActivity_idles ..).quiet
  | beginVacuum proc => exact (nomatch isShared)

theorem Atomic.perform_succeeds (event : Event Proc) : c.Succeeds s (c.perform s event) := by
  by_cases exclusive : event.exclusive s = true
  · cases event with
    | assign proc parent => exact (nomatch exclusive)
    | proceed proc => exact (nomatch exclusive)
    | endTransaction proc => exact atomic.orderly.endTransaction_succeeds (of_decide_eq_true exclusive)
    | getSnapshot proc => exact (nomatch exclusive)
    | beginVacuum proc => exact beginVacuum_succeeds s proc
  · exact (atomic.perform_quiet published (Bool.eq_false_iff.mpr exclusive)).toSucceeds

end

variable (c) in
/-- Everything that holds while `GetOldestXmin` is called. -/
structure Guarded (w : Watched Proc) : Prop where
  atomic : c.Atomic w.state
  published : Published w.state
  asked : ∀ proc scan, w.asking proc = some scan → c.Asked w.state scan
  below : ∀ result ∈ w.returned, c.Below w.state result

omit [DecidableEq Proc] in
theorem Start.guarded (start : c.Start s) : c.Guarded (Watched.start s) where
  atomic := start.atomic
  published proc valid := absurd (start.noXmin proc) valid
  asked _ _ none := (nomatch none)
  below _ none := (nomatch none)

theorem Guarded.other (guarded : c.Guarded w) (watches : c.Watches w (.other event)) :
    c.Guarded { w with state := c.perform w.state event } := by
  obtain ⟨allowed, -, unlocked⟩ := watches
  refine ⟨guarded.atomic.perform allowed, guarded.atomic.perform_published guarded.published event,
    fun proc scan asking => ?_, fun result returned => ?_⟩
  · by_cases exclusive : event.exclusive w.state = true
    · grind [everyone]
    · exact (guarded.asked proc scan asking).quiet
        (guarded.atomic.perform_quiet guarded.published (Bool.eq_false_iff.mpr exclusive))
  · exact (guarded.below result returned).succeeds (guarded.atomic.perform_succeeds guarded.published event)

theorem Guarded.setAsking {scan : OldestScan Proc} (guarded : c.Guarded w)
    (asked : c.Asked w.state scan) :
    c.Guarded { w with asking := update w.asking proc (some scan) } := by
  constructor <;> grind [atomic, published, below, asked]

theorem Guarded.look (guarded : c.Guarded w) : c.Guarded (look w proc) := by
  unfold Cluster.look
  split
  · exact guarded
  · next scan asking =>
    have asked := guarded.asked proc scan asking
    split
    · constructor <;> grind [atomic, published, asked, Asked.below, below]
    · next shape => exact guarded.setAsking (asked.visit guarded.atomic guarded.published shape)

theorem Guarded.watch (guarded : c.Guarded w) (watches : c.Watches w event) :
    c.Guarded (c.watch w event) := by
  cases event with
  | other event => exact guarded.other watches
  | getOldestXmin proc ignoreVacuum => exact guarded.setAsking (guarded.atomic.orderly.asked_start ignoreVacuum)
  | look proc => exact guarded.look

/-- What `GetOldestXmin` has returned is at or before the `xmin` of every snapshot that
a backend outside of lazy vacuum uses, from then on and in every run. -/
theorem oldestXmin_holds (start : c.Start initial)
    (meets : Meets c.watch c.Watches (Watched.start initial) events)
    (returned : result ∈ (run c.watch (Watched.start initial) events).returned)
    (busy : ((run c.watch (Watched.start initial) events).state.procs proc).inVacuum = false)
    (mem : taken ∈ ((run c.watch (Watched.start initial) events).state.backends proc).taken) :
    transactionIdFollowsOrEquals taken.snapshot.xmin result = true := by
  have guarded : c.Guarded (run c.watch (Watched.start initial) events) :=
    meets.keeps start.guarded fun _ _ guarded watches => guarded.watch watches
  have below := guarded.below result returned
  have faithful := guarded.atomic.faithful proc taken mem
  exact (Limits.followsOrEquals_iff faithful.xminLive below.live).mpr (below.held proc busy taken mem)

end Steps

end Cluster

/-- One backend has an id and the other takes a snapshot while a call of
`GetOldestXmin` is on its way; then the first transaction ends. -/
def oldestMeanwhile : List (WatchedEvent Bool) :=
  [.other (.assign false none), .other (.proceed false), .other (.getSnapshot true), .other (.proceed true),
    .getOldestXmin false true, .look false, .look false] ++
    List.replicate 12 (.other (.proceed true)) ++ List.replicate 6 (.look false) ++ [.other (.endTransaction false)]

namespace Cluster

theorem oldestXmin_holds_oldestMeanwhile :
    Meets twoBackends.watch twoBackends.Watches (Watched.start twoBackendsStart) oldestMeanwhile ∧
      (10 : TransactionId) ∈ (run twoBackends.watch (Watched.start twoBackendsStart) oldestMeanwhile).returned ∧
      ∃ taken ∈ ((run twoBackends.watch (Watched.start twoBackendsStart) oldestMeanwhile).state.backends true).taken,
        transactionIdFollowsOrEquals taken.snapshot.xmin 10 = true := by
  have meets : Meets twoBackends.watch twoBackends.Watches (Watched.start twoBackendsStart) oldestMeanwhile := by
    decide +kernel
  have returned : (10 : TransactionId) ∈
      (run twoBackends.watch (Watched.start twoBackendsStart) oldestMeanwhile).returned := by decide +kernel
  have busy : ((run twoBackends.watch (Watched.start twoBackendsStart) oldestMeanwhile).state.procs true).inVacuum =
      false := by decide +kernel
  have one : ((run twoBackends.watch (Watched.start twoBackendsStart) oldestMeanwhile).state.backends true).taken.map
      (fun taken => taken.snapshot.xmin) = [10] := by decide +kernel
  obtain ⟨taken, mem, -⟩ := List.mem_map.mp (one ▸ List.mem_singleton_self 10)
  exact ⟨meets, returned, taken, mem, oldestXmin_holds twoBackendsStart_start meets returned busy mem⟩

end Cluster

end BlockchainPG.Mvcc
