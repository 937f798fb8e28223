import BlockchainPG.Mvcc.SnapshotScan

/-! Snapshots are atomic, however the backends interleave. -/

namespace BlockchainPG.Mvcc

open Lib Function

variable {Proc : Type}

namespace Cluster

variable (c : Cluster Proc)

/-- `TransactionXmin` is not after any id that is running or yet to come. -/
structure Oldest (completed : TransactionId) (record : Records Proc) (backend : Backend Proc) (shown : PGPROC) :
    Prop where
  live : shown.xmin ≠ InvalidTransactionId → c.limits.Live backend.transactionXmin
  coming : shown.xmin ≠ InvalidTransactionId → ∀ xid, transactionIdIsNormal xid = true →
    c.limits.pos completed < c.limits.pos xid →
      c.limits.pos backend.transactionXmin ≤ c.limits.pos xid
  running : shown.xmin ≠ InvalidTransactionId → ∀ xid found, record xid = some found → found.isOver = false →
    found.lazyVacuum = false → c.limits.pos backend.transactionXmin ≤ c.limits.pos xid
  used : shown.xmin = InvalidTransactionId → backend.taken = []

/-- A snapshot tells the ids that had ended from those that had not. -/
structure Faithful (next : TransactionId) (record : Records Proc) (own : Proc) (transactionXmin : TransactionId)
    (taken : Taken) : Prop where
  xminLive : c.limits.Live taken.snapshot.xmin
  xmaxLive : c.limits.Live taken.snapshot.xmax
  transactionXmin_le : c.limits.pos transactionXmin ≤ c.limits.pos taken.snapshot.xmin
  xmin_le : c.limits.pos taken.snapshot.xmin ≤ c.limits.pos taken.snapshot.xmax
  xmax_le : c.limits.pos taken.snapshot.xmax ≤ c.limits.pos next
  permanent : ∀ xid, transactionIdIsNormal xid = false → taken.ended xid = true
  past : ∀ xid, transactionIdIsNormal xid = true → c.limits.pos xid < c.limits.pos c.startXid →
    taken.ended xid = true ∧ c.limits.pos xid < c.limits.pos taken.snapshot.xmin
  ended_lt : ∀ xid, transactionIdIsNormal xid = true → taken.ended xid = true →
    c.limits.pos xid < c.limits.pos taken.snapshot.xmax
  kin : ∀ xid found, record xid = some found → taken.ended xid = taken.ended found.top
  isOver : ∀ xid found, record xid = some found → taken.ended xid = true → found.isOver = true
  ownOver : ∀ xid found, record xid = some found → found.owner = own → found.isOver = true → taken.ended xid = true
  xip : ∀ xid ∈ taken.snapshot.xip, taken.ended xid = false
  subxip : ∀ subxip, taken.snapshot.subxip = some subxip → ∀ xid ∈ subxip, taken.ended xid = false
  running : ∀ xid found, record xid = some found → taken.ended xid = false →
    c.limits.pos xid < c.limits.pos taken.snapshot.xmax → found.lazyVacuum = false → found.owner ≠ own →
      c.limits.pos taken.snapshot.xmin ≤ c.limits.pos found.top ∧ found.top ∈ taken.snapshot.xip ∧
        ∀ subxip, taken.snapshot.subxip = some subxip → xid = found.top ∨ xid ∈ subxip

/-- What a step can do to the ids: new ones come after all others, and only the
transaction of the backend that ends it gets over. -/
structure Evolves (ending : Option Proc) (s s' : State Proc) : Prop where
  next_le : c.limits.pos s.nextXid ≤ c.limits.pos s'.nextXid
  completed_le : c.limits.pos s.latestCompletedXid ≤ c.limits.pos s'.latestCompletedXid
  back : ∀ xid found', s'.record xid = some found' →
    (∃ found, s.record xid = some found ∧ found'.owner = found.owner ∧ found'.top = found.top ∧
      found'.lazyVacuum = found.lazyVacuum ∧ (found.isOver = true → found'.isOver = true) ∧
        (some found.owner ≠ ending → found'.isOver = found.isOver)) ∨
    (c.limits.pos s.nextXid ≤ c.limits.pos xid ∧ found'.isOver = false ∧
      (found'.top = xid ∨ ∃ topmost, s.record found'.top = some topmost ∧ topmost.isOver = false))

/-- Everything that holds in every state. -/
structure Atomic (s : State Proc) : Prop where
  orderly : c.Orderly s
  oldest : ∀ proc, c.Oldest s.latestCompletedXid s.record (s.backends proc) (s.procs proc)
  scanned : ∀ proc scan, (s.backends proc).activity = .scanning scan → c.Scanned s proc scan
  faithful : ∀ proc, ∀ taken ∈ (s.backends proc).taken,
    c.Faithful s.nextXid s.record proc (s.backends proc).transactionXmin taken

variable {c}

theorem Evolves.same (next : s'.nextXid = s.nextXid)
    (completed : s'.latestCompletedXid = s.latestCompletedXid) (record : s'.record = s.record) :
    c.Evolves none s s' := by
  constructor <;> grind

theorem Oldest.evolves (oldest : c.Oldest s.latestCompletedXid s.record backend shown)
    (orderly : c.Orderly s) (orderly' : c.Orderly s')
    (evolves : c.Evolves ending s s') (sameXmin : shown'.xmin = shown.xmin)
    (sameTaken : backend'.taken = backend.taken) (sameBound : backend'.transactionXmin = backend.transactionXmin) :
    c.Oldest s'.latestCompletedXid s'.record backend' shown' := by
  have completed := evolves.completed_le
  refine ⟨?_, ?_, ?_, ?_⟩
  · rw [sameXmin, sameBound]
    exact oldest.live
  · rw [sameXmin, sameBound]
    exact fun valid xid normal after => oldest.coming valid xid normal (by omega)
  · rw [sameXmin, sameBound]
    intro valid xid found' recorded running busy
    rcases evolves.back xid found' recorded with ⟨found, was, -, -, sameBusy, isOver, -⟩ | ⟨late, -, -⟩
    · refine oldest.running valid xid found was ?_ (sameBusy.symm.trans busy)
      grind
    · have normal := (orderly'.numbered.recorded xid found' recorded).1.normal
      have := orderly.numbered.completed_lt
      exact oldest.coming valid xid normal (by omega)
  · rw [sameXmin, sameTaken]
    exact oldest.used

theorem Faithful.evolves (faithful : c.Faithful s.nextXid s.record own bound taken)
    (evolves : c.Evolves ending s s') (orderly' : c.Orderly s')
    (alive : some own ≠ ending) : c.Faithful s'.nextXid s'.record own bound taken := by
  have next := evolves.next_le
  have xmax := faithful.xmax_le
  have lateFalse {xid : TransactionId} {found : Record Proc} (recorded : s'.record xid = some found)
      (late : c.limits.pos s.nextXid ≤ c.limits.pos xid) : taken.ended xid = false := by
    by_contra ended
    have := faithful.ended_lt xid (orderly'.numbered.recorded xid found recorded).1.normal (by simpa using ended)
    omega
  refine ⟨faithful.xminLive, faithful.xmaxLive, faithful.transactionXmin_le, faithful.xmin_le, by omega,
    faithful.permanent, faithful.past, faithful.ended_lt, ?_, ?_, ?_, faithful.xip, faithful.subxip, ?_⟩
  · intro xid found' recorded
    rcases evolves.back xid found' recorded with ⟨found, was, -, top, -⟩ | ⟨late, -, self | ⟨topmost, was, running⟩⟩
    · rw [top]
      exact faithful.kin xid found was
    · rw [self]
    · grind [isOver]
  · intro xid found' recorded ended
    rcases evolves.back xid found' recorded with ⟨found, was, -, -, -, isOver, -⟩ | ⟨late, -, -⟩
    · exact isOver (faithful.isOver xid found was ended)
    · exact (nomatch (lateFalse recorded late).symm.trans ended)
  · intro xid found' recorded owner isOver
    rcases evolves.back xid found' recorded with ⟨found, was, sameOwner, -, -, -, same⟩ | ⟨-, running, -⟩
    · grind [ownOver]
    · exact (nomatch running.symm.trans isOver)
  · intro xid found' recorded ended before busy other
    rcases evolves.back xid found' recorded with ⟨found, was, owner, top, sameBusy, -⟩ | ⟨late, -, -⟩
    · rw [top]
      exact faithful.running xid found was ended before (sameBusy.symm.trans busy) (owner ▸ other)
    · omega

/-- A step of one backend keeps everything if it keeps what concerns that backend,
and if it is harmless to scans or there are none. -/
theorem Atomic.step (atomic : c.Atomic s) (orderly' : c.Orderly s')
    (evolves : c.Evolves ending s s') (ends : ∀ other, some other = ending → other = proc)
    (others : ∀ other ≠ proc, s'.backends other = s.backends other ∧ s'.procs other = s.procs other)
    (calm : c.Calm s s' ∨ ∀ other, (s.backends other).activity.isScanning = false)
    (oldest : c.Oldest s'.latestCompletedXid s'.record (s'.backends proc) (s'.procs proc))
    (scanned : ∀ scan, (s'.backends proc).activity = .scanning scan → c.Scanned s' proc scan)
    (faithful : ∀ taken ∈ (s'.backends proc).taken,
      c.Faithful s'.nextXid s'.record proc (s'.backends proc).transactionXmin taken) :
    c.Atomic s' := by
  refine ⟨orderly', fun other => ?_, fun other scan scanning => ?_, fun other taken mem => ?_⟩
  · by_cases same : other = proc
    · subst same
      exact oldest
    · obtain ⟨backend, shown⟩ := others other same
      rw [backend, shown]
      exact (atomic.oldest other).evolves atomic.orderly orderly' evolves rfl rfl rfl
  · by_cases same : other = proc
    · subst same
      exact scanned scan scanning
    · obtain ⟨backend, -⟩ := others other same
      rw [backend] at scanning
      rcases calm with calm | none
      · exact (atomic.scanned other scan scanning).calm calm atomic.orderly
      · have := none other
        rw [scanning] at this
        cases this
  · by_cases same : other = proc
    · subst same
      exact faithful taken mem
    · obtain ⟨backend, -⟩ := others other same
      rw [backend] at mem ⊢
      exact (atomic.faithful other taken mem).evolves evolves orderly'
        fun ending => same (ends other ending)

theorem Atomic.plain (atomic : c.Atomic s) (orderly' : c.Orderly s')
    (evolves : c.Evolves none s s')
    (others : ∀ other ≠ proc, s'.backends other = s.backends other ∧ s'.procs other = s.procs other)
    (calm : c.Calm s s' ∨ ∀ other, (s.backends other).activity.isScanning = false)
    (sameXmin : (s'.procs proc).xmin = (s.procs proc).xmin)
    (sameTaken : (s'.backends proc).taken = (s.backends proc).taken)
    (sameBound : (s'.backends proc).transactionXmin = (s.backends proc).transactionXmin)
    (scanned : ∀ scan, (s'.backends proc).activity = .scanning scan → c.Scanned s' proc scan) :
    c.Atomic s' := by
  refine atomic.step orderly' evolves (nofun) others calm ?_ scanned fun taken mem => ?_
  · exact (atomic.oldest proc).evolves atomic.orderly orderly' evolves sameXmin sameTaken sameBound
  · rw [sameTaken] at mem
    rw [sameBound]
    exact (atomic.faithful proc taken mem).evolves evolves orderly' (nofun)

theorem hasEnded_of_some (recorded : s.record xid = some found) : c.hasEnded s xid = found.isOver := by
  unfold hasEnded
  rw [recorded]

theorem Orderly.hasEnded_lt (orderly : c.Orderly s) (normal : transactionIdIsNormal xid = true)
    (ended : c.hasEnded s xid = true) :
    c.limits.pos xid ≤ c.limits.pos s.latestCompletedXid := by
  unfold hasEnded at ended
  split at ended
  · next found recorded => exact orderly.numbered.isOver xid found recorded ended
  · exact orderly.numbered.old xid normal (by simpa [normal] using ended)

theorem Scanned.faithful {scan : Scan Proc} (scanned : c.Scanned s own scan)
    (orderly : c.Orderly s) (finished : scan.rest = [])
    (boundLe : c.limits.pos bound ≤ c.limits.pos scan.xmin) :
    c.Faithful s.nextXid s.record own bound {
      snapshot := {
        xmin := scan.xmin
        xmax := scan.xmax
        xip := scan.xip
        subxip := scan.subxip
        curcid := curcid }
      ended := scan.ended } := by
  have advance := Limits.pos_advance orderly.numbered.completedLive
  have xmax := scanned.xmax
  have ended := scanned.ended
  have runningEnded {xid : TransactionId} (running : ∃ found, s.Running xid found) : scan.ended xid = false := by
    obtain ⟨found, recorded, isOver⟩ := running
    rw [ended, hasEnded_of_some recorded, isOver]
  refine ⟨scanned.xminLive, ?_, boundLe, scanned.xmin_le, ?_, ?_, ?_, ?_, ?_, ?_, ?_, ?_, ?_, ?_⟩
  · simp only [xmax]
    exact orderly.xmaxLive
  · simp only [xmax]
    exact orderly.xmax_le
  · intro xid permanent
    have unrecorded : s.record xid = none := by
      by_contra recorded
      obtain ⟨found, recorded⟩ := Option.ne_none_iff_exists'.mp recorded
      exact (nomatch permanent.symm.trans (orderly.numbered.recorded xid found recorded).1.normal)
    simp [ended, hasEnded, unrecorded, permanent]
  · intro xid normal old
    have completed := orderly.numbered.old xid normal old
    have unrecorded : s.record xid = none := by
      by_contra recorded
      obtain ⟨found, recorded⟩ := Option.ne_none_iff_exists'.mp recorded
      have := (orderly.numbered.recorded xid found recorded).2.1
      omega
    refine ⟨by simp [ended, hasEnded, unrecorded, old], ?_⟩
    rcases scanned.xmin_from with same | ⟨found, running, -⟩
    · simp only [same, xmax]
      omega
    · have := (orderly.numbered.recorded _ found running.1).2.1
      exact lt_of_lt_of_le old this
  · intro xid normal wasEnded
    simp only [ended] at wasEnded
    have := orderly.hasEnded_lt normal wasEnded
    simp only [xmax]
    omega
  · intro xid found recorded
    obtain ⟨topmost, above, -, -, isOver, -⟩ := orderly.linked.kin xid found recorded
    simp only [ended]
    rw [hasEnded_of_some recorded, hasEnded_of_some above, isOver]
  · intro xid found recorded wasEnded
    simp only [ended] at wasEnded
    rwa [hasEnded_of_some recorded] at wasEnded
  · intro xid found recorded _ isOver
    simp only [ended]
    rwa [hasEnded_of_some recorded]
  · exact fun xid mem => runningEnded (scanned.xip xid mem)
  · grind [subxip]
  · intro xid found recorded alive before busy other
    simp only [ended] at alive
    rw [hasEnded_of_some recorded] at alive
    have outside : found.owner ∉ scan.rest := by simp [finished]
    obtain ⟨lower, mem⟩ := scanned.tops xid found ⟨recorded, alive⟩ busy before (Or.inl outside)
    exact ⟨lower, mem other,
      fun subxip full => scanned.subs subxip full xid found ⟨recorded, alive⟩ busy before outside other⟩

theorem calm_update [DecidableEq Proc] {s : State Proc} (children : new.children = (s.backends proc).children)
    (count : (s.procs proc).subxids.nxids ≤ shown.subxids.nxids)
    (entries : ∀ i < (s.procs proc).subxids.nxids, shown.subxids.xids i = (s.procs proc).subxids.xids i)
    (vacuum : (s.procs proc).inVacuum = false → shown.inVacuum = false) : c.Calm s { s with
      xidGenLock := lock
      pgSubtrans := parent
      procs := update s.procs proc shown
      backends := update s.backends proc new } := by
  refine ⟨rfl, rfl, fun _ _ recorded => recorded, fun _ _ recorded => Or.inl recorded, fun other child mem => ?_,
    fun other => ?_, fun other => ?_⟩
  · grind
  · grind
  · grind

theorem others_update [DecidableEq Proc] {backends : Proc → Backend Proc} {procs : Proc → PGPROC} :
    ∀ other ≠ proc, update backends proc new other = backends other ∧ update procs proc shown other = procs other :=
  fun _ ne => ⟨update_of_ne ne .., update_of_ne ne ..⟩

variable [DecidableEq Proc]

section

variable {s : State Proc} (atomic : c.Atomic s)
include atomic

theorem Atomic.edit (orderly' : c.Orderly { s with
      xidGenLock := lock
      pgSubtrans := parent
      procs := update s.procs proc shown
      backends := update s.backends proc new })
    (children : new.children = (s.backends proc).children)
    (count : (s.procs proc).subxids.nxids ≤ shown.subxids.nxids)
    (entries : ∀ i < (s.procs proc).subxids.nxids, shown.subxids.xids i = (s.procs proc).subxids.xids i)
    (vacuum : shown.inVacuum = (s.procs proc).inVacuum) (sameXmin : shown.xmin = (s.procs proc).xmin)
    (sameTaken : new.taken = (s.backends proc).taken)
    (sameBound : new.transactionXmin = (s.backends proc).transactionXmin)
    (still : new.activity.isScanning = false) :
    c.Atomic { s with
      xidGenLock := lock
      pgSubtrans := parent
      procs := update s.procs proc shown
      backends := update s.backends proc new } := by
  have calm : c.Calm s { s with
      xidGenLock := lock
      pgSubtrans := parent
      procs := update s.procs proc shown
      backends := update s.backends proc new } :=
    calm_update children count entries (by rw [vacuum]; exact id)
  refine @Atomic.plain _ c s _ proc atomic orderly' (.same rfl rfl rfl) others_update (Or.inl calm) ?_ ?_ ?_ ?_
  · simpa using sameXmin
  · simpa using sameTaken
  · simpa using sameBound
  · intro scan scanning
    simp only [update_self] at scanning
    rw [scanning] at still
    cases still

theorem Atomic.store (storing : (s.backends proc).activity = .storing xid parent) :
    c.Atomic (store s proc xid parent) := by
  have orderly' := atomic.orderly.store storing
  unfold Cluster.store at orderly' ⊢
  cases parent with
  | none => exact atomic.edit orderly' rfl (le_refl _) (fun _ _ => rfl) rfl rfl rfl rfl rfl
  | some parent =>
    simp only at orderly' ⊢
    split at orderly'
    · next room =>
      rw [if_pos room]
      refine atomic.edit orderly' rfl (le_refl _) (fun i inside => ?_) rfl rfl rfl rfl rfl
      exact update_of_ne (Nat.ne_of_lt inside) ..
    · next full =>
      rw [if_neg full]
      exact atomic.edit orderly' rfl (le_refl _) (fun _ _ => rfl) rfl rfl rfl rfl rfl

theorem Atomic.count (counting : (s.backends proc).activity = .counting xid parent) :
    c.Atomic (count s proc xid parent) :=
  atomic.edit (atomic.orderly.count counting) rfl (Nat.le_succ _) (fun _ _ => rfl) rfl rfl rfl rfl rfl

theorem Atomic.link (linking : (s.backends proc).activity = .linking xid parent) :
    c.Atomic (link s proc xid parent) := by
  have orderly' := atomic.orderly.link linking
  have same : update s.procs proc (s.procs proc) = s.procs := update_eq_self ..
  have step : c.Atomic { s with
      xidGenLock := s.xidGenLock
      pgSubtrans := update s.pgSubtrans xid parent
      procs := update s.procs proc (s.procs proc)
      backends := update s.backends proc { s.backends proc with activity := .idle } } :=
    atomic.edit (by rw [same]; exact orderly') rfl (le_refl _) (fun _ _ => rfl) rfl rfl rfl rfl rfl
  rw [same] at step
  exact step

theorem Atomic.scanning {scan : Scan Proc}
    (before : (s.backends proc).activity.unstored = none ∧ (s.backends proc).activity.linkTo = none)
    (scanned : c.Scanned s proc scan) : c.Atomic (setActivity s proc (.scanning scan)) := by
  have same : update s.procs proc (s.procs proc) = s.procs := update_eq_self ..
  have orderly' : c.Orderly { s with
      procs := update s.procs proc (s.procs proc)
      backends := update s.backends proc { s.backends proc with activity := .scanning scan } } :=
    atomic.orderly.quiet ⟨rfl, rfl⟩ ⟨rfl, rfl, rfl⟩ before ⟨rfl, rfl⟩
  have calm : c.Calm s { s with
      procs := update s.procs proc (s.procs proc)
      backends := update s.backends proc { s.backends proc with activity := .scanning scan } } :=
    calm_update rfl (le_refl _) (fun _ _ => rfl) id
  have step := @Atomic.plain _ c s _ proc atomic orderly' (.same rfl rfl rfl) others_update (Or.inl calm)
    (by simp) (by simp) (by simp) (fun scan' scanning => by
      simp only [update_self, Activity.scanning.injEq] at scanning
      rw [← scanning]
      exact scanned.calm calm atomic.orderly)
  rw [same] at step
  exact step

theorem Atomic.getSnapshot
    (allowed : c.Allowed s (.getSnapshot proc)) : c.Atomic (c.getSnapshot s proc) := by
  have idle := Activity.eq_idle allowed
  exact atomic.scanning (by rw [idle]; exact ⟨rfl, rfl⟩) (atomic.orderly.scanned_start proc)

theorem Atomic.finishSnapshot {scan : Scan Proc}
    (scanning : (s.backends proc).activity = .scanning scan) (finished : scan.rest = []) :
    c.Atomic (finishSnapshot s proc scan) := by
  have orderly := atomic.orderly
  have scanned := atomic.scanned proc scan scanning
  have oldest := atomic.oldest proc
  have xminValid : scan.xmin ≠ InvalidTransactionId := ne_invalid_of_normal scanned.xminLive.normal
  have xmax := scanned.xmax
  have running (xid : TransactionId) (found : Record Proc) (recorded : s.record xid = some found)
      (alive : found.isOver = false) (busy : found.lazyVacuum = false) :
      c.limits.pos scan.xmin ≤ c.limits.pos xid := by
    have lower := scanned.xmin_le
    by_cases before : c.limits.pos xid < c.limits.pos scan.xmax
    · have seen : scan.SeenXid found.owner := Or.inl (by simp [finished])
      have := (scanned.tops xid found ⟨recorded, alive⟩ busy before seen).1
      have := (orderly.running_spec ⟨recorded, alive⟩).2.2.2
      omega
    · omega
  obtain ⟨bound, boundEq⟩ : ∃ bound, bound = if (s.procs proc).xmin == InvalidTransactionId then scan.xmin
      else (s.backends proc).transactionXmin := ⟨_, rfl⟩
  have boundSpec : c.limits.Live bound ∧ c.limits.pos bound ≤ c.limits.pos scan.xmin ∧
      (∀ xid, transactionIdIsNormal xid = true →
        c.limits.pos s.latestCompletedXid < c.limits.pos xid →
          c.limits.pos bound ≤ c.limits.pos xid) ∧
      (∀ xid found, s.record xid = some found → found.isOver = false → found.lazyVacuum = false →
        c.limits.pos bound ≤ c.limits.pos xid) ∧
      ∀ taken ∈ (s.backends proc).taken, c.Faithful s.nextXid s.record proc bound taken := by
    by_cases first : (s.procs proc).xmin = InvalidTransactionId
    · obtain rfl : bound = scan.xmin := by simpa [first] using boundEq
      refine ⟨scanned.xminLive, le_refl _, fun xid normal after => ?_, running, ?_⟩
      · have := Limits.pos_advance_le orderly.numbered.completedLive normal after
        have := scanned.xmin_le
        rw [xmax] at this
        omega
      · grind [Oldest.used]
    · obtain rfl : bound = (s.backends proc).transactionXmin := by simpa [first] using boundEq
      refine ⟨oldest.live first, ?_, oldest.coming first, oldest.running first, atomic.faithful proc⟩
      rcases scanned.xmin_from with same | ⟨found, ⟨recorded, alive⟩, busy⟩
      · rw [same, xmax]
        exact oldest.coming first _ (transactionIdAdvance_normal _)
          (Limits.pos_advance orderly.numbered.completedLive).1
      · exact oldest.running first _ found recorded alive busy
  obtain ⟨boundLive, boundLe, coming, -, earlier⟩ := boundSpec
  have xminShown : (if (s.procs proc).xmin == InvalidTransactionId then scan.xmin
      else (s.procs proc).xmin) ≠ InvalidTransactionId := by
    grind
  unfold Cluster.finishSnapshot
  simp only
  rw [← boundEq]
  refine @Atomic.step _ c s _ none proc atomic ?_ (.same rfl rfl rfl) (by rintro _ ⟨⟩) others_update
    (Or.inl (calm_update rfl (le_refl _) (fun _ _ => rfl) id)) ?_ (fun _ no => ?_) ?_
  · exact orderly.quiet ⟨rfl, rfl⟩ ⟨rfl, rfl, rfl⟩ (by rw [scanning]; exact ⟨rfl, rfl⟩) ⟨rfl, rfl⟩
  · constructor <;> grind
  · simp only [update_self] at no
    cases no
  · grind [Scanned.faithful]

theorem Atomic.scan {scan : Scan Proc}
    (scanning : (s.backends proc).activity = .scanning scan) : c.Atomic (Cluster.scan s proc scan) := by
  unfold Cluster.scan
  split
  · next finished => exact atomic.finishSnapshot scanning finished
  · next head rest shape =>
    exact atomic.scanning (by rw [scanning]; exact ⟨rfl, rfl⟩)
      (atomic.orderly.scanned_visit (atomic.scanned proc scan scanning) shape)

theorem Atomic.proceed : c.Atomic (proceed s proc) := by
  grind [proceed, store, count, link, scan]

theorem Atomic.assign (allowed : c.Allowed s (.assign proc parent)) :
    c.Atomic (c.assign s proc parent) := by
  have orderly := atomic.orderly
  have numbered := orderly.numbered
  have accounts := orderly.accounts proc
  have orderly' := orderly.assign allowed
  obtain ⟨idle, -, fits⟩ := allowed
  have idle := Activity.eq_idle idle
  have fresh := numbered.fresh
  unfold Cluster.assign at orderly' ⊢
  simp only at orderly' ⊢
  split
  · exact atomic
  next accepted =>
  rw [if_neg accepted] at orderly'
  have known (xid : TransactionId) (found : Record Proc) (recorded : s.record xid = some found) :
      xid ≠ s.nextXid := by
    rintro rfl
    exact (nomatch fresh.symm.trans recorded)
  refine @Atomic.plain _ c s _ proc atomic orderly' ?_ (fun other ne => ?_) (Or.inl ?_) rfl ?_ ?_
    (fun scan scanning => ?_)
  · refine ⟨(Limits.pos_advance numbered.nextLive).1.le, le_refl _, fun xid found recorded => ?_⟩
    simp only [update_apply] at recorded
    split at recorded
    · next same =>
      cases recorded
      refine Or.inr ⟨by rw [same], rfl, ?_⟩
      cases parent with
      | none => exact Or.inl same.symm
      | some up =>
        obtain ⟨mainFound, mainRecorded, -, alive, -⟩ := accounts.owned _ ⟨fits.1, List.mem_cons_self⟩
        exact Or.inr ⟨mainFound, mainRecorded, alive⟩
    · grind
  · exact ⟨update_of_ne ne .., rfl⟩
  · refine ⟨rfl, funext fun xid => ?_, fun xid found recorded => ?_, fun xid found recorded => ?_,
      fun other child mem => ?_, fun _ => ⟨le_refl _, fun _ _ => rfl⟩, fun _ => id⟩
    · by_cases same : xid = s.nextXid
      · have start := numbered.start_le
        simp [hasEnded, same, fresh, numbered.nextLive.normal, start]
      · simp [hasEnded, update_of_ne same]
    · grind
    · grind
    · grind
  · simp
  · simp
  · simp at scanning

theorem Atomic.endTransaction
    (allowed : c.Allowed s (.endTransaction proc)) : c.Atomic (endTransaction s proc) := by
  have orderly := atomic.orderly
  have orderly' := orderly.endTransaction allowed
  obtain ⟨idle, unlocked⟩ := allowed
  have idle := Activity.eq_idle idle
  rw [endTransaction_eq] at orderly' ⊢
  split
  · next valid =>
    rw [if_pos valid] at orderly'
    refine @Atomic.step _ c s _ (some proc) proc atomic orderly' ?_ (fun _ same => Option.some.inj same)
      others_update (Or.inr fun other => unlocked valid other (c.everyone other)) ?_ (fun _ scanning => ?_) ?_
    · have accounts := orderly.accounts proc
      have live := (accounts.live orderly.numbered (accounts.latest_spec orderly.numbered valid).1).1
      refine ⟨le_refl _, ?_, fun xid found' closed => Or.inl ?_⟩
      · simp only [(pos_completed orderly.numbered live).2]
        omega
      · obtain ⟨found, recorded, owner, top, busy, isOver⟩ := closeRecords_some closed
        grind
    · constructor <;> grind
    · simp [idle] at scanning
    · simp
  · next invalid =>
    rw [if_neg invalid] at orderly'
    refine @Atomic.step _ c s _ none proc atomic orderly' (.same rfl rfl rfl) (by rintro _ ⟨⟩)
      others_update (Or.inl (calm_update rfl (le_refl _) (fun _ _ => rfl) fun _ => rfl)) ?_ (fun _ scanning => ?_) ?_
    · constructor <;> grind
    · simp [idle] at scanning
    · simp

theorem Atomic.beginVacuum
    (allowed : c.Allowed s (.beginVacuum proc)) : c.Atomic (beginVacuum s proc) := by
  obtain ⟨idle, noMain, unlocked⟩ := allowed
  have idle := Activity.eq_idle idle
  refine @Atomic.plain _ c s _ proc atomic (atomic.orderly.flag true noMain) (.same rfl rfl rfl)
    (fun other ne => ⟨rfl, update_of_ne ne ..⟩)
    (Or.inr fun other => unlocked other (c.everyone other)) ?_ rfl rfl (fun _ scanning => ?_)
  · simp [Cluster.beginVacuum]
  · have scanning : (s.backends proc).activity = .scanning _ := scanning
    rw [idle] at scanning
    cases scanning

theorem Atomic.perform (allowed : c.Allowed s event) : c.Atomic (c.perform s event) := by
  cases event with
  | assign proc parent => exact atomic.assign allowed
  | proceed proc => exact atomic.proceed
  | endTransaction proc => exact atomic.endTransaction allowed
  | getSnapshot proc => exact atomic.getSnapshot allowed
  | beginVacuum proc => exact atomic.beginVacuum allowed

end

omit [DecidableEq Proc] in
theorem Start.atomic (start : c.Start s) : c.Atomic s := by
  refine ⟨start.orderly, fun proc => ?_, fun proc scan scanning => ?_, fun proc taken mem => ?_⟩
  · constructor <;> grind [noXmin, noTaken]
  · cases (start.idle proc).symm.trans scanning
  · rw [start.noTaken proc] at mem
    cases mem

omit [DecidableEq Proc] in
/-- `SubTransGetTopmostTransaction` stays in the transaction, and reaches its top
unless that is before `TransactionXmin`. -/
theorem Orderly.topmost_spec (orderly : c.Orderly s)
    (bound : c.limits.Live (s.backends proc).transactionXmin)
    (recorded : s.record xid = some found) (settled : ¬Pending s xid) :
    ∃ above, s.record ((c.subTrans s proc orderly.linked.rises).getTopmostTransaction xid) = some above ∧
      above.top = found.top ∧
        (c.limits.pos (s.backends proc).transactionXmin ≤ c.limits.pos found.top →
          (c.subTrans s proc orderly.linked.rises).getTopmostTransaction xid = found.top) := by
  induction height : c.limits.pos xid using Nat.strong_induction_on generalizing xid found with
  | _ n ih =>
    subst height
    have live := (orderly.numbered.recorded xid found recorded).1
    have parent : (c.subTrans s proc orderly.linked.rises).getParent xid = s.pgSubtrans xid :=
      if_pos live.normal
    obtain ⟨-, -, -, -, -, upper⟩ := orderly.linked.kin xid found recorded
    rw [SubTrans.getTopmostTransaction]
    split
    · next old =>
      have before := (Limits.precedes_iff live bound).mp old
      exact ⟨found, recorded, rfl, fun recent => by omega⟩
    · split
      · next valid =>
        rw [parent] at valid ⊢
        rcases orderly.linked.linked xid found recorded settled with ⟨-, none⟩ |
          ⟨above, aboveRecorded, top, aboveSettled⟩
        · exact absurd none valid
        · obtain ⟨topmost, topmostRecorded, same, reaches⟩ :=
            ih _ (orderly.linked.rises xid valid) aboveRecorded aboveSettled rfl
          grind
      · next invalid =>
        rw [parent, not_not] at invalid
        rcases orderly.linked.linked xid found recorded settled with ⟨isTop, -⟩ | ⟨above, aboveRecorded, -⟩
        · exact ⟨found, recorded, rfl, fun _ => isTop⟩
        · rw [invalid] at aboveRecorded
          exact absurd rfl (ne_invalid_of_normal (orderly.numbered.recorded _ above aboveRecorded).1.normal)

theorem precedes_of_permanent (permanent : transactionIdIsNormal xid = false)
    (normal : transactionIdIsNormal xmin = true) : transactionIdPrecedes xid xmin = true := by
  grind [normal_iff, transactionIdPrecedes, BitVec.lt_def]

omit [DecidableEq Proc] in
theorem Atomic.answer_ended (atomic : c.Atomic s) (mem : taken ∈ (s.backends proc).taken)
    (live : c.limits.Live xid) (settled : ¬Pending s xid) (ended : taken.ended xid = true) :
    xidInMVCCSnapshot (c.subTrans s proc atomic.orderly.linked.rises) xid taken.snapshot = false := by
  have faithful := atomic.faithful proc taken mem
  have before := faithful.ended_lt xid live.normal ended
  have xmaxLe := faithful.xmax_le
  have bound := (atomic.oldest proc).live fun none => by
    rw [(atomic.oldest proc).used none] at mem
    cases mem
  unfold xidInMVCCSnapshot
  split
  · rfl
  next notOld =>
  have notOld := mt (Limits.precedes_iff live faithful.xminLive).mpr notOld
  have early : ¬transactionIdFollowsOrEquals xid taken.snapshot.xmax = true :=
    fun late => absurd ((Limits.followsOrEquals_iff live faithful.xmaxLive).mp late) (by omega)
  rw [if_neg early]
  -- An id after `xmin` that has ended was assigned since the start.
  obtain ⟨found, recorded⟩ : ∃ found, s.record xid = some found := by
    refine atomic.orderly.numbered.assigned xid live.normal ?_ (by omega)
    by_contra old
    have := (faithful.past xid live.normal (by omega)).2
    omega
  have absent {other : TransactionId} (isOver : taken.ended other = true) : other ∉ taken.snapshot.xip :=
    fun running => (nomatch (faithful.xip other running).symm.trans isOver)
  split
  · grind [Faithful.subxip]
  · obtain ⟨above, aboveRecorded, sameTop, -⟩ := atomic.orderly.topmost_spec bound recorded settled
    grind [Faithful.kin]

omit [DecidableEq Proc] in
theorem Atomic.answer_running (atomic : c.Atomic s) (mem : taken ∈ (s.backends proc).taken)
    (live : c.limits.Live xid)
    (foreign : ∀ found, s.record xid = some found → found.owner = proc → found.isOver = true)
    (busy : ∀ found, s.record xid = some found → found.lazyVacuum = false) (settled : ¬Pending s xid)
    (alive : taken.ended xid = false) :
    xidInMVCCSnapshot (c.subTrans s proc atomic.orderly.linked.rises) xid taken.snapshot = true := by
  have faithful := atomic.faithful proc taken mem
  have boundLe := faithful.transactionXmin_le
  have xminLe := faithful.xmin_le
  have xmaxLe := faithful.xmax_le
  have bound := (atomic.oldest proc).live fun none => by
    rw [(atomic.oldest proc).used none] at mem
    cases mem
  have follows := Limits.followsOrEquals_iff live faithful.xmaxLive
  have precedes := Limits.precedes_iff live faithful.xminLive
  unfold xidInMVCCSnapshot
  by_cases late : c.limits.pos taken.snapshot.xmax ≤ c.limits.pos xid
  · grind
  · obtain ⟨found, recorded⟩ : ∃ found, s.record xid = some found := by
      refine atomic.orderly.numbered.assigned xid live.normal ?_ (by omega)
      grind [Faithful.past, Limits.Live.normal]
    have other : found.owner ≠ proc := fun own =>
      (nomatch alive.symm.trans (faithful.ownOver xid found recorded own (foreign found recorded own)))
    obtain ⟨lower, top, subs⟩ := faithful.running xid found recorded alive (by omega) (busy found recorded) other
    obtain ⟨topmost, topmostRecorded, -, -, -, upper⟩ := atomic.orderly.linked.kin xid found recorded
    rw [if_neg (mt precedes.mp (by omega)), if_neg (mt follows.mp (by omega))]
    split
    · grind
    · obtain ⟨above, -, -, reaches⟩ := atomic.orderly.topmost_spec bound recorded settled
      have topLive := (atomic.orderly.numbered.recorded _ topmost topmostRecorded).1
      grind [Limits.precedes_iff, Faithful.xminLive]

/-- Snapshots are atomic: in every run, for every snapshot in use and every id that
is neither of the own transaction nor of a lazy vacuum nor still on its way into
`pg_subtrans`, `XidInMVCCSnapshot` says that it is running exactly if its transaction
had not ended, or it was not yet assigned, when the snapshot was taken. -/
theorem snapshots_atomic (start : c.Start initial) (meets : Meets c.perform c.Allowed initial events)
    (mem : taken ∈ ((run c.perform initial events).backends proc).taken)
    (window : transactionIdIsNormal xid = true → Near c.limits.oldestXid xid)
    (foreign : ∀ found, (run c.perform initial events).record xid = some found → found.owner = proc →
      found.isOver = true)
    (busy : ∀ found, (run c.perform initial events).record xid = some found → found.lazyVacuum = false)
    (settled : ¬Pending (run c.perform initial events) xid) :
    ∃ rises, xidInMVCCSnapshot (c.subTrans (run c.perform initial events) proc rises) xid taken.snapshot =
      !taken.ended xid := by
  have atomic : c.Atomic (run c.perform initial events) :=
    meets.keeps start.atomic fun _ _ atomic allowed => atomic.perform allowed
  refine ⟨atomic.orderly.linked.rises, ?_⟩
  cases normal : transactionIdIsNormal xid with
  | false =>
    have faithful := atomic.faithful proc taken mem
    rw [faithful.permanent xid normal, xidInMVCCSnapshot,
      if_pos (precedes_of_permanent normal faithful.xminLive.normal)]
    rfl
  | true =>
    have live : c.limits.Live xid := ⟨normal, window normal⟩
    grind [Atomic.answer_ended, Atomic.answer_running]

/-- While the limits stand, ids are neither shared nor given twice, also past the largest id: in every run
an id that is held has one holder and precedes the next one, which no transaction of the run has had. -/
theorem xids_unique (start : c.Start initial) (meets : Meets c.perform c.Allowed initial events)
    (reached : s = run c.perform initial events) :
    s.record s.nextXid = none ∧ ∀ proc xid, (s.backends proc).Owns xid →
      transactionIdPrecedes xid s.nextXid = true ∧ ∀ other, (s.backends other).Owns xid → proc = other := by
  have atomic := reached ▸ meets.keeps start.atomic fun _ _ atomic allowed => atomic.perform allowed
  have orderly := atomic.orderly
  refine ⟨orderly.numbered.fresh, fun proc xid owns => ⟨?_, fun other => orderly.owner_unique owns⟩⟩
  obtain ⟨live, under⟩ := (orderly.accounts proc).live orderly.numbered owns
  exact (Limits.precedes_iff live orderly.numbered.nextLive).mpr under

end Cluster

def twoBackends : Cluster Bool where
  limits := ⟨3, 200000000, by decide, by decide⟩
  procArray := [false, true]
  everyone := by decide
  startXid := 10
  startLive := by decide +kernel

def twoBackendsStart : State Bool where
  nextXid := 10
  latestCompletedXid := 9
  xidGenLock := none
  pgSubtrans := fun _ => InvalidTransactionId
  procs := fun _ => ⟨InvalidTransactionId, InvalidTransactionId, false, ⟨fun _ => InvalidTransactionId, 0, false⟩⟩
  backends := fun _ =>
    ⟨InvalidTransactionId, [], InvalidTransactionId, InvalidTransactionId, InvalidTransactionId, 0, .idle, []⟩
  record := fun _ => none

theorem twoBackendsStart_start : twoBackends.Start twoBackendsStart where
  next := rfl
  completed := by decide +kernel
  advance := by decide +kernel
  free := rfl
  rises _ valid := absurd rfl valid
  noXid _ := rfl
  noXmin _ := rfl
  noCache _ := ⟨rfl, rfl⟩
  noMain _ := rfl
  noChildren _ := rfl
  idle _ := rfl
  noTaken _ := rfl
  noRecord _ := rfl

/-- One backend is in a subtransaction while the other ends a transaction and
takes a snapshot; then the first one ends, too. -/
def snapshotMeanwhile : List (Event Bool) :=
  [.assign false none, .proceed false, .assign true none, .proceed true,
    .assign false (some 10), .proceed false, .endTransaction true, .getSnapshot true, .proceed false, .proceed false] ++
    List.replicate 12 (.proceed true) ++ [.endTransaction false]

namespace Cluster

theorem snapshots_atomic_snapshotMeanwhile :
    Meets twoBackends.perform twoBackends.Allowed twoBackendsStart snapshotMeanwhile ∧
      ∃ taken ∈ ((run twoBackends.perform twoBackendsStart snapshotMeanwhile).backends true).taken,
        ∃ rises, xidInMVCCSnapshot
          (twoBackends.subTrans (run twoBackends.perform twoBackendsStart snapshotMeanwhile) true rises) 12
            taken.snapshot = true := by
  have meets : Meets twoBackends.perform twoBackends.Allowed twoBackendsStart snapshotMeanwhile := by decide +kernel
  have one : ((run twoBackends.perform twoBackendsStart snapshotMeanwhile).backends true).taken.map
      (fun taken => taken.ended 12) = [false] := by decide +kernel
  obtain ⟨taken, mem, alive⟩ := List.mem_map.mp (one ▸ List.mem_singleton_self false)
  have record : ((run twoBackends.perform twoBackendsStart snapshotMeanwhile).record 12).map
      (fun found => (found.owner, found.lazyVacuum)) = some (false, false) := by decide +kernel
  have known (found : Record Bool)
      (recorded : (run twoBackends.perform twoBackendsStart snapshotMeanwhile).record 12 = some found) :
      found.owner = false ∧ found.lazyVacuum = false := by
    grind
  have settled : ¬Pending (run twoBackends.perform twoBackendsStart snapshotMeanwhile) 12 := by
    rintro ⟨_ | _, pending⟩ <;> exact absurd pending (by decide +kernel)
  obtain ⟨rises, answer⟩ := snapshots_atomic twoBackendsStart_start meets mem (fun _ => by decide +kernel)
    (fun found recorded own => (nomatch own.symm.trans (known found recorded).1))
    (fun found recorded => (known found recorded).2) settled
  grind

theorem xids_unique_snapshotMeanwhile :
    transactionIdPrecedes 12 (run twoBackends.perform twoBackendsStart (snapshotMeanwhile.take 8)).nextXid = true :=
  ((xids_unique twoBackendsStart_start (by decide +kernel) rfl).2 false 12
    ⟨by decide +kernel, by decide +kernel⟩).1

end Cluster

end BlockchainPG.Mvcc
