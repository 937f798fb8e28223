import BlockchainPG.Mvcc.XidAssignment

/-! What `GetSnapshotData` has found while it walks the array and the others go on. -/

namespace BlockchainPG.Mvcc

open Lib

variable {Proc : Type}

/-- The `xid` of the present `PGPROC` has been visited. -/
def Stage.pastXid : Stage → Bool
  | .overflowed | .nxids | .entries .. => true
  | _ => false

def Scan.SeenXid (scan : Scan Proc) (proc : Proc) : Prop :=
  proc ∉ scan.rest ∨ (scan.rest.head? = some proc ∧ scan.stage.pastXid = true)

def State.Running (s : State Proc) (xid : TransactionId) (found : Record Proc) : Prop :=
  s.record xid = some found ∧ found.isOver = false

namespace Cluster

variable (c : Cluster Proc)

/-- The ids of a backend's subtransactions that matter are among its first cached ones. -/
def Cached (s : State Proc) (proc : Proc) (xmax : TransactionId) (nxids : Nat) : Prop :=
  ∀ child ∈ (s.backends proc).children, c.limits.pos child < c.limits.pos xmax →
    ∃ i < nxids, (s.procs proc).subxids.xids i = child

/-- What is known about the present `PGPROC`. -/
def Visiting (s : State Proc) (own head : Proc) (scan : Scan Proc) : Stage → Prop
  | .xmin | .xid => (s.procs head).inVacuum = false
  | .nxids => head ≠ own ∧ scan.subxip.isSome = true ∧
      c.Cached s head scan.xmax (s.procs head).subxids.nxids
  | .entries nxids copied => head ≠ own ∧ copied ≤ nxids ∧ nxids ≤ (s.procs head).subxids.nxids ∧
      c.Cached s head scan.xmax nxids ∧
        ∃ subxip, scan.subxip = some subxip ∧ ∀ i < copied, (s.procs head).subxids.xids i ∈ subxip
  | _ => True

/-- Every running id before `xmax` of the visited backends has been found, and nothing else. -/
structure Scanned (s : State Proc) (own : Proc) (scan : Scan Proc) : Prop where
  xmax : scan.xmax = transactionIdAdvance s.latestCompletedXid
  ended : scan.ended = c.hasEnded s
  xminLive : c.limits.Live scan.xmin
  xmin_le : c.limits.pos scan.xmin ≤ c.limits.pos scan.xmax
  xmin_from : scan.xmin = scan.xmax ∨ ∃ found, s.Running scan.xmin found ∧ found.lazyVacuum = false
  xip : ∀ xid ∈ scan.xip, ∃ found, s.Running xid found
  subxip : ∀ subxip, scan.subxip = some subxip → ∀ xid ∈ subxip, ∃ found, s.Running xid found
  tops : ∀ xid found, s.Running xid found → found.lazyVacuum = false →
    c.limits.pos xid < c.limits.pos scan.xmax → scan.SeenXid found.owner →
      c.limits.pos scan.xmin ≤ c.limits.pos found.top ∧ (found.owner ≠ own → found.top ∈ scan.xip)
  subs : ∀ subxip, scan.subxip = some subxip → ∀ xid found, s.Running xid found → found.lazyVacuum = false →
    c.limits.pos xid < c.limits.pos scan.xmax → found.owner ∉ scan.rest → found.owner ≠ own →
      xid = found.top ∨ xid ∈ subxip
  visiting : ∀ head rest, scan.rest = head :: rest → c.Visiting s own head scan scan.stage

/-- What the others can do while `ProcArrayLock` is held in shared mode. -/
structure Calm (s s' : State Proc) : Prop where
  completed : s'.latestCompletedXid = s.latestCompletedXid
  ended : c.hasEnded s' = c.hasEnded s
  keeps : ∀ xid found, s.record xid = some found → s'.record xid = some found
  new : ∀ xid found, s'.record xid = some found → s.record xid = some found ∨
    c.limits.pos s.nextXid ≤ c.limits.pos xid
  children : ∀ proc, ∀ child ∈ (s'.backends proc).children, child ∈ (s.backends proc).children ∨
    c.limits.pos s.nextXid ≤ c.limits.pos child
  cached : ∀ proc, (s.procs proc).subxids.nxids ≤ (s'.procs proc).subxids.nxids ∧
    ∀ i < (s.procs proc).subxids.nxids, (s'.procs proc).subxids.xids i = (s.procs proc).subxids.xids i
  vacuum : ∀ proc, (s.procs proc).inVacuum = false → (s'.procs proc).inVacuum = false

variable {c} {scan : Scan Proc}

theorem Orderly.xmax_le (orderly : c.Orderly s) :
    c.limits.pos (transactionIdAdvance s.latestCompletedXid) ≤ c.limits.pos s.nextXid :=
  Limits.pos_advance_le orderly.numbered.completedLive orderly.numbered.nextLive.normal orderly.numbered.completed_lt

theorem Orderly.xmaxLive (orderly : c.Orderly s) :
    c.limits.Live (transactionIdAdvance s.latestCompletedXid) := by
  have upper := orderly.xmax_le
  have small := orderly.numbered.nextLive.pos_lt
  exact Limits.live_of_pos_lt (transactionIdAdvance_normal _) (by omega)

theorem Calm.cached_keep (calm : c.Calm s s') (orderly : c.Orderly s)
    (bound : nxids ≤ (s.procs proc).subxids.nxids)
    (cached : c.Cached s proc (transactionIdAdvance s.latestCompletedXid) nxids) :
    c.Cached s' proc (transactionIdAdvance s.latestCompletedXid) nxids := by
  intro child mem before
  have upper := orderly.xmax_le
  rcases calm.children proc child mem with known | late
  · obtain ⟨i, inside, found⟩ := cached child known before
    refine ⟨i, inside, ?_⟩
    rw [(calm.cached proc).2 i (by omega)]
    exact found
  · omega

theorem Scanned.calm (scanned : c.Scanned s own scan) (calm : c.Calm s s')
    (orderly : c.Orderly s) : c.Scanned s' own scan := by
  have upper := orderly.xmax_le
  have xmax := scanned.xmax
  have keep {xid : TransactionId} {found : Record Proc} (running : s.Running xid found) :
      s'.Running xid found := ⟨calm.keeps xid found running.1, running.2⟩
  have back {xid : TransactionId} {found : Record Proc} (running : s'.Running xid found)
      (before : c.limits.pos xid < c.limits.pos scan.xmax) : s.Running xid found := by
    rcases calm.new xid found running.1 with known | late
    · exact ⟨known, running.2⟩
    · rw [xmax] at before
      omega
  refine ⟨?_, ?_, scanned.xminLive, scanned.xmin_le, ?_, ?_, ?_, ?_, ?_, fun head rest shape => ?_⟩
  · rw [calm.completed]
    exact xmax
  · rw [calm.ended]
    exact scanned.ended
  · grind [xmin_from]
  · exact fun xid mem => (scanned.xip xid mem).imp fun found running => keep running
  · exact fun subxip full xid mem => (scanned.subxip subxip full xid mem).imp fun found running => keep running
  · exact fun xid found running busy before => scanned.tops xid found (back running before) busy before
  · grind [subs]
  · have visiting := scanned.visiting head rest shape
    have counts := (calm.cached head).1
    cases stage : scan.stage with
    | vacuumFlags | overflowed => trivial
    | xmin | xid =>
      rw [stage] at visiting
      exact calm.vacuum head visiting
    | nxids =>
      rw [stage] at visiting
      obtain ⟨other, full, cached⟩ := visiting
      refine ⟨other, full, fun child mem before => ?_⟩
      rw [xmax] at cached before
      obtain ⟨i, inside, found⟩ := calm.cached_keep orderly (le_refl _) cached child mem before
      exact ⟨i, by omega, found⟩
    | entries nxids copied =>
      rw [stage] at visiting
      obtain ⟨other, some, bound, cached, subxip, full, copies⟩ := visiting
      refine ⟨other, some, by omega, ?_, subxip, full, fun i inside => ?_⟩
      · grind [Calm.cached_keep]
      · grind [Calm.cached]

theorem Orderly.scanned_start (orderly : c.Orderly s) (own : Proc) : c.Scanned s own {
      xmax := transactionIdAdvance s.latestCompletedXid
      xmin := transactionIdAdvance s.latestCompletedXid
      globalxmin := transactionIdAdvance s.latestCompletedXid
      xip := []
      subxip := some []
      rest := c.procArray
      stage := .vacuumFlags
      ended := c.hasEnded s } := by
  refine ⟨rfl, rfl, orderly.xmaxLive, le_refl _, Or.inl rfl, nofun, ?_, ?_, ?_, fun _ _ _ => trivial⟩
  · rintro subxip full xid mem
    cases full
    cases mem
  · rintro xid found - - - (outside | ⟨-, past⟩)
    · exact absurd (c.everyone _) outside
    · cases past
  · grind [everyone]

theorem Scanned.advance (scanned : c.Scanned s own scan) (shape : scan.rest = head :: rest)
    (tops : ∀ xid found, s.Running xid found → found.lazyVacuum = false →
      c.limits.pos xid < c.limits.pos scan.xmax → found.owner = head →
        c.limits.pos scan.xmin ≤ c.limits.pos found.top ∧ (found.owner ≠ own → found.top ∈ scan.xip))
    (subs : ∀ subxip, scan.subxip = some subxip → ∀ xid found, s.Running xid found →
      found.lazyVacuum = false → c.limits.pos xid < c.limits.pos scan.xmax → found.owner = head →
        head ≠ own → xid = found.top ∨ xid ∈ subxip) : c.Scanned s own scan.advance := by
  have tail : scan.advance.rest = rest := by simp [Scan.advance, shape]
  refine ⟨scanned.xmax, scanned.ended, scanned.xminLive, scanned.xmin_le, scanned.xmin_from, scanned.xip,
    scanned.subxip, ?_, ?_, fun _ _ _ => trivial⟩
  · rintro xid found running busy before (outside | ⟨-, past⟩)
    · rw [tail] at outside
      by_cases same : found.owner = head
      · exact tops xid found running busy before same
      · refine scanned.tops xid found running busy before (Or.inl ?_)
        rw [shape]
        simp [same, outside]
    · cases past
  · intro subxip full xid found running busy before outside other
    rw [tail] at outside
    by_cases same : found.owner = head
    · exact subs subxip full xid found running busy before same (same ▸ other)
    · refine scanned.subs subxip full xid found running busy before ?_ other
      rw [shape]
      simp [same, outside]

theorem Orderly.running_spec (orderly : c.Orderly s) (running : s.Running xid found) :
    (s.backends found.owner).Owns xid ∧ found.top = (s.backends found.owner).main ∧
      found.lazyVacuum = (s.procs found.owner).inVacuum ∧
        c.limits.pos found.top ≤ c.limits.pos xid := by
  have owns := (orderly.accounts found.owner).running xid found running.1 rfl running.2
  obtain ⟨found', recorded, -, -, top, busy⟩ := (orderly.accounts found.owner).owned xid owns
  obtain ⟨-, -, -, -, -, upper⟩ := orderly.linked.kin xid found running.1
  rw [running.1] at recorded
  cases recorded
  exact ⟨owns, top, busy, upper⟩

theorem Orderly.unstored_late (orderly : c.Orderly s)
    (unstored : (s.backends proc).activity.unstored = some xid) :
    c.limits.pos (transactionIdAdvance s.latestCompletedXid) ≤ c.limits.pos xid := by
  obtain ⟨-, owns, after, -⟩ := (orderly.assigning proc).locked xid unstored
  have live := ((orderly.accounts proc).live orderly.numbered owns).1
  exact Limits.pos_advance_le orderly.numbered.completedLive live.normal after

theorem Scanned.setStage (scanned : c.Scanned s own scan) (shape : scan.rest = head :: rest) (stage : Stage)
    (past : stage.pastXid = true → scan.stage.pastXid = true ∨
      ∀ xid found, s.Running xid found → found.lazyVacuum = false →
        c.limits.pos xid < c.limits.pos scan.xmax → found.owner = head → False)
    (visiting : c.Visiting s own head scan stage) (globalxmin : TransactionId) :
    c.Scanned s own { scan with globalxmin := globalxmin, stage := stage } := by
  refine ⟨scanned.xmax, scanned.ended, scanned.xminLive, scanned.xmin_le, scanned.xmin_from, scanned.xip,
    scanned.subxip, ?_, scanned.subs, ?_⟩
  · rintro xid found running busy before (outside | ⟨isHead, passed⟩)
    · exact scanned.tops xid found running busy before (Or.inl outside)
    · rcases past passed with already | none
      · exact scanned.tops xid found running busy before (Or.inr ⟨isHead, already⟩)
      · grind
  · intro head' rest' shape'
    have same : head' = head := by
      grind
    rw [same]
    cases stage with
    | vacuumFlags | overflowed => trivial
    | xmin | xid | nxids | entries => exact visiting

theorem Orderly.scanned_vacuumFlags (orderly : c.Orderly s) (scanned : c.Scanned s own scan)
    (shape : scan.rest = head :: rest) : c.Scanned s own
      (if (s.procs head).inVacuum then scan.advance else { scan with stage := .xmin }) := by
  split
  · next vacuum =>
    have none (xid : TransactionId) (found : Record Proc) (running : s.Running xid found)
        (busy : found.lazyVacuum = false) (isHead : found.owner = head) : False := by
      have := (orderly.running_spec running).2.2.1
      rw [busy, isHead, vacuum] at this
      cases this
    exact scanned.advance shape (fun xid found running busy _ isHead => (none xid found running busy isHead).elim)
      (fun _ _ xid found running busy _ isHead => (none xid found running busy isHead).elim)
  · next busy => exact scanned.setStage shape .xmin (nofun) (Bool.eq_false_iff.mpr busy) scan.globalxmin

theorem Orderly.scanned_visitXid [DecidableEq Proc] (orderly : c.Orderly s)
    (scanned : c.Scanned s own scan) (shape : scan.rest = head :: rest) (stage : scan.stage = .xid) :
    c.Scanned s own (scan.visitXid (decide (head = own)) (s.procs head).xid) := by
  have shows := orderly.shows head
  have accounts := orderly.accounts head
  have visiting := scanned.visiting head rest shape
  rw [stage] at visiting
  have xmaxLive : c.limits.Live scan.xmax := scanned.xmax ▸ orderly.xmaxLive
  have above {xid : TransactionId} {found : Record Proc} (running : s.Running xid found)
      (isHead : found.owner = head) : c.limits.pos (s.backends head).main ≤ c.limits.pos xid := by
    obtain ⟨-, top, -, upper⟩ := orderly.running_spec running
    rw [top, isHead] at upper
    exact upper
  unfold Scan.visitXid
  split
  · next normal =>
    have isMain : (s.procs head).xid = (s.backends head).main := by
      rcases shows.stored with stored | ⟨-, invalid⟩
      · exact stored
      · rw [invalid] at normal
        cases normal
    rw [isMain] at normal ⊢
    have owns : (s.backends head).Owns (s.backends head).main :=
      ⟨ne_invalid_of_normal normal, List.mem_cons_self⟩
    have live := (accounts.live orderly.numbered owns).1
    obtain ⟨mainFound, recorded, -, isOver, top, busy⟩ := accounts.owned _ owns
    rw [visiting] at busy
    have order := Limits.followsOrEquals_iff live xmaxLive
    split
    · next late =>
      have late := order.mp late
      exact scanned.advance shape (fun xid found running _ before isHead => absurd (above running isHead) (by omega))
        (fun _ _ xid found running _ before isHead => absurd (above running isHead) (by omega))
    · next early =>
      have early := mt order.mpr early
      have less := Limits.precedes_iff live scanned.xminLive
      have xmin : c.limits.pos (if transactionIdPrecedes (s.backends head).main scan.xmin then
            (s.backends head).main else scan.xmin) =
          min (c.limits.pos (s.backends head).main) (c.limits.pos scan.xmin) := by
        grind
      have running : s.Running (s.backends head).main mainFound := ⟨recorded, isOver⟩
      refine ⟨scanned.xmax, scanned.ended, ?_, ?_, ?_, ?_, scanned.subxip, ?_, scanned.subs, fun _ _ _ => trivial⟩
      · grind [Scanned.xminLive]
      · grind
      · grind [Scanned.xmin_from]
      · intro xid mem
        simp only at mem
        split at mem
        · exact scanned.xip xid mem
        · rcases List.mem_append.mp mem with before | last
          · exact scanned.xip xid before
          · grind
      · intro xid found isRunning isBusy before seen
        simp only [xmin]
        by_cases isHead : found.owner = head
        · have topEq := (orderly.running_spec isRunning).2.1
          grind
        · have already : scan.SeenXid found.owner := by
            rcases seen with outside | ⟨first, -⟩
            · exact Or.inl outside
            · grind
          obtain ⟨lower, mem⟩ := scanned.tops xid found isRunning isBusy before already
          grind
  · next permanent =>
    have late (xid : TransactionId) (found : Record Proc) (running : s.Running xid found)
        (_ : found.lazyVacuum = false) (before : c.limits.pos xid < c.limits.pos scan.xmax)
        (isHead : found.owner = head) : False := by
      have owns := (orderly.running_spec running).1
      rw [isHead] at owns
      rcases shows.stored with stored | ⟨unstored, -⟩
      · have live := (accounts.live orderly.numbered ⟨owns.1, List.mem_cons_self⟩).1
        rw [stored] at permanent
        exact permanent live.normal
      · have := orderly.unstored_late unstored
        grind [Scanned.xmax]
    exact scanned.setStage shape .overflowed (fun _ => Or.inr late) trivial scan.globalxmin

theorem Orderly.scanned_visitOverflowed [DecidableEq Proc] (orderly : c.Orderly s)
    (scanned : c.Scanned s own scan) (shape : scan.rest = head :: rest) (stage : scan.stage = .overflowed) :
    c.Scanned s own (scan.visitOverflowed (decide (head = own)) (s.procs head).subxids.overflowed) := by
  have tops (xid : TransactionId) (found : Record Proc) (running : s.Running xid found)
      (busy : found.lazyVacuum = false) (before : c.limits.pos xid < c.limits.pos scan.xmax)
      (isHead : found.owner = head) :=
    scanned.tops xid found running busy before (Or.inr ⟨by rw [shape, isHead]; rfl, by rw [stage]; rfl⟩)
  unfold Scan.visitOverflowed
  split
  · next wanted =>
    obtain ⟨full, other⟩ : scan.subxip.isSome = true ∧ head ≠ own := by simpa using wanted
    split
    · -- The ids of the subtransactions are given up for good.
      have dropped : c.Scanned s own { scan with subxip := none } := by
        refine ⟨scanned.xmax, scanned.ended, scanned.xminLive, scanned.xmin_le, scanned.xmin_from, scanned.xip,
          nofun, scanned.tops, nofun, fun _ _ _ => ?_⟩
        simp only [stage]
        trivial
      exact dropped.advance shape tops (nofun)
    · next room =>
      refine scanned.setStage shape .nxids (fun _ => Or.inl (by rw [stage]; rfl)) ⟨other, full, ?_⟩ scan.globalxmin
      intro child mem before
      rcases (orderly.shows head).kept child mem with overflowed | found | unstored
      · exact absurd overflowed room
      · exact found
      · have := orderly.unstored_late unstored
        rw [scanned.xmax] at before
        omega
  · grind [Scanned.advance]

theorem Orderly.scanned_entries (orderly : c.Orderly s) (scanned : c.Scanned s own scan)
    (shape : scan.rest = head :: rest) (stage : scan.stage = .entries nxids copied) :
    c.Scanned s own (if copied < nxids then { scan with
        subxip := scan.subxip.map (· ++ [(s.procs head).subxids.xids copied])
        stage := .entries nxids (copied + 1) }
      else scan.advance) := by
  have visiting := scanned.visiting head rest shape
  rw [stage] at visiting
  obtain ⟨other, some, bound, cached, subxip, full, copies⟩ := visiting
  split
  · next more =>
    have child := (orderly.shows head).cached copied (by omega)
    have valid : (s.backends head).main ≠ InvalidTransactionId := fun none => by
      rw [(orderly.accounts head).parented none] at child
      cases child
    obtain ⟨found, recorded, -, isOver, -⟩ := (orderly.accounts head).owned _ ⟨valid, List.mem_cons_of_mem _ child⟩
    refine ⟨scanned.xmax, scanned.ended, scanned.xminLive, scanned.xmin_le, scanned.xmin_from, scanned.xip,
      ?_, ?_, ?_, fun head' rest' shape' => ?_⟩
    · intro longer longerEq xid mem
      simp only [full, Option.map_some, Option.some.injEq] at longerEq
      rw [← longerEq] at mem
      rcases List.mem_append.mp mem with before | last
      · exact scanned.subxip subxip full xid before
      · rw [List.mem_singleton.mp last]
        exact ⟨found, recorded, isOver⟩
    · intro xid found running busy before seen
      refine scanned.tops xid found running busy before (seen.imp_right fun isHead => ⟨isHead.1, ?_⟩)
      rw [stage]
      rfl
    · grind [Scanned.subs]
    · have same : head' = head := by
        grind
      rw [same]
      refine ⟨other, by omega, bound, cached, subxip ++ [(s.procs head).subxids.xids copied], ?_, fun i inside => ?_⟩
      · simp [full]
      · grind
  · next done =>
    refine scanned.advance shape (fun xid found running busy before isHead => ?_)
      (fun subxip' full' xid found running busy before isHead _ => ?_)
    · exact scanned.tops xid found running busy before (Or.inr ⟨by rw [shape, isHead]; rfl, by rw [stage]; rfl⟩)
    · obtain ⟨owns, top, -, -⟩ := orderly.running_spec running
      rw [isHead] at owns top
      rw [full] at full'
      cases full'
      rcases List.mem_cons.mp owns.2 with isMain | isChild
      · exact Or.inl (isMain.trans top.symm)
      · obtain ⟨i, inside, same⟩ := cached xid isChild before
        rw [← same]
        exact Or.inr (copies i (by omega))

theorem Orderly.scanned_visit [DecidableEq Proc] (orderly : c.Orderly s)
    (scanned : c.Scanned s own scan) (shape : scan.rest = head :: rest) :
    c.Scanned s own (scan.visit (decide (head = own)) (s.procs head)) := by
  have visiting := scanned.visiting head rest shape
  unfold Scan.visit
  split
  · exact orderly.scanned_vacuumFlags scanned shape
  · next stage =>
    rw [stage] at visiting
    exact scanned.setStage shape .xid (nofun) visiting _
  · next stage => exact orderly.scanned_visitXid scanned shape stage
  · next stage => exact orderly.scanned_visitOverflowed scanned shape stage
  · next stage =>
    rw [stage] at visiting
    obtain ⟨other, full, cached⟩ := visiting
    obtain ⟨subxip, full⟩ := Option.isSome_iff_exists.mp full
    exact scanned.setStage shape (.entries _ 0) (fun _ => Or.inl (by rw [stage]; rfl))
      ⟨other, Nat.zero_le _, le_refl _, cached, subxip, full, fun i none => absurd none (Nat.not_lt_zero i)⟩
        scan.globalxmin
  · grind [scanned_entries]

end Cluster

end BlockchainPG.Mvcc
