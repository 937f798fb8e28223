import BlockchainPG.Lib.Words

/-! Transaction ids, the commit log and snapshots, as they are read. -/

namespace BlockchainPG.Mvcc

open Lib

abbrev TransactionId := BitVec 32

def InvalidTransactionId : TransactionId := 0
def BootstrapTransactionId : TransactionId := 1
def FrozenTransactionId : TransactionId := 2
def FirstNormalTransactionId : TransactionId := 3

def transactionIdIsNormal (xid : TransactionId) : Bool := decide (FirstNormalTransactionId ≤ xid)

/-- A permanent id is compared as it is, two normal ones around the circle. -/
def transactionIdPrecedes (id1 id2 : TransactionId) : Bool :=
  if transactionIdIsNormal id1 && transactionIdIsNormal id2 then circularLt id1 id2 else decide (id1 < id2)

def transactionIdFollowsOrEquals (id1 id2 : TransactionId) : Bool :=
  if transactionIdIsNormal id1 && transactionIdIsNormal id2 then decide (0 ≤ (id1 - id2).toInt)
  else decide (id2 ≤ id1)

/-- `TransactionIdAdvance`: the next id that is not a permanent one. -/
def transactionIdAdvance (xid : TransactionId) : TransactionId :=
  if xid + 1 < FirstNormalTransactionId then FirstNormalTransactionId else xid + 1

theorem transactionIdFollowsOrEquals_eq (id1 id2 : TransactionId) :
    transactionIdFollowsOrEquals id1 id2 = !transactionIdPrecedes id1 id2 := by
  unfold transactionIdFollowsOrEquals transactionIdPrecedes circularLt
  split
  · rw [Bool.eq_iff_iff]
    simp
  · rw [Bool.eq_iff_iff]
    simp [BitVec.not_lt]

/-- Normal ids in one half of the circle. -/
def Together (xids : List TransactionId) : Prop :=
  ∃ base, ∀ xid ∈ xids, transactionIdIsNormal xid = true → Near base xid

theorem precedes_of_precedes_of_not_precedes (together : Together [old, middle, recent])
    (before : transactionIdPrecedes old middle = true) (after : transactionIdPrecedes recent middle = false) :
    transactionIdPrecedes old recent = true := by
  obtain ⟨base, near⟩ := together
  have nearOld := near old (by simp)
  have nearMiddle := near middle (by simp)
  have nearRecent := near recent (by simp)
  by_cases normal : transactionIdIsNormal old = true ∧ transactionIdIsNormal middle = true ∧
      transactionIdIsNormal recent = true
  · obtain ⟨normalOld, normalMiddle, normalRecent⟩ := normal
    simp only [transactionIdPrecedes, normalOld, normalMiddle, normalRecent, Bool.and_self, if_true] at before after ⊢
    rw [circularLt_iff (nearOld normalOld) (nearMiddle normalMiddle)] at before
    rw [← Bool.not_eq_true, circularLt_iff (nearRecent normalRecent) (nearMiddle normalMiddle)] at after
    rw [circularLt_iff (nearOld normalOld) (nearRecent normalRecent)]
    omega
  · -- With a permanent id among them the numbers are compared as they are.
    simp only [transactionIdPrecedes, transactionIdIsNormal, FirstNormalTransactionId, Bool.and_eq_true,
      decide_eq_true_eq, BitVec.le_def, BitVec.lt_def] at normal before after ⊢
    split at before <;> split at after <;> split <;>
      first | omega | (simp only [decide_eq_true_eq, decide_eq_false_iff_not] at before after ⊢; omega)

inductive XidStatus where
  | inProgress
  | committed
  | aborted
  | subCommitted
deriving DecidableEq, Repr

/-- What a backend reads in `pg_subtrans`, and how far back it may look. Every
chain of parents ends. -/
structure SubTrans where
  parent : TransactionId → TransactionId
  transactionXmin : TransactionId
  depth : TransactionId → Nat
  rises : ∀ xid, parent xid ≠ InvalidTransactionId → depth (parent xid) < depth xid

namespace SubTrans

variable (subTrans : SubTrans)

def getParent (xid : TransactionId) : TransactionId :=
  if transactionIdIsNormal xid then subTrans.parent xid else InvalidTransactionId

theorem getParent_rises (valid : subTrans.getParent xid ≠ InvalidTransactionId) :
    subTrans.depth (subTrans.getParent xid) < subTrans.depth xid := by
  unfold getParent at valid ⊢
  split
  · next normal =>
    rw [if_pos normal] at valid
    exact subTrans.rises xid valid
  · next permanent =>
    rw [if_neg permanent] at valid
    exact absurd rfl valid

/-- `SubTransGetTopmostTransaction`. -/
def getTopmostTransaction (xid : TransactionId) : TransactionId :=
  if transactionIdPrecedes xid subTrans.transactionXmin then xid
  else if _ : subTrans.getParent xid ≠ InvalidTransactionId then getTopmostTransaction (subTrans.getParent xid)
  else xid
termination_by subTrans.depth xid
decreasing_by exact subTrans.getParent_rises (by assumption)

end SubTrans

/-- The commit log and `pg_subtrans`. -/
structure TransactionLog extends SubTrans where
  status : TransactionId → XidStatus

namespace TransactionLog

variable (log : TransactionLog)

/-- `TransactionLogFetch`. The cache in front of the log keeps only states that
do not change any more, and is left out. -/
def fetch (xid : TransactionId) : XidStatus :=
  if transactionIdIsNormal xid then log.status xid
  else if xid = BootstrapTransactionId then .committed
  else if xid = FrozenTransactionId then .committed
  else .aborted

/-- `TransactionIdDidCommit`. -/
def didCommit (xid : TransactionId) : Bool :=
  match log.fetch xid with
  | .committed => true
  | .subCommitted =>
    if transactionIdPrecedes xid log.transactionXmin then false
    else if _ : log.getParent xid ≠ InvalidTransactionId then didCommit (log.getParent xid)
    else false
  | _ => false
termination_by log.depth xid
decreasing_by exact log.getParent_rises (by assumption)

/-- A transaction is committed when it is marked so, or when it is marked as a
committed child of a committed transaction. -/
inductive Committed : TransactionId → Prop where
  | marked (fetched : log.fetch xid = .committed) : Committed xid
  | child (fetched : log.fetch xid = .subCommitted) (recent : transactionIdPrecedes xid log.transactionXmin = false)
      (valid : log.getParent xid ≠ InvalidTransactionId) (parent : Committed (log.getParent xid)) : Committed xid

variable {log}

theorem Committed.cases_fetch (committed : log.Committed xid) :
    log.fetch xid = .committed ∨ (log.fetch xid = .subCommitted ∧
      transactionIdPrecedes xid log.transactionXmin = false ∧ log.getParent xid ≠ InvalidTransactionId ∧
        log.Committed (log.getParent xid)) := by
  cases committed with
  | marked fetched => exact Or.inl fetched
  | child fetched recent valid parent => exact Or.inr ⟨fetched, recent, valid, parent⟩

theorem didCommit_iff (xid : TransactionId) : log.didCommit xid = true ↔ log.Committed xid := by
  induction depth : log.depth xid using Nat.strong_induction_on generalizing xid with
  | _ n ih =>
    subst depth
    rw [didCommit]
    cases fetched : log.fetch xid with
    | committed => simpa using .marked fetched
    | inProgress | aborted =>
      refine ⟨fun no => absurd no (by simp), fun committed => ?_⟩
      rcases committed.cases_fetch with marked | ⟨marked, -⟩ <;> rw [fetched] at marked <;> cases marked
    | subCommitted =>
      have parent : log.getParent xid ≠ InvalidTransactionId →
          (log.didCommit (log.getParent xid) = true ↔ log.Committed (log.getParent xid)) :=
        fun valid => ih _ (log.getParent_rises valid) _ rfl
      constructor
      · intro found
        simp only at found
        split at found
        · cases found
        · next recent =>
          split at found
          · next valid => exact .child fetched (Bool.eq_false_iff.mpr recent) valid ((parent valid).mp found)
          · cases found
      · intro committed
        rcases committed.cases_fetch with marked | ⟨-, recent, valid, up⟩
        · rw [fetched] at marked
          cases marked
        · simp [recent, valid, (parent valid).mpr up]

end TransactionLog

/-- An MVCC snapshot. `subxip` is missing when the subtransaction ids did not fit. -/
structure SnapshotData where
  xmin : TransactionId
  xmax : TransactionId
  xip : List TransactionId
  subxip : Option (List TransactionId)
  curcid : Nat

/-- `XidInMVCCSnapshot`: is the id still in progress according to the snapshot? -/
def xidInMVCCSnapshot (subTrans : SubTrans) (xid : TransactionId) (snapshot : SnapshotData) : Bool :=
  if transactionIdPrecedes xid snapshot.xmin then false
  else if transactionIdFollowsOrEquals xid snapshot.xmax then true
  else
    match snapshot.subxip with
    | some subxip => if xid ∈ subxip then true else decide (xid ∈ snapshot.xip)
    | none =>
      let topmost := subTrans.getTopmostTransaction xid
      if transactionIdPrecedes topmost snapshot.xmin then false else decide (topmost ∈ snapshot.xip)

def MaxTransactionId : TransactionId := 0xFFFFFFFF

/-- What `SetTransactionIdLimit` is given: `oldest_datfrozenxid` and `autovacuum_freeze_max_age`. -/
structure Limits where
  oldestXid : TransactionId
  freezeMaxAge : Nat
  normal : transactionIdIsNormal oldestXid = true
  sane : freezeMaxAge ≤ 2000000000

namespace Limits

variable (limits : Limits)

def xidWrapLimit : TransactionId :=
  let limit := limits.oldestXid + (MaxTransactionId >>> (1 : Nat))
  if limit < FirstNormalTransactionId then limit + FirstNormalTransactionId else limit

def xidStopLimit : TransactionId :=
  let limit := limits.xidWrapLimit - 1000000
  if limit < FirstNormalTransactionId then limit - FirstNormalTransactionId else limit

def xidVacLimit : TransactionId :=
  let limit := limits.oldestXid + BitVec.ofNat 32 limits.freezeMaxAge
  if limit < FirstNormalTransactionId then limit + FirstNormalTransactionId else limit

/-- `GetNewTransactionId` raises an error rather than assign this id. -/
def refuses (xid : TransactionId) : Bool :=
  transactionIdFollowsOrEquals xid limits.xidVacLimit && decide (limits.xidVacLimit ≠ InvalidTransactionId) &&
    transactionIdFollowsOrEquals xid limits.xidStopLimit

/-- How far an id is ahead of the oldest one. -/
def pos (xid : TransactionId) : Nat := offset limits.oldestXid xid

/-- A normal id that can be compared with the oldest one. -/
def Live (xid : TransactionId) : Prop := transactionIdIsNormal xid = true ∧ Near limits.oldestXid xid

instance (xid : TransactionId) : Decidable (limits.Live xid) := inferInstanceAs (Decidable (_ ∧ _))

end Limits

theorem normal_iff : transactionIdIsNormal xid = true ↔ 3 ≤ xid.toNat := by
  simp [transactionIdIsNormal, FirstNormalTransactionId, BitVec.le_def]

theorem ne_invalid_of_normal (normal : transactionIdIsNormal xid = true) : xid ≠ InvalidTransactionId := by
  rintro rfl
  exact absurd normal (by decide)

theorem transactionIdAdvance_normal (xid : TransactionId) :
    transactionIdIsNormal (transactionIdAdvance xid) = true := by
  grind [transactionIdAdvance, transactionIdIsNormal]

theorem transactionIdAdvance_toNat (normal : transactionIdIsNormal xid = true) :
    (transactionIdAdvance xid).toNat = if xid.toNat + 1 = 2 ^ 32 then 3 else xid.toNat + 1 := by
  have valid := normal_iff.mp normal
  have bound := xid.isLt
  grind [FirstNormalTransactionId, transactionIdAdvance, BitVec.lt_def]

namespace Limits

variable {limits : Limits}

theorem Live.normal (live : limits.Live xid) : transactionIdIsNormal xid = true := live.1

theorem Live.pos_lt (live : limits.Live xid) : limits.pos xid < 2 ^ 31 := by
  have near := live.2
  unfold Near at near
  unfold pos
  omega

theorem live_of_pos_lt (normal : transactionIdIsNormal xid = true) (small : limits.pos xid < 2 ^ 31) :
    limits.Live xid := by
  refine ⟨normal, ?_⟩
  unfold Near
  unfold pos at small
  omega

theorem pos_inj (same : limits.pos first = limits.pos second) : first = second := offset_inj same

theorem precedes_iff (first : limits.Live a) (second : limits.Live b) :
    transactionIdPrecedes a b = true ↔ limits.pos a < limits.pos b := by
  simp only [transactionIdPrecedes, first.normal, second.normal, Bool.and_self, if_true]
  exact circularLt_iff first.2 second.2

theorem followsOrEquals_iff (first : limits.Live a) (second : limits.Live b) :
    transactionIdFollowsOrEquals a b = true ↔ limits.pos b ≤ limits.pos a := by
  grind [transactionIdFollowsOrEquals_eq, precedes_iff]

theorem pos_eq (xid : TransactionId) :
    limits.pos xid = (2 ^ 32 - limits.oldestXid.toNat + xid.toNat) % 2 ^ 32 := BitVec.toNat_sub ..

theorem pos_advance (live : limits.Live xid) : limits.pos xid < limits.pos (transactionIdAdvance xid) ∧
      limits.pos (transactionIdAdvance xid) ≤ limits.pos xid + 4 := by
  grind [Live.pos_lt, pos_eq, transactionIdAdvance_toNat, Live.normal]

theorem pos_advance_le (live : limits.Live xid) (normal : transactionIdIsNormal other = true)
    (after : limits.pos xid < limits.pos other) : limits.pos (transactionIdAdvance xid) ≤ limits.pos other := by
  have small := live.pos_lt
  have valid := normal_iff.mp normal
  rw [pos_eq] at small
  rw [pos_eq, pos_eq] at after
  rw [pos_eq, pos_eq, transactionIdAdvance_toNat live.normal]
  split <;> omega

theorem pos_lt_advance_iff (live : limits.Live xid) (normal : transactionIdIsNormal other = true) :
    limits.pos other < limits.pos (transactionIdAdvance xid) ↔ limits.pos other ≤ limits.pos xid := by
  have next := pos_advance live
  constructor
  · intro before
    by_contra after
    have := pos_advance_le live normal (by omega)
    omega
  · omega

theorem toNat_ite_lt_three (limit skipped : TransactionId) :
    (if limit < FirstNormalTransactionId then skipped else limit).toNat =
      if limit.toNat < 3 then skipped.toNat else limit.toNat := apply_ite BitVec.toNat ..

/-- A limit after it was moved past the special ids. -/
def Skips (limit skipped : Nat) : Prop := 3 ≤ limit ∧ skipped = limit ∨ limit < 3 ∧ skipped = limit + 3

theorem skips_ite (limit : TransactionId) : Skips limit.toNat
    (if limit < FirstNormalTransactionId then limit + FirstNormalTransactionId else limit).toNat := by
  have first : FirstNormalTransactionId.toNat = 3 := by decide +kernel
  rw [toNat_ite_lt_three, BitVec.toNat_add, first, Skips]
  split <;> omega

theorem xidWrapLimit_skips : Skips ((limits.oldestXid.toNat + (2 ^ 31 - 1)) % 2 ^ 32) limits.xidWrapLimit.toNat := by
  have half : (MaxTransactionId >>> (1 : Nat)).toNat = 2 ^ 31 - 1 := by decide +kernel
  have skips := skips_ite (limits.oldestXid + MaxTransactionId >>> (1 : Nat))
  rw [BitVec.toNat_add, half] at skips
  exact skips

theorem xidVacLimit_skips :
    Skips ((limits.oldestXid.toNat + limits.freezeMaxAge) % 2 ^ 32) limits.xidVacLimit.toNat := by
  have skips := skips_ite (limits.oldestXid + BitVec.ofNat 32 limits.freezeMaxAge)
  rw [BitVec.toNat_add, BitVec.toNat_ofNat, Nat.add_mod_mod] at skips
  exact skips

theorem xidStopLimit_toNat : (3 ≤ (2 ^ 32 - 1000000 + limits.xidWrapLimit.toNat) % 2 ^ 32 ∧
      limits.xidStopLimit.toNat = (2 ^ 32 - 1000000 + limits.xidWrapLimit.toNat) % 2 ^ 32) ∨
    ((2 ^ 32 - 1000000 + limits.xidWrapLimit.toNat) % 2 ^ 32 < 3 ∧
      limits.xidStopLimit.toNat = (2 ^ 32 - 1000000 + limits.xidWrapLimit.toNat) % 2 ^ 32 + 2 ^ 32 - 3) := by
  have million : (1000000 : TransactionId).toNat = 1000000 := by decide +kernel
  have first : FirstNormalTransactionId.toNat = 3 := by decide +kernel
  have difference : (limits.xidWrapLimit - 1000000).toNat =
      (2 ^ 32 - 1000000 + limits.xidWrapLimit.toNat) % 2 ^ 32 := by rw [BitVec.toNat_sub, million]
  have skipped : (limits.xidWrapLimit - 1000000 - FirstNormalTransactionId).toNat =
      (2 ^ 32 - 3 + (2 ^ 32 - 1000000 + limits.xidWrapLimit.toNat) % 2 ^ 32) % 2 ^ 32 := by
    rw [BitVec.toNat_sub, difference, first]
  simp only [xidStopLimit, toNat_ite_lt_three, difference, skipped]
  split <;> omega

theorem xidStopLimit_live : limits.Live limits.xidStopLimit ∧ limits.pos limits.xidStopLimit < 2 ^ 31 - 8 := by
  have oldest := limits.oldestXid.isLt
  have normal := normal_iff.mp limits.normal
  have wrap := @xidWrapLimit_skips limits
  have stop := @xidStopLimit_toNat limits
  unfold Skips at wrap
  have small : limits.pos limits.xidStopLimit < 2 ^ 31 - 8 := by
    rw [pos_eq]
    omega
  exact ⟨live_of_pos_lt (normal_iff.mpr (by omega)) (by omega), small⟩

theorem xidVacLimit_live : limits.Live limits.xidVacLimit ∧ limits.pos limits.xidVacLimit < 2 ^ 31 - 8 := by
  have oldest := limits.oldestXid.isLt
  have normal := normal_iff.mp limits.normal
  have sane := limits.sane
  have vac := @xidVacLimit_skips limits
  unfold Skips at vac
  have small : limits.pos limits.xidVacLimit < 2 ^ 31 - 8 := by
    rw [pos_eq]
    omega
  exact ⟨live_of_pos_lt (normal_iff.mpr (by omega)) (by omega), small⟩

theorem live_advance (live : limits.Live xid) (accepted : limits.refuses xid = false) :
    limits.Live (transactionIdAdvance xid) := by
  obtain ⟨vacLive, vacSmall⟩ := @xidVacLimit_live limits
  obtain ⟨stopLive, stopSmall⟩ := @xidStopLimit_live limits
  have valid : limits.xidVacLimit ≠ InvalidTransactionId := ne_invalid_of_normal vacLive.normal
  have next := pos_advance live
  refine live_of_pos_lt (transactionIdAdvance_normal xid) ?_
  by_contra far
  have pastVac := (followsOrEquals_iff live vacLive).mpr (by omega)
  have pastStop := (followsOrEquals_iff live stopLive).mpr (by omega)
  simp [refuses, pastVac, pastStop, valid] at accepted

end Limits

end BlockchainPG.Mvcc
