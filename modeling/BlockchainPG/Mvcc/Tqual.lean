import BlockchainPG.Mvcc.Transam

/-! `HeapTupleSatisfiesMVCC` against the rule that speaks of transactions only. -/

namespace BlockchainPG.Mvcc

/-- The bits of `t_infomask` that only repeat what the commit log says. -/
structure HintBits where
  xminCommitted : Bool
  xminInvalid : Bool
  xmaxCommitted : Bool
  xmaxInvalid : Bool
deriving DecidableEq, Repr

/-- `HeapTupleHeaderData`, with `cmin`, `cmax` and `xvac` as they are read out of
the field they share. -/
structure HeapTupleHeader where
  xmin : TransactionId
  xmax : TransactionId
  xvac : TransactionId
  cmin : Nat
  cmax : Nat
  movedOff : Bool
  movedIn : Bool
  xmaxExclLock : Bool
  xmaxSharedLock : Bool
  xmaxIsMulti : Bool
  updated : Bool
  hints : HintBits

namespace HeapTupleHeader

def isLocked (tuple : HeapTupleHeader) : Bool := tuple.xmaxExclLock || tuple.xmaxSharedLock

def setXminCommitted (tuple : HeapTupleHeader) : HeapTupleHeader :=
  { tuple with hints := { tuple.hints with xminCommitted := true } }

def setXminInvalid (tuple : HeapTupleHeader) : HeapTupleHeader :=
  { tuple with hints := { tuple.hints with xminInvalid := true } }

def setXmaxCommitted (tuple : HeapTupleHeader) : HeapTupleHeader :=
  { tuple with hints := { tuple.hints with xmaxCommitted := true } }

def setXmaxInvalid (tuple : HeapTupleHeader) : HeapTupleHeader :=
  { tuple with hints := { tuple.hints with xmaxInvalid := true } }

end HeapTupleHeader

/-- What a backend sees of the transactions at one moment. -/
structure View where
  log : TransactionLog
  /-- `TransactionIdIsCurrentTransactionId` -/
  current : TransactionId → Bool
  /-- `TransactionIdIsInProgress` -/
  inProgress : TransactionId → Bool
  /-- `XLogNeedsFlush(TransactionIdGetCommitLSN(xid))` -/
  needsFlush : TransactionId → Bool
  /-- `MultiXactIdIsRunning` -/
  multiRunning : TransactionId → Bool

/-- `SetHintBits` for a committed transaction, whose commit record must be on disk. -/
def setCommittedHint (view : View) (tuple : HeapTupleHeader) (set : HeapTupleHeader → HeapTupleHeader)
    (xid : TransactionId) : HeapTupleHeader :=
  if xid ≠ InvalidTransactionId ∧ view.needsFlush xid = true then tuple else set tuple

/-- `HeapTupleSatisfiesMVCC` for a tuple that the own transaction has inserted. -/
def ownInsertMVCC (view : View) (snapshot : SnapshotData) (tuple : HeapTupleHeader) : Bool × HeapTupleHeader :=
  if snapshot.curcid ≤ tuple.cmin then (false, tuple)
  else if tuple.hints.xmaxInvalid then (true, tuple)
  else if tuple.isLocked then (true, tuple)
  else if !view.current tuple.xmax then (true, tuple.setXmaxInvalid)
  else if snapshot.curcid ≤ tuple.cmax then (true, tuple)
  else (false, tuple)

/-- The first part of `HeapTupleSatisfiesMVCC`, which returns unless the inserter has committed. -/
def inserterMVCC (view : View) (snapshot : SnapshotData) (tuple : HeapTupleHeader) : Option Bool × HeapTupleHeader :=
  if tuple.hints.xminCommitted then (none, tuple)
  else if tuple.hints.xminInvalid then (some false, tuple)
  else if tuple.movedOff then
    if view.current tuple.xvac then (some false, tuple)
    else if view.inProgress tuple.xvac then (none, tuple)
    else if view.log.didCommit tuple.xvac then (some false, tuple.setXminInvalid)
    else (none, tuple.setXminCommitted)
  else if tuple.movedIn then
    if view.current tuple.xvac then (none, tuple)
    else if view.inProgress tuple.xvac then (some false, tuple)
    else if view.log.didCommit tuple.xvac then (none, tuple.setXminCommitted)
    else (some false, tuple.setXminInvalid)
  else if view.current tuple.xmin then
    let (answer, tuple) := ownInsertMVCC view snapshot tuple
    (some answer, tuple)
  else if view.inProgress tuple.xmin then (some false, tuple)
  else if view.log.didCommit tuple.xmin then
    (none, setCommittedHint view tuple HeapTupleHeader.setXminCommitted tuple.xmin)
  else (some false, tuple.setXminInvalid)

/-- The second part of `HeapTupleSatisfiesMVCC`: when did the inserter commit, and what about the deleter? -/
def deleterMVCC (view : View) (snapshot : SnapshotData) (tuple : HeapTupleHeader) : Bool × HeapTupleHeader :=
  if xidInMVCCSnapshot view.log.toSubTrans tuple.xmin snapshot then (false, tuple)
  else if tuple.hints.xmaxInvalid then (true, tuple)
  else if tuple.isLocked then (true, tuple)
  else if tuple.xmaxIsMulti then (true, tuple)
  else if tuple.hints.xmaxCommitted then (xidInMVCCSnapshot view.log.toSubTrans tuple.xmax snapshot, tuple)
  else if view.current tuple.xmax then (decide (snapshot.curcid ≤ tuple.cmax), tuple)
  else if view.inProgress tuple.xmax then (true, tuple)
  else if !view.log.didCommit tuple.xmax then (true, tuple.setXmaxInvalid)
  else (xidInMVCCSnapshot view.log.toSubTrans tuple.xmax snapshot,
    setCommittedHint view tuple HeapTupleHeader.setXmaxCommitted tuple.xmax)

/-- `HeapTupleSatisfiesMVCC`: the answer, and the tuple with the hint bits that were set. -/
def heapTupleSatisfiesMVCC (view : View) (snapshot : SnapshotData) (tuple : HeapTupleHeader) :
    Bool × HeapTupleHeader :=
  match inserterMVCC view snapshot tuple with
  | (some answer, tuple) => (answer, tuple)
  | (none, tuple) => deleterMVCC view snapshot tuple

section Rule

variable (view : View) (snapshot : SnapshotData) (tuple : HeapTupleHeader)

/-- Neither running nor part of the own transaction. -/
def View.Ended (xid : TransactionId) : Prop := view.inProgress xid = false ∧ view.current xid = false

def CommittedBefore (xid : TransactionId) : Prop :=
  view.log.Committed xid ∧ xidInMVCCSnapshot view.log.toSubTrans xid snapshot = false

/-- The copy that a finished move of VACUUM FULL has left valid. -/
def InPlace : Prop :=
  (tuple.movedOff = true → view.Ended tuple.xvac ∧ ¬view.log.Committed tuple.xvac) ∧
    (tuple.movedOff = false → tuple.movedIn = true → view.Ended tuple.xvac ∧ view.log.Committed tuple.xvac)

def MovedAway : Prop :=
  (tuple.movedOff = true ∧ view.Ended tuple.xvac ∧ view.log.Committed tuple.xvac) ∨
    (tuple.movedOff = false ∧ tuple.movedIn = true ∧ view.Ended tuple.xvac ∧ ¬view.log.Committed tuple.xvac)

/-- `xmax` stands for a deletion and not for a lock. -/
def HasDeleter : Prop := tuple.isLocked = false ∧ tuple.xmaxIsMulti = false

def Inserted : Prop :=
  CommittedBefore view snapshot tuple.xmin ∨ (view.current tuple.xmin = true ∧ tuple.cmin < snapshot.curcid)

def Deleted : Prop :=
  HasDeleter tuple ∧
    (CommittedBefore view snapshot tuple.xmax ∨ (view.current tuple.xmax = true ∧ tuple.cmax < snapshot.curcid))

/-- The rule: inserted before the snapshot or by an earlier command of the own
transaction, and not deleted so. -/
def Visible : Prop := InPlace view tuple ∧ Inserted view snapshot tuple ∧ ¬Deleted view snapshot tuple

/-- Every hint bit that is set agrees with the transactions. -/
structure Sound : Prop where
  xminCommitted : tuple.hints.xminCommitted = true →
    InPlace view tuple ∧ view.log.Committed tuple.xmin ∧ view.Ended tuple.xmin
  xminInvalid : tuple.hints.xminInvalid = true →
    MovedAway view tuple ∨ (¬view.log.Committed tuple.xmin ∧ view.Ended tuple.xmin)
  xmaxCommitted : tuple.hints.xmaxCommitted = true → HasDeleter tuple →
    view.log.Committed tuple.xmax ∧ view.Ended tuple.xmax
  xmaxInvalid : tuple.hints.xmaxInvalid = true → HasDeleter tuple →
    ¬view.log.Committed tuple.xmax ∧ view.Ended tuple.xmax

/-- The own transaction is running, every other running transaction is in the
snapshot, moves of VACUUM are not in flight, and the header is one that the
transactions can have written: only tuples with a committed inserter are moved,
MultiXacts only lock, and what the own transaction has inserted is deleted by
itself or by a subtransaction that has failed. -/
structure Consistent : Prop where
  own : ∀ xid, view.current xid = true → ¬view.log.Committed xid
  running : ∀ xid, view.inProgress xid = true → view.current xid = false →
    xidInMVCCSnapshot view.log.toSubTrans xid snapshot = true
  moved : tuple.movedOff = true ∨ tuple.movedIn = true →
    view.Ended tuple.xvac ∧ view.log.Committed tuple.xmin ∧ view.Ended tuple.xmin
  multi : tuple.xmaxIsMulti = true → tuple.isLocked = true
  ownInsert : view.current tuple.xmin = true → HasDeleter tuple → view.current tuple.xmax = false →
    ¬view.log.Committed tuple.xmax ∧ view.Ended tuple.xmax

end Rule

section Proofs

variable {view : View} {snapshot : SnapshotData} {tuple : HeapTupleHeader}

theorem setCommittedHint_eq (view : View) (tuple : HeapTupleHeader) (set : HeapTupleHeader → HeapTupleHeader)
    (xid : TransactionId) :
    setCommittedHint view tuple set xid = tuple ∨ setCommittedHint view tuple set xid = set tuple := by
  grind [setCommittedHint]

theorem Sound.setXminCommitted (sound : Sound view tuple) (inPlace : InPlace view tuple)
    (committed : view.log.Committed tuple.xmin) (ended : view.Ended tuple.xmin) : Sound view tuple.setXminCommitted :=
  ⟨fun _ => ⟨inPlace, committed, ended⟩, sound.xminInvalid, sound.xmaxCommitted, sound.xmaxInvalid⟩

theorem Sound.setXminInvalid (sound : Sound view tuple)
    (gone : MovedAway view tuple ∨ (¬view.log.Committed tuple.xmin ∧ view.Ended tuple.xmin)) :
    Sound view tuple.setXminInvalid :=
  ⟨sound.xminCommitted, fun _ => gone, sound.xmaxCommitted, sound.xmaxInvalid⟩

theorem Sound.setXmaxCommitted (sound : Sound view tuple) (committed : view.log.Committed tuple.xmax)
    (ended : view.Ended tuple.xmax) : Sound view tuple.setXmaxCommitted :=
  ⟨sound.xminCommitted, sound.xminInvalid, fun _ _ => ⟨committed, ended⟩, sound.xmaxInvalid⟩

theorem Sound.setXmaxInvalid (sound : Sound view tuple)
    (failed : HasDeleter tuple → ¬view.log.Committed tuple.xmax ∧ view.Ended tuple.xmax) :
    Sound view tuple.setXmaxInvalid :=
  ⟨sound.xminCommitted, sound.xminInvalid, sound.xmaxCommitted, fun _ => failed⟩

/-- The same tuple with other hint bits, which agree with the transactions. -/
def Rehinted (view : View) (tuple tuple' : HeapTupleHeader) : Prop :=
  tuple' = { tuple with hints := tuple'.hints } ∧ Sound view tuple'

theorem Rehinted.refl (sound : Sound view tuple) : Rehinted view tuple tuple := ⟨rfl, sound⟩

theorem Rehinted.trans (first : Rehinted view tuple middle) (second : Rehinted view middle last) :
    Rehinted view tuple last := by
  refine ⟨?_, second.2⟩
  rw [second.1, first.1]

theorem Rehinted.visible_iff (rehinted : Rehinted view tuple tuple') :
    Visible view snapshot tuple' ↔ Visible view snapshot tuple := by
  rw [rehinted.1]
  rfl

theorem Rehinted.consistent (rehinted : Rehinted view tuple tuple') (consistent : Consistent view snapshot tuple) :
    Consistent view snapshot tuple' := by
  rw [rehinted.1]
  exact ⟨consistent.own, consistent.running, consistent.moved, consistent.multi, consistent.ownInsert⟩

theorem rehinted_committedHint {set : HeapTupleHeader → HeapTupleHeader} {xid : TransactionId}
    (sound : Sound view tuple) (done : Rehinted view tuple (set tuple)) :
    Rehinted view tuple (setCommittedHint view tuple set xid) := by
  rcases setCommittedHint_eq view tuple set xid with same | same
  · rw [same]
    exact .refl sound
  · rwa [same]

theorem not_committedBefore_of_current (consistent : Consistent view snapshot tuple)
    (current : view.current xid = true) : ¬CommittedBefore view snapshot xid :=
  fun before => consistent.own xid current before.1

theorem not_committedBefore_of_running (consistent : Consistent view snapshot tuple)
    (running : view.inProgress xid = true) (other : view.current xid = false) :
    ¬CommittedBefore view snapshot xid := fun before => by
  have inside := consistent.running xid running other
  rw [before.2] at inside
  cases inside

theorem not_visible_of_movedAway (away : MovedAway view tuple) : ¬Visible view snapshot tuple := fun visible => by
  rcases away with ⟨off, -, committed⟩ | ⟨off, moved, -, failed⟩
  · exact (visible.1.1 off).2 committed
  · exact failed (visible.1.2 off moved).2

theorem not_visible_of_failed (failed : ¬view.log.Committed tuple.xmin) (ended : view.Ended tuple.xmin) :
    ¬Visible view snapshot tuple := fun visible => by
  rcases visible.2.1 with before | own
  · exact failed before.1
  · rw [ended.2] at own
    cases own.1

theorem inPlace_of_unmoved (off : tuple.movedOff = false) (unmoved : tuple.movedIn = false) : InPlace view tuple :=
  ⟨fun moved => (nomatch off.symm.trans moved), fun _ moved => (nomatch unmoved.symm.trans moved)⟩

theorem ownInsertMVCC_spec (sound : Sound view tuple) (consistent : Consistent view snapshot tuple)
    (inPlace : InPlace view tuple) (own : view.current tuple.xmin = true) :
    ((ownInsertMVCC view snapshot tuple).1 = true ↔ Visible view snapshot tuple) ∧
      Rehinted view tuple (ownInsertMVCC view snapshot tuple).2 := by
  have before := not_committedBefore_of_current consistent own
  unfold ownInsertMVCC
  split
  · next late =>
    refine ⟨⟨nofun, fun visible => ?_⟩, .refl sound⟩
    rcases visible.2.1 with committed | ⟨-, early⟩
    · exact absurd committed before
    · omega
  next early =>
  have inserted : Inserted view snapshot tuple := Or.inr ⟨own, by omega⟩
  have undeleted : ∀ answer, ¬Deleted view snapshot tuple → answer = true →
      (answer = true ↔ Visible view snapshot tuple) :=
    fun _ kept yes => iff_of_true yes ⟨inPlace, inserted, kept⟩
  split
  · next invalid =>
    refine ⟨undeleted true (fun deleted => ?_) rfl, .refl sound⟩
    obtain ⟨failed, ended⟩ := sound.xmaxInvalid invalid deleted.1
    rcases deleted.2 with committed | ⟨current, -⟩
    · exact failed committed.1
    · rw [ended.2] at current
      cases current
  split
  · next locked => exact ⟨undeleted true (fun deleted => (nomatch deleted.1.1.symm.trans locked)) rfl, .refl sound⟩
  next unlocked =>
  have deleter : HasDeleter tuple := by
    refine ⟨Bool.eq_false_iff.mpr unlocked, Bool.eq_false_iff.mpr fun multi => unlocked (consistent.multi multi)⟩
  split
  · next other =>
    have away : view.current tuple.xmax = false := by simpa using other
    have failed := consistent.ownInsert own deleter away
    refine ⟨undeleted true (fun deleted => ?_) rfl, rfl, sound.setXmaxInvalid fun _ => failed⟩
    rcases deleted.2 with committed | ⟨current, -⟩
    · exact failed.1 committed.1
    · rw [away] at current
      cases current
  next same =>
  have current : view.current tuple.xmax = true := by simpa using same
  split
  · next late =>
    refine ⟨undeleted true (fun deleted => ?_) rfl, .refl sound⟩
    rcases deleted.2 with committed | ⟨-, soon⟩
    · exact not_committedBefore_of_current consistent current committed
    · omega
  · next soon =>
    refine ⟨⟨nofun, fun visible => absurd ?_ visible.2.2⟩, .refl sound⟩
    exact ⟨deleter, Or.inr ⟨current, by omega⟩⟩

/-- The inserter is known to have committed and the copy to be the valid one. -/
def Settled (view : View) (tuple : HeapTupleHeader) : Prop :=
  InPlace view tuple ∧ view.log.Committed tuple.xmin ∧ view.Ended tuple.xmin

theorem Rehinted.settled (rehinted : Rehinted view tuple tuple') (settled : Settled view tuple) :
    Settled view tuple' := by
  rw [rehinted.1]
  exact settled

def Answers (view : View) (snapshot : SnapshotData) (tuple : HeapTupleHeader) : Option Bool → Prop
  | some answer => answer = true ↔ Visible view snapshot tuple
  | none => Settled view tuple

theorem answers_false (hidden : ¬Visible view snapshot tuple) : Answers view snapshot tuple (some false) :=
  ⟨nofun, fun visible => absurd visible hidden⟩

section

variable (sound : Sound view tuple) (consistent : Consistent view snapshot tuple)
include sound consistent

theorem inserterMVCC_moved
    (committedBit : tuple.hints.xminCommitted = false) (invalidBit : tuple.hints.xminInvalid = false)
    (moved : tuple.movedOff = true ∨ tuple.movedIn = true) :
    Answers view snapshot tuple (inserterMVCC view snapshot tuple).1 ∧
      Rehinted view tuple (inserterMVCC view snapshot tuple).2 := by
  obtain ⟨⟨idle, foreign⟩, committed, ended⟩ := consistent.moved moved
  have done : view.log.didCommit tuple.xvac = true ↔ view.log.Committed tuple.xvac := TransactionLog.didCommit_iff _
  have vacuumEnded : view.Ended tuple.xvac := ⟨idle, foreign⟩
  cases off : tuple.movedOff with
  | true =>
    by_cases commit : view.log.didCommit tuple.xvac = true
    · have away : MovedAway view tuple := Or.inl ⟨off, vacuumEnded, done.mp commit⟩
      simp only [inserterMVCC, committedBit, invalidBit, off, foreign, idle, commit, ↓reduceIte, Bool.false_eq_true]
      exact ⟨answers_false (not_visible_of_movedAway away), rfl, sound.setXminInvalid (Or.inl away)⟩
    · have inPlace : InPlace view tuple :=
        ⟨fun _ => ⟨vacuumEnded, fun yes => commit (done.mpr yes)⟩, fun no => (nomatch off.symm.trans no)⟩
      simp only [inserterMVCC, committedBit, invalidBit, off, foreign, idle, commit, ↓reduceIte, Bool.false_eq_true]
      exact ⟨⟨inPlace, committed, ended⟩, rfl, sound.setXminCommitted inPlace committed ended⟩
  | false =>
    have entered : tuple.movedIn = true := moved.resolve_left (by simp [off])
    by_cases commit : view.log.didCommit tuple.xvac = true
    · have inPlace : InPlace view tuple :=
        ⟨fun yes => (nomatch off.symm.trans yes), fun _ _ => ⟨vacuumEnded, done.mp commit⟩⟩
      simp only [inserterMVCC, committedBit, invalidBit, off, entered, foreign, idle, commit, ↓reduceIte,
        Bool.false_eq_true]
      exact ⟨⟨inPlace, committed, ended⟩, rfl, sound.setXminCommitted inPlace committed ended⟩
    · have away : MovedAway view tuple := Or.inr ⟨off, entered, vacuumEnded, fun yes => commit (done.mpr yes)⟩
      simp only [inserterMVCC, committedBit, invalidBit, off, entered, foreign, idle, commit, ↓reduceIte,
        Bool.false_eq_true]
      exact ⟨answers_false (not_visible_of_movedAway away), rfl, sound.setXminInvalid (Or.inl away)⟩

theorem inserterMVCC_unmoved
    (committedBit : tuple.hints.xminCommitted = false) (invalidBit : tuple.hints.xminInvalid = false)
    (off : tuple.movedOff = false) (unmoved : tuple.movedIn = false) :
    Answers view snapshot tuple (inserterMVCC view snapshot tuple).1 ∧
      Rehinted view tuple (inserterMVCC view snapshot tuple).2 := by
  have inPlace : InPlace view tuple := inPlace_of_unmoved off unmoved
  have done : view.log.didCommit tuple.xmin = true ↔ view.log.Committed tuple.xmin := TransactionLog.didCommit_iff _
  simp only [inserterMVCC, committedBit, invalidBit, off, unmoved, ↓reduceIte, Bool.false_eq_true]
  split
  · next own =>
    obtain ⟨answer, rehinted⟩ := ownInsertMVCC_spec sound consistent inPlace own
    exact ⟨answer, rehinted⟩
  next foreign =>
  have other : view.current tuple.xmin = false := Bool.eq_false_iff.mpr foreign
  split
  · next running =>
    refine ⟨answers_false fun visible => ?_, .refl sound⟩
    rcases visible.2.1 with before | ⟨own, -⟩
    · exact not_committedBefore_of_running consistent running other before
    · exact foreign own
  next idle =>
  have ended : view.Ended tuple.xmin := ⟨Bool.eq_false_iff.mpr idle, other⟩
  split
  · next commit =>
    have committed := done.mp commit
    exact ⟨⟨inPlace, committed, ended⟩,
      rehinted_committedHint sound ⟨rfl, sound.setXminCommitted inPlace committed ended⟩⟩
  · next failed =>
    have uncommitted : ¬view.log.Committed tuple.xmin := fun yes => failed (done.mpr yes)
    exact ⟨answers_false (not_visible_of_failed uncommitted ended), rfl,
      sound.setXminInvalid (Or.inr ⟨uncommitted, ended⟩)⟩

theorem inserterMVCC_spec : Answers view snapshot tuple (inserterMVCC view snapshot tuple).1 ∧
      Rehinted view tuple (inserterMVCC view snapshot tuple).2 := by
  cases committedBit : tuple.hints.xminCommitted with
  | true =>
    simp only [inserterMVCC, committedBit, ↓reduceIte]
    exact ⟨sound.xminCommitted committedBit, .refl sound⟩
  | false =>
    cases invalidBit : tuple.hints.xminInvalid with
    | true =>
      simp only [inserterMVCC, committedBit, invalidBit, ↓reduceIte, Bool.false_eq_true]
      refine ⟨answers_false ?_, .refl sound⟩
      grind [Sound.xminInvalid, not_visible_of_movedAway, not_visible_of_failed]
    | false =>
      grind [inserterMVCC_moved, inserterMVCC_unmoved]

end

theorem not_deleted_iff (deleter : HasDeleter tuple) (committed : view.log.Committed tuple.xmax)
    (ended : view.Ended tuple.xmax) :
    ¬Deleted view snapshot tuple ↔ xidInMVCCSnapshot view.log.toSubTrans tuple.xmax snapshot = true := by
  constructor
  · intro kept
    by_contra outside
    exact kept ⟨deleter, Or.inl ⟨committed, Bool.eq_false_iff.mpr outside⟩⟩
  · rintro inside ⟨-, before | ⟨own, -⟩⟩
    · exact (nomatch before.2.symm.trans inside)
    · exact (nomatch ended.2.symm.trans own)

theorem deleterMVCC_spec (sound : Sound view tuple) (consistent : Consistent view snapshot tuple)
    (settled : Settled view tuple) : ((deleterMVCC view snapshot tuple).1 = true ↔ Visible view snapshot tuple) ∧
      Rehinted view tuple (deleterMVCC view snapshot tuple).2 := by
  obtain ⟨inPlace, committed, ended⟩ := settled
  unfold deleterMVCC
  split
  · next inside =>
    refine ⟨answers_false fun visible => ?_, .refl sound⟩
    rcases visible.2.1 with before | ⟨own, -⟩
    · exact (nomatch before.2.symm.trans inside)
    · exact (nomatch ended.2.symm.trans own)
  next outside =>
  have inserted : Inserted view snapshot tuple := Or.inl ⟨committed, Bool.eq_false_iff.mpr outside⟩
  have visible_iff : ¬Deleted view snapshot tuple ↔ Visible view snapshot tuple :=
    ⟨fun kept => ⟨inPlace, inserted, kept⟩, fun visible => visible.2.2⟩
  split
  · next invalid =>
    refine ⟨iff_of_true rfl (visible_iff.mp fun deleted => ?_), .refl sound⟩
    obtain ⟨failed, gone⟩ := sound.xmaxInvalid invalid deleted.1
    rcases deleted.2 with before | ⟨own, -⟩
    · exact failed before.1
    · exact (nomatch gone.2.symm.trans own)
  split
  · next locked =>
    exact ⟨iff_of_true rfl (visible_iff.mp fun deleted => (nomatch deleted.1.1.symm.trans locked)), .refl sound⟩
  next unlocked =>
  split
  · next multi =>
    exact ⟨iff_of_true rfl (visible_iff.mp fun deleted => (nomatch deleted.1.2.symm.trans multi)), .refl sound⟩
  next single =>
  have deleter : HasDeleter tuple := ⟨Bool.eq_false_iff.mpr unlocked, Bool.eq_false_iff.mpr single⟩
  split
  · next bit =>
    obtain ⟨gone, isOver⟩ := sound.xmaxCommitted bit deleter
    exact ⟨(not_deleted_iff deleter gone isOver).symm.trans visible_iff, .refl sound⟩
  split
  · next own =>
    refine ⟨Iff.trans ?_ visible_iff, .refl sound⟩
    rw [decide_eq_true_iff]
    refine ⟨fun late deleted => ?_, fun kept => ?_⟩
    · rcases deleted.2 with before | ⟨-, soon⟩
      · exact not_committedBefore_of_current consistent own before
      · omega
    · by_contra soon
      exact kept ⟨deleter, Or.inr ⟨own, by omega⟩⟩
  next foreign =>
  have other : view.current tuple.xmax = false := Bool.eq_false_iff.mpr foreign
  split
  · next running =>
    refine ⟨iff_of_true rfl (visible_iff.mp fun deleted => ?_), .refl sound⟩
    rcases deleted.2 with before | ⟨own, -⟩
    · exact not_committedBefore_of_running consistent running other before
    · exact foreign own
  next idle =>
  have isOver : view.Ended tuple.xmax := ⟨Bool.eq_false_iff.mpr idle, other⟩
  have done : view.log.didCommit tuple.xmax = true ↔ view.log.Committed tuple.xmax := TransactionLog.didCommit_iff _
  split
  · next failed =>
    have uncommitted : ¬view.log.Committed tuple.xmax := fun yes => by simp [done.mpr yes] at failed
    refine ⟨iff_of_true rfl (visible_iff.mp fun deleted => ?_), rfl, sound.setXmaxInvalid fun _ =>
      ⟨uncommitted, isOver⟩⟩
    rcases deleted.2 with before | ⟨own, -⟩
    · exact uncommitted before.1
    · exact foreign own
  · next commit =>
    have gone : view.log.Committed tuple.xmax := done.mp (by simpa using commit)
    exact ⟨(not_deleted_iff deleter gone isOver).symm.trans visible_iff,
      rehinted_committedHint sound ⟨rfl, sound.setXmaxCommitted gone isOver⟩⟩

theorem heapTupleSatisfiesMVCC_spec (sound : Sound view tuple) (consistent : Consistent view snapshot tuple) :
    ((heapTupleSatisfiesMVCC view snapshot tuple).1 = true ↔ Visible view snapshot tuple) ∧
      Rehinted view tuple (heapTupleSatisfiesMVCC view snapshot tuple).2 := by
  obtain ⟨answers, rehinted⟩ := inserterMVCC_spec sound consistent
  unfold heapTupleSatisfiesMVCC
  split
  · next answer middle first =>
    rw [first] at answers rehinted
    exact ⟨answers, rehinted⟩
  · next middle first =>
    rw [first] at answers rehinted
    obtain ⟨second, again⟩ := deleterMVCC_spec rehinted.2 (rehinted.consistent consistent) (rehinted.settled answers)
    exact ⟨second.trans rehinted.visible_iff, rehinted.trans again⟩

/-- Between two moments transactions end, and those that have ended keep their outcome. -/
def Later (tuple : HeapTupleHeader) (earlier view : View) : Prop :=
  ∀ xid ∈ [tuple.xmin, tuple.xmax, tuple.xvac], earlier.Ended xid →
    view.Ended xid ∧ (view.log.Committed xid ↔ earlier.log.Committed xid)

theorem Sound.later (sound : Sound earlier tuple) (later : Later tuple earlier view) : Sound view tuple := by
  have xmin := later tuple.xmin (by simp)
  have xmax := later tuple.xmax (by simp)
  have xvac := later tuple.xvac (by simp)
  refine ⟨fun bit => ?_, fun bit => ?_, fun bit deleter => ?_, fun bit deleter => ?_⟩
  · obtain ⟨⟨off, moved⟩, committed, ended⟩ := sound.xminCommitted bit
    refine ⟨⟨fun yes => ?_, fun no yes => ?_⟩, (xmin ended).2.mpr committed, (xmin ended).1⟩
    · grind
    · grind
  · rcases sound.xminInvalid bit with (⟨off, isOver, done⟩ | ⟨off, moved, isOver, failed⟩) | ⟨failed, ended⟩
    · exact Or.inl (Or.inl ⟨off, (xvac isOver).1, (xvac isOver).2.mpr done⟩)
    · exact Or.inl (Or.inr ⟨off, moved, (xvac isOver).1, fun yes => failed ((xvac isOver).2.mp yes)⟩)
    · grind
  · grind [xmaxCommitted]
  · grind [xmaxInvalid]

theorem Rehinted.answer_eq (rehinted : Rehinted view tuple tuple') (sound : Sound view tuple)
    (consistent : Consistent view snapshot tuple) :
    (heapTupleSatisfiesMVCC view snapshot tuple').1 = (heapTupleSatisfiesMVCC view snapshot tuple).1 := by
  have first := (heapTupleSatisfiesMVCC_spec sound consistent).1
  have second := (heapTupleSatisfiesMVCC_spec rehinted.2 (rehinted.consistent consistent)).1
  grind [visible_iff]

/-- `HeapTupleSatisfiesMVCC` answers by the rule, whichever of the hint bits are set, and the bits
that an earlier call of any backend has set change no later answer. -/
theorem heapTupleSatisfiesMVCC_iff_visible (sound : Sound view tuple) (consistent : Consistent view snapshot tuple) :
    ((heapTupleSatisfiesMVCC view snapshot tuple).1 = true ↔ Visible view snapshot tuple) ∧
    (∀ hints, Sound view { tuple with hints := hints } →
      (heapTupleSatisfiesMVCC view snapshot { tuple with hints := hints }).1 =
        (heapTupleSatisfiesMVCC view snapshot tuple).1) ∧
    ∀ earlier before, Sound earlier tuple → Consistent earlier before tuple → Later tuple earlier view →
      (heapTupleSatisfiesMVCC view snapshot (heapTupleSatisfiesMVCC earlier before tuple).2).1 =
        (heapTupleSatisfiesMVCC view snapshot tuple).1 := by
  refine ⟨(heapTupleSatisfiesMVCC_spec sound consistent).1, fun hints other => ?_,
    fun earlier before soundBefore consistentBefore later => ?_⟩
  · exact Rehinted.answer_eq ⟨rfl, other⟩ sound consistent
  · obtain ⟨-, same, set⟩ := heapTupleSatisfiesMVCC_spec soundBefore consistentBefore
    refine Rehinted.answer_eq ⟨same, set.later fun xid own => later xid ?_⟩ sound consistent
    rwa [same] at own

end Proofs

def oneRunning : View where
  log := {
    parent := fun _ => InvalidTransactionId
    transactionXmin := 12
    depth := fun _ => 0
    rises := fun _ valid => absurd rfl valid
    status := fun xid => if xid = 10 ∨ xid = 11 then .committed else .inProgress }
  current := fun _ => false
  inProgress := fun xid => xid == 20
  needsFlush := fun _ => false
  multiRunning := fun _ => false

def oneRunningSnapshot : SnapshotData where
  xmin := 20
  xmax := 30
  xip := [20]
  subxip := some []
  curcid := 1

def beingDeleted : HeapTupleHeader where
  xmin := 10
  xmax := 20
  xvac := InvalidTransactionId
  cmin := 0
  cmax := 0
  movedOff := false
  movedIn := false
  xmaxExclLock := false
  xmaxSharedLock := false
  xmaxIsMulti := false
  updated := false
  hints := ⟨false, false, false, false⟩

theorem beingDeleted_sound : Sound oneRunning beingDeleted :=
  ⟨nofun, nofun, nofun, nofun⟩

theorem beingDeleted_consistent : Consistent oneRunning oneRunningSnapshot beingDeleted where
  own _ current := nomatch current
  running xid running _ := by
    obtain rfl : xid = 20 := eq_of_beq running
    decide
  moved moved := by simp [beingDeleted] at moved
  multi multi := nomatch multi
  ownInsert current := nomatch current

theorem heapTupleSatisfiesMVCC_iff_visible_beingDeleted :
    Sound oneRunning beingDeleted ∧ Consistent oneRunning oneRunningSnapshot beingDeleted ∧
      (heapTupleSatisfiesMVCC oneRunning oneRunningSnapshot beingDeleted).1 = true := by
  refine ⟨beingDeleted_sound, beingDeleted_consistent,
    (heapTupleSatisfiesMVCC_iff_visible beingDeleted_sound beingDeleted_consistent).1.mpr ?_⟩
  refine ⟨⟨nofun, nofun⟩, Or.inl ⟨.marked (by decide), by decide⟩, fun deleted => ?_⟩
  rcases deleted.2 with ⟨-, outside⟩ | ⟨own, -⟩
  · exact absurd outside (by decide)
  · exact (nomatch own)

end BlockchainPG.Mvcc
