import BlockchainPG.Mvcc.Tqual

/-! What VACUUM may remove, `HeapTupleSatisfiesVacuum`. -/

namespace BlockchainPG.Mvcc

open Lib

inductive HTSVResult where
  | dead
  | live
  | recentlyDead
  | insertInProgress
  | deleteInProgress
deriving DecidableEq, Repr

/-- The first part of `HeapTupleSatisfiesVacuum`, which returns unless the inserter has committed. -/
def inserterVacuum (view : View) (tuple : HeapTupleHeader) : Option HTSVResult × HeapTupleHeader :=
  if tuple.hints.xminCommitted then (none, tuple)
  else if tuple.hints.xminInvalid then (some .dead, tuple)
  else if tuple.movedOff then
    if view.current tuple.xvac then (some .deleteInProgress, tuple)
    else if view.inProgress tuple.xvac then (some .deleteInProgress, tuple)
    else if view.log.didCommit tuple.xvac then (some .dead, tuple.setXminInvalid)
    else (none, tuple.setXminCommitted)
  else if tuple.movedIn then
    if view.current tuple.xvac then (some .insertInProgress, tuple)
    else if view.inProgress tuple.xvac then (some .insertInProgress, tuple)
    else if view.log.didCommit tuple.xvac then (none, tuple.setXminCommitted)
    else (some .dead, tuple.setXminInvalid)
  else if view.inProgress tuple.xmin then
    if tuple.hints.xmaxInvalid then (some .insertInProgress, tuple)
    else if tuple.isLocked then (some .insertInProgress, tuple)
    else (some .deleteInProgress, tuple)
  else if view.log.didCommit tuple.xmin then
    (none, setCommittedHint view tuple HeapTupleHeader.setXminCommitted tuple.xmin)
  else (some .dead, tuple.setXminInvalid)

/-- The lock-only part: the tuple is live, and a lock whose holder is gone is marked so. -/
def lockedVacuum (view : View) (tuple : HeapTupleHeader) : HeapTupleHeader :=
  if tuple.hints.xmaxCommitted then tuple
  else if tuple.xmaxIsMulti then
    if view.multiRunning tuple.xmax then tuple else tuple.setXmaxInvalid
  else if view.inProgress tuple.xmax then tuple
  else tuple.setXmaxInvalid

/-- The end of `HeapTupleSatisfiesVacuum`: the deleter has committed, but there are special cases. -/
def deletedVacuum (oldestXmin : TransactionId) (tuple : HeapTupleHeader) : HTSVResult :=
  if tuple.xmin = tuple.xmax ∧ tuple.updated = false then .dead
  else if !transactionIdPrecedes tuple.xmax oldestXmin then .recentlyDead
  else .dead

/-- The second part of `HeapTupleSatisfiesVacuum`: what about the deleting transaction? -/
def deleterVacuum (view : View) (oldestXmin : TransactionId) (tuple : HeapTupleHeader) :
    HTSVResult × HeapTupleHeader :=
  if tuple.hints.xmaxInvalid then (.live, tuple)
  else if tuple.isLocked then (.live, lockedVacuum view tuple)
  else if tuple.xmaxIsMulti then (.live, tuple)
  else if tuple.hints.xmaxCommitted then (deletedVacuum oldestXmin tuple, tuple)
  else if view.inProgress tuple.xmax then (.deleteInProgress, tuple)
  else if view.log.didCommit tuple.xmax then
    (deletedVacuum oldestXmin tuple, setCommittedHint view tuple HeapTupleHeader.setXmaxCommitted tuple.xmax)
  else (.live, tuple.setXmaxInvalid)

/-- `HeapTupleSatisfiesVacuum`: the state of the tuple, and the tuple with the hint bits that were set. -/
def heapTupleSatisfiesVacuum (view : View) (oldestXmin : TransactionId) (tuple : HeapTupleHeader) :
    HTSVResult × HeapTupleHeader :=
  match inserterVacuum view tuple with
  | (some result, tuple) => (result, tuple)
  | (none, tuple) => deleterVacuum view oldestXmin tuple

section Rule

variable (view : View) (oldestXmin : TransactionId) (tuple : HeapTupleHeader)

/-- The own transaction is running, and VACUUM has only moved tuples of committed transactions. -/
structure Movable : Prop where
  own : ∀ xid, view.current xid = true → view.inProgress xid = true
  moved : tuple.movedOff = true ∨ tuple.movedIn = true → view.log.Committed tuple.xmin ∧ view.Ended tuple.xmin

/-- The insertion has come to nothing. -/
def Gone : Prop :=
  MovedAway view tuple ∨
    (tuple.movedOff = false ∧ tuple.movedIn = false ∧ ¬view.log.Committed tuple.xmin ∧ view.Ended tuple.xmin)

def InsertDone : Prop := view.log.Committed tuple.xmin ∧ view.Ended tuple.xmin

def Concludes : Option HTSVResult → Prop
  | some result => result = .dead → Gone view tuple
  | none => InsertDone view tuple

def DeleteDone : Prop := HasDeleter tuple ∧ view.log.Committed tuple.xmax ∧ view.Ended tuple.xmax

/-- No snapshot at or after `oldestXmin` sees the tuple, by what has become of its transactions. -/
def Dead : Prop :=
  Gone view tuple ∨ (InsertDone view tuple ∧ DeleteDone view tuple ∧
    (tuple.xmin = tuple.xmax ∨ transactionIdPrecedes tuple.xmax oldestXmin = true))

end Rule

section Proofs

variable {view : View} {snapshot : SnapshotData} {tuple : HeapTupleHeader} {oldestXmin : TransactionId}

theorem Movable.ended (movable : Movable view tuple) (idle : ¬view.inProgress xid = true) : view.Ended xid :=
  ⟨Bool.eq_false_iff.mpr idle, Bool.eq_false_iff.mpr fun current => idle (movable.own xid current)⟩

theorem inserterVacuum_spec (sound : Sound view tuple) (movable : Movable view tuple) :
    Concludes view tuple (inserterVacuum view tuple).1 ∧ Rehinted view tuple (inserterVacuum view tuple).2 := by
  unfold inserterVacuum
  have unmoved (off : ¬tuple.movedOff = true) (inn : ¬tuple.movedIn = true) :
      ¬view.log.Committed tuple.xmin ∧ view.Ended tuple.xmin → Gone view tuple :=
    fun failed => Or.inr ⟨Bool.eq_false_iff.mpr off, Bool.eq_false_iff.mpr inn, failed⟩
  have commits (xid : TransactionId) : view.log.didCommit xid = true ↔ view.log.Committed xid :=
    TransactionLog.didCommit_iff xid
  split
  · next bit => exact ⟨(sound.xminCommitted bit).2, .refl sound⟩
  split
  · next bit =>
    refine ⟨fun _ => ?_, .refl sound⟩
    rcases sound.xminInvalid bit with away | failed
    · exact Or.inl away
    · grind [Movable.moved]
  split
  · next off =>
    split
    · exact ⟨nofun, .refl sound⟩
    split
    · exact ⟨nofun, .refl sound⟩
    next idle =>
    split
    · next commit =>
      have away : MovedAway view tuple := Or.inl ⟨off, movable.ended idle, (commits _).mp commit⟩
      exact ⟨fun _ => Or.inl away, rfl, sound.setXminInvalid (Or.inl away)⟩
    · next failed =>
      obtain ⟨committed, ended⟩ := movable.moved (Or.inl off)
      have inPlace : InPlace view tuple := ⟨fun _ => ⟨movable.ended idle, fun yes => failed ((commits _).mpr yes)⟩,
          fun no => (nomatch no.symm.trans off)⟩
      exact ⟨⟨committed, ended⟩, rfl, sound.setXminCommitted inPlace committed ended⟩
  next off =>
  split
  · next inn =>
    split
    · exact ⟨nofun, .refl sound⟩
    split
    · exact ⟨nofun, .refl sound⟩
    next idle =>
    split
    · next commit =>
      obtain ⟨committed, ended⟩ := movable.moved (Or.inr inn)
      have inPlace : InPlace view tuple :=
        ⟨fun yes => absurd yes off, fun _ _ => ⟨movable.ended idle, (commits _).mp commit⟩⟩
      exact ⟨⟨committed, ended⟩, rfl, sound.setXminCommitted inPlace committed ended⟩
    · next failed =>
      have away : MovedAway view tuple :=
        Or.inr ⟨Bool.eq_false_iff.mpr off, inn, movable.ended idle, fun yes => failed ((commits _).mpr yes)⟩
      exact ⟨fun _ => Or.inl away, rfl, sound.setXminInvalid (Or.inl away)⟩
  next inn =>
  split
  · split
    · exact ⟨nofun, .refl sound⟩
    split
    · exact ⟨nofun, .refl sound⟩
    · exact ⟨nofun, .refl sound⟩
  next idle =>
  have ended : view.Ended tuple.xmin := movable.ended idle
  split
  · next commit =>
    have committed := (commits _).mp commit
    have inPlace : InPlace view tuple := inPlace_of_unmoved (Bool.eq_false_iff.mpr off) (Bool.eq_false_iff.mpr inn)
    exact ⟨⟨committed, ended⟩, rehinted_committedHint sound ⟨rfl, sound.setXminCommitted inPlace committed ended⟩⟩
  · next failed =>
    have aborted : ¬view.log.Committed tuple.xmin ∧ view.Ended tuple.xmin :=
      ⟨fun yes => failed ((commits _).mpr yes), ended⟩
    exact ⟨fun _ => unmoved off inn aborted, rfl, sound.setXminInvalid (Or.inr aborted)⟩

theorem deletedVacuum_dead (dead : deletedVacuum oldestXmin tuple = .dead) :
    tuple.xmin = tuple.xmax ∨ transactionIdPrecedes tuple.xmax oldestXmin = true := by
  grind [deletedVacuum]

theorem lockedVacuum_rehinted (sound : Sound view tuple) (locked : tuple.isLocked = true) :
    Rehinted view tuple (lockedVacuum view tuple) := by
  have marked : Rehinted view tuple tuple.setXmaxInvalid :=
    ⟨rfl, sound.setXmaxInvalid fun deleter => (nomatch deleter.1.symm.trans locked)⟩
  unfold lockedVacuum
  split
  · exact .refl sound
  split <;> split <;> first | exact .refl sound | exact marked

theorem deleterVacuum_spec (sound : Sound view tuple) (movable : Movable view tuple) :
    ((deleterVacuum view oldestXmin tuple).1 = .dead → DeleteDone view tuple ∧
      (tuple.xmin = tuple.xmax ∨ transactionIdPrecedes tuple.xmax oldestXmin = true)) ∧
    Rehinted view tuple (deleterVacuum view oldestXmin tuple).2 := by
  unfold deleterVacuum
  split
  · exact ⟨nofun, .refl sound⟩
  split
  · grind [lockedVacuum_rehinted]
  next unlocked =>
  split
  · exact ⟨nofun, .refl sound⟩
  next single =>
  have deleter : HasDeleter tuple := ⟨Bool.eq_false_iff.mpr unlocked, Bool.eq_false_iff.mpr single⟩
  split
  · next bit => exact ⟨fun dead => ⟨⟨deleter, sound.xmaxCommitted bit deleter⟩, deletedVacuum_dead dead⟩, .refl sound⟩
  split
  · exact ⟨nofun, .refl sound⟩
  next idle =>
  have ended : view.Ended tuple.xmax := movable.ended idle
  split
  · next commit =>
    have committed := (TransactionLog.didCommit_iff _).mp commit
    exact ⟨fun dead => ⟨⟨deleter, committed, ended⟩, deletedVacuum_dead dead⟩,
      rehinted_committedHint sound ⟨rfl, sound.setXmaxCommitted committed ended⟩⟩
  · next failed =>
    refine ⟨nofun, rfl, sound.setXmaxInvalid fun _ => ⟨fun yes => ?_, ended⟩⟩
    exact failed ((TransactionLog.didCommit_iff _).mpr yes)

theorem Rehinted.movable (rehinted : Rehinted view tuple tuple') (movable : Movable view tuple) :
    Movable view tuple' := by
  rw [rehinted.1]
  exact ⟨movable.own, movable.moved⟩

/-- A tuple that is called dead is dead, and only hint bits that agree with the transactions are set. -/
theorem heapTupleSatisfiesVacuum_spec (sound : Sound view tuple) (movable : Movable view tuple) :
    ((heapTupleSatisfiesVacuum view oldestXmin tuple).1 = .dead → Dead view oldestXmin tuple) ∧
      Rehinted view tuple (heapTupleSatisfiesVacuum view oldestXmin tuple).2 := by
  obtain ⟨outcome, rehinted⟩ := inserterVacuum_spec sound movable
  unfold heapTupleSatisfiesVacuum
  split
  · next result middle first =>
    rw [first] at outcome rehinted
    exact ⟨fun dead => Or.inl (outcome dead), rehinted⟩
  · next middle first =>
    rw [first] at outcome rehinted
    obtain ⟨dead, again⟩ := @deleterVacuum_spec _ _ oldestXmin rehinted.2 (rehinted.movable movable)
    refine ⟨fun found => ?_, rehinted.trans again⟩
    have deleted := dead found
    rw [rehinted.1] at deleted
    exact Or.inr ⟨outcome, deleted⟩

theorem Dead.later (dead : Dead earlier oldestXmin tuple) (later : Later tuple earlier view) :
    Dead view oldestXmin tuple := by
  have xmin := later tuple.xmin (by simp)
  have xmax := later tuple.xmax (by simp)
  have xvac := later tuple.xvac (by simp)
  rcases dead with (away | ⟨off, inn, failed, ended⟩) | ⟨⟨inserted, isOver⟩, ⟨deleter, deleted, ended⟩, old⟩
  · refine Or.inl (Or.inl ?_)
    rcases away with ⟨off, ended, done⟩ | ⟨off, inn, ended, failed⟩
    · exact Or.inl ⟨off, (xvac ended).1, (xvac ended).2.mpr done⟩
    · exact Or.inr ⟨off, inn, (xvac ended).1, fun yes => failed ((xvac ended).2.mp yes)⟩
  · exact Or.inl (Or.inr ⟨off, inn, fun yes => failed ((xmin ended).2.mp yes), (xmin ended).1⟩)
  · exact Or.inr ⟨⟨(xmin isOver).2.mpr inserted, (xmin isOver).1⟩,
      ⟨deleter, (xmax ended).2.mpr deleted, (xmax ended).1⟩, old⟩

theorem Gone.not_inPlace (gone : Gone view tuple) :
    ¬(InPlace view tuple ∧ view.log.Committed tuple.xmin ∧ view.Ended tuple.xmin) := by
  rintro ⟨⟨off, moved⟩, committed, -⟩
  rcases gone with (⟨away, -, done⟩ | ⟨stays, inn, -, failed⟩) | ⟨-, -, failed, -⟩
  · exact (off away).2 done
  · exact failed (moved stays inn).2
  · exact failed committed

theorem Gone.inserterMVCC_fst (gone : Gone view tuple) (sound : Sound view tuple) :
    (inserterMVCC view snapshot tuple).1 = some false := by
  unfold inserterMVCC
  rw [if_neg fun bit => gone.not_inPlace (sound.xminCommitted bit)]
  split
  · rfl
  rcases gone with (⟨off, ended, done⟩ | ⟨off, inn, ended, failed⟩) | ⟨off, inn, failed, ended⟩
  · simp [off, ended.1, ended.2, (TransactionLog.didCommit_iff _).mpr done]
  · simp [off, inn, ended.1, ended.2, mt (TransactionLog.didCommit_iff _).mp failed]
  · simp [off, inn, ended.1, ended.2, mt (TransactionLog.didCommit_iff _).mp failed]

theorem deleterMVCC_fst_xmin (same : tuple' = { tuple with hints := tuple'.hints })
    (committed : tuple'.hints.xmaxCommitted = tuple.hints.xmaxCommitted)
    (invalid : tuple'.hints.xmaxInvalid = tuple.hints.xmaxInvalid) :
    (deleterMVCC view snapshot tuple').1 = (deleterMVCC view snapshot tuple).1 := by
  rw [same]
  simp only [deleterMVCC, apply_ite Prod.fst, committed, invalid]
  rfl

theorem inserterMVCC_ended (ended : view.Ended tuple.xmin) :
    (inserterMVCC view snapshot tuple).1 = some false ∨ inserterMVCC view snapshot tuple = (none, tuple) ∨
      inserterMVCC view snapshot tuple = (none, tuple.setXminCommitted) := by
  unfold inserterMVCC
  rw [if_neg (Bool.eq_false_iff.mp ended.2), if_neg (Bool.eq_false_iff.mp ended.1)]
  grind [setCommittedHint_eq]

theorem heapTupleSatisfiesMVCC_of_ended (ended : view.Ended tuple.xmin)
    (unseen : (deleterMVCC view snapshot tuple).1 = false) :
    (heapTupleSatisfiesMVCC view snapshot tuple).1 = false := by
  unfold heapTupleSatisfiesMVCC
  grind [inserterMVCC_ended, HeapTupleHeader.setXminCommitted, deleterMVCC_fst_xmin]

theorem DeleteDone.deleterMVCC_fst (done : DeleteDone view tuple) (sound : Sound view tuple)
    (known : xidInMVCCSnapshot view.log.toSubTrans tuple.xmin snapshot = false →
      xidInMVCCSnapshot view.log.toSubTrans tuple.xmax snapshot = false) :
    (deleterMVCC view snapshot tuple).1 = false := by
  obtain ⟨deleter, committed, ended⟩ := done
  unfold deleterMVCC
  split
  · rfl
  next outside =>
  have seen := known (Bool.eq_false_iff.mpr outside)
  rw [if_neg fun bit => (sound.xmaxInvalid bit deleter).1 committed, if_neg (Bool.eq_false_iff.mp deleter.1),
    if_neg (Bool.eq_false_iff.mp deleter.2)]
  split
  · exact seen
  · simp [ended.1, ended.2, (TransactionLog.didCommit_iff _).mpr committed, seen]

theorem Dead.heapTupleSatisfiesMVCC_fst (dead : Dead view oldestXmin tuple) (sound : Sound view tuple)
    (together : Together [tuple.xmax, oldestXmin, snapshot.xmin])
    (after : transactionIdFollowsOrEquals snapshot.xmin oldestXmin = true) :
    (heapTupleSatisfiesMVCC view snapshot tuple).1 = false := by
  rcases dead with gone | ⟨⟨-, ended⟩, deleted, same | old⟩
  · grind [Gone.inserterMVCC_fst, heapTupleSatisfiesMVCC]
  · grind [heapTupleSatisfiesMVCC_of_ended, DeleteDone.deleterMVCC_fst]
  · grind [heapTupleSatisfiesMVCC_of_ended, DeleteDone.deleterMVCC_fst, transactionIdFollowsOrEquals_eq,
      precedes_of_precedes_of_not_precedes, xidInMVCCSnapshot]

/-- VACUUM never removes a visible row: what `HeapTupleSatisfiesVacuum` calls dead is
invisible at every later moment for every snapshot at or after `OldestXmin`,
with the hint bits it has left or any others that agree with the transactions. -/
theorem dead_never_visible (sound : Sound view tuple) (movable : Movable view tuple)
    (dead : (heapTupleSatisfiesVacuum view oldestXmin tuple).1 = .dead) (later : Later tuple view reader)
    (together : Together [tuple.xmax, oldestXmin, snapshot.xmin])
    (after : transactionIdFollowsOrEquals snapshot.xmin oldestXmin = true) :
    (heapTupleSatisfiesMVCC reader snapshot (heapTupleSatisfiesVacuum view oldestXmin tuple).2).1 = false ∧
    ∀ hints, Sound reader { tuple with hints := hints } →
      (heapTupleSatisfiesMVCC reader snapshot { tuple with hints := hints }).1 = false := by
  obtain ⟨isDead, same, set⟩ := @heapTupleSatisfiesVacuum_spec _ _ oldestXmin sound movable
  have stillDead := (isDead dead).later later
  have any (hints : HintBits) (agree : Sound reader { tuple with hints := hints }) :
      (heapTupleSatisfiesMVCC reader snapshot { tuple with hints := hints }).1 = false :=
    Dead.heapTupleSatisfiesMVCC_fst stillDead agree together after
  refine ⟨?_, any⟩
  rw [same] at set ⊢
  exact any _ (set.later later)

end Proofs

def deletedLongAgo : HeapTupleHeader := { beingDeleted with xmax := 11 }

theorem deletedLongAgo_dead : (heapTupleSatisfiesVacuum oneRunning 20 deletedLongAgo).1 = .dead := by
  have inserted : oneRunning.log.didCommit deletedLongAgo.xmin = true :=
    (TransactionLog.didCommit_iff _).mpr (.marked (by decide))
  have deleted : oneRunning.log.didCommit deletedLongAgo.xmax = true :=
    (TransactionLog.didCommit_iff _).mpr (.marked (by decide))
  have first : inserterVacuum oneRunning deletedLongAgo = (none, deletedLongAgo.setXminCommitted) := by
    unfold inserterVacuum
    rw [if_pos inserted]
    rfl
  unfold heapTupleSatisfiesVacuum
  rw [first]
  change (deleterVacuum oneRunning 20 deletedLongAgo.setXminCommitted).1 = .dead
  unfold deleterVacuum
  rw [if_pos (show oneRunning.log.didCommit deletedLongAgo.setXminCommitted.xmax = true from deleted)]
  decide

theorem deletedLongAgo_together : Together [deletedLongAgo.xmax, 20, oneRunningSnapshot.xmin] := by
  refine ⟨3, fun xid mem _ => ?_⟩
  simp only [List.mem_cons, List.not_mem_nil, or_false] at mem
  rcases mem with rfl | rfl | rfl <;> decide +kernel

theorem dead_never_visible_deletedLongAgo : (heapTupleSatisfiesVacuum oneRunning 20 deletedLongAgo).1 = .dead ∧
      (heapTupleSatisfiesMVCC oneRunning oneRunningSnapshot
        (heapTupleSatisfiesVacuum oneRunning 20 deletedLongAgo).2).1 = false := by
  have later : Later deletedLongAgo oneRunning oneRunning := fun _ _ ended => ⟨ended, Iff.rfl⟩
  have after : transactionIdFollowsOrEquals oneRunningSnapshot.xmin 20 = true := by decide +kernel
  have sound : Sound oneRunning deletedLongAgo := ⟨nofun, nofun, nofun, nofun⟩
  have movable : Movable oneRunning deletedLongAgo :=
    ⟨nofun, fun moved => by simp [deletedLongAgo, beingDeleted] at moved⟩
  exact ⟨deletedLongAgo_dead, (dead_never_visible sound movable deletedLongAgo_dead later deletedLongAgo_together
    after).1⟩

end BlockchainPG.Mvcc
