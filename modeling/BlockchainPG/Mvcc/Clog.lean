import BlockchainPG.Lib.Runs
import BlockchainPG.Mvcc.Transam

/-! The commit log, `clog.c`. -/

namespace BlockchainPG.Mvcc

open Lib List Function

def BLCKSZ : Nat := 8192
def CLOG_BITS_PER_XACT : Nat := 2
def CLOG_XACTS_PER_BYTE : Nat := 4
def CLOG_XACTS_PER_PAGE : Nat := BLCKSZ * CLOG_XACTS_PER_BYTE
def CLOG_XACT_BITMASK : BitVec 8 := (1 <<< CLOG_BITS_PER_XACT) - 1

def transactionIdToPage (xid : TransactionId) : Nat := xid.toNat / CLOG_XACTS_PER_PAGE
def transactionIdToPgIndex (xid : TransactionId) : Nat := xid.toNat % CLOG_XACTS_PER_PAGE
def transactionIdToByte (xid : TransactionId) : Nat := transactionIdToPgIndex xid / CLOG_XACTS_PER_BYTE
def transactionIdToBIndex (xid : TransactionId) : Nat := xid.toNat % CLOG_XACTS_PER_BYTE

/-- The bytes of the pages of the log. -/
abbrev ClogPages := Nat → Nat → BitVec 8

namespace XidStatus

def bits : XidStatus → BitVec 8
  | inProgress => 0
  | committed => 1
  | aborted => 2
  | subCommitted => 3

def ofBits (value : BitVec 8) : XidStatus :=
  if value = 0 then inProgress else if value = 1 then committed else if value = 2 then aborted else subCommitted

end XidStatus

def transactionIdGetStatus (clog : ClogPages) (xid : TransactionId) : XidStatus :=
  let bshift := transactionIdToBIndex xid * CLOG_BITS_PER_XACT
  .ofBits (clog (transactionIdToPage xid) (transactionIdToByte xid) >>> bshift &&& CLOG_XACT_BITMASK)

/-- `TransactionIdSetStatusBit` on a page. -/
def transactionIdSetStatusBit (inRecovery : Bool) (pageno : Nat) (status : XidStatus) (clog : ClogPages)
    (xid : TransactionId) : ClogPages :=
  let byteno := transactionIdToByte xid
  let bshift := transactionIdToBIndex xid * CLOG_BITS_PER_XACT
  let byteval := clog pageno byteno
  let curval := byteval >>> bshift &&& CLOG_XACT_BITMASK
  if inRecovery && status = .subCommitted && curval = XidStatus.committed.bits then clog
  else
    let byteval := byteval &&& ~~~(CLOG_XACT_BITMASK <<< bshift) ||| status.bits <<< bshift
    update clog pageno (update (clog pageno) byteno byteval)

/-- The arguments of `TransactionIdSetPageStatus`. -/
structure PageUpdate where
  xid : TransactionId
  subxids : List TransactionId
  status : XidStatus
  pageno : Nat
deriving DecidableEq

def transactionIdSetPageStatus (inRecovery : Bool) (clog : ClogPages) (call : PageUpdate) : ClogPages :=
  let clog :=
    if call.xid ≠ InvalidTransactionId then
      -- subtransactions first, if needed
      let clog :=
        if call.status = .committed then
          call.subxids.foldl (transactionIdSetStatusBit inRecovery call.pageno .subCommitted) clog
        else clog
      -- then the main transaction
      transactionIdSetStatusBit inRecovery call.pageno call.status clog call.xid
    else clog
  call.subxids.foldl (transactionIdSetStatusBit inRecovery call.pageno call.status) clog

/-- The calls that `set_status_by_pages` makes, for at most `fuel` pages. -/
def setStatusByPages (status : XidStatus) : Nat → List TransactionId → List PageUpdate
  | 0, _ | _, [] => []
  | fuel + 1, first :: rest =>
    let pageno := transactionIdToPage first
    let onPage := (first :: rest).takeWhile fun xid => transactionIdToPage xid = pageno
    { xid := InvalidTransactionId, subxids := onPage, status, pageno } ::
      setStatusByPages status fuel ((first :: rest).drop onPage.length)

/-- The page updates that `TransactionIdSetTreeStatus` makes one after the other. -/
def transactionIdSetTreeStatus (xid : TransactionId) (subxids : List TransactionId) (status : XidStatus) :
    List PageUpdate :=
  let pageno := transactionIdToPage xid
  let onFirst := subxids.takeWhile fun sub => transactionIdToPage sub = pageno
  if onFirst.length = subxids.length then [{ xid, subxids, status, pageno }]
  else
    let rest := subxids.drop onFirst.length
    (if status = .committed then setStatusByPages .subCommitted rest.length rest else []) ++
      { xid, subxids := onFirst, status, pageno } :: setStatusByPages status rest.length rest

theorem bits_stored (byteval : BitVec 8) (own other : Fin 4) (status : XidStatus) :
    (byteval &&& ~~~(CLOG_XACT_BITMASK <<< (own.val * 2)) ||| status.bits <<< (own.val * 2)) >>> (other.val * 2) &&&
        CLOG_XACT_BITMASK =
      if other = own then status.bits else byteval >>> (other.val * 2) &&& CLOG_XACT_BITMASK := by
  revert byteval own other
  cases status <;> decide +kernel

theorem ofBits_bits (status : XidStatus) : XidStatus.ofBits status.bits = status := by
  cases status <;> rfl

theorem bits_of_ofBits : value &&& CLOG_XACT_BITMASK = XidStatus.committed.bits ↔
      XidStatus.ofBits (value &&& CLOG_XACT_BITMASK) = .committed := by
  revert value
  decide +kernel

/-- What becomes of a status: a replayed subcommit does not undo a commit. -/
def marked (inRecovery : Bool) (status current : XidStatus) : XidStatus :=
  if inRecovery && status = .subCommitted && current = .committed then current else status

section Stores

variable {inRecovery : Bool} {clog : ClogPages} {xid other : TransactionId} {status : XidStatus}

theorem getStatus_setStatusBit (page : transactionIdToPage xid = pageno) (other : TransactionId) :
    transactionIdGetStatus (transactionIdSetStatusBit inRecovery pageno status clog xid) other =
      if other = xid then marked inRecovery status (transactionIdGetStatus clog xid)
      else transactionIdGetStatus clog other := by
  subst page
  have current : (clog (transactionIdToPage xid) (transactionIdToByte xid) >>>
      (transactionIdToBIndex xid * CLOG_BITS_PER_XACT) &&& CLOG_XACT_BITMASK = XidStatus.committed.bits) ↔
        transactionIdGetStatus clog xid = .committed := bits_of_ofBits
  simp only [transactionIdSetStatusBit, marked, current]
  by_cases skips : (inRecovery && status = .subCommitted && transactionIdGetStatus clog xid = .committed) = true
  · grind
  · rw [if_neg skips, if_neg skips]
    by_cases page : transactionIdToPage other = transactionIdToPage xid
    · by_cases byte : transactionIdToByte other = transactionIdToByte xid
      · have small : ∀ id : TransactionId, transactionIdToBIndex id < 4 := fun id => Nat.mod_lt _ (by decide)
        have stored := bits_stored (clog (transactionIdToPage xid) (transactionIdToByte xid))
          ⟨_, small xid⟩ ⟨_, small other⟩ status
        have place : (⟨transactionIdToBIndex other, small other⟩ : Fin 4) = ⟨_, small xid⟩ ↔ other = xid := by
          grind [transactionIdToPage, transactionIdToByte, transactionIdToPgIndex, transactionIdToBIndex,
            CLOG_XACTS_PER_PAGE, CLOG_XACTS_PER_BYTE, BLCKSZ, BitVec.eq_of_toNat_eq]
        rw [if_congr place rfl rfl] at stored
        simp only [transactionIdGetStatus, page, byte, update_self]
        refine (congrArg XidStatus.ofBits stored).trans ?_
        split
        · exact ofBits_bits status
        · rfl
      · have ne : other ≠ xid := fun same => byte (by rw [same])
        simp only [transactionIdGetStatus, page, update_self, update_of_ne byte, if_neg ne]
    · have ne : other ≠ xid := fun same => page (by rw [same])
      simp only [transactionIdGetStatus, update_of_ne page, if_neg ne]

theorem marked_marked (inRecovery : Bool) (status current : XidStatus) :
    marked inRecovery status (marked inRecovery status current) = marked inRecovery status current := by
  unfold marked
  split
  · rfl
  · split <;> rfl

theorem getStatus_foldl {subxids : List TransactionId} (page : ∀ sub ∈ subxids, transactionIdToPage sub = pageno)
    (other : TransactionId) :
    transactionIdGetStatus (subxids.foldl (transactionIdSetStatusBit inRecovery pageno status) clog) other =
      if other ∈ subxids then marked inRecovery status (transactionIdGetStatus clog other)
      else transactionIdGetStatus clog other := by
  induction subxids generalizing clog with
  | nil => simp
  | cons sub rest ih =>
    grind [getStatus_setStatusBit, marked_marked]

def PageUpdate.OnPage (call : PageUpdate) : Prop :=
  (call.xid ≠ InvalidTransactionId → transactionIdToPage call.xid = call.pageno) ∧
    ∀ sub ∈ call.subxids, transactionIdToPage sub = call.pageno

instance (call : PageUpdate) : Decidable call.OnPage :=
  have : Decidable (∀ sub ∈ call.subxids, transactionIdToPage sub = call.pageno) := decidableBAll _ _
  inferInstanceAs (Decidable (_ ∧ _))

/-- The ids that a call writes. -/
def PageUpdate.Names (call : PageUpdate) (xid : TransactionId) : Prop :=
  (call.xid ≠ InvalidTransactionId ∧ xid = call.xid) ∨ xid ∈ call.subxids

theorem getStatus_unnamed {call : PageUpdate} (onPage : call.OnPage) (unnamed : ¬call.Names other) :
    transactionIdGetStatus (transactionIdSetPageStatus inRecovery clog call) other =
      transactionIdGetStatus clog other := by
  obtain ⟨notMain, notSub⟩ := not_or.mp unnamed
  simp only [transactionIdSetPageStatus]
  rw [getStatus_foldl onPage.2, if_neg notSub]
  split
  · next valid =>
    rw [getStatus_setStatusBit (onPage.1 valid), if_neg fun same => notMain ⟨valid, same⟩]
    split
    · rw [getStatus_foldl onPage.2, if_neg notSub]
    · rfl
  · rfl

theorem getStatus_subs {call : PageUpdate} (onPage : call.OnPage) (none : call.xid = InvalidTransactionId)
    (other : TransactionId) : transactionIdGetStatus (transactionIdSetPageStatus inRecovery clog call) other =
      if other ∈ call.subxids then marked inRecovery call.status (transactionIdGetStatus clog other)
      else transactionIdGetStatus clog other := by
  simp only [transactionIdSetPageStatus, none, ne_eq, not_true_eq_false, ↓reduceIte]
  exact getStatus_foldl onPage.2 other

theorem getStatus_main {call : PageUpdate} (onPage : call.OnPage) (valid : call.xid ≠ InvalidTransactionId)
    (commits : call.status = .committed) (named : call.Names other) :
    transactionIdGetStatus (transactionIdSetPageStatus inRecovery clog call) other = .committed := by
  have committed : ∀ current, marked inRecovery .committed current = .committed := by
    intro current
    simp [marked]
  simp only [transactionIdSetPageStatus, valid, ne_eq, not_false_eq_true, ↓reduceIte, commits]
  rw [getStatus_foldl onPage.2]
  split
  · exact committed _
  · next notSub =>
    have main : other = call.xid := (named.resolve_right notSub).2
    rw [getStatus_setStatusBit (onPage.1 valid), if_pos main]
    exact committed _

end Stores

section Plan

variable {xid : TransactionId} {subxids : List TransactionId} {status : XidStatus}

theorem takeWhile_append_drop (p : TransactionId → Bool) (list : List TransactionId) :
    list.takeWhile p ++ list.drop (list.takeWhile p).length = list := by
  grind [prefix_iff_eq_take, takeWhile_prefix, take_append_drop]

theorem page_of_takeWhile {list : List TransactionId} {pageno : Nat}
    (own : sub ∈ list.takeWhile fun xid => decide (transactionIdToPage xid = pageno)) :
    transactionIdToPage sub = pageno := by
  simpa using mem_takeWhile_imp own

theorem setStatusByPages_spec (status : XidStatus) (enough : subxids.length ≤ fuel) :
    (setStatusByPages status fuel subxids).flatMap PageUpdate.subxids = subxids ∧
      ∀ call ∈ setStatusByPages status fuel subxids,
        call.xid = InvalidTransactionId ∧ call.status = status ∧ call.OnPage := by
  induction fuel generalizing subxids with
  | zero =>
    grind [setStatusByPages]
  | succ fuel ih =>
    cases subxids with
    | nil => simp [setStatusByPages]
    | cons first rest =>
      have whole := takeWhile_append_drop (fun xid => decide (transactionIdToPage xid = transactionIdToPage first))
        (first :: rest)
      rw [setStatusByPages]
      generalize taken : (first :: rest).takeWhile
        (fun xid => decide (transactionIdToPage xid = transactionIdToPage first)) = onPage at whole ⊢
      have some : 0 < onPage.length := by
        rw [← taken]
        simp
      have shorter : ((first :: rest).drop onPage.length).length ≤ fuel := by
        rw [length_drop]
        omega
      obtain ⟨names, calls⟩ := ih shorter
      refine ⟨by rw [flatMap_cons, names]; exact whole, fun call mem => ?_⟩
      rcases mem_cons.mp mem with rfl | mem
      · refine ⟨rfl, rfl, fun valid => absurd rfl valid, fun sub own => ?_⟩
        rw [← taken] at own
        exact page_of_takeWhile own
      · exact calls call mem

/-- Before the page of the main transaction is written, the subtransactions of other
pages are marked; afterwards they are committed. -/
theorem setTreeStatus_committed (xid : TransactionId) (subxids : List TransactionId) :
    ∃ marks onFirst commits, transactionIdSetTreeStatus xid subxids .committed =
        marks ++ { xid, subxids := onFirst, status := .committed, pageno := transactionIdToPage xid } :: commits ∧
      (∀ sub, sub ∈ subxids ↔ sub ∈ onFirst ∨ sub ∈ marks.flatMap PageUpdate.subxids) ∧
      (∀ sub ∈ onFirst, transactionIdToPage sub = transactionIdToPage xid) ∧
      (∀ call ∈ marks, call.xid = InvalidTransactionId ∧ call.status = .subCommitted ∧ call.OnPage) ∧
      ∀ call ∈ commits, call.xid = InvalidTransactionId ∧ call.status = .committed ∧ call.OnPage := by
  have whole := takeWhile_append_drop (fun sub => decide (transactionIdToPage sub = transactionIdToPage xid)) subxids
  have pages : ∀ sub ∈ subxids.takeWhile fun sub => decide (transactionIdToPage sub = transactionIdToPage xid),
      transactionIdToPage sub = transactionIdToPage xid :=
    fun sub own => page_of_takeWhile own
  rw [transactionIdSetTreeStatus]
  generalize subxids.takeWhile (fun sub => decide (transactionIdToPage sub = transactionIdToPage xid)) = onFirst
    at whole pages ⊢
  by_cases all : onFirst.length = subxids.length
  · have same : onFirst = subxids := by rwa [all, drop_length, append_nil] at whole
    refine ⟨[], subxids, [], by simp [all], by simp, same ▸ pages, by simp, by simp⟩
  · obtain ⟨markNames, marks⟩ := setStatusByPages_spec .subCommitted
      (le_refl (subxids.drop onFirst.length).length)
    obtain ⟨-, commits⟩ := setStatusByPages_spec .committed (le_refl (subxids.drop onFirst.length).length)
    refine ⟨_, onFirst, _, by simp only [all, ↓reduceIte], fun sub => ?_, pages, marks, commits⟩
    rw [markNames, ← mem_append, whole]

end Plan

/-- The log, and the page updates that the committing backend has yet to make. -/
structure Committing where
  clog : ClogPages
  todo : List PageUpdate

/-- One page update, of the committing backend or of another one. -/
inductive ClogEvent where
  | own
  | other (call : PageUpdate)

def Committing.step (inRecovery : Bool) (s : Committing) : ClogEvent → Committing
  | .own =>
    match s.todo with
    | [] => s
    | call :: rest => { clog := transactionIdSetPageStatus inRecovery s.clog call, todo := rest }
  | .other call => { s with clog := transactionIdSetPageStatus inRecovery s.clog call }

/-- The others write the pages of their ids, and not the ids of this tree. -/
def ClogEvent.Foreign (tree : List TransactionId) : ClogEvent → Prop
  | .own => True
  | .other call => call.OnPage ∧ call.xid ∉ tree ∧ ∀ sub ∈ call.subxids, sub ∉ tree

/-- Stated apart, so that the instance below names it. -/
theorem lawful_transactionId : LawfulBEq TransactionId := inferInstance

instance (tree : List TransactionId) (event : ClogEvent) : Decidable (event.Foreign tree) :=
  match event with
  | .own => inferInstanceAs (Decidable True)
  | .other call =>
    have := lawful_transactionId
    have : Decidable (∀ sub ∈ call.subxids, sub ∉ tree) := decidableBAll _ _
    inferInstanceAs (Decidable (_ ∧ _ ∧ _))

/-- What `TransactionIdDidCommit` reads. -/
def SubTrans.withLog (subTrans : SubTrans) (clog : ClogPages) : TransactionLog :=
  { subTrans with status := transactionIdGetStatus clog }

/-- Of a tree that is being committed, either nothing is committed yet, or the top-level
transaction is and the others are marked at least. -/
inductive Progress (xid : TransactionId) (subxids : List TransactionId) (s : Committing) : Prop where
  | waiting (marks : List PageUpdate) (onFirst : List TransactionId) (commits : List PageUpdate)
      (todo : s.todo = marks ++
        { xid, subxids := onFirst, status := .committed, pageno := transactionIdToPage xid } :: commits)
      (first : ∀ sub ∈ onFirst, transactionIdToPage sub = transactionIdToPage xid)
      (marking : ∀ call ∈ marks, call.xid = InvalidTransactionId ∧ call.status = .subCommitted ∧ call.OnPage)
      (committing : ∀ call ∈ commits, call.xid = InvalidTransactionId ∧ call.status = .committed ∧ call.OnPage)
      (quiet : ∀ sub ∈ xid :: subxids, transactionIdGetStatus s.clog sub = .inProgress ∨
        transactionIdGetStatus s.clog sub = .subCommitted)
      (marked : ∀ sub ∈ subxids, sub ∈ onFirst ∨ sub ∈ marks.flatMap PageUpdate.subxids ∨
        transactionIdGetStatus s.clog sub = .subCommitted)
  | committed
      (committing : ∀ call ∈ s.todo, call.xid = InvalidTransactionId ∧ call.status = .committed ∧ call.OnPage)
      (top : transactionIdGetStatus s.clog xid = .committed)
      (subs : ∀ sub ∈ subxids, transactionIdGetStatus s.clog sub = .subCommitted ∨
        transactionIdGetStatus s.clog sub = .committed)

section Progress

variable {xid : TransactionId} {subxids : List TransactionId} {s : Committing} {inRecovery : Bool}

theorem Progress.start (quiet : ∀ sub ∈ xid :: subxids,
      transactionIdGetStatus clog sub = .inProgress ∨ transactionIdGetStatus clog sub = .subCommitted) :
    Progress xid subxids ⟨clog, transactionIdSetTreeStatus xid subxids .committed⟩ := by
  obtain ⟨marks, onFirst, commits, plan, members, first, marking, committing⟩ := setTreeStatus_committed xid subxids
  refine .waiting marks onFirst commits plan first marking committing quiet fun sub mem => ?_
  exact ((members sub).mp mem).imp_right Or.inl

theorem Progress.step_other (progress : Progress xid subxids s)
    (foreign : (ClogEvent.other call).Foreign (xid :: subxids)) :
    Progress xid subxids (s.step inRecovery (.other call)) := by
  obtain ⟨onPage, notMain, notSubs⟩ := foreign
  have same : ∀ sub ∈ xid :: subxids, transactionIdGetStatus
    (transactionIdSetPageStatus inRecovery s.clog call) sub =
      transactionIdGetStatus s.clog sub := by
    intro sub mem
    refine getStatus_unnamed onPage ?_
    rintro (⟨-, rfl⟩ | own)
    · exact notMain mem
    · exact notSubs sub own mem
  cases progress with
  | waiting marks onFirst commits todo first marking committing quiet marked =>
    refine .waiting marks onFirst commits todo first marking committing (fun sub mem => ?_) fun sub mem => ?_
    · rw [Committing.step, same sub mem]
      exact quiet sub mem
    · grind [Committing.step]
  | committed committing top subs =>
    refine .committed committing ?_ fun sub mem => ?_
    · rw [Committing.step, same xid mem_cons_self]
      exact top
    · grind [Committing.step]

theorem Progress.step_own (progress : Progress xid subxids s) (valid : xid ≠ InvalidTransactionId) :
    Progress xid subxids (s.step inRecovery .own) := by
  cases progress with
  | waiting marks onFirst commits todo first marking committing quiet marks' =>
    cases marks with
    | nil =>
      -- the page of the main transaction
      have done : s.step inRecovery .own = ⟨transactionIdSetPageStatus inRecovery s.clog
          { xid, subxids := onFirst, status := .committed, pageno := transactionIdToPage xid }, commits⟩ := by
        rw [Committing.step, todo]
        rfl
      have onPage : PageUpdate.OnPage
          { xid, subxids := onFirst, status := .committed, pageno := transactionIdToPage xid } :=
        ⟨fun _ => rfl, first⟩
      rw [done]
      refine .committed committing (getStatus_main onPage valid rfl (Or.inl ⟨valid, rfl⟩)) fun sub mem => ?_
      by_cases named : sub = xid ∨ sub ∈ onFirst
      · exact Or.inr (getStatus_main onPage valid rfl (named.imp_left fun same => ⟨valid, same⟩))
      · rw [getStatus_unnamed onPage fun own => named (own.imp_left And.right)]
        grind
    | cons call marks =>
      obtain ⟨none, status, onPage⟩ := marking call mem_cons_self
      have done : s.step inRecovery .own = ⟨transactionIdSetPageStatus inRecovery s.clog call, marks ++
          { xid, subxids := onFirst, status := .committed, pageno := transactionIdToPage xid } :: commits⟩ := by
        rw [Committing.step, todo]
        rfl
      have stays : ∀ sub ∈ xid :: subxids, marked inRecovery .subCommitted (transactionIdGetStatus s.clog sub) =
          .subCommitted := by
        grind [marked]
      rw [done]
      refine .waiting marks onFirst commits rfl first (fun other own => marking other (mem_cons_of_mem _ own))
        committing (fun sub mem => ?_) fun sub mem => ?_
      · grind [getStatus_subs]
      · grind [getStatus_subs]
  | committed committing top subs =>
    cases todo : s.todo with
    | nil =>
      have done : s.step inRecovery .own = s := by rw [Committing.step, todo]
      rw [done]
      exact .committed committing top subs
    | cons call rest =>
      rw [todo] at committing
      obtain ⟨none, status, onPage⟩ := committing call mem_cons_self
      have done : s.step inRecovery .own = ⟨transactionIdSetPageStatus inRecovery s.clog call, rest⟩ := by
        rw [Committing.step, todo]
      have commits : ∀ current, marked inRecovery .committed current = .committed := by
        intro current
        simp [marked]
      rw [done]
      refine .committed (fun other own => committing other (mem_cons_of_mem _ own)) ?_ fun sub mem => ?_
      · rw [getStatus_subs onPage none, status, commits, top, ite_self]
      · grind [getStatus_subs]

/-- A transaction tree as the backends know it. -/
structure Tree (subTrans : SubTrans) (xid : TransactionId) (subxids : List TransactionId) : Prop where
  normal : ∀ id ∈ xid :: subxids, transactionIdIsNormal id = true
  ascending : (xid :: subxids).Pairwise fun first second => transactionIdPrecedes first second = true
  together : Together (subTrans.transactionXmin :: xid :: subxids)
  recent : transactionIdPrecedes xid subTrans.transactionXmin = false
  top : subTrans.parent xid = InvalidTransactionId
  parents : ∀ sub ∈ subxids, subTrans.parent sub ∈ xid :: subxids

variable {subTrans : SubTrans}

theorem precedes_asymm (together : Together [first, second])
    (before : transactionIdPrecedes first second = true) : transactionIdPrecedes second first = false := by
  obtain ⟨base, near⟩ := together
  by_cases normal : transactionIdIsNormal first = true ∧ transactionIdIsNormal second = true
  · have nearFirst := near first (by simp) normal.1
    have nearSecond := near second (by simp) normal.2
    simp only [transactionIdPrecedes, normal.1, normal.2, Bool.and_self, if_true] at before ⊢
    rw [circularLt_iff nearFirst nearSecond] at before
    grind [circularLt_iff]
  · grind [transactionIdPrecedes]

section

variable (tree : Tree subTrans xid subxids)
include tree

/-- No one of the tree is before the `TransactionXmin` of an observer that the top-level one is not before. -/
theorem Tree.recent_all (mem : sub ∈ subxids) : transactionIdPrecedes sub subTrans.transactionXmin = false := by
  have after : transactionIdPrecedes xid sub = true := (pairwise_cons.mp tree.ascending).1 sub mem
  have among : ∀ list : List TransactionId, (∀ one ∈ list, one ∈ subTrans.transactionXmin :: xid :: subxids) →
      Together list := by
    obtain ⟨base, near⟩ := tree.together
    exact fun list inside => ⟨base, fun one own => near one (inside one own)⟩
  grind [precedes_of_precedes_of_not_precedes, recent, precedes_asymm]

theorem Tree.getParent (mem : one ∈ xid :: subxids) : subTrans.getParent one = subTrans.parent one := by
  rw [SubTrans.getParent, if_pos (tree.normal one mem)]

theorem Tree.fetch (clog : ClogPages) (mem : one ∈ xid :: subxids) :
    (subTrans.withLog clog).fetch one = transactionIdGetStatus clog one := by
  rw [TransactionLog.fetch, if_pos (tree.normal one mem)]
  rfl

theorem Tree.none_committed (quiet : ∀ one ∈ xid :: subxids, transactionIdGetStatus clog one ≠ .committed)
    (mem : one ∈ xid :: subxids) :
    ¬(subTrans.withLog clog).Committed one := by
  intro committed
  induction committed with
  | marked fetched =>
    grind [fetch]
  | @child one fetched recent valid parent ih =>
    grind [SubTrans.withLog, getParent, top, parents]

/-- Where the top-level transaction is committed and the others are marked at least, all are committed. -/
theorem Tree.all_committed (top : transactionIdGetStatus clog xid = .committed)
    (subs : ∀ sub ∈ subxids, transactionIdGetStatus clog sub = .subCommitted ∨
      transactionIdGetStatus clog sub = .committed) (mem : one ∈ xid :: subxids) :
    (subTrans.withLog clog).Committed one := by
  induction depth : subTrans.depth one using Nat.strong_induction_on generalizing one with
  | _ n ih =>
    subst depth
    have fetch := tree.fetch clog mem
    rcases mem_cons.mp mem with rfl | sub
    · exact .marked (fetch.trans top)
    · have parent := tree.parents one sub
      have same : (subTrans.withLog clog).getParent one = subTrans.parent one := tree.getParent mem
      have valid : subTrans.parent one ≠ InvalidTransactionId := ne_invalid_of_normal (tree.normal _ parent)
      rcases subs one sub with marked | committed
      · refine .child (fetch.trans marked) (tree.recent_all sub) (same ▸ valid) ?_
        rw [same]
        exact ih _ (subTrans.rises one valid) parent rfl
      · exact .marked (fetch.trans committed)

end

theorem Progress.agrees (progress : Progress xid subxids s) (tree : Tree subTrans xid subxids)
    (mem : sub ∈ subxids) :
    (subTrans.withLog s.clog).didCommit sub = (subTrans.withLog s.clog).didCommit xid := by
  rw [Bool.eq_iff_iff, TransactionLog.didCommit_iff, TransactionLog.didCommit_iff]
  cases progress with
  | waiting _ _ _ _ _ _ _ quiet _ =>
    grind [Tree.none_committed]
  | committed _ top subs =>
    grind [Tree.all_committed]

variable {clog : ClogPages} {events : List ClogEvent}

theorem Progress.along (tree : Tree subTrans xid subxids)
    (running : ∀ id ∈ xid :: subxids, transactionIdGetStatus clog id = .inProgress ∨
      transactionIdGetStatus clog id = .subCommitted) (foreign : ∀ event ∈ events, event.Foreign (xid :: subxids)) :
    Progress xid subxids
      (run (Committing.step inRecovery) ⟨clog, transactionIdSetTreeStatus xid subxids .committed⟩ events) := by
  have valid := ne_invalid_of_normal (tree.normal xid mem_cons_self)
  refine foldlRecOn events _ (Progress.start running) fun s progress event own => ?_
  cases event with
  | own => exact progress.step_own valid
  | other call => exact progress.step_other (foreign _ own)

theorem Committing.todo_run (inRecovery : Bool) (s : Committing) (events : List ClogEvent) :
    (run (Committing.step inRecovery) s events).todo = s.todo.drop (events.countP (· matches .own)) := by
  induction events generalizing s with
  | nil => rfl
  | cons event rest ih =>
    rw [run, foldl_cons, ← run, ih]
    cases event with
    | own => cases todo : s.todo <;> simp [Committing.step, todo]
    | other call => simp [Committing.step]

/-- When the backend has made all its page updates, the whole tree is committed. -/
theorem treeCommit_ends (tree : Tree subTrans xid subxids)
    (running : ∀ id ∈ xid :: subxids, transactionIdGetStatus clog id = .inProgress ∨
      transactionIdGetStatus clog id = .subCommitted) (foreign : ∀ event ∈ events, event.Foreign (xid :: subxids))
    (enough : (transactionIdSetTreeStatus xid subxids .committed).length ≤ events.countP (· matches .own))
    (mem : one ∈ xid :: subxids) : (subTrans.withLog (run (Committing.step inRecovery)
      ⟨clog, transactionIdSetTreeStatus xid subxids .committed⟩ events).clog).didCommit one = true := by
  have progress := @Progress.along xid subxids inRecovery subTrans clog events tree running foreign
  have done := Committing.todo_run inRecovery ⟨clog, transactionIdSetTreeStatus xid subxids .committed⟩ events
  rw [drop_of_length_le enough] at done
  rw [TransactionLog.didCommit_iff]
  cases progress with
  | waiting marks onFirst commits todo =>
    rw [done] at todo
    simp at todo
  | committed _ top subs => exact tree.all_committed top subs mem

end Progress

/-- At every instant of a commit, whatever the others write, a subtransaction is
committed just when the top-level transaction is. -/
theorem treeCommit_atomic (subTrans : SubTrans) (inRecovery : Bool) (clog : ClogPages) (xid : TransactionId)
    (subxids : List TransactionId) (tree : Tree subTrans xid subxids)
    (running : ∀ id ∈ xid :: subxids, transactionIdGetStatus clog id = .inProgress ∨
      transactionIdGetStatus clog id = .subCommitted) (events : List ClogEvent)
    (foreign : ∀ event ∈ events, event.Foreign (xid :: subxids)) :
    let s := run (Committing.step inRecovery) ⟨clog, transactionIdSetTreeStatus xid subxids .committed⟩ events
    ∀ sub ∈ subxids, (subTrans.withLog s.clog).didCommit sub = (subTrans.withLog s.clog).didCommit xid := by
  intro s sub mem
  exact (Progress.along tree running foreign).agrees tree mem

def twoPages : SubTrans where
  parent xid := if xid = 32767 then 32766 else if xid = 32768 then 32767 else InvalidTransactionId
  transactionXmin := 32760
  depth xid := xid.toNat
  rises xid valid := by
    grind

theorem twoPages_tree : Tree twoPages 32766 [32767, 32768] where
  normal := by simp [transactionIdIsNormal, FirstNormalTransactionId]
  ascending := by decide +kernel
  together := ⟨32760, by simp [twoPages, Near, offset]⟩
  recent := by decide +kernel
  top := by decide +kernel
  parents := by simp [twoPages]

def abortMeanwhile : List ClogEvent := [.own, .other ⟨32765, [], .aborted, 0⟩, .own, .own]

theorem treeCommit_atomic_abortMeanwhile :
    let s := run (Committing.step false)
      ⟨fun _ _ => 0, transactionIdSetTreeStatus 32766 [32767, 32768] .committed⟩ abortMeanwhile
    (twoPages.withLog s.clog).didCommit 32768 = (twoPages.withLog s.clog).didCommit 32766 := by
  have running : ∀ xid ∈ [32766, 32767, 32768], transactionIdGetStatus (fun _ _ => 0) xid = .inProgress ∨
      transactionIdGetStatus (fun _ _ => 0) xid = .subCommitted := by
    simp only [forall_mem_cons, not_mem_nil, false_implies, implies_true, and_true]
    decide +kernel
  have foreign : ∀ event ∈ abortMeanwhile, event.Foreign [32766, 32767, 32768] := by decide +kernel
  exact @treeCommit_atomic twoPages false (fun _ _ => 0) 32766 [32767, 32768] twoPages_tree running abortMeanwhile
    foreign 32768 (mem_cons_of_mem _ mem_cons_self)

/-- `num` ids from `offset` on, as they are passed to `TransactionIdSetPageStatus`. -/
structure Slice where
  offset : Nat
  num : Nat
  pageno : Nat
deriving DecidableEq

section

variable (subxids : Nat → TransactionId) (nsubxids : Nat)

/-- The inner loop: where it ends, and the elements that it reads. -/
def scanPage (pageno : Nat) : (fuel i : Nat) → Option (Nat × List Nat)
  | 0, _ => none
  | fuel + 1, i =>
    if transactionIdToPage (subxids i) = pageno ∧ i < nsubxids then
      (scanPage pageno fuel (i + 1)).map fun (next, reads) => (next, i :: reads)
    else some (i, [i])

/-- The outer loop: the slices, and the elements that are read. -/
def scanPages : (fuel pageno i : Nat) → Option (List Slice × List Nat)
  | 0, _, _ => none
  | fuel + 1, pageno, i =>
    if i < nsubxids then do
      let (next, reads) ← scanPage subxids nsubxids pageno (nsubxids + 1 - i) i
      let (slices, later) ← scanPages fuel (transactionIdToPage (subxids next)) next
      return (⟨i, next - i, pageno⟩ :: slices, reads ++ next :: later)
    else some ([], [])

/-- `set_status_by_pages`, of which `setStatusByPages` has the calls on a list. -/
def setStatusBySlices : Option (List Slice × List Nat) :=
  (scanPages subxids nsubxids (nsubxids + 1) (transactionIdToPage (subxids 0)) 0).map fun (slices, reads) =>
    (slices, 0 :: reads)

end

/-- Slices that follow one another from `i` to `n`. -/
def Tiles (n : Nat) : (i : Nat) → List Slice → Prop
  | i, [] => i = n
  | i, slice :: rest => slice.offset = i ∧ 0 < slice.num ∧ Tiles n (i + slice.num) rest

variable {subxids : Nat → TransactionId} {nsubxids i fuel : Nat}

theorem scanPage_spec (pageno : Nat) (low : i ≤ nsubxids) (enough : nsubxids < i + fuel) :
    ∃ next reads, scanPage subxids nsubxids pageno fuel i = some (next, reads) ∧ i ≤ next ∧ next ≤ nsubxids ∧
      (∀ j, j ∈ reads ↔ i ≤ j ∧ j ≤ next) ∧ (∀ j, i ≤ j → j < next → transactionIdToPage (subxids j) = pageno) ∧
      (next < nsubxids → transactionIdToPage (subxids next) ≠ pageno) := by
  induction fuel generalizing i with
  | zero => omega
  | succ fuel ih =>
    rw [scanPage]
    split
    · next inside =>
      obtain ⟨next, reads, found, first, last, elements, here, ends⟩ := ih (i := i + 1) inside.2 (by omega)
      refine ⟨next, i :: reads, by rw [found]; rfl, by omega, last, fun j => ?_, fun j above below => ?_, ends⟩
      · rw [mem_cons, elements]
        omega
      · rcases Nat.eq_or_lt_of_le above with rfl | above
        · exact inside.1
        · exact here j above below
    · next outside =>
      refine ⟨i, [i], rfl, le_rfl, low, fun j => by rw [mem_singleton]; omega, by omega, fun less same => ?_⟩
      exact outside ⟨same, less⟩

theorem scanPages_spec
    (ascending : ∀ j k, j ≤ k → k < nsubxids → transactionIdToPage (subxids j) ≤ transactionIdToPage (subxids k))
    (low : i ≤ nsubxids) (enough : nsubxids < i + fuel)
    (begins : ∀ j < i, i < nsubxids → transactionIdToPage (subxids j) < transactionIdToPage (subxids i)) :
    ∃ slices reads, scanPages subxids nsubxids fuel (transactionIdToPage (subxids i)) i = some (slices, reads) ∧
      Tiles nsubxids i slices ∧ (∀ slice ∈ slices, ∀ j < nsubxids, transactionIdToPage (subxids j) = slice.pageno ↔
        slice.offset ≤ j ∧ j < slice.offset + slice.num) ∧ ∀ j, j ∈ reads ↔ i < nsubxids ∧ i ≤ j ∧ j ≤ nsubxids := by
  induction fuel generalizing i with
  | zero => omega
  | succ fuel ih =>
    rw [scanPages]
    split
    · next inside =>
      obtain ⟨next, reads, found, first, last, elements, here, ends⟩ :=
        @scanPage_spec subxids nsubxids i (nsubxids + 1 - i) (transactionIdToPage (subxids i)) low (by omega)
      have more : i < next := by
        by_contra stays
        obtain rfl : next = i := by omega
        exact ends inside rfl
      have behind (less : next < nsubxids) : transactionIdToPage (subxids i) < transactionIdToPage (subxids next) :=
        (ascending i next first less).lt_of_ne' (ends less)
      obtain ⟨slices, later, rest, tiles, pages, others⟩ := ih last (by omega) fun j before less => by
        rcases Nat.lt_or_ge j i with early | own
        · exact (begins j early inside).trans (behind less)
        · exact here j own before ▸ behind less
      refine ⟨⟨i, next - i, transactionIdToPage (subxids i)⟩ :: slices, reads ++ next :: later, by simp [found, rest],
        ⟨rfl, by simpa using more, ?_⟩, ?_, fun j => ?_⟩
      · simpa [Nat.add_sub_cancel' first] using tiles
      · rw [forall_mem_cons]
        dsimp only
        refine ⟨fun j less => ⟨fun same => ?_, fun own => here j own.1 (by omega)⟩, pages⟩
        have early : ¬ j < i := fun early => (begins j early inside).ne same
        have late : ¬ next ≤ j := fun late => ((behind (by omega)).trans_le (ascending next j late less)).ne' same
        omega
      · rw [mem_append, mem_cons, elements, others]
        omega
    · next outside =>
      exact ⟨[], [], rfl, by simp only [Tiles]; omega, nofun, fun j => by simp [outside]⟩

/-- A scan of the array from `i` on makes the calls that `setStatusByPages` makes on the list of its elements. -/
theorem scanPages_calls (status : XidStatus)
    (low : i ≤ nsubxids) (enough : nsubxids ≤ i + n)
    (scanned : scanPages subxids nsubxids fuel (transactionIdToPage (subxids i)) i = some (slices, reads)) :
    setStatusByPages status n ((range' i (nsubxids - i)).map subxids) = slices.map fun slice =>
      ⟨InvalidTransactionId, (range' slice.offset slice.num).map subxids, status, slice.pageno⟩ := by
  induction fuel generalizing i n slices reads with
  | zero => cases scanned
  | succ fuel ih =>
    rw [scanPages] at scanned
    split at scanned
    · next inside =>
      obtain ⟨next, own, found, first, last, -, here, ends⟩ :=
        @scanPage_spec subxids nsubxids i (nsubxids + 1 - i) (transactionIdToPage (subxids i)) low (by omega)
      have more : i < next := by
        by_contra stays
        obtain rfl : next = i := by omega
        exact ends inside rfl
      simp only [found, Option.bind_eq_bind, Option.bind_some, Option.bind_eq_some_iff] at scanned
      obtain ⟨⟨slices, later⟩, rest, same⟩ := scanned
      obtain ⟨rfl, -⟩ := Prod.mk.inj (Option.some.inj same)
      obtain ⟨n, rfl⟩ : ∃ m, n = m + 1 := ⟨n - 1, by omega⟩
      have cut : range' i (nsubxids - i) = range' i (next - i) ++ range' next (nsubxids - next) := by
        have joined := @range'_append_1 i (next - i) (nsubxids - next)
        rw [Nat.add_sub_cancel' first] at joined
        rw [joined]
        congr 1
        omega
      have taken : ((range' i (nsubxids - i)).map subxids).takeWhile (fun xid =>
          transactionIdToPage xid = transactionIdToPage (subxids i)) = (range' i (next - i)).map subxids := by
        rw [cut, map_append, takeWhile_append_of_pos (by grind)]
        cases left : nsubxids - next with
        | zero => simp
        | succ left => simp [range'_succ, ends (by omega)]
      have begins : (range' i (nsubxids - i)).map subxids =
          subxids i :: (range' (i + 1) (nsubxids - i - 1)).map subxids := by
        rw [show nsubxids - i = nsubxids - i - 1 + 1 by omega, range'_succ]
        rfl
      rw [begins] at taken
      rw [begins, setStatusByPages, taken, ← begins, cut, map_append, length_map, length_range',
        drop_left' (by simp), map_cons, ih last (by omega) rest]
    · obtain ⟨rfl, -⟩ := Prod.mk.inj (Option.some.inj scanned)
      rw [show nsubxids - i = 0 by omega]
      cases n <;> rfl

/-- `setStatusByPages` makes the calls of the slices. -/
theorem setStatusBySlices_calls (status : XidStatus)
    (scanned : setStatusBySlices subxids nsubxids = some (slices, reads)) :
    setStatusByPages status nsubxids ((range nsubxids).map subxids) = slices.map fun slice =>
      ⟨InvalidTransactionId, (range' slice.offset slice.num).map subxids, status, slice.pageno⟩ := by
  obtain ⟨⟨slices, reads⟩, found, same⟩ := Option.map_eq_some_iff.mp scanned
  obtain ⟨rfl, -⟩ := Prod.mk.inj same
  simpa [range_eq_range'] using scanPages_calls status (Nat.zero_le _) (Nat.le_add_left ..) found

/-- The slices are the pages of the array, and one element behind it is read. -/
theorem setStatusBySlices_reads (nonempty : 0 < nsubxids)
    (ascending : ∀ j k, j ≤ k → k < nsubxids → subxids j ≤ subxids k) :
    ∃ slices reads, setStatusBySlices subxids nsubxids = some (slices, reads) ∧ Tiles nsubxids 0 slices ∧
      (∀ slice ∈ slices, ∀ j < nsubxids, transactionIdToPage (subxids j) = slice.pageno ↔
        slice.offset ≤ j ∧ j < slice.offset + slice.num) ∧ ∀ size, (∀ i ∈ reads, i < size) ↔ nsubxids < size := by
  obtain ⟨slices, reads, scanned, tiles, pages, elements⟩ := @scanPages_spec subxids nsubxids 0 (nsubxids + 1)
    (fun j k order less => Nat.div_le_div_right (ascending j k order less)) (by omega) (by omega) (by omega)
  refine ⟨slices, 0 :: reads, by rw [setStatusBySlices, scanned]; rfl, tiles, pages, fun size => ?_⟩
  constructor
  · intro inside
    exact inside nsubxids (mem_cons_of_mem _ ((elements nsubxids).mpr ⟨nonempty, Nat.zero_le _, le_rfl⟩))
  · intro larger i mem
    rcases mem_cons.mp mem with rfl | mem
    · omega
    · have := (elements i).mp mem
      omega

theorem setStatusBySlices_reads_twoPages : ∃ slices reads,
    setStatusBySlices (fun i => if i = 0 then 3 else 40000) 3 = some (slices, reads) ∧
      ((∀ i ∈ reads, i < 4) ↔ 3 < 4) := by
  obtain ⟨slices, reads, made, -, -, inside⟩ :=
    @setStatusBySlices_reads (fun i => if i = 0 then 3 else 40000) 3 (by decide) fun j k order _ => by
      split <;> split <;> first | decide | omega
  exact ⟨slices, reads, made, inside 4⟩

theorem setStatusBySlices_behind : setStatusBySlices (fun _ => 3) 1 = some ([⟨0, 1, 0⟩], [0, 0, 1, 1]) := by
  decide

end BlockchainPG.Mvcc
