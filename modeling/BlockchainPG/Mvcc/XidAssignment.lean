import BlockchainPG.Mvcc.ProcArray

/-! What holds of the assigned ids and of `pg_subtrans` in every state. -/

namespace BlockchainPG.Mvcc

open Lib Function
open List hiding next

variable {Proc : Type}

abbrev Records (Proc : Type) := TransactionId → Option (Record Proc)

/-- The ids of the transaction that a backend is in. -/
def Backend.Owns (backend : Backend Proc) (xid : TransactionId) : Prop :=
  backend.main ≠ InvalidTransactionId ∧ xid ∈ backend.main :: backend.children

/-- The id on its way into `pg_subtrans`, with its parent. -/
def Activity.linkTo : Activity Proc → Option (TransactionId × TransactionId)
  | .storing xid (some parent) => some (xid, parent)
  | .counting xid parent => some (xid, parent)
  | .linking xid parent => some (xid, parent)
  | _ => none

theorem Activity.pending_eq (activity : Activity Proc) : activity.pending = activity.linkTo.map Prod.fst := by
  cases activity with
  | storing xid parent => cases parent <;> rfl
  | idle | counting | linking | scanning => rfl

theorem Activity.eq_idle {activity : Activity Proc} (idle : activity.isIdle = true) : activity = .idle := by
  cases activity with
  | idle => rfl
  | storing | counting | linking | scanning => cases idle

namespace Cluster

variable (c : Cluster Proc)

/-- The ids since the start are the recorded ones, and those that are over are completed. -/
structure Numbered (next completed : TransactionId) (record : Records Proc) : Prop where
  nextLive : c.limits.Live next
  completedLive : c.limits.Live completed
  completed_lt : c.limits.pos completed < c.limits.pos next
  start_le : c.limits.pos c.startXid ≤ c.limits.pos next
  old : ∀ xid, transactionIdIsNormal xid = true → c.limits.pos xid < c.limits.pos c.startXid →
    c.limits.pos xid ≤ c.limits.pos completed
  recorded : ∀ xid found, record xid = some found → c.limits.Live xid ∧
    c.limits.pos c.startXid ≤ c.limits.pos xid ∧ c.limits.pos xid < c.limits.pos next
  assigned : ∀ xid, transactionIdIsNormal xid = true → c.limits.pos c.startXid ≤ c.limits.pos xid →
    c.limits.pos xid < c.limits.pos next → ∃ found, record xid = some found
  isOver : ∀ xid found, record xid = some found → found.isOver = true →
    c.limits.pos xid ≤ c.limits.pos completed

/-- The running ids of a backend are the ones it knows of. -/
structure Accounts (record : Records Proc) (proc : Proc) (backend : Backend Proc) (inVacuum : Bool) : Prop where
  owned : ∀ xid, backend.Owns xid → ∃ found, record xid = some found ∧ found.owner = proc ∧
    found.isOver = false ∧ found.top = backend.main ∧ found.lazyVacuum = inVacuum
  running : ∀ xid found, record xid = some found → found.owner = proc → found.isOver = false → backend.Owns xid
  parented : backend.main = InvalidTransactionId → backend.children = []
  later : ∀ child ∈ backend.children, c.limits.pos backend.main < c.limits.pos child

/-- A `PGPROC` shows the ids of its backend, except the one that is being stored. -/
structure Shows (backend : Backend Proc) (shown : PGPROC) : Prop where
  stored : shown.xid = backend.main ∨
    (backend.activity.unstored = some backend.main ∧ shown.xid = InvalidTransactionId)
  cached : ∀ i < shown.subxids.nxids, shown.subxids.xids i ∈ backend.children
  kept : ∀ child ∈ backend.children, shown.subxids.overflowed = true ∨
    (∃ i < shown.subxids.nxids, shown.subxids.xids i = child) ∨ backend.activity.unstored = some child
  counting : ∀ xid parent, backend.activity = .counting xid parent → shown.subxids.xids shown.subxids.nxids = xid

/-- An id that is not stored yet is the latest one, and a subtransaction follows its parent. -/
structure Assigning (lock : Option Proc) (completed : TransactionId) (record : Records Proc) (proc : Proc)
    (backend : Backend Proc) : Prop where
  locked : ∀ xid, backend.activity.unstored = some xid → lock = some proc ∧ backend.Owns xid ∧
    c.limits.pos completed < c.limits.pos xid ∧
      ∀ other found, record other = some found → c.limits.pos other ≤ c.limits.pos xid
  top : ∀ xid, backend.activity = .storing xid none → xid = backend.main
  link : ∀ xid parent, backend.activity.linkTo = some (xid, parent) → xid ∈ backend.children ∧
    backend.Owns parent ∧ c.limits.pos parent < c.limits.pos xid

variable {c}

theorem Start.numbered (start : c.Start s) :
    c.Numbered s.nextXid s.latestCompletedXid s.record := by
  have advance := Limits.pos_advance start.completed
  constructor <;> grind [advance, completed, next, startLive, Limits.pos_lt_advance_iff, noRecord]

theorem Numbered.fresh (numbered : c.Numbered next completed record) : record next = none := by
  by_contra taken
  obtain ⟨found, recorded⟩ := Option.ne_none_iff_exists'.mp taken
  have := (numbered.recorded next found recorded).2.2
  omega

theorem Numbered.assign (numbered : c.Numbered next completed record)
    (accepted : c.limits.refuses next = false) (running : new.isOver = false) :
    c.Numbered (transactionIdAdvance next) completed (update record next (some new)) := by
  have advance := Limits.pos_advance numbered.nextLive
  have before := numbered.completed_lt
  have start := numbered.start_le
  refine ⟨Limits.live_advance numbered.nextLive accepted, numbered.completedLive, by omega, by omega, numbered.old, ?_,
    ?_, ?_⟩
  · grind [recorded, nextLive]
  · intro xid normal after under
    rw [Limits.pos_lt_advance_iff numbered.nextLive normal] at under
    rw [update_apply]
    split
    · exact ⟨new, rfl⟩
    · next other =>
      have ne : c.limits.pos xid ≠ c.limits.pos next := fun same => other (Limits.pos_inj same)
      exact numbered.assigned xid normal after (by omega)
  · intro xid found recorded isOver
    rw [update_apply] at recorded
    split at recorded
    · cases recorded
      exact (nomatch running.symm.trans isOver)
    · exact numbered.isOver xid found recorded isOver

end Cluster

theorem transactionIdLatest_spec {limits : Limits} (mainLive : limits.Live main)
    (live : ∀ child ∈ children, limits.Live child) : transactionIdLatest main children ∈ main :: children ∧
      ∀ xid ∈ main :: children, limits.pos xid ≤ limits.pos (transactionIdLatest main children) := by
  induction children with
  | nil => simp [transactionIdLatest]
  | cons child rest ih =>
    obtain ⟨mem, upper⟩ := ih fun xid listed => live xid (mem_cons_of_mem child listed)
    have childLive := live child mem_cons_self
    have restLive : limits.Live (transactionIdLatest main rest) := by
      grind
    have unfolded : transactionIdLatest main (child :: rest) =
        if transactionIdPrecedes (transactionIdLatest main rest) child then child
        else transactionIdLatest main rest := rfl
    have before := Limits.precedes_iff restLive childLive
    grind

theorem forall_update_update [DecidableEq Proc] (holds : Proc → β → γ → Prop) (own : holds proc new shown)
    (others : ∀ other ≠ proc, holds other (first other) (second other)) :
    ∀ other, holds other (update first proc new other) (update second proc shown other) := by
  grind

/-- The history after the end of a backend's transaction. -/
def closeRecords [DecidableEq Proc] (record : Records Proc) (proc : Proc) : Records Proc :=
  fun xid => (record xid).map fun found => if found.owner = proc then { found with isOver := true } else found

theorem closeRecords_some [DecidableEq Proc] {record : Records Proc}
    (closed : closeRecords record proc xid = some found') :
    ∃ found, record xid = some found ∧ found'.owner = found.owner ∧ found'.top = found.top ∧
      found'.lazyVacuum = found.lazyVacuum ∧ found'.isOver = (found.isOver || decide (found.owner = proc)) := by
  grind [closeRecords, Option.map_eq_some_iff]

theorem closeRecords_of_some [DecidableEq Proc] {record : Records Proc} (recorded : record xid = some found) :
    ∃ found', closeRecords record proc xid = some found' ∧ found'.owner = found.owner ∧ found'.top = found.top ∧
      found'.lazyVacuum = found.lazyVacuum ∧ found'.isOver = (found.isOver || decide (found.owner = proc)) := by
  grind [closeRecords]

namespace Cluster

variable {c : Cluster Proc}

theorem Accounts.live (numbered : c.Numbered next completed record)
    (accounts : c.Accounts record proc backend inVacuum) (owns : backend.Owns xid) :
    c.limits.Live xid ∧ c.limits.pos xid < c.limits.pos next := by
  obtain ⟨found, recorded, -⟩ := accounts.owned xid owns
  grind [Numbered.recorded]

theorem Accounts.latest_spec (numbered : c.Numbered next completed record)
    (accounts : c.Accounts record proc backend inVacuum) (valid : backend.main ≠ InvalidTransactionId) :
    backend.Owns (transactionIdLatest backend.main backend.children) ∧ ∀ xid, backend.Owns xid →
        c.limits.pos xid ≤ c.limits.pos (transactionIdLatest backend.main backend.children) := by
  obtain ⟨mem, upper⟩ := transactionIdLatest_spec
    (accounts.live numbered ⟨valid, mem_cons_self⟩).1
    (fun child listed => (accounts.live numbered ⟨valid, mem_cons_of_mem _ listed⟩).1)
  exact ⟨⟨valid, mem⟩, fun xid owns => upper xid owns.2⟩

theorem pos_completed (numbered : c.Numbered next completed record) (live : c.limits.Live latest) :
    c.limits.Live (if transactionIdPrecedes completed latest then latest else completed) ∧
      c.limits.pos (if transactionIdPrecedes completed latest then latest else completed) =
        max (c.limits.pos completed) (c.limits.pos latest) := by
  grind [Limits.precedes_iff, Numbered.completedLive]

theorem Accounts.assign_other (numbered : c.Numbered next completed record)
    (accounts : c.Accounts record proc backend inVacuum) (other : new.owner ≠ proc) :
    c.Accounts (update record next (some new)) proc backend inVacuum := by
  refine ⟨fun xid owns => ?_, fun xid found recorded own running => ?_, accounts.parented, accounts.later⟩
  · obtain ⟨found, recorded, rest⟩ := accounts.owned xid owns
    refine ⟨found, ?_, rest⟩
    rwa [update_of_ne]
    rintro rfl
    exact (nomatch numbered.fresh.symm.trans recorded)
  · grind [running]

theorem Accounts.assign_own (accounts : c.Accounts record proc backend inVacuum)
    (grows : ∀ xid, grown.Owns xid ↔ backend.Owns xid ∨ xid = next)
    (new_eq : new.owner = proc ∧ new.isOver = false ∧ new.top = grown.main ∧ new.lazyVacuum = inVacuum)
    (main : ∀ xid, backend.Owns xid → grown.main = backend.main)
    (parented : grown.main = InvalidTransactionId → grown.children = [])
    (later : ∀ child ∈ grown.children, c.limits.pos grown.main < c.limits.pos child) :
    c.Accounts (update record next (some new)) proc grown inVacuum := by
  obtain ⟨ownerEq, overEq, topEq, lazyEq⟩ := new_eq
  refine ⟨fun xid owns => ?_, fun xid found recorded own running => ?_, parented, later⟩
  · rcases (grows xid).mp owns with before | same
    · obtain ⟨found, recorded, owner, isOver, top, lazyVacuum⟩ := accounts.owned xid before
      grind
    · grind
  · grind [running]

theorem Assigning.assign_other (assigning : c.Assigning none completed record proc backend) :
    c.Assigning lock completed record' proc backend :=
  ⟨fun xid unstored => (nomatch (assigning.locked xid unstored).1), assigning.top, assigning.link⟩

variable [DecidableEq Proc]

theorem Numbered.close (numbered : c.Numbered next completed record)
    (accounts : c.Accounts record proc backend inVacuum) (valid : backend.main ≠ InvalidTransactionId) :
    c.Numbered next (if transactionIdPrecedes completed (transactionIdLatest backend.main backend.children) then
        transactionIdLatest backend.main backend.children else completed) (closeRecords record proc) := by
  obtain ⟨owns, upper⟩ := accounts.latest_spec numbered valid
  obtain ⟨latestLive, latestUnder⟩ := accounts.live numbered owns
  obtain ⟨live, pos⟩ := pos_completed numbered latestLive
  have before := numbered.completed_lt
  refine ⟨numbered.nextLive, live, by omega, numbered.start_le, fun xid normal old => ?_, ?_, ?_, ?_⟩
  · have := numbered.old xid normal old
    omega
  · intro xid found closed
    obtain ⟨original, recorded, -⟩ := closeRecords_some closed
    exact numbered.recorded xid original recorded
  · intro xid normal after under
    obtain ⟨original, recorded⟩ := numbered.assigned xid normal after under
    obtain ⟨found, closed, -⟩ := closeRecords_of_some recorded
    exact ⟨found, closed⟩
  · intro xid found closed isOver
    obtain ⟨original, recorded, -, -, -, overEq⟩ := closeRecords_some closed
    rw [isOver] at overEq
    cases wasOver : original.isOver with
    | true =>
      have := numbered.isOver xid original recorded wasOver
      omega
    | false =>
      grind [Accounts.running]

theorem Accounts.close_other (accounts : c.Accounts record proc backend inVacuum) (other : proc ≠ ending) :
    c.Accounts (closeRecords record ending) proc backend inVacuum := by
  refine ⟨fun xid owns => ?_, fun xid found closed own running => ?_, accounts.parented, accounts.later⟩
  · obtain ⟨found, recorded, owner, isOver, top, lazyVacuum⟩ := accounts.owned xid owns
    obtain ⟨found', closed, owner', top', lazyVacuum', isOver'⟩ := closeRecords_of_some recorded
    refine ⟨found', closed, owner'.trans owner, ?_, top'.trans top, lazyVacuum'.trans lazyVacuum⟩
    rw [isOver', isOver, owner]
    simp [other]
  · obtain ⟨original, recorded, owner, -, -, isOver⟩ := closeRecords_some closed
    grind [running]

theorem Accounts.close_own (none : backend.main = InvalidTransactionId) (empty : backend.children = []) :
    c.Accounts (closeRecords record proc) proc backend inVacuum := by
  refine ⟨fun xid owns => absurd none owns.1, fun xid found closed own running => ?_, fun _ => empty, ?_⟩
  · obtain ⟨original, -, owner, -, -, isOver⟩ := closeRecords_some closed
    rw [running, ← owner, own] at isOver
    simp at isOver
  · simp [empty]

theorem Assigning.close_other (numbered : c.Numbered next completed record)
    (assigning : c.Assigning lock completed record proc backend)
    (accounts : c.Accounts record proc backend inVacuum)
    (ending : c.Accounts record other endingBackend endingVacuum)
    (valid : endingBackend.main ≠ InvalidTransactionId) (ne : proc ≠ other) : c.Assigning lock
      (if transactionIdPrecedes completed (transactionIdLatest endingBackend.main endingBackend.children) then
        transactionIdLatest endingBackend.main endingBackend.children else completed)
      (closeRecords record other) proc backend := by
  refine ⟨fun xid unstored => ?_, assigning.top, assigning.link⟩
  obtain ⟨lock, owns, completed_lt, latest⟩ := assigning.locked xid unstored
  obtain ⟨endingOwns, -⟩ := ending.latest_spec numbered valid
  obtain ⟨latestLive, -⟩ := ending.live numbered endingOwns
  obtain ⟨-, pos⟩ := pos_completed numbered latestLive
  obtain ⟨found, recorded, owner, -⟩ := ending.owned _ endingOwns
  obtain ⟨mine, mineRecorded, mineOwner, -⟩ := accounts.owned xid owns
  have upper := latest _ found recorded
  have apart : c.limits.pos (transactionIdLatest endingBackend.main endingBackend.children) ≠
      c.limits.pos xid := by
    grind [Limits.pos_inj]
  refine ⟨lock, owns, by omega, fun y found closed => ?_⟩
  obtain ⟨original, recorded, -⟩ := closeRecords_some closed
  exact latest y original recorded

/-- `pg_subtrans` leads upwards within a transaction, from every id but the ones that are being linked. -/
structure Linked (c : Cluster Proc) (parent : TransactionId → TransactionId) (record : Records Proc)
    (pending : TransactionId → Prop) : Prop where
  rises : ∀ xid, parent xid ≠ InvalidTransactionId → c.limits.pos (parent xid) < c.limits.pos xid
  kin : ∀ xid found, record xid = some found → ∃ topmost, record found.top = some topmost ∧
    topmost.top = found.top ∧ topmost.owner = found.owner ∧ topmost.isOver = found.isOver ∧
      c.limits.pos found.top ≤ c.limits.pos xid
  linked : ∀ xid found, record xid = some found → ¬pending xid →
    (xid = found.top ∧ parent xid = InvalidTransactionId) ∨
      ∃ above, record (parent xid) = some above ∧ above.top = found.top ∧ ¬pending (parent xid)

omit [DecidableEq Proc] in
theorem Linked.assign (linked : c.Linked parent record pending)
    (numbered : c.Numbered next completed record) (known : ∀ xid ≠ next, (pending' xid ↔ pending xid))
    (top : (new.top = next) ∨ (pending' next ∧ ∃ topmost, record new.top = some topmost ∧
      topmost.top = new.top ∧ topmost.owner = new.owner ∧ topmost.isOver = new.isOver)) :
    c.Linked (update parent next InvalidTransactionId) (update record next (some new)) pending' := by
  have old (xid : TransactionId) (found : Record Proc) (recorded : record xid = some found) : xid ≠ next := by
    rintro rfl
    exact (nomatch numbered.fresh.symm.trans recorded)
  have keep (xid : TransactionId) (found : Record Proc) (recorded : record xid = some found) :
      update record next (some new) xid = some found := by
    rwa [update_of_ne (old xid found recorded)]
  refine ⟨fun xid valid => ?_, fun xid found recorded => ?_, fun xid found recorded settled => ?_⟩
  · grind [rises]
  · rw [update_apply] at recorded
    split at recorded
    · next same =>
      cases recorded
      rcases top with own | ⟨-, topmost, above, topEq, owner, isOver⟩
      · grind
      · refine ⟨topmost, keep _ _ above, topEq, owner, isOver, ?_⟩
        rw [same]
        exact (numbered.recorded _ _ above).2.2.le
    · obtain ⟨topmost, above, rest⟩ := linked.kin xid found recorded
      exact ⟨topmost, keep _ _ above, rest⟩
  · rw [update_apply] at recorded
    split at recorded
    · grind
    · next other =>
      rw [update_of_ne other]
      rcases linked.linked xid found recorded (fun waits => settled ((known xid other).mpr waits)) with
        topmost | ⟨above, aboveRecorded, topEq, aboveSettled⟩
      · exact Or.inl topmost
      · grind

theorem Linked.close (linked : c.Linked parent record pending) :
    c.Linked parent (closeRecords record proc) pending := by
  refine ⟨linked.rises, fun xid found closed => ?_, fun xid found closed settled => ?_⟩
  · obtain ⟨original, recorded, owner, top, -, isOver⟩ := closeRecords_some closed
    obtain ⟨topmost, above, topEq, ownerEq, overEq, upper⟩ := linked.kin xid original recorded
    obtain ⟨topmost', closed', owner', top', -, isOver'⟩ := closeRecords_of_some above
    rw [top]
    refine ⟨topmost', closed', top'.trans topEq, ?_, ?_, upper⟩
    · rw [owner', owner, ownerEq]
    · rw [isOver', isOver, overEq, ownerEq]
  · obtain ⟨original, recorded, -, top, -⟩ := closeRecords_some closed
    rw [top]
    rcases linked.linked xid original recorded settled with topmost | ⟨above, aboveRecorded, topEq, aboveSettled⟩
    · exact Or.inl topmost
    · obtain ⟨above', closed', -, top', -⟩ := closeRecords_of_some aboveRecorded
      exact Or.inr ⟨above', closed', top'.trans topEq, aboveSettled⟩

omit [DecidableEq Proc] in
theorem Linked.link {above : _} (linked : c.Linked parent record pending) (recorded : record xid = some found)
    (aboveRecorded : record up = some above) (sameTop : above.top = found.top)
    (later : c.limits.pos up < c.limits.pos xid)
    (settles : ∀ other, pending' other ↔ pending other ∧ other ≠ xid) (upSettled : ¬pending' up) :
    c.Linked (update parent xid up) record pending' := by
  refine ⟨fun other valid => ?_, linked.kin, fun other otherFound otherRecorded settled => ?_⟩
  · rw [update_apply] at valid ⊢
    split at valid
    · next same =>
      rw [if_pos same, same]
      exact later
    · next ne =>
      rw [if_neg ne]
      exact linked.rises other valid
  · by_cases same : other = xid
    · subst same
      rw [update_self]
      rw [recorded] at otherRecorded
      cases otherRecorded
      exact Or.inr ⟨above, aboveRecorded, sameTop, upSettled⟩
    · rw [update_of_ne same]
      have before : ¬pending other := fun waits => settled ((settles other).mpr ⟨waits, same⟩)
      rcases linked.linked other otherFound otherRecorded before with topmost | ⟨next, nextRecorded, topEq, nextSettled⟩
      · exact Or.inl topmost
      · exact Or.inr ⟨next, nextRecorded, topEq, fun waits => nextSettled ((settles _).mp waits).1⟩

/-- Everything that holds of the assigned ids. -/
structure Orderly (c : Cluster Proc) (s : State Proc) : Prop where
  numbered : c.Numbered s.nextXid s.latestCompletedXid s.record
  accounts : ∀ proc, c.Accounts s.record proc (s.backends proc) (s.procs proc).inVacuum
  shows : ∀ proc, Shows (s.backends proc) (s.procs proc)
  assigning : ∀ proc, c.Assigning s.xidGenLock s.latestCompletedXid s.record proc
    (s.backends proc)
  linked : c.Linked s.pgSubtrans s.record (Pending s)

omit [DecidableEq Proc] in
theorem Start.orderly (start : c.Start s) : c.Orderly s where
  numbered := start.numbered
  accounts proc := by
    refine ⟨fun xid owns => absurd (start.noMain proc) owns.1, fun xid found recorded => ?_,
      fun _ => start.noChildren proc, ?_⟩
    · exact (nomatch (start.noRecord xid).symm.trans recorded)
    · simp [start.noChildren proc]
  shows proc := by
    constructor <;> grind [noXid, noMain, noCache, noChildren, idle]
  assigning proc := by
    constructor <;> grind [idle, Activity.unstored, Activity.linkTo]
  linked := by
    refine ⟨start.rises, fun xid found recorded => ?_, fun xid found recorded => ?_⟩
    · exact (nomatch (start.noRecord xid).symm.trans recorded)
    · exact (nomatch (start.noRecord xid).symm.trans recorded)

/-- A step in which a backend changes what it shows and what it is doing, but not its transaction. -/
theorem Orderly.edit (orderly : c.Orderly s)
    (sameXids : new.main = (s.backends proc).main ∧ new.children = (s.backends proc).children)
    (sameVacuum : shown.inVacuum = (s.procs proc).inVacuum) (shows : Shows new shown)
    (assigning : c.Assigning lock s.latestCompletedXid s.record proc new)
    (unlocks : lock = s.xidGenLock ∨ s.xidGenLock = some proc) (linked : c.Linked parent s.record
      (Pending { s with backends := update s.backends proc new })) :
    c.Orderly { s with
      xidGenLock := lock
      pgSubtrans := parent
      procs := update s.procs proc shown
      backends := update s.backends proc new } where
  numbered := orderly.numbered
  accounts := by
    refine forall_update_update (fun other backend (shown : PGPROC) =>
      c.Accounts s.record other backend shown.inVacuum) ?_ fun other _ => orderly.accounts other
    have before := orderly.accounts proc
    rw [sameVacuum]
    have owns (xid : TransactionId) : new.Owns xid ↔ (s.backends proc).Owns xid := by
      unfold Backend.Owns
      rw [sameXids.1, sameXids.2]
    refine ⟨fun xid mine => ?_, fun xid found recorded own running => ?_, ?_, ?_⟩
    · rw [sameXids.1]
      exact before.owned xid ((owns xid).mp mine)
    · grind [Accounts.running]
    · rw [sameXids.1, sameXids.2]
      exact before.parented
    · rw [sameXids.1, sameXids.2]
      exact before.later
  shows := forall_update_update (fun _ => Shows) shows fun other _ => orderly.shows other
  assigning := by
    refine fun other => ?_
    by_cases same : other = proc
    · grind
    · simp only [update_of_ne same]
      have before := orderly.assigning other
      refine ⟨fun xid unstored => ?_, before.top, before.link⟩
      obtain ⟨locked, rest⟩ := before.locked xid unstored
      grind
  linked := linked

theorem pending_update {s : State Proc} (same : new.activity.pending = (s.backends proc).activity.pending) :
    Pending { s with backends := update s.backends proc new } = Pending s := by
  funext xid
  refine propext (exists_congr fun other => ?_)
  grind

theorem pending_update_none {s : State Proc} (none : new.activity.pending = none) :
    Pending { s with backends := update s.backends proc new } xid ↔
      ∃ other, other ≠ proc ∧ (s.backends other).activity.pending = some xid := by
  refine exists_congr fun other => ?_
  grind

theorem Orderly.quiet (orderly : c.Orderly s)
    (sameXids : new.main = (s.backends proc).main ∧ new.children = (s.backends proc).children)
    (sameShown : shown.inVacuum = (s.procs proc).inVacuum ∧ shown.xid = (s.procs proc).xid ∧
      shown.subxids = (s.procs proc).subxids)
    (before : (s.backends proc).activity.unstored = none ∧ (s.backends proc).activity.linkTo = none)
    (after : new.activity.unstored = none ∧ new.activity.linkTo = none) : c.Orderly { s with
      procs := update s.procs proc shown
      backends := update s.backends proc new } := by
  have shows := orderly.shows proc
  have noPending : new.activity.pending = (s.backends proc).activity.pending := by
    rw [Activity.pending_eq, Activity.pending_eq, before.2, after.2]
  refine orderly.edit sameXids sameShown.1 ?_ ?_ (Or.inl rfl) ?_
  · refine ⟨Or.inl ?_, ?_, fun child mem => ?_, fun xid parent counting => ?_⟩
    · grind [Shows.stored]
    · rw [sameShown.2.2, sameXids.2]
      exact shows.cached
    · grind [Shows.kept]
    · rw [counting] at after
      cases after.1
  · refine ⟨fun xid unstored => ?_, fun xid storing => ?_, fun xid parent link => ?_⟩
    · cases after.1.symm.trans unstored
    · rw [storing] at after
      cases after.1
    · cases after.2.symm.trans link
  · rw [pending_update noPending]
    exact orderly.linked

theorem Orderly.store (orderly : c.Orderly s)
    (storing : (s.backends proc).activity = .storing xid parent) :
    c.Orderly (store s proc xid parent) := by
  have shows := orderly.shows proc
  have accounts := orderly.accounts proc
  have assigning := orderly.assigning proc
  obtain ⟨lock, owns, -, latest⟩ := assigning.locked xid (by rw [storing]; rfl)
  cases parent with
  | none =>
    have isMain := assigning.top xid storing
    refine orderly.edit ⟨rfl, rfl⟩ rfl ?_ ?_ (Or.inr lock) ?_
    · refine ⟨Or.inl isMain, shows.cached, fun child mem => ?_, by rintro _ _ ⟨⟩⟩
      rcases shows.kept child mem with overflowed | found | unstored
      · exact Or.inl overflowed
      · exact Or.inr (Or.inl found)
      · have later := accounts.later child mem
        rw [storing] at unstored
        cases unstored
        rw [isMain] at later
        omega
    · exact ⟨by rintro _ ⟨⟩, by rintro _ ⟨⟩, by rintro _ _ ⟨⟩⟩
    · rw [pending_update (by rw [storing]; rfl)]
      exact orderly.linked
  | some parent =>
    obtain ⟨child, up, later⟩ := assigning.link xid parent (by rw [storing]; rfl)
    have mainStored : (s.procs proc).xid = (s.backends proc).main := by
      rcases shows.stored with stored | ⟨unstored, -⟩
      · exact stored
      · have := accounts.later xid child
        rw [storing] at unstored
        cases unstored
        omega
    unfold Cluster.store
    simp only
    split
    · refine orderly.edit ⟨rfl, rfl⟩ rfl ?_ ?_ (Or.inl rfl) ?_
      · refine ⟨Or.inl mainStored, fun i inside => ?_, fun other mem => ?_, fun _ _ counting => ?_⟩
        · grind [Shows.cached]
        · rcases shows.kept other mem with overflowed | ⟨i, inside, found⟩ | unstored
          · exact Or.inl overflowed
          · refine Or.inr (Or.inl ⟨i, inside, ?_⟩)
            grind
          · rw [storing] at unstored
            exact Or.inr (Or.inr unstored)
        · cases counting
          exact update_self ..
      · refine ⟨fun other unstored => ?_, by rintro _ ⟨⟩, fun _ _ link => ?_⟩
        · exact assigning.locked other (by rw [storing]; exact unstored)
        · cases link
          exact ⟨child, up, later⟩
      · rw [pending_update (by rw [storing]; rfl)]
        exact orderly.linked
    · refine orderly.edit ⟨rfl, rfl⟩ rfl ?_ ?_ (Or.inr lock) ?_
      · constructor <;> grind [Shows.cached]
      · refine ⟨by rintro _ ⟨⟩, by rintro _ ⟨⟩, fun _ _ link => ?_⟩
        cases link
        exact ⟨child, up, later⟩
      · rw [pending_update (by rw [storing]; rfl)]
        exact orderly.linked

theorem Orderly.count (orderly : c.Orderly s)
    (counting : (s.backends proc).activity = .counting xid parent) :
    c.Orderly (count s proc xid parent) := by
  have shows := orderly.shows proc
  have assigning := orderly.assigning proc
  obtain ⟨lock, owns, -, latest⟩ := assigning.locked xid (by rw [counting]; rfl)
  obtain ⟨child, up, later⟩ := assigning.link xid parent (by rw [counting]; rfl)
  have entry := shows.counting xid parent counting
  refine orderly.edit ⟨rfl, rfl⟩ rfl ?_ ?_ (Or.inr lock) ?_
  · refine ⟨Or.inl ?_, fun i inside => ?_, fun other mem => ?_, nofun⟩
    · rcases shows.stored with stored | ⟨unstored, -⟩
      · exact stored
      · have := (orderly.accounts proc).later xid child
        rw [counting] at unstored
        cases unstored
        omega
    · grind [Shows.cached]
    · rcases shows.kept other mem with overflowed | ⟨i, inside, found⟩ | unstored
      · exact Or.inl overflowed
      · grind
      · rw [counting] at unstored
        cases unstored
        exact Or.inr (Or.inl ⟨_, Nat.lt_succ_self _, entry⟩)
  · refine ⟨nofun, nofun, fun _ _ link => ?_⟩
    cases link
    exact ⟨child, up, later⟩
  · rw [pending_update (by rw [counting]; rfl)]
    exact orderly.linked

omit [DecidableEq Proc] in
theorem Orderly.pending_owner (orderly : c.Orderly s)
    (pending : (s.backends proc).activity.pending = some xid) : (s.backends proc).Owns xid := by
  rw [Activity.pending_eq] at pending
  obtain ⟨⟨_, parent⟩, link, rfl⟩ := Option.map_eq_some_iff.mp pending
  obtain ⟨child, up, -⟩ := (orderly.assigning proc).link _ _ link
  exact ⟨up.1, mem_cons_of_mem _ child⟩

omit [DecidableEq Proc] in
theorem Orderly.owner_unique (orderly : c.Orderly s) (first : (s.backends proc).Owns xid)
    (second : (s.backends other).Owns xid) : proc = other := by
  obtain ⟨found, recorded, owner, -⟩ := (orderly.accounts proc).owned xid first
  obtain ⟨found', recorded', owner', -⟩ := (orderly.accounts other).owned xid second
  grind

theorem Orderly.link (orderly : c.Orderly s)
    (linking : (s.backends proc).activity = .linking xid parent) :
    c.Orderly (link s proc xid parent) := by
  have shows := orderly.shows proc
  have accounts := orderly.accounts proc
  obtain ⟨child, up, later⟩ := (orderly.assigning proc).link xid parent (by rw [linking]; rfl)
  have owns : (s.backends proc).Owns xid := ⟨up.1, mem_cons_of_mem _ child⟩
  obtain ⟨found, recorded, -, -, top, -⟩ := accounts.owned xid owns
  obtain ⟨above, aboveRecorded, -, -, aboveTop, -⟩ := accounts.owned parent up
  have same : update s.procs proc (s.procs proc) = s.procs := update_eq_self ..
  have step : c.Orderly { s with
      xidGenLock := s.xidGenLock
      pgSubtrans := update s.pgSubtrans xid parent
      procs := update s.procs proc (s.procs proc)
      backends := update s.backends proc { s.backends proc with activity := .idle } } := by
    refine orderly.edit ⟨rfl, rfl⟩ rfl ?_ ?_ (Or.inl rfl) ?_
    · refine ⟨?_, shows.cached, fun other mem => ?_, nofun⟩
      · rcases shows.stored with stored | ⟨unstored, -⟩
        · exact Or.inl stored
        · rw [linking] at unstored
          cases unstored
      · rcases shows.kept other mem with overflowed | found | unstored
        · exact Or.inl overflowed
        · exact Or.inr (Or.inl found)
        · rw [linking] at unstored
          cases unstored
    · exact ⟨nofun, nofun, nofun⟩
    · refine orderly.linked.link recorded aboveRecorded (aboveTop.trans top.symm) later (fun other => ?_) ?_
      · rw [pending_update_none rfl]
        constructor
        · rintro ⟨linker, ne, pending⟩
          refine ⟨⟨linker, pending⟩, ?_⟩
          grind [owner_unique, pending_owner]
        · rintro ⟨⟨linker, pending⟩, ne⟩
          refine ⟨linker, ?_, pending⟩
          rintro rfl
          rw [linking] at pending
          exact ne (Option.some.inj pending).symm
      · rw [pending_update_none rfl]
        grind [owner_unique, pending_owner]
  rw [same] at step
  exact step

theorem Orderly.grow (orderly : c.Orderly s) (idle : (s.backends proc).activity = .idle)
    (free : s.xidGenLock = none) (accepted : c.limits.refuses s.nextXid = false)
    (grows : ∀ xid, grown.Owns xid ↔ (s.backends proc).Owns xid ∨ xid = s.nextXid)
    (main : ∀ xid, (s.backends proc).Owns xid → grown.main = (s.backends proc).main)
    (parented : grown.main = InvalidTransactionId → grown.children = [])
    (later : ∀ child ∈ grown.children, c.limits.pos grown.main < c.limits.pos child)
    (storing : grown.activity = .storing s.nextXid parent) (shows : Shows grown (s.procs proc))
    (isMain : parent = none → s.nextXid = grown.main)
    (isChild : ∀ up, parent = some up → s.nextXid ∈ grown.children ∧ (s.backends proc).Owns up) :
    c.Orderly { s with
      nextXid := transactionIdAdvance s.nextXid
      xidGenLock := some proc
      pgSubtrans := update s.pgSubtrans s.nextXid InvalidTransactionId
      backends := update s.backends proc grown
      record := update s.record s.nextXid (some {
        owner := proc
        top := grown.main
        lazyVacuum := (s.procs proc).inVacuum
        isOver := false }) } := by
  have numbered := orderly.numbered
  have accounts := orderly.accounts proc
  have owns : grown.Owns s.nextXid := (grows _).mpr (Or.inr rfl)
  refine ⟨numbered.assign accepted rfl, fun other => ?_, fun other => ?_, fun other => ?_, ?_⟩
  · by_cases same : other = proc
    · grind [Accounts.assign_own]
    · simp only [update_of_ne same]
      exact (orderly.accounts other).assign_other numbered (Ne.symm same)
  · grind [shows]
  · by_cases same : other = proc
    · subst same
      simp only [update_self]
      refine ⟨fun xid unstored => ?_, fun xid top => ?_, fun xid up link => ?_⟩
      · rw [storing] at unstored
        cases unstored
        refine ⟨rfl, owns, numbered.completed_lt, fun xid found recorded => ?_⟩
        have := ((numbered.assign accepted rfl).recorded xid found recorded).2.2
        have := (Limits.pos_lt_advance_iff numbered.nextLive
          ((numbered.assign accepted rfl).recorded xid found recorded).1.normal).mp this
        exact this
      · grind
      · rw [storing] at link
        cases parent with
        | none => cases link
        | some parent =>
          cases link
          obtain ⟨child, ownsUp⟩ := isChild up rfl
          exact ⟨child, (grows up).mpr (Or.inl ownsUp), (accounts.live numbered ownsUp).2⟩
    · simp only [update_of_ne same]
      have before := orderly.assigning other
      rw [free] at before
      exact before.assign_other
  · refine orderly.linked.assign numbered (fun xid ne => exists_congr fun holder => ?_) ?_
    · by_cases own : holder = proc
      · subst own
        simp only [update_self, storing, idle]
        cases parent with
        | none => rfl
        | some parent => simpa [Activity.pending] using fun same => ne same.symm
      · simp only [update_of_ne own]
    · cases parent with
      | none => exact Or.inl (isMain rfl).symm
      | some up =>
        obtain ⟨-, ownsUp⟩ := isChild up rfl
        have ownsMain : (s.backends proc).Owns (s.backends proc).main := ⟨ownsUp.1, mem_cons_self⟩
        obtain ⟨found, recorded, owner, isOver, top, -⟩ := accounts.owned _ ownsMain
        refine Or.inr ⟨⟨proc, ?_⟩, found, ?_, ?_, owner, isOver⟩
        · simp [storing, Activity.pending]
        · rw [main up ownsUp]
          exact recorded
        · rw [main up ownsUp]
          exact top

theorem Orderly.assign (orderly : c.Orderly s)
    (allowed : c.Allowed s (.assign proc parent)) : c.Orderly (c.assign s proc parent) := by
  obtain ⟨idle, free, fits⟩ := allowed
  have idle := Activity.eq_idle idle
  unfold Cluster.assign
  simp only
  split
  · exact orderly
  next accepted =>
  have accepted : c.limits.refuses s.nextXid = false := Bool.eq_false_iff.mpr accepted
  have nextValid := ne_invalid_of_normal orderly.numbered.nextLive.normal
  have accounts := orderly.accounts proc
  have shows := orderly.shows proc
  have storedMain : (s.procs proc).xid = (s.backends proc).main := by
    rcases shows.stored with stored | ⟨unstored, -⟩
    · exact stored
    · rw [idle] at unstored
      cases unstored
  have kept (child : TransactionId) (mem : child ∈ (s.backends proc).children) :
      (s.procs proc).subxids.overflowed = true ∨
        ∃ i < (s.procs proc).subxids.nxids, (s.procs proc).subxids.xids i = child := by
    rcases shows.kept child mem with overflowed | found | unstored
    · exact Or.inl overflowed
    · exact Or.inr found
    · rw [idle] at unstored
      cases unstored
  cases parent with
  | none =>
    have noMain : (s.backends proc).main = InvalidTransactionId := fits
    have noChildren := accounts.parented noMain
    have none (xid : TransactionId) (owns : (s.backends proc).Owns xid) : False := owns.1 noMain
    simp only [Option.isSome_none, Bool.false_eq_true, if_false]
    refine orderly.grow idle free accepted (fun xid => ?_) (fun xid owns => (none xid owns).elim)
      (fun invalid => absurd invalid nextValid) ?_ rfl ?_ (fun _ => rfl) (nofun)
    · simp [Backend.Owns, noMain, noChildren, nextValid]
    · simp [noChildren]
    · refine ⟨Or.inr ⟨rfl, storedMain.trans noMain⟩, shows.cached, fun child mem => ?_, nofun⟩
      exact (kept child mem).imp_right Or.inl
  | some up =>
    obtain ⟨valid, ownsUp⟩ : (s.backends proc).Owns up := fits
    simp only [Option.isSome_some, if_true]
    refine orderly.grow idle free accepted (fun xid => ?_) (fun _ _ => rfl) (fun invalid => absurd invalid valid)
      (fun child mem => ?_) rfl ?_ (nofun) (fun _ same => ?_)
    · simp [Backend.Owns, valid, or_assoc]
    · rcases mem_append.mp mem with before | last
      · exact accounts.later child before
      · rw [mem_singleton.mp last]
        exact (accounts.live orderly.numbered ⟨valid, mem_cons_self⟩).2
    · refine ⟨Or.inl storedMain, fun i inside => mem_append_left _ (shows.cached i inside),
        fun child mem => ?_, nofun⟩
      rcases mem_append.mp mem with before | last
      · exact (kept child before).imp_right Or.inl
      · rw [mem_singleton.mp last]
        exact Or.inr (Or.inr rfl)
    · cases same
      exact ⟨by simp, valid, ownsUp⟩

theorem Orderly.flag (orderly : c.Orderly s) (inVacuum : Bool)
    (noMain : (s.backends proc).main = InvalidTransactionId) : c.Orderly { s with
      procs := update s.procs proc { s.procs proc with inVacuum := inVacuum } } := by
  refine ⟨orderly.numbered, fun other => ?_, fun other => ?_, orderly.assigning, orderly.linked⟩
  · by_cases same : other = proc
    · subst same
      simp only [update_self]
      have accounts := orderly.accounts other
      exact ⟨fun xid owns => absurd noMain owns.1, accounts.running, accounts.parented, accounts.later⟩
    · grind [accounts]
  · by_cases same : other = proc
    · subst same
      have shows := orderly.shows other
      simp only [update_self]
      exact ⟨shows.stored, shows.cached, shows.kept, shows.counting⟩
    · grind [shows]

theorem transactionIdLatest_valid (valid : main ≠ InvalidTransactionId) (children : List TransactionId) :
    transactionIdLatest main children ≠ InvalidTransactionId := by
  induction children with
  | nil => exact valid
  | cons child rest ih =>
    rw [transactionIdLatest, List.foldr_cons]
    split
    · next later =>
      rintro rfl
      simp [transactionIdPrecedes, transactionIdIsNormal, InvalidTransactionId, FirstNormalTransactionId] at later
    · exact ih

/-- What the call and the backend do together. -/
theorem endTransaction_eq (s : State Proc) (proc : Proc) : Cluster.endTransaction s proc =
    if (s.backends proc).main ≠ InvalidTransactionId then
      { s with
        latestCompletedXid :=
          if transactionIdPrecedes s.latestCompletedXid
              (transactionIdLatest (s.backends proc).main (s.backends proc).children)
            then transactionIdLatest (s.backends proc).main (s.backends proc).children
            else s.latestCompletedXid
        procs := update s.procs proc ⟨InvalidTransactionId, InvalidTransactionId, false,
          { (s.procs proc).subxids with nxids := 0, overflowed := false }⟩
        backends := update s.backends proc { s.backends proc with
          main := InvalidTransactionId, children := [], taken := [] }
        record := closeRecords s.record proc }
    else
      { s with
        procs := update s.procs proc { s.procs proc with xmin := InvalidTransactionId, inVacuum := false }
        backends := update s.backends proc { s.backends proc with taken := [] } } := by
  unfold Cluster.endTransaction
  dsimp only
  split
  · next valid =>
    rw [procArrayEndTransaction, if_pos (transactionIdLatest_valid valid _)]
    rfl
  · rfl

theorem Orderly.endTransaction (orderly : c.Orderly s)
    (allowed : c.Allowed s (.endTransaction proc)) : c.Orderly (endTransaction s proc) := by
  have idle := Activity.eq_idle allowed.1
  rw [endTransaction_eq]
  split
  · next valid =>
    have numbered := orderly.numbered
    have accounts := orderly.accounts proc
    refine ⟨numbered.close accounts valid, fun other => ?_, fun other => ?_, fun other => ?_, ?_⟩
    · by_cases same : other = proc
      · subst same
        simp only [update_self]
        exact Accounts.close_own rfl rfl
      · simp only [update_of_ne same]
        exact (orderly.accounts other).close_other same
    · by_cases same : other = proc
      · constructor <;> grind
      · grind [shows]
    · by_cases same : other = proc
      · constructor <;> grind [Activity.unstored, Activity.linkTo]
      · simp only [update_of_ne same]
        exact (orderly.assigning other).close_other numbered (orderly.accounts other) accounts valid same
    · have settled : Pending { s with backends := update s.backends proc { s.backends proc with
          main := InvalidTransactionId, children := [], taken := [] } } = Pending s := pending_update rfl
      have linked : c.Linked s.pgSubtrans (closeRecords s.record proc) (Pending s) :=
        orderly.linked.close
      rw [← settled] at linked
      exact linked
  · next invalid =>
    have step : c.Orderly { s with
        procs := update s.procs proc
          { s.procs proc with xmin := InvalidTransactionId }
        backends := update s.backends proc { s.backends proc with taken := [] } } :=
      orderly.quiet ⟨rfl, rfl⟩ ⟨rfl, rfl, rfl⟩ (by rw [idle]; exact ⟨rfl, rfl⟩) (by rw [idle]; exact ⟨rfl, rfl⟩)
    have flagged := @Orderly.flag _ _ _ _ proc step false (by simpa using not_not.mp invalid)
    simpa using flagged

end Cluster

end BlockchainPG.Mvcc
