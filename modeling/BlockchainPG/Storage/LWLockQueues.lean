import BlockchainPG.Storage.LWLockCounts

/-! The queues of lightweight locks, as lists. -/

namespace BlockchainPG.Storage.LWLock

open Lib Function
open List hiding Chain

variable {Proc : Type u} {LockId : Type v} [DecidableEq Proc] [DecidableEq LockId] [Fintype Proc]
variable {s s' : State Proc LockId}

namespace Phase

/-- The processes that `LWLockRelease` has still to take from its list. -/
def head : Phase Proc LockId → Option Proc
  | .awakening head | .unlinked _ head | .posting _ head => head
  | _ => none

/-- The process whose wait `LWLockRelease` is about to end. -/
def detached : Phase Proc LockId → Option Proc
  | .unlinked proc _ => some proc
  | _ => none

/-- The lock that an awakened process is about to try again. -/
def retries : Phase Proc LockId → Option LockId
  | .acquiring lockid _ true _ => some lockid
  | _ => none

end Phase

/-- Where a process waits: in the queue of a lock, or among those that a process in
`LWLockRelease` has taken from a queue. -/
inductive Place (Proc : Type u) (LockId : Type v) where
  | away
  | queued (lockid : LockId)
  | picked (releaser : Proc)

/-- The linked lists of waiting processes are lists without common members. -/
structure Queues (s : State Proc LockId) (queue : LockId → List Proc) (batch : Proc → List Proc)
    (place : Proc → Place Proc LockId) : Prop where
  chain : ∀ lockid, Chain s.lwWaitLink (s.lock lockid).head (queue lockid)
  last : ∀ lockid, queue lockid ≠ [] → (s.lock lockid).tail = (queue lockid).getLast?
  distinct : ∀ lockid, (queue lockid).Nodup
  queued : ∀ lockid proc, proc ∈ queue lockid ↔ place proc = .queued lockid
  batchChain : ∀ releaser, Chain s.lwWaitLink (s.phase releaser).head (batch releaser)
  batchDistinct : ∀ releaser, (batch releaser).Nodup
  detached : ∀ releaser proc, (s.phase releaser).detached = some proc → proc ∉ batch releaser
  picked : ∀ releaser proc, place proc = .picked releaser ↔
    proc ∈ batch releaser ∨ (s.phase releaser).detached = some proc
  waits : ∀ proc, place proc ≠ .away → s.lwWaiting proc = true ∧ (s.phase proc).waitsFor ≠ none
  waitsQueued : ∀ lockid proc, place proc = .queued lockid → (s.phase proc).waitsFor = some lockid
  found : ∀ proc, (s.phase proc).waitsFor ≠ none → s.lwWaiting proc = true → place proc ≠ .away

/-- A process that has been taken from the queue of a lock and has yet to try again. -/
def AwaitsRetry (s : State Proc LockId) (place : Proc → Place Proc LockId) (lockid : LockId) (proc : Proc) : Prop :=
  (s.phase proc).waitsFor = some lockid ∧ (s.lwWaiting proc = false ∨ ∃ releaser, place proc = .picked releaser) ∨
    (s.phase proc).retries = some lockid

/-- If no waiter may be awakened, or none was though the lock is free, then one has been before. -/
def Alert (s : State Proc LockId) (queue : LockId → List Proc) (place : Proc → Place Proc LockId) : Prop :=
  ∀ lockid, (s.lock lockid).releaseOK = false ∨
    ((s.lock lockid).exclusive = 0 ∧ (s.lock lockid).shared = 0) ∧ queue lockid ≠ [] →
    ∃ proc, AwaitsRetry s place lockid proc

omit [DecidableEq LockId] [Fintype Proc] in
theorem phase_update (s : State Proc LockId) (proc : Proc) (phase : Phase Proc LockId) :
    update s.phase proc phase proc = phase ∧ ∀ other ≠ proc, update s.phase proc phase other = s.phase other :=
  ⟨update_self .., fun _ ne => update_of_ne ne ..⟩

omit [DecidableEq Proc] [DecidableEq LockId] [Fintype Proc] in
theorem Queues.frame (queues : Queues s queue batch place)
    (locks : ∀ lockid, (s'.lock lockid).head = (s.lock lockid).head ∧
      (s'.lock lockid).tail = (s.lock lockid).tail)
    (links : s'.lwWaitLink = s.lwWaitLink) (waiting : s'.lwWaiting = s.lwWaiting)
    (phases : ∀ proc, (s'.phase proc).head = (s.phase proc).head ∧
      (s'.phase proc).detached = (s.phase proc).detached ∧
      ((s'.phase proc).waitsFor = (s.phase proc).waitsFor ∨
        place proc = .away ∧ (s'.phase proc).waitsFor = none)) : Queues s' queue batch place := by
  refine ⟨?_, ?_, queues.distinct, queues.queued, ?_, queues.batchDistinct, ?_, ?_, ?_, ?_, ?_⟩
  · grind [chain]
  · grind [last]
  · grind [batchChain]
  · grind [detached]
  · grind [picked]
  · intro proc placed
    rw [waiting, (phases proc).2.2.resolve_right fun gone => placed gone.1]
    exact queues.waits proc placed
  · grind [waitsQueued]
  · grind [found]

omit [DecidableEq Proc] [DecidableEq LockId] [Fintype Proc] in
theorem Queues.away (queues : Queues s queue batch place) (idle : (s.phase proc).waitsFor = none) :
    place proc = .away := by
  by_contra placed
  exact (queues.waits proc placed).2 idle

omit [DecidableEq Proc] [DecidableEq LockId] [Fintype Proc] in
theorem Queues.congr (queues : Queues s queue batch place) (link : Proc → Option Proc)
    (changes : Place Proc LockId → Prop) (same : ∀ proc, ¬ changes (place proc) → link proc = s.lwWaitLink proc) :
    (∀ lockid, ¬ changes (.queued lockid) → Chain link (s.lock lockid).head (queue lockid)) ∧
      ∀ releaser, ¬ changes (.picked releaser) → Chain link (s.phase releaser).head (batch releaser) := by
  refine ⟨fun lockid fixed => ?_, fun releaser fixed => ?_⟩
  · refine (queues.chain lockid).congr fun proc mem => same proc ?_
    rwa [(queues.queued lockid proc).mp mem]
  · refine (queues.batchChain releaser).congr fun proc mem => same proc ?_
    rwa [(queues.picked releaser proc).mpr (Or.inl mem)]

omit [Fintype Proc] in
theorem Queues.enqueue_chain (queues : Queues s queue batch place) (away : place proc = .away)
    (lockid : LockId) (mode : LWLockMode) (extraWaits : Nat) :
    Chain (s.enqueue proc lockid mode extraWaits).lwWaitLink
        (some ((s.lock lockid).head.getD proc)) (queue lockid ++ [proc]) ∧
      ∀ other, ¬ (place other = .away ∨ place other = .queued lockid) →
        (s.enqueue proc lockid mode extraWaits).lwWaitLink other = s.lwWaitLink other := by
  have outside : proc ∉ queue lockid := by
    rw [queues.queued, away]
    exact nofun
  have chain := (queues.chain lockid).update outside none
  have ends : update s.lwWaitLink proc none proc = none := update_self ..
  by_cases empty : queue lockid = []
  · have noHead : (s.lock lockid).head = none := (queues.chain lockid).nil_iff.mpr empty
    simp only [State.enqueue, noHead, empty, Option.getD_none, nil_append]
    refine ⟨⟨rfl, ends⟩, fun other placed => ?_⟩
    grind
  · obtain ⟨tail, last⟩ := Option.ne_none_iff_exists'.mp (mt List.getLast?_eq_none_iff.mp empty)
    obtain ⟨head, first⟩ := Option.ne_none_iff_exists'.mp (mt (queues.chain lockid).nil_iff.mp empty)
    have tailEq := (queues.last lockid empty).trans last
    have tailPlace := (queues.queued lockid tail).mp (mem_of_getLast? last)
    rw [first] at chain
    simp only [State.enqueue, first, tailEq, Option.getD_some]
    refine ⟨chain.append last (queues.distinct lockid) outside ends, fun other placed => ?_⟩
    grind

omit [Fintype Proc] in
theorem Queues.enqueue (queues : Queues s queue batch place) (acquires : (s.phase proc).waitsFor = none)
    (noHead : (s.phase proc).head = none) (noneDetached : (s.phase proc).detached = none)
    (lockid : LockId) (mode : LWLockMode) (extraWaits : Nat) : Queues (s.enqueue proc lockid mode extraWaits)
      (update queue lockid (queue lockid ++ [proc])) batch (update place proc (.queued lockid)) := by
  have away := queues.away acquires
  obtain ⟨chain, links⟩ := queues.enqueue_chain away lockid mode extraWaits
  obtain ⟨chains, batchChains⟩ := queues.congr _ (fun placed => placed = .away ∨ placed = .queued lockid) links
  have phases (other : Proc) : ((s.enqueue proc lockid mode extraWaits).phase other).head = (s.phase other).head ∧
      ((s.enqueue proc lockid mode extraWaits).phase other).detached = (s.phase other).detached := by
    by_cases same : other = proc
    · subst same
      simp only [State.enqueue, update_self, noHead, noneDetached]
      exact ⟨rfl, rfl⟩
    · simp only [State.enqueue, update_of_ne same, and_self]
  have outside (other : LockId) : proc ∉ queue other := by
    rw [queues.queued, away]
    exact nofun
  refine ⟨?_, ?_, ?_, ?_, ?_, queues.batchDistinct, ?_, ?_, ?_, ?_, ?_⟩
  · intro other
    by_cases same : other = lockid
    · subst same
      simpa only [State.enqueue, update_self] using chain
    · simp only [update_of_ne same]
      have own : ((s.enqueue proc lockid mode extraWaits).lock other).head = (s.lock other).head := by
        simp only [State.enqueue, update_of_ne same]
      grind
  · intro other nonempty
    by_cases same : other = lockid
    · subst same
      simp only [State.enqueue, update_self, getLast?_append, getLast?_singleton, Option.some_or]
    · simp only [State.enqueue, update_of_ne same] at nonempty ⊢
      exact queues.last other nonempty
  · intro other
    by_cases same : other = lockid
    · subst same
      rw [update_self]
      exact List.nodup_append_comm.mp (List.nodup_cons.mpr ⟨outside other, queues.distinct other⟩)
    · rw [update_of_ne same]
      exact queues.distinct other
  · grind [queued]
  · grind
  · grind [detached]
  · grind [picked]
  · intro waiter placed
    by_cases own : waiter = proc
    · subst own
      simp only [State.enqueue, update_self, true_and]
      exact nofun
    · simp only [State.enqueue, update_of_ne own] at placed ⊢
      exact queues.waits waiter placed
  · intro other waiter placed
    by_cases own : waiter = proc
    · subst own
      rw [update_self] at placed
      simp only [State.enqueue, update_self]
      exact congrArg some (Place.queued.inj placed)
    · simp only [State.enqueue, update_of_ne own] at placed ⊢
      exact queues.waitsQueued other waiter placed
  · intro waiter waits waiting
    by_cases own : waiter = proc
    · grind
    · simp only [State.enqueue, update_of_ne own] at waits waiting ⊢
      exact queues.found waiter waits waiting

/-- The processes that `LWLockRelease` takes from a queue. -/
def released (lwExclusive : Proc → Bool) : List Proc → List Proc
  | [] => []
  | head :: rest => if lwExclusive head then [head] else head :: rest.takeWhile fun proc => !lwExclusive proc

omit [DecidableEq Proc] [Fintype Proc] in
theorem lastReleased_eq {lwExclusive : Proc → Bool} {head : Proc} (chain : Chain link (link head) rest)
    (enough : rest.length ≤ fuel) :
    (head :: rest.takeWhile fun proc => !lwExclusive proc).getLast? =
      some (lastReleased lwExclusive link fuel head) := by
  induction rest generalizing head fuel with
  | nil =>
    have ends : link head = none := chain
    cases fuel <;> simp [lastReleased, ends]
  | cons next rest ih =>
    obtain ⟨fuel, rfl⟩ : ∃ n, fuel = n + 1 := ⟨fuel - 1, by rw [length_cons] at enough; omega⟩
    rw [lastReleased, chain.1]
    by_cases stops : lwExclusive next = true
    · simp [stops]
    · have goes : (!lwExclusive next) = true := by simp [stops]
      rw [takeWhile_cons, if_pos goes, getLast?_cons_cons]
      simp only [stops]
      exact ih chain.2 (by rw [length_cons] at enough; omega)

omit [DecidableEq Proc] in
theorem released_last (lwExclusive : Proc → Bool) {head : Proc} (chain : Chain link (some head) cells)
    (distinct : cells.Nodup) :
    ∃ second, cells = released lwExclusive cells ++ second ∧ (released lwExclusive cells).getLast? =
      some (if lwExclusive head then head else lastReleased lwExclusive link (Fintype.card Proc) head) := by
  cases cells with
  | nil => cases chain
  | cons front rest =>
    obtain rfl : head = front := Option.some.inj chain.1
    have enough : rest.length ≤ Fintype.card Proc := (List.nodup_cons.mp distinct).2.length_le_card
    rw [released]
    split
    · exact ⟨rest, rfl, rfl⟩
    · refine ⟨rest.dropWhile fun proc => !lwExclusive proc, ?_, lastReleased_eq chain.2 enough⟩
      rw [cons_append, takeWhile_append_dropWhile]

omit [Fintype Proc] in
theorem Queues.awaken {tail : Proc} (queues : Queues s queue batch place) (runs : s.phase proc = .running)
    (split : queue lockid = first ++ second) (last : first.getLast? = some tail)
    (links : s'.lwWaitLink = update s.lwWaitLink tail none)
    (others : ∀ other ≠ lockid, s'.lock other = s.lock other)
    (newHead : (s'.lock lockid).head = s.lwWaitLink tail)
    (sameTail : (s'.lock lockid).tail = (s.lock lockid).tail)
    (phases : s'.phase = update s.phase proc (.awakening (s.lock lockid).head))
    (waiting : s'.lwWaiting = s.lwWaiting) :
    Queues s' (update queue lockid second) (update batch proc first)
      (fun waiter => if waiter ∈ first then .picked proc else place waiter) := by
  have chain := queues.chain lockid
  have distinct := queues.distinct lockid
  rw [split] at chain distinct
  obtain ⟨front, back⟩ := chain.split last distinct
  have queuedFirst (waiter : Proc) (mem : waiter ∈ first) : place waiter = .queued lockid :=
    (queues.queued lockid waiter).mp (by rw [split]; exact mem_append_left _ mem)
  have tailPlace := queuedFirst tail (mem_of_getLast? last)
  obtain ⟨chains, batchChains⟩ := queues.congr s'.lwWaitLink (· = .queued lockid) fun other placed => by
    rw [links]
    grind
  have noBatch : batch proc = [] := by
    have := queues.batchChain proc
    rw [runs] at this
    exact this.nil_iff.mp rfl
  have ownPhase : s'.phase proc = .awakening (s.lock lockid).head := by rw [phases, update_self]
  have otherPhase (other : Proc) (differs : other ≠ proc) : s'.phase other = s.phase other := by
    rw [phases, update_of_ne differs]
  have sameDetached (releaser : Proc) : (s'.phase releaser).detached = (s.phase releaser).detached := by
    by_cases own : releaser = proc
    · rw [own, ownPhase, runs]
      rfl
    · rw [otherPhase releaser own]
  have sameWaits (waiter : Proc) : (s'.phase waiter).waitsFor = (s.phase waiter).waitsFor := by
    by_cases own : waiter = proc
    · rw [own, ownPhase, runs]
      rfl
    · rw [otherPhase waiter own]
  refine ⟨?_, ?_, ?_, ?_, ?_, ?_, ?_, ?_, ?_, ?_, ?_⟩
  · grind
  · grind [last, getLast?_append_of_ne_nil]
  · intro other
    by_cases same : other = lockid
    · grind
    · rw [update_of_ne same]
      exact queues.distinct other
  · grind [queued]
  · intro releaser
    by_cases own : releaser = proc
    · subst own
      rw [update_self, ownPhase, links]
      exact front
    · grind
  · intro releaser
    by_cases own : releaser = proc
    · grind
    · rw [update_of_ne own]
      exact queues.batchDistinct releaser
  · intro releaser waiter detached
    rw [sameDetached] at detached
    have ne : releaser ≠ proc := by
      rintro rfl
      rw [runs] at detached
      cases detached
    grind [detached]
  · grind [picked]
  · intro waiter placed
    rw [waiting, sameWaits]
    grind [waits]
  · grind [waitsQueued]
  · grind [found]

omit [DecidableEq LockId] [Fintype Proc] in
theorem Queues.unlink (queues : Queues s queue batch place) (awakens : s.phase proc = .awakening (some waiter)) :
    Queues { s.move proc (.unlinked waiter (s.lwWaitLink waiter)) with
      lwWaitLink := update s.lwWaitLink waiter none } queue
      (update batch proc (batch proc).tail) place := by
  have chain := queues.batchChain proc
  have distinct := queues.batchDistinct proc
  rw [awakens] at chain
  obtain ⟨rest, members⟩ : ∃ rest, batch proc = waiter :: rest := by
    cases members : batch proc with
    | nil =>
      rw [members] at chain
      cases chain
    | cons front rest =>
      rw [members] at chain
      exact ⟨rest, by rw [Option.some.inj chain.1]⟩
  rw [members] at chain distinct
  obtain ⟨outside, distinct⟩ := List.nodup_cons.mp distinct
  have picked := (queues.picked proc waiter).mpr (Or.inl (by rw [members]; exact mem_cons_self))
  obtain ⟨chains, batchChains⟩ := queues.congr (update s.lwWaitLink waiter none) (· = .picked proc)
    fun other placed => update_of_ne (fun same => placed (by rw [same, picked])) ..
  have phases := (phase_update s proc (.unlinked waiter (s.lwWaitLink waiter))).2
  have waits (other : Proc) : (update s.phase proc (.unlinked waiter (s.lwWaitLink waiter)) other).waitsFor =
      (s.phase other).waitsFor := by
    by_cases own : other = proc
    · rw [own, update_self, awakens]
      rfl
    · rw [phases other own]
  rw [members, tail_cons]
  refine ⟨fun lockid => chains lockid nofun, queues.last, queues.distinct, queues.queued, ?_, ?_, ?_, ?_, ?_, ?_, ?_⟩
  · intro releaser
    simp only [State.move]
    by_cases own : releaser = proc
    · subst own
      rw [update_self, update_self]
      exact Chain.update chain.2 outside none
    · grind
  · intro releaser
    by_cases own : releaser = proc
    · subst own
      rw [update_self]
      exact distinct
    · rw [update_of_ne own]
      exact queues.batchDistinct releaser
  · intro releaser other
    simp only [State.move]
    by_cases own : releaser = proc
    · subst own
      rw [update_self, update_self]
      intro same
      rw [← Option.some.inj same]
      exact outside
    · grind [detached]
  · intro releaser other
    simp only [State.move]
    grind [picked, Phase.detached]
  · intro other placed
    simp only [State.move, waits]
    exact queues.waits other placed
  · intro lockid other placed
    simp only [State.move, waits]
    exact queues.waitsQueued lockid other placed
  · intro other
    simp only [State.move, waits]
    exact queues.found other

omit [DecidableEq LockId] [Fintype Proc] in
theorem Queues.clear (queues : Queues s queue batch place) (holds : s.phase proc = .unlinked waiter rest) :
    place waiter = .picked proc ∧ Queues { s.move proc (.posting waiter rest) with
      lwWaiting := update s.lwWaiting waiter false } queue batch (update place waiter .away) := by
  have detached : (s.phase proc).detached = some waiter := by
    rw [holds]
    rfl
  have picked := (queues.picked proc waiter).mpr (Or.inr detached)
  have phases := (phase_update s proc (.posting waiter rest)).2
  have heads (other : Proc) :
      (update s.phase proc (.posting waiter rest) other).head = (s.phase other).head := by
    by_cases own : other = proc
    · rw [own, update_self, holds]
      rfl
    · rw [phases other own]
  have waits (other : Proc) :
      (update s.phase proc (.posting waiter rest) other).waitsFor = (s.phase other).waitsFor := by
    by_cases own : other = proc
    · rw [own, update_self, holds]
      rfl
    · rw [phases other own]
  refine ⟨picked, queues.chain, queues.last, queues.distinct, ?_, ?_, queues.batchDistinct, ?_, ?_, ?_, ?_, ?_⟩
  · grind [queued]
  · intro releaser
    simp only [State.move, heads]
    exact queues.batchChain releaser
  · intro releaser other
    simp only [State.move]
    by_cases own : releaser = proc
    · rw [own, update_self]
      exact nofun
    · grind [detached]
  · intro releaser other
    simp only [State.move]
    grind [picked, detached, Phase.detached]
  · intro other placed
    by_cases self : other = waiter
    · grind
    · simp only [State.move, waits, update_of_ne self] at placed ⊢
      exact queues.waits other placed
  · intro lockid other placed
    by_cases self : other = waiter
    · rw [self, update_self] at placed
      cases placed
    · simp only [State.move, waits, update_of_ne self] at placed ⊢
      exact queues.waitsQueued lockid other placed
  · intro other
    simp only [State.move, waits]
    grind [found]

end BlockchainPG.Storage.LWLock
