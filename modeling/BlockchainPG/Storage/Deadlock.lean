import BlockchainPG.Lib.CycleSearch
import BlockchainPG.Lib.Sorted

/-! The deadlock checker, `deadlock.c`. -/

namespace BlockchainPG.Storage.Deadlock

section

open Lib Function

/-- `LockMethodData` -/
structure LockMethod where
  numLockModes : Nat
  conflictTab : Nat → Nat

structure ProcLock (Proc : Type) where
  myProc : Proc
  holdMask : Nat

/-- The locks with their holders and wait queues, and what the processes wait for. A process
whose `links.next` is not `NULL` is in the queue of its lock. -/
structure LockTable (Proc Lock : Type) where
  lockMethodTable : Lock → LockMethod
  procLocks : Lock → List (ProcLock Proc)
  waitProcs : Lock → List Proc
  linked : Proc → Bool
  waitLock : Proc → Option Lock
  waitLockMode : Proc → Nat
  isAutovacuum : Proc → Bool
  queued : ∀ lock proc, proc ∈ waitProcs lock ↔ linked proc = true ∧ waitLock proc = some lock
  nodup : ∀ lock, (waitProcs lock).Nodup

structure Edge (Proc : Type) where
  waiter : Proc
  blocker : Proc

structure WaitOrder (Proc Lock : Type) where
  lock : Lock
  procs : List Proc

/-- `DEADLOCK_INFO`, with the lock for its tag and the process for its number. -/
structure DeadlockInfo (Proc Lock : Type) where
  lock : Lock
  lockmode : Nat
  proc : Proc

/-- What `FindLockCycle` tells of a cycle. -/
structure Cycle (Proc Lock : Type) where
  deadlockDetails : List (DeadlockInfo Proc Lock)
  softEdges : List (Edge Proc)

/-- The visited processes, and the blocking autovacuum worker. -/
abbrev Search (Proc : Type) := Seen Proc (Option Proc)

variable {Proc Lock : Type} [DecidableEq Proc] [DecidableEq Lock]

section FindLockCycle

variable (table : LockTable Proc Lock)

/-- `conflictMask` of a waiting process. -/
def conflictMask (lock : Lock) (checkProc : Proc) : Nat :=
  (table.lockMethodTable lock).conflictTab (table.waitLockMode checkProc)

/-- A lock is held in a mode that a process has to wait for. -/
def holdsConflicting (lock : Lock) (checkProc : Proc) (proclock : ProcLock Proc) : Bool :=
  (List.range' 1 (table.lockMethodTable lock).numLockModes).any fun lm =>
    proclock.holdMask.testBit lm && (conflictMask table lock checkProc).testBit lm

def scanProcLocks (recurse : Proc → Search Proc → Option (Option (Cycle Proc Lock) × Search Proc)) (lock : Lock)
    (checkProc : Proc) : List (ProcLock Proc) → Search Proc → Option (Option (Cycle Proc Lock) × Search Proc)
  | [], search => some (none, search)
  | proclock :: rest, search =>
    let proc := proclock.myProc
    if proc ≠ checkProc ∧ holdsConflicting table lock checkProc proclock then
      let noted := if table.isAutovacuum proc then some proc else search.noted
      match recurse proc ⟨search.visited, noted⟩ with
      | none => none
      | some (some cycle, search) =>
        let info := ⟨lock, table.waitLockMode checkProc, checkProc⟩
        some (some { cycle with deadlockDetails := info :: cycle.deadlockDetails }, search)
      | some (none, search) => scanProcLocks recurse lock checkProc rest search
    else scanProcLocks recurse lock checkProc rest search

def scanWaitQueue (recurse : Proc → Search Proc → Option (Option (Cycle Proc Lock) × Search Proc)) (lock : Lock)
    (checkProc : Proc) : List Proc → Search Proc → Option (Option (Cycle Proc Lock) × Search Proc)
  | [], search => some (none, search)
  | proc :: rest, search =>
    if proc = checkProc then some (none, search)
    else if (conflictMask table lock checkProc).testBit (table.waitLockMode proc) then
      match recurse proc search with
      | none => none
      | some (some cycle, search) =>
        let info := ⟨lock, table.waitLockMode checkProc, checkProc⟩
        some (some ⟨info :: cycle.deadlockDetails, cycle.softEdges ++ [⟨checkProc, proc⟩]⟩, search)
      | some (none, search) => scanWaitQueue recurse lock checkProc rest search
    else scanWaitQueue recurse lock checkProc rest search

def queueOrder (waitOrders : List (WaitOrder Proc Lock)) (lock : Lock) : List Proc :=
  match waitOrders.find? fun order => order.lock = lock with
  | some order => order.procs
  | none => table.waitProcs lock

/-- `FindLockCycleRecurse`, at most to some depth. -/
def findLockCycleRecurse (waitOrders : List (WaitOrder Proc Lock)) :
    Nat → Proc → Search Proc → Option (Option (Cycle Proc Lock) × Search Proc)
  | 0, _, _ => none
  | depth + 1, checkProc, search =>
    if checkProc ∈ search.visited then
      some (if search.visited.head? = some checkProc then some ⟨[], []⟩ else none, search)
    else
      let search := ⟨search.visited ++ [checkProc], search.noted⟩
      if table.linked checkProc = false then some (none, search)
      else
        match table.waitLock checkProc with
        | none => some (none, search)
        | some lock =>
          let recurse := findLockCycleRecurse waitOrders depth
          match scanProcLocks table recurse lock checkProc (table.procLocks lock) search with
          | none => none
          | some (some cycle, search) => some (some cycle, search)
          | some (none, search) =>
            scanWaitQueue table recurse lock checkProc (queueOrder table waitOrders lock) search

/-- `FindLockCycle`, with the autovacuum worker that it came upon last. -/
def findLockCycle [Fintype Proc] (waitOrders : List (WaitOrder Proc Lock)) (checkProc : Proc) :
    Option (Cycle Proc Lock) × Option Proc :=
  match findLockCycleRecurse table waitOrders (Fintype.card Proc + 1) checkProc ⟨[], none⟩ with
  | some (found, search) => (found, search.noted)
  | none => (none, none)

end FindLockCycle

section Constraints

variable (table : LockTable Proc Lock)

/-- `beforeConstraints` and `afterConstraints`: for each process the number of constraints by which
it comes before another, and for the constraints by which it comes after another their waiters. -/
structure TopoWork (Proc : Type) where
  beforeConstraints : Proc → Nat
  afterConstraints : Proc → List Proc

def TopoWork.add (work : TopoWork Proc) (constraint : Edge Proc) : TopoWork Proc where
  beforeConstraints :=
    update work.beforeConstraints constraint.waiter (work.beforeConstraints constraint.waiter + 1)
  afterConstraints :=
    update work.afterConstraints constraint.blocker
      (constraint.waiter :: work.afterConstraints constraint.blocker)

/-- One less constraint for each of some processes. -/
def discharge (beforeConstraints : Proc → Nat) (waiters : List Proc) : Proc → Nat :=
  waiters.foldl (fun before waiter => update before waiter (before waiter - 1)) beforeConstraints

/-- The scan of `TopoSort` that outputs the processes from the last to the first; those that have
been output are no longer in `topoProcs`. -/
def topoOutput (afterConstraints : Proc → List Proc) :
    Nat → List Proc → (Proc → Nat) → List Proc → Option (List Proc)
  | 0, _, _, ordering => some ordering
  | i + 1, topoProcs, beforeConstraints, ordering =>
    match topoProcs.reverse.find? fun proc => beforeConstraints proc = 0 with
    | none => none
    | some proc =>
      topoOutput afterConstraints i (topoProcs.erase proc) (discharge beforeConstraints (afterConstraints proc))
        (proc :: ordering)

def topoSort (lock : Lock) (constraints : List (Edge Proc)) : Option (List Proc) :=
  let work := (constraints.filter fun constraint => table.waitLock constraint.waiter = some lock).foldl TopoWork.add
    ⟨fun _ => 0, fun _ => []⟩
  topoOutput work.afterConstraints (table.waitProcs lock).length (table.waitProcs lock) work.beforeConstraints []

/-- The loop of `ExpandConstraints` over the first constraints, backwards. -/
def expandFirst (constraints : List (Edge Proc)) :
    Nat → List (WaitOrder Proc Lock) → Bool × List (WaitOrder Proc Lock)
  | 0, waitOrders => (true, waitOrders)
  | i + 1, waitOrders =>
    match constraints[i]?.bind fun constraint => table.waitLock constraint.waiter with
    | none => expandFirst constraints i waitOrders
    | some lock =>
      if waitOrders.any fun order => order.lock = lock then expandFirst constraints i waitOrders
      else
        match topoSort table lock (constraints.take (i + 1)) with
        | none => (false, waitOrders)
        | some procs => expandFirst constraints i (waitOrders ++ [⟨lock, procs⟩])

def expandConstraints (constraints : List (Edge Proc)) : Bool × List (WaitOrder Proc Lock) :=
  expandFirst table constraints constraints.length []

end Constraints

section Recurse

/-- The working space of the checker. -/
structure Detector (Proc Lock : Type) where
  curConstraints : List (Edge Proc)
  possibleConstraints : Nat → Edge Proc
  nPossibleConstraints : Nat
  waitOrders : List (WaitOrder Proc Lock)
  blockingAutovacuumProc : Option Proc
  deadlockDetails : List (DeadlockInfo Proc Lock)

def writeEdges (space : Nat → Edge Proc) (base : Nat) (edges : List (Edge Proc)) (i : Nat) : Edge Proc :=
  if base ≤ i then (edges[i - base]?).getD (space i) else space i

variable [Fintype Proc] (table : LockTable Proc Lock) (maxBackends : Nat)

def maxPossibleConstraints : Nat := maxBackends * 4

/-- `FindLockCycle` with its effects on the working space. -/
def Detector.findLockCycle (d : Detector Proc Lock) (checkProc : Proc) :
    Option (List (Edge Proc)) × Detector Proc Lock :=
  let (found, autovacuum) := Deadlock.findLockCycle table d.waitOrders checkProc
  let d := { d with
    blockingAutovacuumProc := autovacuum.or d.blockingAutovacuumProc,
    deadlockDetails := (found.map Cycle.deadlockDetails).getD [] }
  match found with
  | none => (none, d)
  | some cycle =>
    let written := writeEdges d.possibleConstraints d.nPossibleConstraints cycle.softEdges
    (some cycle.softEdges, { d with possibleConstraints := written })

/-- The checks of `TestConfiguration` for cycles that involve some processes. -/
def testProcs : List Proc → Int → Detector Proc Lock → Int × Detector Proc Lock
  | [], softFound, d => (softFound, d)
  | proc :: procs, softFound, d =>
    match d.findLockCycle table proc with
    | (none, d) => testProcs procs softFound d
    | (some [], d) => (-1, d)
    | (some (_ :: edges), d) => testProcs procs (edges.length + 1) d

def testConfiguration (startProc : Proc) (d : Detector Proc Lock) : Int × Detector Proc Lock :=
  if d.nPossibleConstraints + maxBackends > maxPossibleConstraints maxBackends then (-1, d)
  else
    match expandConstraints table d.curConstraints with
    | (false, waitOrders) => (-1, { d with waitOrders := waitOrders })
    | (true, waitOrders) =>
      testProcs table ((d.curConstraints.flatMap fun edge => [edge.waiter, edge.blocker]) ++ [startProc]) 0
        { d with waitOrders := waitOrders }

inductive DeadLockError where
  /-- inconsistent results during deadlock check -/
  | inconsistentResults
  /-- deadlock seems to have disappeared -/
  | deadlockDisappeared

/-- The list of possible added constraints is generated again. -/
def regenerateEdges (proc : Proc) (nEdges : Int) (d : Detector Proc Lock) :
    Except DeadLockError (Detector Proc Lock) :=
  let (again, d) := testConfiguration table maxBackends proc d
  if nEdges ≠ again then .error .inconsistentResults else .ok d

/-- The loop of `DeadLockCheckRecurse` over some of the soft edges. -/
def tryEdges (proc : Proc) (recurse : Detector Proc Lock → Except DeadLockError (Bool × Detector Proc Lock))
    (nEdges : Int) (oldPossibleConstraints : Nat) (savedList : Bool) :
    List Nat → Detector Proc Lock → Except DeadLockError (Bool × Detector Proc Lock)
  | [], d => .ok (true, { d with nPossibleConstraints := oldPossibleConstraints })
  | i :: rest, d =>
    match (if savedList = false ∧ i > 0 then regenerateEdges table maxBackends proc nEdges d
      else .ok d) with
    | .error error => .error error
    | .ok d =>
      let added := d.possibleConstraints (oldPossibleConstraints + i)
      match recurse { d with curConstraints := d.curConstraints ++ [added] } with
      | .error error => .error error
      | .ok (false, d) => .ok (false, d)
      | .ok (true, d) =>
        tryEdges proc recurse nEdges oldPossibleConstraints savedList rest
          { d with curConstraints := d.curConstraints.dropLast }

def tryAdditions (proc : Proc) (recurse : Detector Proc Lock → Except DeadLockError (Bool × Detector Proc Lock))
    (nEdges : Int) (d : Detector Proc Lock) : Except DeadLockError (Bool × Detector Proc Lock) :=
  let oldPossibleConstraints := d.nPossibleConstraints
  let savedList : Bool := oldPossibleConstraints + nEdges.toNat + maxBackends ≤ maxPossibleConstraints maxBackends
  let d :=
    if savedList then { d with nPossibleConstraints := oldPossibleConstraints + nEdges.toNat } else d
  tryEdges table maxBackends proc recurse nEdges oldPossibleConstraints savedList (List.range nEdges.toNat) d

/-- `DeadLockCheckRecurse` with room for some more constraints than it has: `room` is what
`nCurConstraints` lacks of `maxCurConstraints`. -/
def deadLockCheckRecurse (proc : Proc) (room : Nat) (d : Detector Proc Lock) :
    Except DeadLockError (Bool × Detector Proc Lock) :=
  let test := testConfiguration table maxBackends proc d
  if test.1 < 0 then .ok (true, test.2)
  else if test.1 = 0 then .ok (false, test.2)
  else
    match room with
    | 0 => .ok (true, test.2)
    | room + 1 => tryAdditions table maxBackends proc (deadLockCheckRecurse proc room) test.1 test.2

/-- The working space as `DeadLockCheck` sets it up, with whatever is left in the array from before. -/
def Detector.initial (possibleConstraints : Nat → Edge Proc) (deadlockDetails : List (DeadlockInfo Proc Lock)) :
    Detector Proc Lock :=
  ⟨[], possibleConstraints, 0, [], none, deadlockDetails⟩

end Recurse

end

open Lib List

variable {Proc Lock : Type} [DecidableEq Proc]

section Graph

variable (table : LockTable Proc Lock)

/-- A process waits for another, with the queues in some order: for a holder of the lock it wants,
or for one that is ahead of it and wants the lock in a conflicting mode. -/
def WaitsFor (order : Lock → List Proc) (waiter blocker : Proc) : Prop :=
  ∃ lock, table.linked waiter = true ∧ table.waitLock waiter = some lock ∧
    ((blocker ≠ waiter ∧ ∃ proclock ∈ table.procLocks lock, proclock.myProc = blocker ∧
        holdsConflicting table lock waiter proclock = true) ∨
      (Ahead (order lock) blocker waiter ∧
        (conflictMask table lock waiter).testBit (table.waitLockMode blocker) = true))

/-- An edge of the graph: hard ones are there in every order, soft ones are not. -/
structure Wait (Proc Lock : Type) where
  soft : Bool
  waiter : Proc
  blocker : Proc
  lock : Lock

def hardWaits (lock : Lock) (waiter : Proc) (proclocks : List (ProcLock Proc)) : List (Wait Proc Lock) :=
  (proclocks.filter fun proclock => proclock.myProc ≠ waiter ∧ holdsConflicting table lock waiter proclock).map
    fun proclock => ⟨false, waiter, proclock.myProc, lock⟩

def softWaits (lock : Lock) (waiter : Proc) (queue : List Proc) : List (Wait Proc Lock) :=
  ((queue.takeWhile (· ≠ waiter)).filter fun proc =>
      (conflictMask table lock waiter).testBit (table.waitLockMode proc)).map
    fun proc => ⟨true, waiter, proc, lock⟩

/-- The edges from a process in the order in which they are scanned. -/
def waits (order : Lock → List Proc) (waiter : Proc) : List (Wait Proc Lock) :=
  if table.linked waiter = false then []
  else
    match table.waitLock waiter with
    | none => []
    | some lock => hardWaits table lock waiter (table.procLocks lock) ++ softWaits table lock waiter (order lock)

theorem mem_waits (order : Lock → List Proc) (waiter : Proc) (wait : Wait Proc Lock) :
    wait ∈ waits table order waiter ↔
      wait.waiter = waiter ∧ table.linked waiter = true ∧ table.waitLock waiter = some wait.lock ∧
        if wait.soft then Ahead (order wait.lock) wait.blocker waiter ∧
          (conflictMask table wait.lock waiter).testBit (table.waitLockMode wait.blocker) = true
        else wait.blocker ≠ waiter ∧ ∃ proclock ∈ table.procLocks wait.lock, proclock.myProc = wait.blocker ∧
          holdsConflicting table wait.lock waiter proclock = true := by
  unfold waits
  cases linked : table.linked waiter with
  | false => simp
  | true =>
    cases locked : table.waitLock waiter with
    | none => simp
    | some lock =>
      obtain ⟨soft, waiter', blocker, lock'⟩ := wait
      grind [hardWaits, softWaits, mem_takeWhile_ne]

theorem linked_iff (order : Lock → List Proc) (waiter blocker : Proc) :
    Linked (waits table order) Wait.blocker waiter blocker ↔ WaitsFor table order waiter blocker := by
  constructor
  · rintro ⟨wait, mem, rfl⟩
    obtain ⟨-, linked, locked, kind⟩ := (mem_waits table order waiter wait).mp mem
    refine ⟨wait.lock, linked, locked, ?_⟩
    split at kind
    · exact .inr kind
    · exact .inl kind
  · rintro ⟨lock, linked, locked, hard | soft⟩
    · exact ⟨⟨false, waiter, blocker, lock⟩, (mem_waits table order waiter _).mpr ⟨rfl, linked, locked, hard⟩, rfl⟩
    · exact ⟨⟨true, waiter, blocker, lock⟩, (mem_waits table order waiter _).mpr ⟨rfl, linked, locked, soft⟩, rfl⟩

end Graph

section Search

variable (table : LockTable Proc Lock)

def noteAutovacuum (wait : Wait Proc Lock) (noted : Option Proc) : Option Proc :=
  if wait.soft = false ∧ table.isAutovacuum wait.blocker then some wait.blocker else noted

def cycleOf (path : List (Wait Proc Lock)) : Cycle Proc Lock where
  deadlockDetails := path.map fun wait => ⟨wait.lock, table.waitLockMode wait.waiter, wait.waiter⟩
  softEdges := ((path.filter Wait.soft).map fun wait => ⟨wait.waiter, wait.blocker⟩).reverse

def told (outcome : Option (List (Wait Proc Lock)) × Search Proc) : Option (Cycle Proc Lock) × Search Proc :=
  (outcome.1.map (cycleOf table), outcome.2)

variable {table} {recurse : Proc → Search Proc → Option (Option (Cycle Proc Lock) × Search Proc)}
  {visit : Proc → Search Proc → Option (Option (List (Wait Proc Lock)) × Search Proc)}

section

variable (visits : ∀ proc search, recurse proc search = (visit proc search).map (told table)) (lock : Lock)
    (checkProc : Proc)
include visits lock checkProc

theorem scanProcLocks_eq (proclocks : List (ProcLock Proc)) (search : Search Proc) :
    scanProcLocks table recurse lock checkProc proclocks search =
      (followEach Wait.blocker (noteAutovacuum table) visit (hardWaits table lock checkProc proclocks) search).map
        (told table) := by
  induction proclocks generalizing search with
  | nil => rfl
  | cons proclock proclocks ih =>
    unfold scanProcLocks hardWaits
    by_cases conflict : proclock.myProc ≠ checkProc ∧ holdsConflicting table lock checkProc proclock = true
    · rw [filter_cons_of_pos (by simpa using conflict), map_cons, followEach]
      simp only [if_pos conflict]
      have noted : noteAutovacuum table ⟨false, checkProc, proclock.myProc, lock⟩ search.noted =
          if table.isAutovacuum proclock.myProc then some proclock.myProc else search.noted := by
        simp [noteAutovacuum]
      rw [noted, visits]
      cases visit proclock.myProc
          ⟨search.visited, if table.isAutovacuum proclock.myProc then some proclock.myProc else search.noted⟩ with
      | none => rfl
      | some outcome =>
        obtain ⟨found, middle⟩ := outcome
        cases found with
        | none => exact ih middle
        | some path => rfl
    · rw [filter_cons_of_neg (by simpa using conflict)]
      simp only [if_neg conflict]
      exact ih search

theorem scanWaitQueue_eq (queue : List Proc) (search : Search Proc) :
    scanWaitQueue table recurse lock checkProc queue search =
      (followEach Wait.blocker (noteAutovacuum table) visit (softWaits table lock checkProc queue) search).map
        (told table) := by
  induction queue generalizing search with
  | nil => rfl
  | cons proc queue ih =>
    unfold scanWaitQueue softWaits
    by_cases own : proc = checkProc
    · rw [if_pos own, takeWhile_cons_of_neg (by simp [own])]
      rfl
    · rw [if_neg own, takeWhile_cons_of_pos (by simp [own])]
      by_cases conflict : (conflictMask table lock checkProc).testBit (table.waitLockMode proc) = true
      · rw [if_pos conflict, filter_cons, if_pos conflict, map_cons, followEach, visits]
        have noted : noteAutovacuum table ⟨true, checkProc, proc, lock⟩ search.noted = search.noted := by
          simp [noteAutovacuum]
        rw [noted]
        cases visit proc search with
        | none => rfl
        | some outcome =>
          obtain ⟨found, middle⟩ := outcome
          cases found with
          | none => exact ih middle
          | some path =>
            simp [told, cycleOf]
      · rw [if_neg conflict, filter_cons, if_neg conflict]
        exact ih search

end

/-- The queues in some order. -/
def Reorders (table : LockTable Proc Lock) (order : Lock → List Proc) : Prop :=
  ∀ lock, (order lock).Perm (table.waitProcs lock)

/-- No process waits for itself, however indirectly. -/
def Acyclic (table : LockTable Proc Lock) (order : Lock → List Proc) : Prop :=
  ∀ proc, ¬ Relation.TransGen (WaitsFor table order) proc proc

theorem transGen_waits (table : LockTable Proc Lock) (order : Lock → List Proc) :
    Relation.TransGen (Linked (waits table order) Wait.blocker) = Relation.TransGen (WaitsFor table order) := by
  congr 1
  grind [linked_iff]

theorem Way.waits_of_mem (way : Way (waits table order) Wait.blocker proc path last) (mem : wait ∈ path) :
    wait ∈ waits table order wait.waiter := by
  induction way with
  | here proc => cases mem
  | @next proc edge path last there rest ih =>
    grind [mem_waits]

theorem Way.reorder (way : Way (waits table order) Wait.blocker proc path last)
    (same : ∀ wait ∈ path, wait.soft = true → Ahead (order' wait.lock) wait.blocker wait.waiter) :
    Way (waits table order') Wait.blocker proc path last := by
  induction way with
  | here proc => exact .here proc
  | @next proc edge path last there rest ih =>
    refine .next ?_ (ih fun wait mem => same wait (mem_cons_of_mem _ mem))
    grind [mem_waits]

theorem soft_wait (reorders : Reorders table order) (there : wait ∈ waits table order wait.waiter)
    (soft : wait.soft = true) :
    table.waitLock wait.waiter = some wait.lock ∧ wait.waiter ∈ table.waitProcs wait.lock ∧
      wait.blocker ∈ table.waitProcs wait.lock ∧ wait.blocker ≠ wait.waiter := by
  obtain ⟨-, linked, locked, kind⟩ := (mem_waits table order wait.waiter wait).mp there
  rw [soft, if_pos rfl] at kind
  exact ⟨locked, (table.queued wait.lock wait.waiter).mpr ⟨linked, locked⟩,
    (reorders wait.lock).mem_iff.mp kind.1.mem, kind.1.ne⟩

theorem exists_reversed (way : Way (waits table order) Wait.blocker proc path proc) (nonempty : path ≠ [])
    (reorders : Reorders table order) (reorders' : Reorders table order') (acyclic : Acyclic table order') :
    ∃ wait ∈ path, wait.soft = true ∧ Ahead (order' wait.lock) wait.waiter wait.blocker := by
  by_contra none
  refine acyclic proc ?_
  rw [← transGen_waits]
  refine (Way.reorder way fun wait mem soft => ?_).transGen nonempty
  obtain ⟨-, -, blocker, other⟩ := soft_wait reorders (Way.waits_of_mem way mem) soft
  rcases ahead_or_ahead ((reorders' wait.lock).mem_iff.mpr blocker) other with ahead | behind
  · exact ahead
  · exact absurd ⟨wait, mem, soft, behind⟩ none

variable [DecidableEq Lock]

theorem findLockCycleRecurse_eq (waitOrders : List (WaitOrder Proc Lock)) (depth : Nat) (checkProc : Proc)
    (search : Search Proc) : findLockCycleRecurse table waitOrders depth checkProc search =
      (findCycle (waits table (queueOrder table waitOrders)) Wait.blocker (noteAutovacuum table) depth checkProc
        search).map (told table) := by
  induction depth generalizing checkProc search with
  | zero => rfl
  | succ depth ih =>
    rw [findLockCycleRecurse, findCycle]
    by_cases visited : checkProc ∈ search.visited
    · rw [if_pos visited, if_pos visited]
      split <;> rfl
    · rw [if_neg visited, if_neg visited, waits]
      by_cases linked : table.linked checkProc = false
      · rw [if_pos linked, if_pos linked]
        rfl
      · rw [if_neg linked, if_neg linked]
        cases table.waitLock checkProc with
        | none => rfl
        | some lock =>
          simp only
          rw [followEach_append, scanProcLocks_eq ih]
          cases followEach Wait.blocker (noteAutovacuum table)
              (findCycle (waits table (queueOrder table waitOrders)) Wait.blocker (noteAutovacuum table) depth)
              (hardWaits table lock checkProc (table.procLocks lock)) ⟨search.visited ++ [checkProc], search.noted⟩ with
          | none => rfl
          | some outcome =>
            obtain ⟨found, middle⟩ := outcome
            cases found with
            | none => exact scanWaitQueue_eq ih lock checkProc _ middle
            | some path => rfl

variable [Fintype Proc] (waitOrders : List (WaitOrder Proc Lock))

theorem findLockCycle_eq (checkProc : Proc) : ∃ found seen,
    findCycle (waits table (queueOrder table waitOrders)) Wait.blocker (noteAutovacuum table) (Fintype.card Proc + 1)
      checkProc ⟨[], none⟩ = some (found, seen) ∧
    (findLockCycle table waitOrders checkProc).1 = found.map (cycleOf table) := by
  obtain ⟨found, seen, result, -⟩ := findCycle_total (Fintype.card Proc + 1) checkProc ⟨[], none⟩ nodup_nil
    (Nat.lt_succ_self _)
  refine ⟨found, seen, result, ?_⟩
  rw [findLockCycle, findLockCycleRecurse_eq, result]
  rfl

theorem findLockCycle_none (result : (findLockCycle table waitOrders checkProc).1 = none) :
    ¬ Relation.TransGen (WaitsFor table (queueOrder table waitOrders)) checkProc checkProc := by
  obtain ⟨found, seen, search, same⟩ := findLockCycle_eq waitOrders checkProc
  rw [result] at same
  cases found with
  | some path => cases same
  | none =>
    rw [← transGen_waits]
    exact findCycle_none search

theorem findLockCycle_some (result : (findLockCycle table waitOrders checkProc).1 = some cycle) :
    ∃ path, Way (waits table (queueOrder table waitOrders)) Wait.blocker checkProc path checkProc ∧ path ≠ [] ∧
      ∀ edge, edge ∈ cycle.softEdges ↔ ∃ wait ∈ path, wait.soft = true ∧ Edge.mk wait.waiter wait.blocker = edge := by
  obtain ⟨found, seen, search, same⟩ := findLockCycle_eq waitOrders checkProc
  rw [result] at same
  cases found with
  | none => cases same
  | some path =>
    obtain rfl := Option.some.inj same
    obtain ⟨way, nonempty⟩ := findCycle_some search
    grind [cycleOf]

end Search

end BlockchainPG.Storage.Deadlock
