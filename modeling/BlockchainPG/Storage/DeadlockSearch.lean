import BlockchainPG.Storage.DeadlockQueues

/-! The search of `DeadLockCheckRecurse` for orders of the wait queues without cycles. -/

namespace BlockchainPG.Storage.Deadlock

open Lib List

variable {Proc Lock : Type} [DecidableEq Proc] [DecidableEq Lock] [Fintype Proc] {table : LockTable Proc Lock}
  {d d' : Detector Proc Lock} {maxBackends : Nat}

/-- What a test of a configuration leaves alone. -/
structure Unchanged (d d' : Detector Proc Lock) : Prop where
  constraints : d'.curConstraints = d.curConstraints
  possible : d'.nPossibleConstraints = d.nPossibleConstraints
  saved : ∀ i < d.nPossibleConstraints, d'.possibleConstraints i = d.possibleConstraints i

omit [DecidableEq Proc] [DecidableEq Lock] [Fintype Proc] in
theorem Unchanged.trans (first : Unchanged d d')
    (second : Unchanged d' d'') : Unchanged d d'' where
  constraints := second.constraints.trans first.constraints
  possible := second.possible.trans first.possible
  saved i less := (second.saved i (by rw [first.possible]; exact less)).trans (first.saved i less)

def Written (d : Detector Proc Lock) (edges : List (Edge Proc)) : Prop :=
  ∀ i edge, edges[i]? = some edge → d.possibleConstraints (d.nPossibleConstraints + i) = edge

omit [DecidableEq Proc] [DecidableEq Lock] [Fintype Proc] in
theorem writeEdges_getElem? (space : Nat → Edge Proc) (base : Nat) (found : edges[i]? = some edge) :
    writeEdges space base edges (base + i) = edge := by
  grind [writeEdges]

theorem detector_findLockCycle (table : LockTable Proc Lock) (d : Detector Proc Lock) (checkProc : Proc) :
    (d.findLockCycle table checkProc).1 =
        ((findLockCycle table d.waitOrders checkProc).1).map Cycle.softEdges ∧
      Unchanged d (d.findLockCycle table checkProc).2 ∧
      (d.findLockCycle table checkProc).2.waitOrders = d.waitOrders ∧
      match (d.findLockCycle table checkProc).1 with
      | none => (d.findLockCycle table checkProc).2.possibleConstraints = d.possibleConstraints
      | some edges => Written (d.findLockCycle table checkProc).2 edges := by
  unfold Detector.findLockCycle
  generalize findLockCycle table d.waitOrders checkProc = outcome
  obtain ⟨found, autovacuum⟩ := outcome
  cases found with
  | none => exact ⟨rfl, ⟨rfl, rfl, fun _ _ => rfl⟩, rfl, rfl⟩
  | some cycle =>
    refine ⟨rfl, ⟨rfl, rfl, fun i less => ?_⟩, rfl, fun i edge found => ?_⟩
    · exact if_neg (Nat.not_le.mpr less)
    · exact writeEdges_getElem? _ _ found

/-- What the tests for cycles through some processes come to: nothing if there is a hard cycle, and
else the soft edges of the last cycle found. -/
def softEdgesOf (table : LockTable Proc Lock) (waitOrders : List (WaitOrder Proc Lock)) :
    List Proc → List (Edge Proc) → Option (List (Edge Proc))
  | [], edges => some edges
  | proc :: procs, edges =>
    match ((findLockCycle table waitOrders proc).1).map Cycle.softEdges with
    | none => softEdgesOf table waitOrders procs edges
    | some [] => none
    | some (edge :: rest) => softEdgesOf table waitOrders procs (edge :: rest)

/-- The number that stands for the outcome of a test. -/
def count : Option (List (Edge Proc)) → Int
  | none => -1
  | some edges => edges.length

theorem testProcs_eq (table : LockTable Proc Lock) (procs : List Proc) (edges : List (Edge Proc))
    (d : Detector Proc Lock)
    (written : Written d edges) :
    (testProcs table procs edges.length d).1 = count (softEdgesOf table d.waitOrders procs edges) ∧
      Unchanged d (testProcs table procs edges.length d).2 ∧
      (testProcs table procs edges.length d).2.waitOrders = d.waitOrders ∧
      ∀ edges', softEdgesOf table d.waitOrders procs edges = some edges' →
        Written (testProcs table procs edges.length d).2 edges' := by
  induction procs generalizing edges d with
  | nil =>
    refine ⟨rfl, ⟨rfl, rfl, fun _ _ => rfl⟩, rfl, fun edges' same => ?_⟩
    obtain rfl := Option.some.inj same
    exact written
  | cons proc procs ih =>
    obtain ⟨result, unchanged, orders, writes⟩ := detector_findLockCycle table d proc
    unfold testProcs softEdgesOf
    rw [← result]
    generalize d.findLockCycle table proc = outcome at *
    obtain ⟨found, middle⟩ := outcome
    simp only at unchanged orders writes
    cases found with
    | none =>
      have written' : Written middle edges := by
        intro i edge found
        rw [writes, unchanged.possible]
        exact written i edge found
      grind [Unchanged.trans]
    | some found =>
      cases found with
      | nil => exact ⟨rfl, unchanged, orders, nofun⟩
      | cons edge rest =>
        obtain ⟨number, unchanged', orders', writes'⟩ := ih (edge :: rest) middle writes
        rw [orders] at number writes' orders'
        exact ⟨number, unchanged.trans unchanged', orders', writes'⟩

def testedProcs (startProc : Proc) (constraints : List (Edge Proc)) : List Proc :=
  (constraints.flatMap fun edge => [edge.waiter, edge.blocker]) ++ [startProc]

def configuration (table : LockTable Proc Lock) (startProc : Proc) (constraints : List (Edge Proc)) :
    Option (List (Edge Proc)) :=
  match expandConstraints table constraints with
  | (false, _) => none
  | (true, waitOrders) => softEdgesOf table waitOrders (testedProcs startProc constraints) []

def HasRoom (maxBackends : Nat) (d : Detector Proc Lock) : Prop :=
  d.nPossibleConstraints + maxBackends ≤ maxPossibleConstraints maxBackends

theorem testConfiguration_eq (table : LockTable Proc Lock) (room : HasRoom maxBackends d) (startProc : Proc) :
    (testConfiguration table maxBackends startProc d).1 =
        count (configuration table startProc d.curConstraints) ∧
      Unchanged d (testConfiguration table maxBackends startProc d).2 ∧
      (testConfiguration table maxBackends startProc d).2.waitOrders =
        (expandConstraints table d.curConstraints).2 ∧
      ∀ edges, configuration table startProc d.curConstraints = some edges →
        Written (testConfiguration table maxBackends startProc d).2 edges := by
  unfold testConfiguration configuration
  rw [if_neg (Nat.not_lt.mpr room)]
  generalize expandConstraints table d.curConstraints = outcome
  obtain ⟨answer, waitOrders⟩ := outcome
  cases answer with
  | false => exact ⟨rfl, ⟨rfl, rfl, fun _ _ => rfl⟩, rfl, nofun⟩
  | true =>
    obtain ⟨number, unchanged, orders, writes⟩ :=
      testProcs_eq table (testedProcs startProc d.curConstraints) []
        { d with waitOrders := waitOrders } fun i edge no => absurd no (by simp)
    exact ⟨number, ⟨unchanged.constraints, unchanged.possible, unchanged.saved⟩, orders, writes⟩

section Verdict

variable {waitOrders : List (WaitOrder Proc Lock)} {constraints : List (Edge Proc)} {startProc : Proc}

theorem softEdges_spec (reorders : Reorders table (queueOrder table waitOrders))
    (found : ((findLockCycle table waitOrders proc).1).map Cycle.softEdges = some edges) :
    (∀ edge ∈ edges, Between table edge) ∧
      ∀ order, Reorders table order → Acyclic table order → ∃ edge ∈ edges, SatisfiedBy table order edge := by
  obtain ⟨cycle, result, rfl⟩ := Option.map_eq_some_iff.mp found
  obtain ⟨path, way, nonempty, soft⟩ := findLockCycle_some waitOrders result
  refine ⟨fun edge mem => ?_, fun order reorders' acyclic => ?_⟩
  · obtain ⟨wait, onWay, isSoft, rfl⟩ := (soft edge).mp mem
    obtain ⟨locked, waiter, blocker, -⟩ := soft_wait reorders (Way.waits_of_mem way onWay) isSoft
    exact ⟨wait.lock, locked, waiter, blocker⟩
  · obtain ⟨wait, mem, isSoft, ahead⟩ := exists_reversed way nonempty reorders reorders' acyclic
    refine ⟨⟨wait.waiter, wait.blocker⟩, (soft _).mpr ⟨wait, mem, isSoft, rfl⟩, fun lock locked => ?_⟩
    obtain ⟨locked', -⟩ := soft_wait reorders (Way.waits_of_mem way mem) isSoft
    obtain rfl : wait.lock = lock := Option.some.inj (locked'.symm.trans locked)
    exact ahead

theorem softEdgesOf_spec (reorders : Reorders table (queueOrder table waitOrders)) (procs : List Proc)
    (edges : List (Edge Proc)) : match softEdgesOf table waitOrders procs edges with
    | none => ∀ order, Reorders table order → ¬ Acyclic table order
    | some [] => edges = [] ∧
        ∀ proc ∈ procs, ¬ Relation.TransGen (WaitsFor table (queueOrder table waitOrders)) proc proc
    | some (edge :: rest) => edge :: rest = edges ∨
        ((∀ edge' ∈ edge :: rest, Between table edge') ∧ ∀ order, Reorders table order → Acyclic table order →
          ∃ edge' ∈ edge :: rest, SatisfiedBy table order edge') := by
  induction procs generalizing edges with
  | nil =>
    grind [softEdgesOf]
  | cons proc procs ih =>
    rw [softEdgesOf]
    cases found : ((findLockCycle table waitOrders proc).1).map Cycle.softEdges with
    | none =>
      grind [findLockCycle_none, Option.map_eq_none_iff]
    | some found' =>
      grind [softEdges_spec]

/-- Proposed orders are orders of the queues without a cycle through the start or through a process
named in a constraint, and meet the constraints. -/
structure Good (table : LockTable Proc Lock) (startProc : Proc) (constraints : List (Edge Proc))
    (waitOrders : List (WaitOrder Proc Lock)) : Prop where
  perm : ∀ order ∈ waitOrders, order.procs.Perm (table.waitProcs order.lock)
  satisfied : ∀ edge ∈ constraints, SatisfiedBy table (queueOrder table waitOrders) edge
  acyclic : ∀ proc, (proc = startProc ∨ ∃ edge ∈ constraints, proc = edge.waiter ∨ proc = edge.blocker) →
    ¬ Relation.TransGen (WaitsFor table (queueOrder table waitOrders)) proc proc

omit [DecidableEq Proc] [Fintype Proc] in
theorem mem_testedProcs (proc : Proc) : proc ∈ testedProcs startProc constraints ↔
    proc = startProc ∨ ∃ edge ∈ constraints, proc = edge.waiter ∨ proc = edge.blocker := by
  simp [testedProcs, or_comm]

theorem configuration_spec (startProc : Proc) (between : ∀ edge ∈ constraints, Between table edge) :
    match configuration table startProc constraints with
    | none => ∀ order, Reorders table order → (∀ edge ∈ constraints, SatisfiedBy table order edge) →
        ¬ Acyclic table order
    | some [] => Good table startProc constraints (expandConstraints table constraints).2
    | some (edge :: rest) => (∀ edge' ∈ edge :: rest, Between table edge') ∧
        ∀ order, Reorders table order → Acyclic table order → ∃ edge' ∈ edge :: rest,
        SatisfiedBy table order edge' := by
  have expanded := expandConstraints_spec between
  unfold configuration
  generalize expandConstraints table constraints = outcome at *
  obtain ⟨answer, waitOrders⟩ := outcome
  cases answer with
  | false => exact fun order _ satisfied _ => expanded order satisfied
  | true =>
    obtain ⟨perm, satisfied⟩ := expanded
    have spec := softEdgesOf_spec (queueOrder_reorders perm) (testedProcs startProc constraints) []
    simp only
    split
    · grind
    · constructor <;> grind [mem_testedProcs]
    · grind

end Verdict

/-- The constraints that the search may come to: each one reverses a soft edge that the test of those
before it has found. -/
inductive Reached (table : LockTable Proc Lock) (proc : Proc) : List (Edge Proc) → Prop
  | start : Reached table proc []
  | add {constraints edges : List (Edge Proc)} {edge : Edge Proc} (reached : Reached table proc constraints)
      (tested : configuration table proc constraints = some edges) (mem : edge ∈ edges) :
        Reached table proc (constraints ++ [edge])

/-- The search may come to `maxCurConstraints` constraints and still find soft edges. -/
def RunsOut (table : LockTable Proc Lock) (maxBackends : Nat) (proc : Proc) : Prop :=
  ∃ constraints edges, Reached table proc constraints ∧ constraints.length = maxBackends ∧
    configuration table proc constraints = some edges ∧ edges ≠ []

section Recurse

variable {proc : Proc} {constraints edges : List (Edge Proc)}

/-- No orders that meet some constraints are without cycles. -/
def Hopeless (table : LockTable Proc Lock) (constraints : List (Edge Proc)) : Prop :=
  ∀ order, Reorders table order → (∀ edge ∈ constraints, SatisfiedBy table order edge) → ¬ Acyclic table order

/-- How a level of the search may end. -/
def Outcome (table : LockTable Proc Lock) (maxBackends : Nat) (proc : Proc) (d : Detector Proc Lock)
    (result : Except DeadLockError (Bool × Detector Proc Lock)) : Prop :=
  ∃ answer d', result = .ok (answer, d') ∧
    (answer = false → Good table proc d'.curConstraints d'.waitOrders) ∧
    (answer = true → Unchanged d d' ∧
      (RunsOut table maxBackends proc ∨ Hopeless table d.curConstraints))

def Searches (table : LockTable Proc Lock) (maxBackends : Nat) (proc : Proc) (room : Nat)
    (recurse : Detector Proc Lock → Except DeadLockError (Bool × Detector Proc Lock)) : Prop :=
  ∀ d, (∀ edge ∈ d.curConstraints, Between table edge) → HasRoom maxBackends d →
    Reached table proc d.curConstraints → d.curConstraints.length + room = maxBackends →
      Outcome table maxBackends proc d (recurse d)

/-- The edge that is tried is the one that the test has found, which is found again if it could not
be saved. -/
theorem regenerate (room : HasRoom maxBackends d) (cur : d.curConstraints = constraints)
    (tested : configuration table proc constraints = some edges)
    (ready : (savedList = true ∨ i = 0) → d.possibleConstraints (old + i) = edge)
    (base : savedList = false → d.nPossibleConstraints = old) (here : edges[i]? = some edge) :
    ∃ d', (if savedList = false ∧ i > 0 then regenerateEdges table maxBackends proc edges.length d
        else .ok d) = .ok d' ∧ Unchanged d d' ∧ d'.possibleConstraints (old + i) =
        edge := by
  by_cases again : savedList = false ∧ i > 0
  · obtain ⟨number, unchanged, -, writes⟩ := testConfiguration_eq table room proc
    rw [cur, tested] at number
    refine ⟨(testConfiguration table maxBackends proc d).2, ?_, unchanged, ?_⟩
    · grind [regenerateEdges, count]
    · have written := writes edges (cur ▸ tested) i edge here
      rwa [unchanged.possible, base again.1] at written
  · refine ⟨d, by rw [if_neg again], ⟨rfl, rfl, fun _ _ => rfl⟩, ready ?_⟩
    grind

theorem tryEdges_spec (searches : Searches table maxBackends proc room recurse)
    (reached : Reached table proc constraints) (level : constraints.length + (room + 1) = maxBackends)
    (between : ∀ edge ∈ constraints, Between table edge)
    (betweenEdges : ∀ edge ∈ edges, Between table edge) (tested : configuration table proc constraints = some edges)
    (indices : List Nat) (ascending : indices.Pairwise (· < ·)) (inside : ∀ i ∈ indices, i < edges.length)
    (d : Detector Proc Lock) (hasRoom : HasRoom maxBackends d)
    (cur : d.curConstraints = constraints) (old : Nat)
    (base : if savedList then d.nPossibleConstraints = old + edges.length
      else d.nPossibleConstraints = old)
    (ready : ∀ i edge, i ∈ indices → edges[i]? = some edge → (savedList = true ∨ i = 0) →
      d.possibleConstraints (old + i) = edge) :
    ∃ answer d', tryEdges table maxBackends proc recurse edges.length old savedList indices d =
        .ok (answer, d') ∧ (answer = false → Good table proc d'.curConstraints d'.waitOrders) ∧
      (answer = true → d'.curConstraints = constraints ∧ d'.nPossibleConstraints = old ∧
        (∀ i < old, d'.possibleConstraints i = d.possibleConstraints i) ∧
        (RunsOut table maxBackends proc ∨ ∀ i edge, i ∈ indices → edges[i]? = some edge →
          Hopeless table (constraints ++ [edge]))) := by
  have least : old ≤ d.nPossibleConstraints := by
    split at base <;> omega
  induction indices generalizing d with
  | nil =>
    exact ⟨true, _, rfl, nofun, fun _ => ⟨cur, rfl, fun _ _ => rfl, .inr fun i edge no => absurd no not_mem_nil⟩⟩
  | cons i indices ih =>
    obtain ⟨later, ascending⟩ := pairwise_cons.mp ascending
    obtain ⟨edge, here⟩ : ∃ edge, edges[i]? = some edge := ⟨_, getElem?_eq_getElem (inside i mem_cons_self)⟩
    obtain ⟨middle, regenerated, unchanged, added⟩ := regenerate hasRoom cur tested
      (ready i edge mem_cons_self here) (fun notSaved => by rwa [notSaved, if_neg Bool.false_ne_true] at base) here
    have cur' : middle.curConstraints = constraints := unchanged.constraints.trans cur
    have between' : ∀ edge' ∈ constraints ++ [edge], Between table edge' := by
      grind
    have room' : HasRoom maxBackends middle := by
      unfold HasRoom at hasRoom ⊢
      rw [unchanged.possible]
      exact hasRoom
    obtain ⟨answer, after, result, good, failed⟩ :=
      searches { middle with curConstraints := constraints ++ [edge] } between' room'
        (reached.add tested (mem_of_getElem? here)) (by simp only [length_append, length_singleton]; omega)
    rw [tryEdges, regenerated]
    simp only [cur', added, result]
    cases answer with
    | false => exact ⟨false, after, rfl, fun _ => good rfl, nofun⟩
    | true =>
      obtain ⟨returned, hopeless⟩ := failed rfl
      have restored : after.curConstraints.dropLast = constraints := by
        rw [returned.constraints, dropLast_concat]
      have possible : after.nPossibleConstraints = d.nPossibleConstraints :=
        returned.possible.trans unchanged.possible
      have saved (j : Nat) (less : j < d.nPossibleConstraints) :
          after.possibleConstraints j = d.possibleConstraints j :=
        (returned.saved j (by simp only [unchanged.possible]; exact less)).trans (unchanged.saved j less)
      obtain ⟨answer, last, result', good', failed'⟩ := ih ascending
        (fun j mem => inside j (mem_cons_of_mem _ mem)) { after with curConstraints := constraints }
        (by unfold HasRoom at hasRoom ⊢; simp only [possible]; exact hasRoom) rfl (by simp only [possible]; exact base)
        (fun j edge' mem found saved' => by
          rcases saved' with saved' | zero
          · grind
          · have pos := later j mem
            omega)
        (by simp only [possible]; exact least)
      simp only [restored]
      refine ⟨answer, last, result', good', fun isTrue => ?_⟩
      grind

omit [DecidableEq Lock] [Fintype Proc] in
theorem hopeless_of_edges (reversed : ∀ order, Reorders table order → Acyclic table order →
      ∃ edge ∈ edges, SatisfiedBy table order edge)
    (all : ∀ edge ∈ edges, Hopeless table (constraints ++ [edge])) : Hopeless table constraints := by
  intro order reorders satisfied acyclic
  obtain ⟨edge, mem, reverses⟩ := reversed order reorders acyclic
  refine all edge mem order reorders (fun edge' mem' => ?_) acyclic
  grind

theorem level_outcome (next : Int → Detector Proc Lock → Except DeadLockError (Bool × Detector Proc Lock))
    (between : ∀ edge ∈ d.curConstraints, Between table edge) (hasRoom : HasRoom maxBackends d)
    (soft : ∀ edges after, edges ≠ [] → configuration table proc d.curConstraints = some edges →
      (∀ edge ∈ edges, Between table edge) →
      (∀ order, Reorders table order → Acyclic table order → ∃ edge ∈ edges, SatisfiedBy table order edge) →
      Unchanged d after → Written after edges →
      Outcome table maxBackends proc d (next edges.length after)) :
    Outcome table maxBackends proc d (let test := testConfiguration table maxBackends proc d
      if test.1 < 0 then .ok (true, test.2) else if test.1 = 0 then .ok (false, test.2) else next test.1 test.2) := by
  obtain ⟨number, unchanged, orders, writes⟩ := testConfiguration_eq table hasRoom proc
  have spec := configuration_spec proc between
  generalize testConfiguration table maxBackends proc d = outcome at *
  obtain ⟨nEdges, after⟩ := outcome
  simp only at number unchanged orders writes ⊢
  subst number
  cases tested : configuration table proc d.curConstraints with
  | none =>
    rw [tested] at spec
    simp only [count, Int.reduceNeg, Int.reduceLT, ↓reduceIte]
    exact ⟨true, after, rfl, nofun, fun _ => ⟨unchanged, .inr spec⟩⟩
  | some edges =>
    have written := writes edges tested
    rw [tested] at spec
    cases edges with
    | nil =>
      simp only [count, length_nil, Int.natCast_zero, Int.lt_irrefl, ↓reduceIte]
      refine ⟨false, after, rfl, fun _ => ?_, nofun⟩
      rw [orders, unchanged.constraints]
      exact spec
    | cons edge rest =>
      grind [count]

theorem deadLockCheckRecurse_searches (table : LockTable Proc Lock) (maxBackends : Nat) (proc : Proc) (room : Nat) :
    Searches table maxBackends proc room (deadLockCheckRecurse table maxBackends proc room) := by
  -- by induction on the room for constraints, which each level makes smaller
  induction room with
  | zero =>
    intro d between hasRoom reached level
    rw [deadLockCheckRecurse]
    refine level_outcome (fun _ after => .ok (true, after)) between hasRoom
      fun edges after some tested _ _ unchanged _ => ?_
    exact ⟨true, after, rfl, nofun, fun _ => ⟨unchanged, .inl ⟨_, edges, reached, level, tested, some⟩⟩⟩
  | succ room ih =>
    intro d between hasRoom reached level
    rw [deadLockCheckRecurse]
    refine level_outcome (tryAdditions table maxBackends proc (deadLockCheckRecurse table maxBackends proc room))
      between hasRoom fun edges after _ tested betweenEdges reversed unchanged written => ?_
    unfold tryAdditions
    simp only [Int.toNat_natCast]
    generalize savedEq : decide (after.nPossibleConstraints + edges.length + maxBackends ≤
      maxPossibleConstraints maxBackends) = savedList
    have start : ∃ start : Detector Proc Lock, (if savedList then
          { after with nPossibleConstraints := after.nPossibleConstraints + edges.length } else after) = start ∧
        HasRoom maxBackends start ∧ start.curConstraints = d.curConstraints ∧
        (if savedList then start.nPossibleConstraints = after.nPossibleConstraints + edges.length
          else start.nPossibleConstraints = after.nPossibleConstraints) ∧
        start.possibleConstraints = after.possibleConstraints := by
      grind [Unchanged.constraints, HasRoom, Unchanged.possible]
    obtain ⟨start, startEq, room', cur, base, same⟩ := start
    rw [startEq]
    obtain ⟨answer, last, result, good, failed⟩ := tryEdges_spec ih reached level between betweenEdges tested
      (range edges.length) pairwise_lt_range (fun i mem => mem_range.mp mem) start room' cur
      after.nPossibleConstraints base (fun i edge _ found _ => by rw [same]; exact written i edge found)
    refine ⟨answer, last, result, good, fun isTrue => ?_⟩
    obtain ⟨cur', possible, saved, hopeless⟩ := failed isTrue
    refine ⟨⟨cur', possible.trans unchanged.possible, fun i less => ?_⟩, hopeless.imp_right fun all => ?_⟩
    · rw [saved i (by rw [unchanged.possible]; exact less), same, unchanged.saved i less]
    · refine hopeless_of_edges reversed fun edge mem => ?_
      grind [mem_iff_getElem?]

end Recurse

/-- The search that `DeadLockCheck` starts comes to an end. If it says that there is no deadlock, the
proposed orders are orders of the wait queues, without a cycle through the process or through a
process named in a constraint. If it says that there is one and cannot have run out of room, every
order of the wait queues has a cycle. -/
theorem deadLockCheckRecurse_correct (table : LockTable Proc Lock) (maxBackends : Nat) (proc : Proc)
    (possibleConstraints : Nat → Edge Proc) (deadlockDetails : List (DeadlockInfo Proc Lock)) :
    ∃ answer d, deadLockCheckRecurse table maxBackends proc maxBackends
        (.initial possibleConstraints deadlockDetails) = .ok (answer, d) ∧ (answer = false →
        (∀ order ∈ d.waitOrders, order.procs.Perm (table.waitProcs order.lock)) ∧
        ∀ other, (other = proc ∨ ∃ edge ∈ d.curConstraints, other = edge.waiter ∨ other = edge.blocker) →
          ¬ Relation.TransGen (WaitsFor table (queueOrder table d.waitOrders)) other other) ∧
      (answer = true → ¬RunsOut table maxBackends proc → ∀ order : Lock → List Proc,
        (∀ lock, (order lock).Perm (table.waitProcs lock)) →
          ∃ other, Relation.TransGen (WaitsFor table order) other other) := by
  obtain ⟨answer, d, result, good, failed⟩ := deadLockCheckRecurse_searches table maxBackends proc maxBackends
    (.initial possibleConstraints deadlockDetails) (fun _ no => absurd no not_mem_nil) (by
      simp only [HasRoom, Detector.initial, maxPossibleConstraints]
      omega) .start (Nat.zero_add _)
  refine ⟨answer, d, result, fun no => ⟨(good no).perm, (good no).acyclic⟩, fun yes enough order reorders => ?_⟩
  have cyclic := (failed yes).2.resolve_left enough order reorders fun _ no => absurd no not_mem_nil
  grind [Acyclic]

/-- Two processes that each hold a lock and wait for that of the other. -/
def mutualWait : LockTable Bool Bool where
  lockMethodTable := fun _ => ⟨1, fun _ => 2⟩
  procLocks := fun lock => [⟨lock, 2⟩]
  waitProcs := fun lock => [!lock]
  linked := fun _ => true
  waitLock := fun proc => some !proc
  waitLockMode := fun _ => 1
  isAutovacuum := fun _ => false
  queued := by decide
  nodup := by decide

/-- The first test already finds the hard cycle. -/
theorem mutualWait_hopeless (reached : Reached mutualWait true constraints) : constraints = [] := by
  induction reached with
  | start => rfl
  | add _ tested _ ih =>
    subst ih
    have none : (configuration mutualWait true []).isNone = true := by decide
    rw [tested] at none
    cases none

theorem deadLockCheckRecurse_mutualWait :
    (∃ d, deadLockCheckRecurse mutualWait 2 true 2 (.initial (fun _ => ⟨true, true⟩) []) =
      .ok (true, d)) ∧
    ¬RunsOut mutualWait 2 true ∧ ∀ order : Bool → List Bool, (∀ lock, (order lock).Perm (mutualWait.waitProcs lock)) →
      ∃ other, Relation.TransGen (WaitsFor mutualWait order) other other := by
  have room : ¬RunsOut mutualWait 2 true := by
    rintro ⟨constraints, -, reached, full, -⟩
    rw [mutualWait_hopeless reached] at full
    cases full
  have found : ∃ d, deadLockCheckRecurse mutualWait 2 true 2 (.initial (fun _ => ⟨true, true⟩) []) =
      .ok (true, d) := ⟨_, rfl⟩
  obtain ⟨answer, d, result, -, deadlock⟩ :=
    deadLockCheckRecurse_correct mutualWait 2 true (fun _ => ⟨true, true⟩) []
  obtain ⟨d', yes⟩ := found
  cases result.symm.trans yes
  exact ⟨⟨_, result⟩, room, deadlock rfl room⟩

end BlockchainPG.Storage.Deadlock
