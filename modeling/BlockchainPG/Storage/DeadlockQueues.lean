import BlockchainPG.Storage.Deadlock

/-! The orders of wait queues that `ExpandConstraints` and `TopoSort` propose. -/

namespace BlockchainPG.Storage.Deadlock

open Lib List Function

variable {Proc Lock : Type} [DecidableEq Proc]

section TopoSort

/-- An order of a queue meets a constraint. -/
def Satisfies (order : List Proc) (constraint : Edge Proc) : Prop := Ahead order constraint.waiter constraint.blocker

theorem foldl_add (constraints : List (Edge Proc)) (work : TopoWork Proc) (proc : Proc) :
    (constraints.foldl TopoWork.add work).beforeConstraints proc =
        work.beforeConstraints proc + constraints.countP (·.waiter = proc) ∧
      (constraints.foldl TopoWork.add work).afterConstraints proc =
        ((constraints.filter (·.blocker = proc)).map Edge.waiter).reverse ++ work.afterConstraints proc := by
  induction constraints generalizing work with
  | nil => exact ⟨rfl, rfl⟩
  | cons constraint rest ih =>
    obtain ⟨before, after⟩ := ih (work.add constraint)
    rw [foldl_cons, before, after, countP_cons, filter_cons]
    constructor
    · by_cases own : constraint.waiter = proc
      · subst own
        simp [TopoWork.add]
        omega
      · simp [TopoWork.add, own, update_of_ne (Ne.symm own)]
    · by_cases own : constraint.blocker = proc
      · subst own
        simp [TopoWork.add]
      · simp [TopoWork.add, own, update_of_ne (Ne.symm own)]

theorem discharge_eq (before : Proc → Nat) (waiters : List Proc) (proc : Proc) :
    discharge before waiters proc = before proc - waiters.count proc := by
  unfold discharge
  induction waiters generalizing before with
  | nil => rfl
  | cons waiter rest ih =>
    rw [foldl_cons, ih, count_cons]
    grind

/-- The state of the scan: what is left and what has been output are the queue, the counts are
those of the constraints whose later process is left, and what has been output meets the
constraints. -/
structure Outputs (constraints : List (Edge Proc)) (queue topoProcs : List Proc) (before : Proc → Nat)
    (ordering : List Proc) : Prop where
  perm : (topoProcs ++ ordering).Perm queue
  counts : ∀ proc, before proc = constraints.countP fun edge => edge.waiter = proc ∧ edge.blocker ∈ topoProcs
  meets : ∀ edge ∈ constraints, edge.waiter ∈ ordering → edge.blocker ∈ ordering ∧ Satisfies ordering edge

variable {constraints : List (Edge Proc)} {queue topoProcs ordering : List Proc} {before : Proc → Nat}
  {after : Proc → List Proc}

theorem countP_erase (constraints : List (Edge Proc)) (nodup : topoProcs.Nodup) (there : proc ∈ topoProcs)
    (other : Proc) :
    (constraints.countP fun edge => edge.waiter = other ∧ edge.blocker ∈ topoProcs.erase proc) =
      (constraints.countP fun edge => edge.waiter = other ∧ edge.blocker ∈ topoProcs) -
        ((constraints.filter (·.blocker = proc)).map Edge.waiter).count other := by
  have sum : (constraints.countP fun edge => edge.waiter = other ∧ edge.blocker ∈ topoProcs.erase proc) +
      ((constraints.filter (·.blocker = proc)).map Edge.waiter).count other =
      constraints.countP fun edge => edge.waiter = other ∧ edge.blocker ∈ topoProcs := by
    induction constraints with
    | nil => rfl
    | cons edge rest ih =>
      grind
  omega

theorem Outputs.step (outputs : Outputs constraints queue topoProcs before ordering) (nodup : queue.Nodup)
    (blockers : ∀ edge ∈ constraints, edge.blocker ∈ queue) (afters : ∀ proc other, (after proc).count other =
      ((constraints.filter (·.blocker = proc)).map Edge.waiter).count other)
    (there : proc ∈ topoProcs) (free : before proc = 0) :
    Outputs constraints queue (topoProcs.erase proc) (discharge before (after proc)) (proc :: ordering) := by
  have all : (topoProcs ++ ordering).Nodup := outputs.perm.nodup_iff.mpr nodup
  have nodup' := (nodup_append.mp all).1
  have absent : proc ∉ ordering := fun mem => (nodup_append.mp all).2.2 proc there proc mem rfl
  have perm : (topoProcs.erase proc ++ proc :: ordering).Perm queue :=
    (perm_middle.trans ((perm_cons_erase there).symm.append_right ordering)).trans outputs.perm
  refine ⟨perm, fun other => ?_, fun edge mem output => ?_⟩
  · rw [discharge_eq, outputs.counts, afters, countP_erase constraints nodup' there]
  · rcases mem_cons.mp output with own | early
    · -- its blocker has been output, as no constraint is left
      have none := outputs.counts proc
      grind [Satisfies, ahead_cons_self]
    · obtain ⟨output, ahead⟩ := outputs.meets edge mem early
      exact ⟨mem_cons_of_mem _ output,
        ahead.cons (fun same => absent (same ▸ early)) fun same => absent (same ▸ output)⟩

theorem topoOutput_spec (nodup : queue.Nodup) (blockers : ∀ edge ∈ constraints, edge.blocker ∈ queue)
    (afters : ∀ proc other, (after proc).count other =
      ((constraints.filter (·.blocker = proc)).map Edge.waiter).count other)
    (outputs : Outputs constraints queue topoProcs before ordering) (length : topoProcs.length = i) :
    match topoOutput after i topoProcs before ordering with
    | some order => order.Perm queue ∧ ∀ edge ∈ constraints, edge.waiter ∈ queue → Satisfies order edge
    | none => ∀ order : List Proc, ¬ ∀ edge ∈ constraints, Satisfies order edge := by
  induction i generalizing topoProcs before ordering with
  | zero =>
    rw [topoOutput]
    have perm := outputs.perm
    grind [Outputs.meets]
  | succ i ih =>
    rw [topoOutput]
    cases candidate : topoProcs.reverse.find? fun proc => before proc = 0 with
    | none =>
      intro order satisfied
      have nonempty : topoProcs ≠ [] := ne_nil_of_length_eq_add_one length
      obtain ⟨proc, left, last⟩ := exists_last nonempty order
      have pos := find?_eq_none.mp candidate proc (mem_reverse.mpr left)
      rw [decide_eq_true_eq, outputs.counts] at pos
      grind [Satisfies]
    | some proc =>
      have there := mem_reverse.mp (mem_of_find?_eq_some candidate)
      have free : decide (before proc = 0) = true := by simpa using find?_some candidate
      refine ih (outputs.step nodup blockers afters there (of_decide_eq_true free)) ?_
      rw [length_erase_of_mem there, length, Nat.add_sub_cancel]

variable [DecidableEq Lock] {table : LockTable Proc Lock}

def Between (table : LockTable Proc Lock) (constraint : Edge Proc) : Prop :=
  ∃ lock, table.waitLock constraint.waiter = some lock ∧ constraint.waiter ∈ table.waitProcs lock ∧
    constraint.blocker ∈ table.waitProcs lock

theorem topoSort_spec (constraints : List (Edge Proc)) (between : ∀ edge ∈ constraints, Between table edge)
    (lock : Lock) : match topoSort table lock constraints with
    | some order => order.Perm (table.waitProcs lock) ∧
        ∀ edge ∈ constraints, table.waitLock edge.waiter = some lock → Satisfies order edge
    | none => ∀ order : List Proc,
        ¬ ∀ edge ∈ constraints, table.waitLock edge.waiter = some lock → Satisfies order edge := by
  generalize relevantEq : (constraints.filter fun edge => table.waitLock edge.waiter = some lock) = relevant
  have mem (edge : Edge Proc) : edge ∈ relevant ↔ edge ∈ constraints ∧ table.waitLock edge.waiter = some lock := by
    rw [← relevantEq, mem_filter, decide_eq_true_eq]
  have inside (edge : Edge Proc) (listed : edge ∈ relevant) :
      edge.waiter ∈ table.waitProcs lock ∧ edge.blocker ∈ table.waitProcs lock := by
    obtain ⟨listed, locked⟩ := (mem edge).mp listed
    obtain ⟨lock', locked', both⟩ := between edge listed
    grind
  have adds := foldl_add relevant ⟨fun _ => 0, fun _ => []⟩
  have start : Outputs relevant (table.waitProcs lock) (table.waitProcs lock)
      (relevant.foldl TopoWork.add ⟨fun _ => 0, fun _ => []⟩).beforeConstraints [] := by
    constructor <;> grind [countP_congr]
  have afters (proc other : Proc) :
      ((relevant.foldl TopoWork.add ⟨fun _ => 0, fun _ => []⟩).afterConstraints proc).count other =
        ((relevant.filter (·.blocker = proc)).map Edge.waiter).count other := by
    rw [(adds proc).2, append_nil, count_reverse]
  have result := topoOutput_spec (table.nodup lock) (fun edge listed => (inside edge listed).2) afters start rfl
  unfold topoSort
  rw [relevantEq]
  dsimp only
  split
  · grind
  · next sorted =>
    rw [sorted] at result
    exact fun order satisfied => result order fun edge listed =>
      satisfied edge ((mem edge).mp listed).1 ((mem edge).mp listed).2

end TopoSort

section Expand

variable [DecidableEq Lock] {table : LockTable Proc Lock} {constraints : List (Edge Proc)}
  {waitOrders : List (WaitOrder Proc Lock)}

/-- The queues in some order meet a constraint. -/
def SatisfiedBy (table : LockTable Proc Lock) (order : Lock → List Proc) (edge : Edge Proc) : Prop :=
  ∀ lock, table.waitLock edge.waiter = some lock → Satisfies (order lock) edge

def OrdersOk (table : LockTable Proc Lock) (constraints : List (Edge Proc)) (waitOrders : List (WaitOrder Proc Lock)) :
    Prop :=
  ∀ order ∈ waitOrders, order.procs.Perm (table.waitProcs order.lock) ∧
    ∀ edge ∈ constraints, table.waitLock edge.waiter = some order.lock → Satisfies order.procs edge

/-- There are orders for the queues of the constraints from an index on. -/
def Covered (table : LockTable Proc Lock) (constraints : List (Edge Proc)) (i : Nat)
    (waitOrders : List (WaitOrder Proc Lock)) : Prop :=
  ∀ j edge lock, i ≤ j → constraints[j]? = some edge → table.waitLock edge.waiter = some lock →
    ∃ order ∈ waitOrders, order.lock = lock

omit [DecidableEq Proc] [DecidableEq Lock] in
theorem Covered.step (covered : Covered table constraints (i + 1) waitOrders)
    (here : ∀ edge lock, constraints[i]? = some edge → table.waitLock edge.waiter = some lock →
      ∃ order ∈ waitOrders, order.lock = lock) : Covered table constraints i waitOrders := by
  intro j edge lock least found locked
  by_cases own : j = i
  · subst own
    exact here edge lock found locked
  · exact covered j edge lock (by omega) found locked

theorem expandFirst_spec (between : ∀ edge ∈ constraints, Between table edge)
    (ok : OrdersOk table constraints waitOrders)
    (covered : Covered table constraints i waitOrders) : match expandFirst table constraints i waitOrders with
    | (true, waitOrders) => OrdersOk table constraints waitOrders ∧ Covered table constraints 0 waitOrders
    | (false, _) => ∀ order : Lock → List Proc, ¬ ∀ edge ∈ constraints, SatisfiedBy table order edge := by
  induction i generalizing waitOrders with
  | zero => exact ⟨ok, covered⟩
  | succ i ih =>
    rw [expandFirst]
    cases found : constraints[i]?.bind fun edge => table.waitLock edge.waiter with
    | none =>
      grind [Covered.step]
    | some lock =>
      simp only
      by_cases known : (waitOrders.any fun order => order.lock = lock) = true
      · grind [Covered.step]
      · rw [if_neg known]
        have spec := topoSort_spec (constraints.take (i + 1))
          (fun edge mem => between edge (mem_of_mem_take mem)) lock
        cases sorted : topoSort table lock (constraints.take (i + 1)) with
        | none =>
          rw [sorted] at spec
          intro order satisfied
          exact spec (order lock) fun edge mem locked => satisfied edge (mem_of_mem_take mem) lock locked
        | some procs =>
          rw [sorted] at spec
          have new : OrdersOk table constraints [⟨lock, procs⟩] := by
            intro order mem
            obtain rfl := mem_singleton.mp mem
            refine ⟨spec.1, fun edge mem locked => spec.2 edge ?_ locked⟩
            -- a constraint behind would have an order for its queue already
            obtain ⟨j, here⟩ := mem_iff_getElem?.mp mem
            by_cases early : j < i + 1
            · refine mem_of_getElem? (i := j) ?_
              rw [getElem?_take_of_lt early, here]
            · obtain ⟨order, mem, same⟩ := covered j edge lock (by omega) here locked
              grind
          refine ih (fun order mem => ?_) (Covered.step ?_ fun edge lock' here locked => ?_)
          · rcases mem_append.mp mem with old | fresh
            · exact ok order old
            · exact new order fresh
          · intro j edge lock' least here locked
            obtain ⟨order, mem, same⟩ := covered j edge lock' least here locked
            exact ⟨order, mem_append_left _ mem, same⟩
          · rw [here, Option.bind_some, locked, Option.some.injEq] at found
            exact ⟨⟨lock, procs⟩, mem_append_right _ mem_cons_self, found.symm⟩

/-- What `ExpandConstraints` proposes are orders of the queues that meet the constraints; it fails
only if there are none. -/
theorem expandConstraints_spec (between : ∀ edge ∈ constraints, Between table edge) :
    match expandConstraints table constraints with
    | (true, waitOrders) => (∀ order ∈ waitOrders, order.procs.Perm (table.waitProcs order.lock)) ∧
        ∀ edge ∈ constraints, SatisfiedBy table (queueOrder table waitOrders) edge
    | (false, _) => ∀ order : Lock → List Proc, ¬ ∀ edge ∈ constraints, SatisfiedBy table order edge := by
  have none : Covered table constraints constraints.length ([] : List (WaitOrder Proc Lock)) := by
    intro j edge lock least here
    rw [getElem?_eq_none least] at here
    cases here
  have spec := expandFirst_spec between (fun order no => absurd no not_mem_nil) none
  unfold expandConstraints
  generalize expandFirst table constraints constraints.length [] = outcome at spec ⊢
  obtain ⟨answer, waitOrders⟩ := outcome
  cases answer with
  | false => exact spec
  | true =>
    obtain ⟨ok, covered⟩ := spec
    refine ⟨fun order mem => (ok order mem).1, fun edge mem lock locked => ?_⟩
    obtain ⟨j, here⟩ := mem_iff_getElem?.mp mem
    obtain ⟨order, proposed, same⟩ := covered j edge lock (Nat.zero_le j) here locked
    unfold queueOrder
    cases found : waitOrders.find? fun order => order.lock = lock with
    | none => exact absurd (decide_eq_true same) (find?_eq_none.mp found order proposed)
    | some order' =>
      have lock' : decide (order'.lock = lock) = true := by simpa using find?_some found
      exact (ok order' (mem_of_find?_eq_some found)).2 edge mem (by rw [of_decide_eq_true lock']; exact locked)

omit [DecidableEq Proc] in
theorem queueOrder_reorders (perm : ∀ order ∈ waitOrders, order.procs.Perm (table.waitProcs order.lock)) :
    Reorders table (queueOrder table waitOrders) := by
  intro lock
  grind [queueOrder, List.Perm.refl]

end Expand

end BlockchainPG.Storage.Deadlock
