/-! Runs of a deterministic machine, also beside an abstract one. -/

namespace BlockchainPG.Lib

variable {σ : Type u} {τ : Type v} {ι : Type w}
variable {step : σ → ι → σ} {condition : σ → ι → Prop} {invariant : σ → Prop} {abstract : τ → ι → τ}
  {related : σ → τ → Prop}

/-- The state after a list of commands. -/
def run (step : σ → ι → σ) (s : σ) (commands : List ι) : σ := commands.foldl step s

def Meets (step : σ → ι → σ) (condition : σ → ι → Prop) : σ → List ι → Prop
  | _, [] => True
  | s, command :: rest => condition s command ∧ Meets step condition (step s command) rest

instance Meets.decidable {step : σ → ι → σ} {condition : σ → ι → Prop}
    [∀ s command, Decidable (condition s command)] :
    ∀ s commands, Decidable (Meets step condition s commands)
  | _, [] => isTrue trivial
  | s, command :: rest =>
    have : Decidable (Meets step condition (step s command) rest) := Meets.decidable (step s command) rest
    inferInstanceAs (Decidable (_ ∧ _))

/-- A relation to the states of an abstract machine that every allowed step
keeps holds after every run of allowed steps. -/
theorem Meets.simulates
    (meets : Meets step condition s commands) (start : related s image)
    (keeps : ∀ s image command, related s image → condition s command →
      related (step s command) (abstract image command)) :
    related (run step s commands) (run abstract image commands) := by
  induction commands generalizing s image with
  | nil => exact start
  | cons command rest ih => exact ih meets.2 (keeps s image command start meets.1)

/-- What every allowed step keeps holds after every run of allowed steps. -/
theorem Meets.keeps (meets : Meets step condition s commands) (start : invariant s)
    (keeps : ∀ s command, invariant s → condition s command → invariant (step s command)) :
    invariant (run step s commands) := by
  induction commands generalizing s with
  | nil => exact start
  | cons command rest ih => exact ih meets.2 (keeps s command start meets.1)

/-- What a condition and an invariant say together holds at every step of a run. -/
theorem Meets.gives (meets : Meets step condition s commands) (start : invariant s)
    (keeps : ∀ s command, invariant s → condition s command → invariant (step s command))
    (gives : ∀ s command, invariant s → condition s command → consequence s command) :
    Meets step consequence s commands := by
  induction commands generalizing s with
  | nil => trivial
  | cons command rest ih =>
    exact ⟨gives s command start meets.1, ih meets.2 (keeps s command start meets.1)⟩

theorem run_keeps (start : invariant s)
    (keeps : ∀ s command, invariant s → invariant (step s command)) (commands : List ι) :
    invariant (run step s commands) := by
  induction commands generalizing s with
  | nil => exact start
  | cons command rest ih => exact ih (keeps s command start)

/-- A relation to the states of an abstract machine that every step keeps holds after every run. -/
theorem run_simulates (start : related s image)
    (keeps : ∀ s image command, related s image → related (step s command) (abstract image command))
    (commands : List ι) : related (run step s commands) (run abstract image commands) := by
  induction commands generalizing s image with
  | nil => exact start
  | cons command rest ih => exact ih (keeps s image command start)

def answers (step : σ → ι → σ) (answer : σ → ι → ο) : σ → List ι → List ο
  | _, [] => []
  | s, command :: rest => answer s command :: answers step answer (step s command) rest

/-- A machine that follows an abstract one and answers like it gives the same answers in every run. -/
theorem answers_eq (start : related s image)
    (keeps : ∀ s image command, related s image → related (step s command) (abstract image command))
    (agree : ∀ s image command, related s image → answer s command = expected image command)
    (commands : List ι) : answers step answer s commands = answers abstract expected image commands := by
  induction commands generalizing s image with
  | nil => rfl
  | cons command rest ih =>
    rw [answers, answers, agree _ _ command start, ih (keeps _ _ command start)]

theorem run_append (step : σ → ι → σ) (s : σ) (first second : List ι) :
    run step s (first ++ second) = run step (run step s first) second :=
  List.foldl_append ..

/-- Rounds that can always be followed by another one can be continued for ever. -/
theorem rounds_forever {good : σ → Prop} {round : σ → List ι → Prop} (start : good s)
    (next : ∀ s, good s → ∃ commands, round s commands ∧ good (run step s commands)) :
    ∃ rounds : Nat → List ι, ∀ n, good (run step s ((List.range n).flatMap rounds)) ∧
      round (run step s ((List.range n).flatMap rounds)) (rounds n) := by
  have total : ∀ s, ∃ commands, good s → round s commands ∧ good (run step s commands) := by
    intro s
    by_cases here : good s
    · obtain ⟨commands, after⟩ := next s here
      exact ⟨commands, fun _ => after⟩
    · exact ⟨[], fun no => absurd no here⟩
  let choice := fun s => Classical.choose (total s)
  let states : Nat → σ := fun n => n.rec s fun _ s => run step s (choice s)
  have reached : ∀ n, run step s ((List.range n).flatMap fun n => choice (states n)) = states n := by
    intro n
    induction n with
    | zero => rfl
    | succ n ih =>
      rw [List.range_succ, List.flatMap_append, run_append, ih, List.flatMap_singleton]
  have stays : ∀ n, good (states n) := by
    intro n
    induction n with
    | zero => exact start
    | succ n ih => exact (Classical.choose_spec (total (states n)) ih).2
  refine ⟨fun n => choice (states n), fun n => ?_⟩
  rw [reached]
  exact ⟨stays n, (Classical.choose_spec (total (states n)) (stays n)).1⟩

end BlockchainPG.Lib
