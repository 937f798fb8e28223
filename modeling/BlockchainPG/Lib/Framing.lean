import Mathlib.Data.List.Induction

/-! A receiver that works on the whole frames of a stream. -/

namespace BlockchainPG.Lib

open List

variable {σ : Type u} {β : Type v} {φ : Type w}

/-- Works on frames as long as a whole one is there. -/
def drain (parse : σ → List β → Option (σ × List β)) : Nat → σ → List β → σ × List β
  | 0, state, buffer => (state, buffer)
  | fuel + 1, state, buffer =>
    match parse state buffer with
    | none => (state, buffer)
    | some (next, rest) => drain parse fuel next rest

/-- What arrives is put behind what is left in the buffer. -/
def feed (parse : σ → List β → Option (σ × List β)) (receiver : σ × List β) (arrived : List β) : σ × List β :=
  drain parse (receiver.2 ++ arrived).length receiver.1 (receiver.2 ++ arrived)

/-- The parser makes one step for each whole frame and waits for the rest of one. -/
structure Framed (parse : σ → List β → Option (σ × List β)) (step : σ → φ → σ) (bytes : φ → List β) : Prop where
  whole : ∀ state frame rest, parse state (bytes frame ++ rest) = some (step state frame, rest)
  part : ∀ state frame front back, bytes frame = front ++ back → back ≠ [] → parse state front = none
  idle : ∀ state, parse state [] = none

/-- The beginning of a frame that is not yet there as a whole. -/
def Unfinished (bytes : φ → List β) (front : List β) : Prop :=
  front = [] ∨ ∃ frame back, bytes frame = front ++ back ∧ back ≠ []

theorem exists_cut {bytes : φ → List β} {frames : List φ} {front : List β} (unfinished : Unfinished bytes front)
    (stream : early ++ late = frames.flatMap bytes ++ front) :
    ∃ done more cut, frames = done ++ more ∧ early = done.flatMap bytes ++ cut ∧ Unfinished bytes cut := by
  induction frames generalizing early with
  | nil =>
    refine ⟨[], [], early, rfl, rfl, ?_⟩
    rw [flatMap_nil, nil_append] at stream
    rcases unfinished with none | ⟨frame, back, whole, more⟩
    · rw [none] at stream
      exact Or.inl (append_eq_nil_iff.mp stream).1
    · refine Or.inr ⟨frame, late ++ back, ?_, fun none => more (append_eq_nil_iff.mp none).2⟩
      rw [whole, ← stream, append_assoc]
  | cons frame frames ih =>
    rw [flatMap_cons, append_assoc, append_eq_append_iff] at stream
    rcases stream with ⟨back, whole, -⟩ | ⟨rest, whole, stream⟩
    · by_cases none : back = []
      · refine ⟨[frame], frames, [], rfl, ?_, Or.inl rfl⟩
        simp [whole, none]
      · exact ⟨[], frame :: frames, early, rfl, rfl, Or.inr ⟨frame, back, whole, none⟩⟩
    · obtain ⟨done, more, cut, rfl, rfl, unfinishedCut⟩ := ih stream.symm
      refine ⟨frame :: done, more, cut, rfl, ?_, unfinishedCut⟩
      simp [whole]

namespace Framed

variable {parse : σ → List β → Option (σ × List β)} {step : σ → φ → σ} {bytes : φ → List β}

section

variable (framed : Framed parse step bytes)
include framed

theorem bytes_ne_nil (state : σ) (frame : φ) : bytes frame ≠ [] := by
  intro none
  have whole := framed.whole state frame []
  rw [none, append_nil, framed.idle] at whole
  cases whole

theorem waits (unfinished : Unfinished bytes front) (state : σ) : parse state front = none := by
  rcases unfinished with rfl | ⟨frame, back, whole, more⟩
  · exact framed.idle state
  · exact framed.part state frame front back whole more

theorem drain_eq (unfinished : Unfinished bytes front) {frames : List φ} (enough : frames.length ≤ fuel) (state : σ) :
    drain parse fuel state (frames.flatMap bytes ++ front) = (frames.foldl step state, front) := by
  induction frames generalizing fuel state with
  | nil =>
    cases fuel with
    | zero => rfl
    | succ fuel => simp [drain, framed.waits unfinished]
  | cons frame frames ih =>
    cases fuel with
    | zero => exact absurd enough (by simp)
    | succ fuel =>
      rw [flatMap_cons, append_assoc, drain, framed.whole]
      exact ih (Nat.le_of_succ_le_succ enough) (step state frame)

theorem length_le (state : σ) (frames : List φ) : frames.length ≤ (frames.flatMap bytes).length := by
  induction frames with
  | nil => simp
  | cons frame frames ih =>
    have pos := length_pos_iff.mpr (framed.bytes_ne_nil state frame)
    rw [flatMap_cons, length_append, length_cons]
    omega

/-- Whatever the arrivals are, the receiver has worked on the whole frames among them. -/
theorem feed_eq (unfinished : Unfinished bytes front) {frames : List φ} (state : σ)
    {arrivals : List (List β)} (stream : arrivals.flatten = frames.flatMap bytes ++ front) :
    arrivals.foldl (feed parse) (state, []) = (frames.foldl step state, front) := by
  induction arrivals using reverseRecOn generalizing frames front with
  | nil =>
    have none := append_eq_nil_iff.mp stream.symm
    have few := framed.length_le state frames
    rw [none.1, length_nil, Nat.le_zero, length_eq_zero_iff] at few
    rw [few, none.2]
    rfl
  | append_singleton arrivals last ih =>
    rw [flatten_append, flatten_singleton] at stream
    obtain ⟨done, more, cut, rfl, early, unfinishedCut⟩ := exists_cut unfinished stream
    rw [foldl_append, ih unfinishedCut early, foldl_append, foldl_cons, foldl_nil, feed]
    rw [early, flatMap_append, append_assoc, append_assoc, append_cancel_left_eq] at stream
    rw [stream]
    refine framed.drain_eq unfinished ?_ _
    have enough := framed.length_le state more
    rw [length_append]
    omega

end

end Framed

end BlockchainPG.Lib
