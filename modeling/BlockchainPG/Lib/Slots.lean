import Mathlib.Data.List.Basic

/-! Arrays as functions on slot numbers, and the counting loops that move their contents. -/

namespace BlockchainPG.Lib

open Function List

/-- `for (i = lo; i < hi; i++) body` -/
def forUp (lo hi : Nat) (body : Nat → σ → σ) (state : σ) : σ :=
  (range' lo (hi - lo)).foldl (fun state i => body i state) state

/-- `for (i = hi; i > lo; i--) body` -/
def forDown (hi lo : Nat) (body : Nat → σ → σ) (state : σ) : σ :=
  (range' (lo + 1) (hi - lo)).foldr body state

theorem forUp_succ (body : Nat → σ → σ) (state : σ) (inside : lo ≤ hi) :
    forUp lo (hi + 1) body state = body hi (forUp lo hi body state) := by
  have width : hi + 1 - lo = (hi - lo) + 1 := by omega
  grind [forUp, range'_concat]

theorem forUp_empty (body : Nat → σ → σ) (state : σ) (empty : hi ≤ lo) : forUp lo hi body state = state := by
  have width : hi - lo = 0 := by omega
  simp [forUp, width]

theorem forDown_succ (body : Nat → σ → σ) (state : σ) (inside : lo < hi) :
    forDown hi lo body state = body (lo + 1) (forDown hi (lo + 1) body state) := by
  have width : hi - lo = (hi - (lo + 1)) + 1 := by omega
  simp [forDown, width, range'_succ]

theorem forDown_empty (body : Nat → σ → σ) (state : σ) (empty : hi ≤ lo) : forDown hi lo body state = state := by
  have width : hi - lo = 0 := by omega
  simp [forDown, width]

/-- What every iteration of a counting loop preserves holds after the loop. -/
theorem forUp_invariant {motive : Nat → σ → Prop} {body : Nat → σ → σ} {state : σ}
    (ordered : lo ≤ hi) (start : motive lo state)
    (step : ∀ i state, lo ≤ i → i < hi → motive i state → motive (i + 1) (body i state)) :
    motive hi (forUp lo hi body state) := by
  obtain ⟨width, rfl⟩ : ∃ width, hi = lo + width := ⟨hi - lo, by omega⟩
  clear ordered
  induction width with
  | zero => simpa [forUp_empty] using start
  | succ width ih =>
    grind [forUp_succ]

theorem forDown_invariant {motive : Nat → σ → Prop} {body : Nat → σ → σ} {state : σ}
    (ordered : lo ≤ hi) (start : motive hi state)
    (step : ∀ i state, lo ≤ i → i < hi → motive (i + 1) state → motive i (body (i + 1) state)) :
    motive lo (forDown hi lo body state) := by
  obtain ⟨width, rfl⟩ : ∃ width, hi = lo + width := ⟨hi - lo, by omega⟩
  clear ordered
  induction width generalizing lo with
  | zero => simpa [forDown_empty] using start
  | succ width ih =>
    rw [forDown_succ _ _ (by omega)]
    have same : lo + (width + 1) = lo + 1 + width := by omega
    rw [same] at start step ⊢
    exact step lo _ (by omega) (by omega)
      (ih start fun i state low high => step i state (by omega) high)

section

variable (view : σ → τ) {body : Nat → σ → σ} (step : ∀ i state, view (body i state) = view state) (state : σ)
include view body step state

/-- A projection that no iteration changes is not changed by the loop. -/
theorem forUp_frame : view (forUp lo hi body state) = view state := by
  unfold forUp
  generalize range' lo (hi - lo) = indices
  induction indices generalizing state with
  | nil => rfl
  | cons i rest ih => simp only [foldl_cons, ih, step]

theorem forDown_frame : view (forDown hi lo body state) = view state := by
  unfold forDown
  generalize range' (lo + 1) (hi - lo) = indices
  induction indices with
  | nil => rfl
  | cons i rest ih => rw [foldr_cons, step, ih]

end

/-- `for (i = from, j = 0; i < to; j++) if (j != hole) { body; i++; }` with at
most `fuel` rounds. The value `j` leaves with comes first. -/
def gapLoop (stop hole : Nat) (body : Nat → Nat → σ → σ) : (fuel i j : Nat) → σ → Nat × σ
  | 0, _, j, state => (j, state)
  | fuel + 1, i, j, state =>
    if i < stop then
      if j = hole then gapLoop stop hole body fuel i (j + 1) state
      else gapLoop stop hole body fuel (i + 1) (j + 1) (body i j state)
    else (j, state)

theorem gapLoop_frame (view : σ → τ) (step : ∀ i j state, view (body i j state) = view state) (state : σ) :
    view (gapLoop stop hole body fuel i j state).2 = view state := by
  induction fuel generalizing i j state with
  | zero => rfl
  | succ fuel ih =>
    grind [gapLoop]

/-- What every round preserves holds when the loop has reached its end. -/
theorem gapLoop_invariant {motive : Nat → Nat → σ → Prop} {body : Nat → Nat → σ → σ} {state : σ}
    (ordered : i ≤ stop) (enough : stop - i + (if j ≤ hole then 1 else 0) ≤ fuel) (start : motive i j state)
    (skip : ∀ i state, i < stop → motive i hole state → motive i (hole + 1) state)
    (step : ∀ i j state, i < stop → j ≠ hole → motive i j state → motive (i + 1) (j + 1) (body i j state)) :
    motive stop (gapLoop stop hole body fuel i j state).1 (gapLoop stop hole body fuel i j state).2 := by
  induction fuel generalizing i j state with
  | zero =>
    obtain rfl : i = stop := by omega
    exact start
  | succ fuel ih =>
    unfold gapLoop
    by_cases more : i < stop
    · grind
    · grind

section Arrays

variable {α : Type u} (array : Nat → α)

/-- `for (i = hi; i > lo; i--) a[i] = a[i - 1]` -/
def shiftRight (lo hi : Nat) : Nat → α :=
  forDown hi lo (fun i array => update array i (array (i - 1))) array

/-- `for (i = lo; i < hi; i++) a[i] = a[i + 1]` -/
def shiftLeft (lo hi : Nat) : Nat → α :=
  forUp lo hi (fun i array => update array i (array (i + 1))) array

/-- `for (i = from, j = 0; j < n; i++, j++) a[j] = a[i]` -/
def moveDown (start n : Nat) : Nat → α :=
  forUp 0 n (fun j array => update array j (array (start + j))) array

/-- `for (i = from, j = at; i < from + n; i++, j++) dst[j] = src[i]` -/
def copyRow (destination : Nat → α) (position start n : Nat) : Nat → α :=
  forUp 0 n (fun q row => update row (position + q) (array (start + q))) destination

/-- `for (i = at, j = 0; j < n; j++) if (j != skip) dst[i++] = src[j]` -/
def copySkip (destination : Nat → α) (position n skip : Nat) : Nat × (Nat → α) :=
  forUp 0 n (fun j (i, row) => if j ≠ skip then (i + 1, update row i (array j)) else (i, row))
    (position, destination)

/-- `for (i = from, j = 0; i < to; j++) if (j == hole) dst[j] = fill; else dst[j] = src[i++]`,
or the same loop that leaves the hole as it was when there is no `fill`. The
loop ends within `to - from + 1` iterations; the value `j` leaves with comes first. -/
def copyGap (fill : Option α) (stop hole : Nat) :
    (fuel i j : Nat) → (Nat → α) → Nat × (Nat → α)
  | 0, _, j, row => (j, row)
  | fuel + 1, i, j, row =>
    if i < stop then
      if j = hole then copyGap fill stop hole fuel i (j + 1) (update row j (fill.getD (row j)))
      else copyGap fill stop hole fuel (i + 1) (j + 1) (update row j (array i))
    else (j, row)

def insertAt (position : Nat) (value : α) : Nat → α := fun i =>
  if i < position then array i else if i = position then value else array (i - 1)

/-- The array with one slot taken out. -/
def removeAt (position : Nat) : Nat → α := fun i => if i < position then array i else array (i + 1)

/-- The first `n` slots of one array, then those of another. -/
def appendAt (n : Nat) (back : Nat → α) : Nat → α := fun i => if i < n then array i else back (i - n)

/-- The first `n` slots of an array. -/
def slots (n : Nat) : List α := (range n).map array

variable {array}

theorem shiftRight_apply (ordered : lo ≤ hi) (j : Nat) :
    shiftRight array lo hi j = if lo < j ∧ j ≤ hi then array (j - 1) else array j := by
  refine forDown_invariant (motive := fun low (row : Nat → α) =>
    ∀ j, row j = if low < j ∧ j ≤ hi then array (j - 1) else array j) ordered ?_ ?_ j
  · intro j
    rw [if_neg (by omega)]
  · grind

theorem shiftLeft_apply (ordered : lo ≤ hi) (j : Nat) :
    shiftLeft array lo hi j = if lo ≤ j ∧ j < hi then array (j + 1) else array j := by
  refine forUp_invariant (motive := fun high (row : Nat → α) =>
    ∀ j, row j = if lo ≤ j ∧ j < high then array (j + 1) else array j) ordered ?_ ?_ j
  · intro j
    rw [if_neg (by omega)]
  · grind

theorem moveDown_apply (start n j : Nat) :
    moveDown array start n j = if j < n then array (start + j) else array j := by
  refine forUp_invariant (motive := fun high (row : Nat → α) =>
    ∀ j, row j = if j < high then array (start + j) else array j) (Nat.zero_le n) ?_ ?_ j
  · intro j
    rw [if_neg (by omega)]
  · grind

theorem copyRow_apply (destination : Nat → α) (position start n j : Nat) :
    copyRow array destination position start n j =
      if position ≤ j ∧ j < position + n then array (start + (j - position)) else destination j := by
  refine forUp_invariant (motive := fun high (row : Nat → α) => ∀ j, row j =
    if position ≤ j ∧ j < position + high then array (start + (j - position)) else destination j)
    (Nat.zero_le n) ?_ ?_ j
  · intro j
    rw [if_neg (by omega)]
  · grind

/-- After a copy that leaves out one slot, both the next free slot and the
contents are those of the source with that slot erased. -/
theorem copySkip_apply (destination : Nat → α) (position : Nat) (inside : skip < n) :
    (copySkip array destination position n skip).1 = position + (n - 1) ∧
    ∀ j, (copySkip array destination position n skip).2 j = if position ≤ j ∧ j < position + (n - 1) then
        array (if j - position < skip then j - position else j - position + 1) else destination j := by
  have run : (copySkip array destination position n skip).1 = position + (if n ≤ skip then n else n - 1) ∧
      ∀ j, (copySkip array destination position n skip).2 j =
        if position ≤ j ∧ j < (copySkip array destination position n skip).1 then
          array (if j - position < skip then j - position else j - position + 1)
        else destination j := by
    refine forUp_invariant (motive := fun high (state : Nat × (Nat → α)) =>
      state.1 = position + (if high ≤ skip then high else high - 1) ∧
      ∀ j, state.2 j = if position ≤ j ∧ j < state.1 then
          array (if j - position < skip then j - position else j - position + 1)
        else destination j) (Nat.zero_le n) ⟨by simp, fun j => by rw [if_neg (by simp)]⟩ ?_
    rintro i ⟨next, row⟩ - - ⟨here, contents⟩
    by_cases same : i = skip
    · subst same
      simp_all
    · simp only [ne_eq, same, not_false_eq_true, ↓reduceIte]
      grind
  grind

/-- What a copy around a hole has written when `j` slots are behind it. -/
private def GapFilled (array row : Nat → α) (fill : Option α) (start hole j : Nat)
    (now : Nat → α) : Prop :=
  ∀ q, now q = if q < j then
      if q < hole then array (start + q) else if q = hole then fill.getD (row q)
      else array (start + q - 1)
    else row q

private theorem copyGap_run (array : Nat → α) (fill : Option α) (start stop hole : Nat) (row : Nat → α) :
    ∀ fuel i j now, i ≤ stop → (j ≤ hole → i = start + j) → (hole < j → i + 1 = start + j) →
      stop - i + (if j ≤ hole then 1 else 0) ≤ fuel → GapFilled array row fill start hole j now →
      (copyGap array fill stop hole fuel i j now).1 =
        (if hole < stop - start ∨ hole < j then stop + 1 - start else stop - start) ∧
      GapFilled array row fill start hole (copyGap array fill stop hole fuel i j now).1
        (copyGap array fill stop hole fuel i j now).2 := by
  intro fuel
  induction fuel with
  | zero =>
    grind [copyGap]
  | succ fuel ih =>
    intro i j now bound before after enough filled
    rw [copyGap]
    by_cases more : i < stop
    · rw [if_pos more]
      by_cases here : j = hole
      · subst here
        have at_hole := before (Nat.le_refl j)
        rw [if_pos rfl]
        have next := ih i (j + 1) (update now j (fill.getD (now j))) bound (by omega) (by omega)
          (by rw [if_neg (by omega)]; rw [if_pos (Nat.le_refl j)] at enough; omega) (by
            intro q
            simp only [update_apply, filled q, filled j]
            split_ifs <;> first | rfl | omega | (subst_vars; rfl))
        grind
      · rw [if_neg here]
        have next := ih (i + 1) (j + 1) (update now j (array i)) more
          (fun early => by have := before (by omega); omega)
          (fun late => by have := after (by omega); omega)
          (by split_ifs at enough ⊢ <;> omega) (by
            intro q
            simp only [update_apply, filled q]
            by_cases early : j < hole
            · grind
            · have := after (by omega)
              split_ifs <;> first | rfl | omega | (congr 1; omega))
        grind
    · grind

/-- A copy around a hole ends one slot further exactly if it met the hole, and
the copied slots are the source's with the hole opened in front of them. -/
theorem copyGap_apply (array : Nat → α) (fill : Option α) (hole : Nat) (row : Nat → α) (ordered : start ≤ stop) :
    (copyGap array fill stop hole (stop - start + 1) start 0 row).1 =
      (if hole < stop - start then stop + 1 - start else stop - start) ∧
    ∀ q, (copyGap array fill stop hole (stop - start + 1) start 0 row).2 q =
      if q < (copyGap array fill stop hole (stop - start + 1) start 0 row).1 then
        if q < hole then array (start + q) else if q = hole then fill.getD (row q) else array (start + q - 1)
      else row q := by
  have run := copyGap_run array fill start stop hole row (stop - start + 1) start 0 row
    ordered (by omega) (by omega) (by simp) (by intro q; rw [if_neg (by omega)])
  exact ⟨by simpa using run.1, run.2⟩

@[simp] theorem slots_length (array : Nat → α) (n : Nat) : (slots array n).length = n := by
  simp [slots]

@[simp] theorem slots_zero (array : Nat → α) : slots array 0 = [] := rfl

theorem slots_getElem? (array : Nat → α) (n i : Nat) :
    (slots array n)[i]? = if i < n then some (array i) else none := by
  by_cases inside : i < n <;> simp [slots, inside]

@[simp] theorem slots_getElem (array : Nat → α) (n i : Nat) (inside : i < (slots array n).length) :
    (slots array n)[i] = array i := by
  simp [slots]

theorem mem_slots : x ∈ slots array n ↔ ∃ i < n, array i = x := by
  simp [slots]

theorem slots_congr (same : ∀ i < n, array i = other i) : slots array n = slots other n :=
  map_congr_left fun i mem => same i (mem_range.mp mem)

theorem slots_succ (array : Nat → α) (n : Nat) : slots array (n + 1) = slots array n ++ [array n] := by
  simp [slots, range_succ]

theorem slots_eq_cons (array : Nat → α) (n : Nat) :
    slots array (n + 1) = array 0 :: slots (fun i => array (i + 1)) n := by
  simp [slots, range_succ_eq_map]

theorem insertAt_of_lt (less : i < position) (value : α) : insertAt array position value i = array i :=
  if_pos less

theorem insertAt_self (position : Nat) (value : α) : insertAt array position value position = value := by
  simp [insertAt]

theorem insertAt_of_gt (more : position < i) (value : α) : insertAt array position value i = array (i - 1) := by
  rw [insertAt, if_neg (by omega), if_neg (by omega)]

theorem insertAt_zero_succ (value : α) (i : Nat) : insertAt array 0 value (i + 1) = array i := rfl

theorem removeAt_of_lt (less : i < position) : removeAt array position i = array i := if_pos less

theorem removeAt_of_ge (more : position ≤ i) : removeAt array position i = array (i + 1) :=
  if_neg (by omega)

theorem slots_insertAt (inside : position ≤ n) (value : α) : slots (insertAt array position value) (n + 1) =
      (slots array n).take position ++ value :: (slots array n).drop position := by
  apply ext_getElem?
  grind [slots_getElem?, insertAt, slots_length]

theorem slots_insertAt_zero (n : Nat) (value : α) :
    slots (insertAt array 0 value) (n + 1) = value :: slots array n := by
  grind [slots_insertAt]

theorem slots_update (array : Nat → α) (n i : Nat) (value : α) :
    slots (Function.update array i value) n = (slots array n).set i value := by
  apply ext_getElem?
  grind [slots_getElem?, slots_length]

theorem slots_injective (distinct : (slots array n).Nodup) (left : i < n) (right : j < n)
    (same : array i = array j) : i = j := by
  have inside : i < (slots array n).length := by simpa using left
  refine (getElem?_inj inside distinct).mp ?_
  grind [slots_getElem?]

theorem slots_removeAt (inside : position < n) :
    slots (removeAt array position) (n - 1) = (slots array n).eraseIdx position := by
  apply ext_getElem?
  grind [slots_getElem?, removeAt]

theorem appendAt_of_lt (less : i < n) (back : Nat → α) : appendAt array n back i = array i := if_pos less

theorem appendAt_add (n i : Nat) (back : Nat → α) : appendAt array n back (n + i) = back i := by
  rw [appendAt, if_neg (by omega), Nat.add_sub_cancel_left]

theorem slots_appendAt (back : Nat → α) (n m : Nat) :
    slots (appendAt array n back) (n + m) = slots array n ++ slots back m := by
  apply ext_getElem?
  intro i
  simp only [slots_getElem?, appendAt, getElem?_append, slots_length]
  grind

/-- Rearranging the slots commutes with reading one component of each. -/
theorem comp_insertAt (f : α → β) (position : Nat) (value : α) :
    f ∘ insertAt array position value = insertAt (f ∘ array) position (f value) := by
  funext i
  simp only [comp_apply, insertAt]
  grind

theorem comp_removeAt (f : α → β) (position : Nat) : f ∘ removeAt array position = removeAt (f ∘ array) position := by
  funext i
  simp only [comp_apply, removeAt]
  grind

theorem comp_appendAt (f : α → β) (n : Nat) (back : Nat → α) :
    f ∘ appendAt array n back = appendAt (f ∘ array) n (f ∘ back) := by
  funext i
  simp only [comp_apply, appendAt]
  grind

theorem slots_map (f : α → β) (n : Nat) : (slots array n).map f = slots (f ∘ array) n := by
  simp [slots]

theorem slots_take (array : Nat → α) (inside : k ≤ n) : (slots array n).take k = slots array k := by
  apply ext_getElem?
  intro i
  simp only [slots_getElem?, getElem?_take]
  grind

theorem slots_drop (array : Nat → α) (n k : Nat) :
    (slots array n).drop k = slots (fun i => array (k + i)) (n - k) := by
  apply ext_getElem?
  intro i
  simp only [slots_getElem?, getElem?_drop]
  grind

end Arrays

end BlockchainPG.Lib
