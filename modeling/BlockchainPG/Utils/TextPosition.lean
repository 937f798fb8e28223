import Mathlib

/-! The search for a text in another one of `varlena.c`, by Boyer, Moore and Horspool. -/

namespace BlockchainPG.Utils.TextPosition

open Function List

/-- The characters, bytes or wide ones, are numbers. -/
structure TextPositionState where
  str1 : List Nat
  str2 : List Nat
  skiptablemask : Nat
  skiptable : Nat → Nat

def chooseMask (searchlength : Nat) : Nat :=
  if searchlength < 16 then 3
  else if searchlength < 64 then 7
  else if searchlength < 128 then 15
  else if searchlength < 512 then 31
  else if searchlength < 2048 then 63
  else if searchlength < 4096 then 127
  else 255

/-- The loop of `text_position_setup` over the first characters of the needle. -/
def fillTable (str2 : List Nat) (mask n : Nat) (table : Nat → Nat) : Nat → Nat :=
  (List.range n).foldl (fun table i => update table (str2.getD i 0 &&& mask) (str2.length - 1 - i)) table

/-- `text_position_setup`; what it does not set is as it was in `memory`. -/
def textPositionSetup (memory : TextPositionState) (t1 t2 : List Nat) : TextPositionState :=
  if t1.length ≥ t2.length ∧ t2.length > 1 then
    let mask := chooseMask (t1.length - t2.length)
    ⟨t1, t2, mask, fillTable t2 mask (t2.length - 1) fun i => if i ≤ mask then t2.length else memory.skiptable i⟩
  else { memory with str1 := t1, str2 := t2 }

/-- The search for a needle of one character. -/
def scan (nchar : Nat) : (rest : List Nat) → (hptr : Nat) → Nat
  | [], _ => 0
  | c :: rest, hptr => if c = nchar then hptr + 1 else scan nchar rest (hptr + 1)

/-- The needle is matched backward from `needle[n]` and `haystack[p]` on. -/
def matchBack (haystack needle : List Nat) : (n p : Nat) → Option Nat
  | 0, p => if needle.getD 0 0 = haystack.getD p 0 then some (p + 1) else none
  | n + 1, p => if needle.getD (n + 1) 0 = haystack.getD p 0 then matchBack haystack needle n (p - 1) else none

/-- The search with skips, for at most `fuel` places. -/
def skipLoop (state : TextPositionState) : (fuel hptr : Nat) → Option Nat
  | 0, _ => none
  | fuel + 1, hptr =>
    if hptr < state.str1.length then
      match matchBack state.str1 state.str2 (state.str2.length - 1) hptr with
      | some position => some position
      | none => skipLoop state fuel (hptr + state.skiptable (state.str1.getD hptr 0 &&& state.skiptablemask))
    else some 0

def textPositionNext (fuel startPos : Nat) (state : TextPositionState) : Option Nat :=
  if state.str2.length = 0 then some startPos
  else if state.str1.length < startPos - 1 + state.str2.length then some 0
  else if state.str2.length = 1 then
    some (scan (state.str2.getD 0 0) (state.str1.drop (startPos - 1)) (startPos - 1))
  else skipLoop state fuel (startPos - 1 + state.str2.length - 1)

/-- The needle occurs behind the first `pos` characters. -/
def Occurs (haystack needle : List Nat) (pos : Nat) : Prop :=
  pos + needle.length ≤ haystack.length ∧ ∀ i < needle.length, needle.getD i 0 = haystack.getD (pos + i) 0

/-- The first place from `pos` on where the needle occurs, counted from one; zero if there is none. -/
def First (haystack needle : List Nat) (pos result : Nat) : Prop :=
  (result = 0 ∧ ∀ p ≥ pos, ¬ Occurs haystack needle p) ∨
    ∃ p ≥ pos, result = p + 1 ∧ Occurs haystack needle p ∧ ∀ q, pos ≤ q → q < p → ¬ Occurs haystack needle q

theorem First.skip (first : First haystack needle pos' result) (later : pos ≤ pos')
    (none : ∀ q, pos ≤ q → q < pos' → ¬ Occurs haystack needle q) : First haystack needle pos result := by
  rcases first with ⟨zero, absent⟩ | ⟨p, above, rfl, occurs, least⟩
  · refine Or.inl ⟨zero, fun q low => ?_⟩
    rcases Nat.lt_or_ge q pos' with before | behind
    · exact none q low before
    · exact absent q behind
  · refine Or.inr ⟨p, later.trans above, rfl, occurs, fun q low before => ?_⟩
    rcases Nat.lt_or_ge q pos' with early | behind
    · exact none q low early
    · exact least q behind before

theorem fillTable_spec (str2 : List Nat) (mask : Nat) (table : Nat → Nat) (start : ∀ s ≤ mask, table s = str2.length)
    (short : n < str2.length) :
    (∀ s ≤ mask, 0 < fillTable str2 mask n table s ∧ fillTable str2 mask n table s ≤ str2.length) ∧
      ∀ i < n, fillTable str2 mask n table (str2.getD i 0 &&& mask) ≤ str2.length - 1 - i := by
  induction n with
  | zero =>
    refine ⟨fun s low => ?_, by simp⟩
    change 0 < table s ∧ table s ≤ str2.length
    rw [start s low]
    omega
  | succ n ih =>
    obtain ⟨range, skips⟩ := ih (by omega)
    have last : fillTable str2 mask (n + 1) table =
        update (fillTable str2 mask n table) (str2.getD n 0 &&& mask) (str2.length - 1 - n) := by
      simp [fillTable, range_succ]
    rw [last]
    refine ⟨fun s low => ?_, fun i less => ?_⟩
    · by_cases same : s = str2.getD n 0 &&& mask
      · rw [same, update_self]
        omega
      · rw [update_of_ne same]
        exact range s low
    · by_cases same : str2.getD i 0 &&& mask = str2.getD n 0 &&& mask
      · rw [same, update_self]
        omega
      · rw [update_of_ne same]
        refine skips i (Nat.lt_of_le_of_ne (Nat.le_of_lt_succ less) fun equal => ?_)
        rw [equal] at same
        exact same rfl

theorem matchBack_spec (haystack needle : List Nat) (low : n ≤ p) :
    (matchBack haystack needle n p = some (p - n + 1) ∧ ∀ i ≤ n, needle.getD i 0 = haystack.getD (p - n + i) 0) ∨
      matchBack haystack needle n p = none ∧ ∃ i ≤ n, needle.getD i 0 ≠ haystack.getD (p - n + i) 0 := by
  induction n generalizing p with
  | zero =>
    by_cases same : needle.getD 0 0 = haystack.getD p 0
    · refine Or.inl ⟨if_pos same, fun i zero => ?_⟩
      rw [Nat.le_zero.mp zero]
      exact same
    · exact Or.inr ⟨if_neg same, 0, le_rfl, same⟩
  | succ n ih =>
    have place : p - 1 - n = p - (n + 1) := by omega
    have here : p - (n + 1) + (n + 1) = p := by omega
    rw [matchBack]
    by_cases same : needle.getD (n + 1) 0 = haystack.getD p 0
    · rw [if_pos same, ← place]
      rcases ih (p := p - 1) (by omega) with ⟨found, all⟩ | ⟨failed, i, less, ne⟩
      · refine Or.inl ⟨found, fun i least => ?_⟩
        rcases Nat.lt_or_eq_of_le least with before | rfl
        · exact all i (by omega)
        · rw [place, here]
          exact same
      · exact Or.inr ⟨failed, i, by omega, ne⟩
    · rw [if_neg same]
      exact Or.inr ⟨rfl, n + 1, le_rfl, by rw [here]; exact same⟩

theorem scan_spec (nchar : Nat) (haystack : List Nat) :
    ∀ rest pos, haystack.drop pos = rest → First haystack [nchar] pos (scan nchar rest pos)
  | [], pos, same => by
    refine Or.inl ⟨rfl, fun p above occurs => ?_⟩
    have room := occurs.1
    rw [length_singleton] at room
    have := drop_eq_nil_iff.mp same
    omega
  | c :: rest, pos, same => by
    have here : haystack.getD pos 0 = c := by
      rw [getD_eq_getElem?_getD, ← Nat.add_zero pos, ← getElem?_drop, same]
      rfl
    have behind : haystack.drop (pos + 1) = rest := by rw [← drop_drop, same, drop_one, tail_cons]
    rw [scan]
    split
    · next found =>
      have inside : pos < haystack.length := by
        by_contra outside
        rw [drop_eq_nil_iff.mpr (by omega)] at same
        cases same
      refine Or.inr ⟨pos, le_rfl, rfl, ⟨inside, fun i less => ?_⟩, fun q low before => by omega⟩
      obtain rfl : i = 0 := Nat.lt_one_iff.mp less
      exact found.symm.trans here.symm
    · next other =>
      refine (scan_spec nchar haystack rest (pos + 1) behind).skip (Nat.le_succ pos) fun q low before occurs => other ?_
      obtain rfl : q = pos := by omega
      exact here.symm.trans (occurs.2 0 Nat.one_pos).symm

theorem skipLoop_spec {state : TextPositionState} (long : 1 < state.str2.length)
    (skips : ∀ s ≤ state.skiptablemask, 0 < state.skiptable s ∧ state.skiptable s ≤ state.str2.length)
    (safe : ∀ i < state.str2.length - 1,
      state.skiptable (state.str2.getD i 0 &&& state.skiptablemask) ≤ state.str2.length - 1 - i)
    (pos : 0 < fuel) (enough : state.str1.length < hptr + fuel) (low : state.str2.length - 1 ≤ hptr) :
    ∃ result, skipLoop state fuel hptr = some result ∧
      First state.str1 state.str2 (hptr - (state.str2.length - 1)) result := by
  induction fuel generalizing hptr with
  | zero => cases pos
  | succ fuel ih =>
    rw [skipLoop]
    split
    · next inside =>
      rcases matchBack_spec state.str1 state.str2 low with ⟨found, all⟩ | ⟨failed, i, less, ne⟩
      · rw [found]
        refine ⟨_, rfl, Or.inr ⟨_, le_rfl, rfl, ⟨by omega, fun i less => all i (by omega)⟩, fun q low before =>
          by omega⟩⟩
      · rw [failed]
        generalize slot : state.str1.getD hptr 0 &&& state.skiptablemask = s
        obtain ⟨forward, most⟩ := skips s (slot ▸ Nat.and_le_right)
        obtain ⟨result, found, first⟩ := @ih (hptr + state.skiptable s) (by omega) (by omega) (by omega)
        refine ⟨result, found, first.skip (by omega) fun q above before occurs => ?_⟩
        rcases Nat.eq_or_lt_of_le above with rfl | behind
        · exact ne (occurs.2 i (by omega))
        · -- the character under `hptr` is one of the needle, and the table does not skip it
          have shared := occurs.2 (hptr - q) (by omega)
          rw [show q + (hptr - q) = hptr by omega] at shared
          have bound := safe (hptr - q) (by omega)
          rw [shared, slot] at bound
          omega
    · next outside =>
      refine ⟨0, rfl, Or.inl ⟨rfl, fun p above occurs => ?_⟩⟩
      have room := occurs.1
      omega

/-- The first occurrence is found for every needle but the empty one, which is found wherever the search starts. -/
theorem textPosition_first (memory : TextPositionState) (t1 t2 : List Nat) (pos : Nat) :
    ∃ result, textPositionNext (t1.length + 1) (pos + 1) (textPositionSetup memory t1 t2) = some result ∧
      (t2 ≠ [] → First t1 t2 pos result) ∧ (t2 = [] → result = pos + 1) := by
  have strings : (textPositionSetup memory t1 t2).str1 = t1 ∧ (textPositionSetup memory t1 t2).str2 = t2 := by
    unfold textPositionSetup
    split <;> exact ⟨rfl, rfl⟩
  rw [textPositionNext, strings.1, strings.2, Nat.add_sub_cancel]
  split_ifs with empty short single
  · exact ⟨_, rfl, fun some => absurd (length_eq_zero_iff.mp empty) some, fun _ => rfl⟩
  · refine ⟨0, rfl, fun _ => Or.inl ⟨rfl, fun p above occurs => ?_⟩, fun nil => absurd (by rw [nil]; rfl) empty⟩
    have room := occurs.1
    omega
  · obtain ⟨nchar, rfl⟩ := length_eq_one_iff.mp single
    exact ⟨_, rfl, fun _ => scan_spec nchar t1 _ pos rfl, by simp⟩
  · have set : t1.length ≥ t2.length ∧ t2.length > 1 := by omega
    rw [textPositionSetup, if_pos set]
    obtain ⟨skips, safe⟩ := fillTable_spec t2 (chooseMask (t1.length - t2.length))
      (fun i => if i ≤ chooseMask (t1.length - t2.length) then t2.length else memory.skiptable i)
      (fun s low => if_pos low) (n := t2.length - 1) (by omega)
    obtain ⟨result, found, first⟩ := @skipLoop_spec (t1.length + 1) (pos + t2.length - 1) ⟨t1, t2, _, _⟩
      set.2 skips safe (Nat.succ_pos _) (by dsimp only; omega) (by dsimp only; omega)
    refine ⟨result, found, fun _ => ?_, fun nil => absurd (by rw [nil]; rfl) empty⟩
    rwa [show pos + t2.length - 1 - (t2.length - 1) = pos by omega] at first

/-- The empty text is found behind the end of a text. -/
theorem textPosition_behind :
    textPositionNext 2 3 (textPositionSetup ⟨[], [], 0, fun _ => 0⟩ [97] []) = some 3 ∧ ¬ First [97] [] 2 3 := by
  refine ⟨rfl, ?_⟩
  rintro (⟨no, -⟩ | ⟨p, -, same, ⟨room, -⟩, -⟩)
  · cases no
  · simp at same room
    omega

end BlockchainPG.Utils.TextPosition
