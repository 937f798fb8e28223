import Mathlib

/-! Lists that are sorted by a key, and the order in which things stand in a list. -/

namespace BlockchainPG.Lib

open List

section

variable {α : Type u} {κ : Type v} [LinearOrder κ] {key : α → κ}

/-- The keys do not decrease. -/
def Sorted (key : α → κ) (items : List α) : Prop := items.Pairwise fun x y => key x ≤ key y

instance (items : List α) : Decidable (Sorted key items) :=
  inferInstanceAs (Decidable (items.Pairwise fun x y => key x ≤ key y))

def below (key : α → κ) (bound : κ) (items : List α) : List α := items.filter fun x => key x < bound

def equal (key : α → κ) (bound : κ) (items : List α) : List α := items.filter fun x => key x = bound

def above (key : α → κ) (bound : κ) (items : List α) : List α := items.filter fun x => bound < key x

theorem mem_below : x ∈ below key bound items ↔ x ∈ items ∧ key x < bound := by
  rw [below, mem_filter, decide_eq_true_iff]

theorem mem_equal : x ∈ equal key bound items ↔ x ∈ items ∧ key x = bound := by
  rw [equal, mem_filter, decide_eq_true_iff]

theorem mem_above : x ∈ above key bound items ↔ x ∈ items ∧ bound < key x := by
  rw [above, mem_filter, decide_eq_true_iff]

section

variable {items : List α} (sorted : Sorted key items) (bound : κ)
include sorted bound

/-- A sorted list has the smaller keys first, then those equal to the bound, then the greater ones. -/
theorem Sorted.cut : below key bound items ++ (equal key bound items ++ above key bound items) = items := by
  induction items with
  | nil => rfl
  | cons x rest ih =>
    obtain ⟨first, sorted⟩ := pairwise_cons.mp sorted
    have least {y : α} (mem : y ∈ rest) : key x ≤ key y := first y mem
    unfold below equal above at ih ⊢
    rcases lt_trichotomy (key x) bound with less | same | greater
    · rw [filter_cons_of_pos (by simpa using less), filter_cons_of_neg (by simpa using less.ne),
        filter_cons_of_neg (by simpa using less.le), cons_append, ih sorted]
    · have noneBelow : rest.filter (fun y => key y < bound) = [] :=
        filter_eq_nil_iff.mpr fun y mem => by simpa using same ▸ least mem
      rw [noneBelow, nil_append] at ih
      rw [filter_cons_of_neg (by simpa using same.ge), noneBelow, filter_cons_of_pos (by simpa using same),
        filter_cons_of_neg (by simpa using same.le), nil_append, cons_append, ih sorted]
    · have noneBelow : rest.filter (fun y => key y < bound) = [] :=
        filter_eq_nil_iff.mpr fun y mem => by simpa using greater.le.trans (least mem)
      have noneEqual : rest.filter (fun y => key y = bound) = [] :=
        filter_eq_nil_iff.mpr fun y mem => by simpa using (greater.trans_le (least mem)).ne'
      rw [noneBelow, noneEqual, nil_append, nil_append] at ih
      rw [filter_cons_of_neg (by simpa using greater.le), noneBelow,
        filter_cons_of_neg (by simpa using greater.ne'), noneEqual, filter_cons_of_pos (by simpa using greater),
        nil_append, nil_append, ih sorted]

theorem Sorted.lt_iff (found : items[i]? = some x) : key x < bound ↔ i < (below key bound items).length := by
  have cut := sorted.cut bound
  constructor
  · intro less
    by_contra beyond
    rw [← cut, getElem?_append_right (Nat.le_of_not_lt beyond)] at found
    rcases mem_append.mp (mem_of_getElem? found) with mem | mem
    · exact absurd (mem_equal.mp mem).2 less.ne
    · exact absurd (mem_above.mp mem).2 less.not_gt
  · intro inside
    rw [← cut, getElem?_append_left inside] at found
    exact (mem_below.mp (mem_of_getElem? found)).2

theorem Sorted.le_iff (found : items[i]? = some x) :
    key x ≤ bound ↔ i < (below key bound items).length + (equal key bound items).length := by
  have cut := sorted.cut bound
  rw [← append_assoc] at cut
  rw [← length_append]
  constructor
  · intro less
    by_contra beyond
    rw [← cut, getElem?_append_right (Nat.le_of_not_lt beyond)] at found
    exact absurd (mem_above.mp (mem_of_getElem? found)).2 less.not_gt
  · intro inside
    rw [← cut, getElem?_append_left inside] at found
    rcases mem_append.mp (mem_of_getElem? found) with mem | mem
    · exact (mem_below.mp mem).2.le
    · exact (mem_equal.mp mem).2.le

theorem Sorted.getElem?_equal (inside : i < (equal key bound items).length) :
    items[(below key bound items).length + i]? = (equal key bound items)[i]? := by
  have cut := congrArg (·[(below key bound items).length + i]?) (sorted.cut bound)
  rw [← cut, getElem?_append_right (Nat.le_add_right _ _), Nat.add_sub_cancel_left, getElem?_append_left inside]

theorem Sorted.length : (below key bound items).length + (equal key bound items).length ≤ items.length := by
  have cut := congrArg List.length (sorted.cut bound)
  rw [length_append, length_append] at cut
  omega

end

theorem Sorted.insert (sorted : Sorted key items) (x : α) :
    Sorted key (items.take (below key (key x) items).length ++ x :: items.drop (below key (key x) items).length) := by
  have cut := sorted.cut (key x)
  have front : items.take (below key (key x) items).length = below key (key x) items :=
    (congrArg (List.take _) cut.symm).trans take_left
  have back : items.drop (below key (key x) items).length = equal key (key x) items ++ above key (key x) items :=
    (congrArg (List.drop _) cut.symm).trans drop_left
  have parts := sorted
  rw [Sorted, ← cut, pairwise_append] at parts
  rw [front, back, Sorted, pairwise_append, pairwise_cons]
  have later : ∀ y ∈ equal key (key x) items ++ above key (key x) items, key x ≤ key y := by
    intro y mem
    rcases mem_append.mp mem with mem | mem
    · exact (mem_equal.mp mem).2.ge
    · exact (mem_above.mp mem).2.le
  refine ⟨parts.1, ⟨later, parts.2.1⟩, fun y first z mem => ?_⟩
  have less := (mem_below.mp first).2
  rcases mem_cons.mp mem with rfl | mem
  · exact less.le
  · exact less.le.trans (later z mem)

theorem Sorted.append (first : Sorted key items) (second : Sorted key items')
    (follows : ∀ x ∈ items, ∀ y ∈ items', key x ≤ key y) : Sorted key (items ++ items') :=
  pairwise_append.mpr ⟨first, second, follows⟩

end

variable {α : Type u} [DecidableEq α] {order : List α} {x y : α}

def Ahead (order : List α) (x y : α) : Prop := order.idxOf x < order.idxOf y

instance (order : List α) (x y : α) : Decidable (Ahead order x y) := inferInstanceAs (Decidable (_ < _))

theorem Ahead.mem (ahead : Ahead order x y) : x ∈ order :=
  idxOf_lt_length_iff.mp (Nat.lt_of_lt_of_le ahead idxOf_le_length)

theorem Ahead.ne (ahead : Ahead order x y) : x ≠ y := by
  rintro rfl
  exact Nat.lt_irrefl _ ahead

theorem ahead_or_ahead (there : x ∈ order) (other : x ≠ y) : Ahead order x y ∨ Ahead order y x := by
  by_contra neither
  rw [not_or, Ahead, Ahead] at neither
  exact other ((idxOf_inj there).mp (by omega))

theorem mem_takeWhile_ne : x ∈ order.takeWhile (· ≠ y) ↔ Ahead order x y := by
  induction order with
  | nil => simp [Ahead]
  | cons first rest ih =>
    rw [Ahead, takeWhile_cons]
    by_cases isLast : first = y
    · rw [isLast, idxOf_cons_self, if_neg (by simp)]
      simp
    · rw [idxOf_cons_ne rest isLast, if_pos (by simp [isLast]), mem_cons, ih, Ahead]
      by_cases isFirst : first = x
      · simp [isFirst]
      · rw [idxOf_cons_ne rest isFirst, Nat.succ_lt_succ_iff]
        simp [Ne.symm isFirst]

theorem ahead_cons_self (other : x ≠ y) : Ahead (x :: order) x y := by
  rw [Ahead, idxOf_cons_self, idxOf_cons_ne order other]
  exact Nat.succ_pos _

theorem Ahead.cons (ahead : Ahead order x y) (notFirst : first ≠ x) (notSecond : first ≠ y) :
    Ahead (first :: order) x y := by
  rw [Ahead, idxOf_cons_ne order notFirst, idxOf_cons_ne order notSecond]
  exact Nat.succ_lt_succ ahead

theorem exists_last {some : List α} (nonempty : some ≠ []) (order : List α) :
    ∃ x ∈ some, ∀ y ∈ some, ¬ Ahead order x y := by
  induction some with
  | nil => exact absurd rfl nonempty
  | cons first rest ih =>
    cases rest with
    | nil =>
      refine ⟨first, mem_cons_self, fun y mem ahead => ?_⟩
      exact ahead.ne (mem_singleton.mp mem).symm
    | cons second rest =>
      obtain ⟨x, mem, last⟩ := ih (cons_ne_nil second rest)
      by_cases later : Ahead order x first
      · refine ⟨first, mem_cons_self, fun y there ahead => ?_⟩
        rcases mem_cons.mp there with rfl | there
        · exact ahead.ne rfl
        · exact last y there (Nat.lt_trans later ahead)
      · refine ⟨x, mem_cons_of_mem _ mem, fun y there => ?_⟩
        rcases mem_cons.mp there with rfl | there
        · exact later
        · exact last y there

end BlockchainPG.Lib
