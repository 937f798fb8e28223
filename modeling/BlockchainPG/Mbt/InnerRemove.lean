import BlockchainPG.Mbt.Footprint

/-! The stores made when a child of an inner node is gone. -/

namespace BlockchainPG.Mbt

open Lib Function

namespace Heap

variable {h : Heap} {node sibling parent : Addr} {remove : Nat}

/-- A node whose child beside the separator `remove` is gone: the others know it. -/
structure Loses (h : Heap) (node : Addr) (remove : Nat) : Prop where
  inside : remove + 1 < h.count node
  distinct : ∀ i < h.count node - 1, ∀ j < h.count node - 1,
    removeAt (h.subPtr node) (remove + 1) i = removeAt (h.subPtr node) (remove + 1) j → i = j
  parents : ∀ i < h.count node, i ≠ remove + 1 →
    h.parent (h.subPtr node i) = some node ∧ h.parentKeyIdx (h.subPtr node i) = i - 1

theorem Loses.parent_kid (loses : h.Loses node remove) (inside : i < h.count node - 1) :
    h.parent (removeAt (h.subPtr node) (remove + 1) i) = some node := by
  grind [removeAt_of_lt, parents, removeAt_of_ge]

theorem nonLeafSimpleRemove_spec (loses : h.Loses node remove) : let kid := removeAt (h.subPtr node) (remove + 1)
    let result := h.nonLeafSimpleRemove node remove
    Touches (· = node) (fun child => ∃ i < h.count node - 1, kid i = child) h result ∧
      result.Filled node (h.count node - 1) kid (removeAt (h.key node) remove) := by
  intro kid result
  have inside := loses.inside
  have unlike : ∀ x y, x < h.count node - 1 → y < h.count node - 1 → x ≠ y → kid x ≠ kid y :=
    fun x y xSmall ySmall apart equal => apart (loses.distinct x xSmall y ySmall equal)
  have kidLow : ∀ x ≤ remove, kid x = h.subPtr node x := fun x less => removeAt_of_lt (by omega)
  have kidHigh : ∀ x, remove < x → kid x = h.subPtr node (x + 1) := fun x more => removeAt_of_ge (by omega)
  let kids := fun child => ∃ i < h.count node - 1, kid i = child
  -- the slots up to `j` are in place
  let motive := fun j (g : Heap) => Touches (· = node) kids h g ∧ g.parent = h.parent ∧
    (∀ x ≤ j, g.subPtr node x = kid x ∧ g.parentKeyIdx (kid x) = x - 1) ∧
    (∀ x, j < x → g.subPtr node x = h.subPtr node x) ∧
    (∀ x < j, g.key node x = removeAt (h.key node) remove x) ∧ ∀ x, j ≤ x → g.key node x = h.key node x
  let moved := forUp remove (h.count node - 2) (fun i h =>
    (h.setKey node i (h.key node (i + 1))).place node (i + 1) (h.subPtr node (i + 2))) h
  have run : motive (h.count node - 2) moved := by
    have start : motive remove h := by
      grind [Touches.refl, Loses.parents, removeAt_of_lt]
    refine forUp_invariant (by omega) start ?_
    rintro j g low high ⟨touches, parent, front, back, keysFront, keysBack⟩
    have source : g.subPtr node (j + 2) = kid (j + 1) := by
      rw [back _ (by omega), kidHigh (j + 1) (by omega)]
    rw [source]
    refine ⟨(touches.setKey rfl _ _).place rfl ⟨j + 1, by omega, rfl⟩ _, parent, ?_, ?_, ?_, ?_⟩
    · intro x less
      by_cases here : x = j + 1
      · subst here
        simp [place]
      · obtain ⟨slot, index⟩ := front x (by omega)
        simp [place, setKey, here, slot, index, unlike x (j + 1) (by omega) (by omega) here]
    · intro x more
      simp [place, setKey, show x ≠ j + 1 by omega, back x (by omega)]
    · intro x less
      by_cases here : x = j
      · subst here
        rw [removeAt_of_ge low]
        simp [place, setKey, keysBack (x + 1) (by omega)]
      · simp [place, setKey, here, keysFront x (by omega)]
    · intro x more
      simp [place, setKey, show x ≠ j by omega, keysBack x (by omega)]
  obtain ⟨touches, parent, front, -, keys, -⟩ := run
  have same : result = moved.setCount node (h.count node - 1) := by
    have enough : decide (h.count node ≥ 2) = true := decide_eq_true (by omega)
    simp only [result, nonLeafSimpleRemove, enough, check_true]
    rfl
  rw [same]
  refine ⟨touches.setCount rfl _, update_self .., ?_, ?_, ?_⟩
  · exact fun x less => (front x (by omega)).1
  · exact fun x less => keys x (by omega)
  · intro x less
    exact ⟨(congrFun parent (kid x)).trans (loses.parent_kid less), (front x (by omega)).2⟩

/-- The loop that appends children to a node. -/
def adoptRun (h : Heap) (node : Addr) (n : Nat) (kid : Nat → Addr) (m : Nat) : Heap :=
  forUp 0 m (fun j h => h.adopt node (n + j) (kid j)) h

section Appending

variable {kid front : Nat → Addr} {n m : Nat}

theorem adoptRun_succ (h : Heap) (node : Addr) (n : Nat) (kid : Nat → Addr) (m : Nat) :
    h.adoptRun node n kid (m + 1) = (h.adoptRun node n kid m).adopt node (n + m) (kid m) :=
  forUp_succ _ _ (Nat.zero_le m)

theorem adoptRun_spec (h : Heap) (node : Addr) (n : Nat) (distinct : ∀ i < m, ∀ j < m, kid i = kid j → i = j) :
    let h' := h.adoptRun node n kid m
    Touches (· = node) (fun child => ∃ i < m, kid i = child) h h' ∧ h'.key = h.key ∧ h'.count = h.count ∧
      (∀ i < n, h'.subPtr node i = h.subPtr node i) ∧
      ∀ i < m, h'.subPtr node (n + i) = kid i ∧ h'.parent (kid i) = some node ∧
        h'.parentKeyIdx (kid i) = (n + i : Nat) - 1 := by
  intro h'
  induction m with
  | zero => exact ⟨Touches.refl _ _ _, rfl, rfl, fun _ _ => rfl, fun i less => absurd less (Nat.not_lt_zero i)⟩
  | succ m ih =>
    obtain ⟨touches, key, count, before, run⟩ := ih fun i insideI j insideJ => distinct i (by omega) j (by omega)
    have wider : Touches (· = node) (fun child => ∃ i < m + 1, kid i = child) h (h.adoptRun node n kid m) :=
      touches.weaken (fun _ => id) fun child ⟨i, inside, same⟩ => ⟨i, by omega, same⟩
    have last : h' = (h.adoptRun node n kid m).adopt node (n + m) (kid m) := adoptRun_succ h node n kid m
    rw [last]
    refine ⟨wider.adopt rfl ⟨m, by omega, rfl⟩ _, key, count, fun i less => ?_, fun i less => ?_⟩
    · simp [adopt, show i ≠ n + m by omega, before i less]
    · by_cases here : i = m
      · subst here
        simp [adopt]
      · have other : kid i ≠ kid m := fun equal => here (distinct i less m (by omega) equal)
        obtain ⟨slot, parent, index⟩ := run i (by omega)
        refine ⟨?_, by simp [adopt, other, parent], by simp [adopt, other, index]⟩
        simp only [adopt]
        rw [update_self, update_of_ne (by omega), slot]

theorem Filled.append {key keys : Nat → Int} (filled : h.Filled node n front key)
    (distinct : ∀ i < m, ∀ j < m, kid i = kid j → i = j) (apart : ∀ i < n, ∀ j < m, front i ≠ kid j)
    (row : ∀ i, i + 1 < n + m → h.key node i = keys i) :
    ((h.adoptRun node n kid m).setCount node (n + m)).Filled node (n + m) (appendAt front n kid) keys := by
  obtain ⟨touches, key, -, before, run⟩ := adoptRun_spec h node n distinct
  refine ⟨update_self .., ?_, ?_, ?_⟩
  · intro i less
    rcases Nat.lt_or_ge i n with below | above
    · rw [appendAt_of_lt below, ← filled.kids i below]
      exact before i below
    · obtain ⟨j, rfl⟩ : ∃ j, i = n + j := ⟨i - n, by omega⟩
      rw [appendAt_add]
      exact (run j (by omega)).1
  · intro i less
    rw [← row i less]
    exact congrFun (congrFun key node) i
  · intro i less
    rcases Nat.lt_or_ge i n with below | above
    · have outside : ¬∃ j < m, kid j = front i := by
        grind
      rw [appendAt_of_lt below]
      exact ⟨(touches.parent _ outside).trans (filled.parents i below).1,
        (touches.parentKeyIdx _ outside).trans (filled.parents i below).2⟩
    · obtain ⟨j, rfl⟩ : ∃ j, i = n + j := ⟨i - n, by omega⟩
      rw [appendAt_add]
      exact (run j (by omega)).2

theorem adoptRun_other (h : Heap) (kid : Nat → Addr) (n m : Nat) (ne : sibling ≠ node) :
    (h.adoptRun node n kid m).subPtr sibling = h.subPtr sibling := by
  induction m with
  | zero => rfl
  | succ m ih =>
    rw [adoptRun_succ, ← ih]
    exact update_of_ne ne _ _

theorem adoptRun_reads (ne : sibling ≠ node) (row : ∀ j < m, h.subPtr sibling j = kid j) :
    forUp 0 m (fun j h => h.adopt node (n + j) (h.subPtr sibling j)) h = h.adoptRun node n kid m := by
  induction m with
  | zero => rfl
  | succ m ih =>
    grind [forUp_succ, adoptRun_succ, adoptRun_other]

theorem adoptRun_skips (ne : sibling ≠ node) (inside : skip < m) : forUp 0 m (fun j (state : Nat × Heap) =>
        if j ≠ skip then (state.1 + 1, state.2.adopt node state.1 (state.2.subPtr sibling j)) else state) (n, h) =
      (n + (m - 1), h.adoptRun node n (removeAt (h.subPtr sibling) skip) (m - 1)) := by
  let kid := removeAt (h.subPtr sibling) skip
  let motive := fun j (state : Nat × Heap) =>
    state = (n + (if j ≤ skip then j else j - 1), h.adoptRun node n kid (if j ≤ skip then j else j - 1))
  have run : motive m (forUp 0 m (fun j (state : Nat × Heap) =>
      if j ≠ skip then (state.1 + 1, state.2.adopt node state.1 (state.2.subPtr sibling j)) else state) (n, h)) := by
    have start : motive 0 (n, h) := by simp [motive, adoptRun, forUp_empty]
    refine forUp_invariant (Nat.zero_le m) start ?_
    rintro j state - less rfl
    rcases Nat.lt_trichotomy j skip with below | here | above
    · grind [removeAt_of_lt, adoptRun_succ, adoptRun_other]
    · grind
    · obtain ⟨i, rfl⟩ : ∃ i, j = i + 1 := ⟨j - 1, by omega⟩
      grind [removeAt_of_ge, adoptRun_other, adoptRun_succ]
  grind

theorem nonLeafMergeFromRight_spec (own : h.Filled node n front keyN)
    (other : h.Filled sibling m kid keyS) (ne : sibling ≠ node) (pos : 0 < n)
    (distinct : ∀ i < m, ∀ j < m, kid i = kid j → i = j) (apart : ∀ i < n, ∀ j < m, front i ≠ kid j) (index : Nat) :
    let result := h.nonLeafMergeFromRight node sibling parent index
    Touches (· = node) (fun child => ∃ i < m, kid i = child) { h with links := h.links.del (.node sibling) } result ∧
      result.Filled node (n + m) (appendAt front n kid)
        (appendAt (update keyN (n - 1) (h.key parent index)) n keyS) := by
  intro result
  let row := copyRow (h.key sibling) (update (h.key node) (n - 1) (h.key parent index)) n 0 (m - 1)
  let start : Heap := { h with key := update h.key node row }
  have same : result = ((start.adoptRun node n kid m).setCount node (n + m)).nodeDelete sibling := by
    have reads : forUp 0 m (fun j h => h.adopt node (n + j) (h.subPtr sibling j)) start =
        start.adoptRun node n kid m := adoptRun_reads ne other.kids
    have counted : (forUp 0 m (fun j h => h.adopt node (n + j) (h.subPtr sibling j)) start).count sibling = m := by
      rw [reads, (adoptRun_spec start node n distinct).2.2.1]
      exact other.count
    rw [← reads]
    simp only [result, nonLeafMergeFromRight, setKey, own.count, other.count, update_self,
      update_of_ne ne, update_idem]
    grind
  have touches : Touches (· = node) (fun child => ∃ i < m, kid i = child) h (start.adoptRun node n kid m) :=
    ((Touches.refl h (· = node) fun child => ∃ i < m, kid i = child).keyRow rfl row).trans
      (adoptRun_spec start node n distinct).1
  have ready : start.Filled node n front row :=
    ⟨own.count, own.kids, fun i _ => congrFun (update_self ..) i, own.parents⟩
  rw [same]
  refine ⟨(touches.setCount rfl _).nodeDelete sibling, (ready.append distinct apart ?_).nodeDelete sibling⟩
  intro i less
  have entry : start.key node i = _ := (congrFun (update_self ..) i).trans (copyRow_apply _ n 0 (m - 1) i)
  rw [entry]
  rcases Nat.lt_or_ge i n with below | above
  · grind [appendAt_of_lt, Filled.keys]
  · obtain ⟨j, rfl⟩ : ∃ j, i = n + j := ⟨i - n, by omega⟩
    grind [appendAt_add, Filled.keys]

theorem nonLeafMergeInt64ToLeft_spec (loses : h.Loses node remove)
    (other : h.Filled sibling n front keyS) (ne : node ≠ sibling) (pos : 0 < n)
    (apart : ∀ i < n, ∀ j < h.count node - 1, front i ≠ removeAt (h.subPtr node) (remove + 1) j) (index : Nat) :
    let kid := removeAt (h.subPtr node) (remove + 1)
    let result := h.nonLeafMergeInt64ToLeft node sibling parent index remove
    Touches (· = sibling) (fun child => ∃ i < h.count node - 1, kid i = child)
        { h with links := h.links.del (.node node) } result ∧
      result.Filled sibling (n + (h.count node - 1)) (appendAt front n kid)
        (appendAt (update keyS (n - 1) (h.key parent index)) n (removeAt (h.key node) remove)) := by
  intro kid result
  have inside := loses.inside
  let keys := copySkip (h.key node) (update (h.key sibling) (n - 1) (h.key parent index)) n
    (h.count node - 1) remove
  let start : Heap := { h with key := update h.key sibling keys.2 }
  have same : result = ((start.adoptRun sibling n kid (h.count node - 1)).setCount sibling
      (n + (h.count node - 1))).nodeDelete node := by
    have skips : forUp 0 (h.count node) (fun j (state : Nat × Heap) =>
        if j ≠ remove + 1 then (state.1 + 1, state.2.adopt sibling state.1 (state.2.subPtr node j)) else state)
        (n, start) = (n + (h.count node - 1), start.adoptRun sibling n kid (h.count node - 1)) :=
      adoptRun_skips ne inside
    simp only [result, nonLeafMergeInt64ToLeft, setKey, other.count, update_self, update_of_ne ne, update_idem]
    grind
  have touches : Touches (· = sibling) (fun child => ∃ i < h.count node - 1, kid i = child) h
      (start.adoptRun sibling n kid (h.count node - 1)) :=
    ((Touches.refl h (· = sibling) fun child => ∃ i < h.count node - 1, kid i = child).keyRow rfl keys.2).trans
      (adoptRun_spec start sibling n loses.distinct).1
  have ready : start.Filled sibling n front keys.2 :=
    ⟨other.count, other.kids, fun i _ => congrFun (update_self ..) i, other.parents⟩
  rw [same]
  refine ⟨(touches.setCount rfl _).nodeDelete node, (ready.append loses.distinct apart ?_).nodeDelete node⟩
  intro i less
  have entry : start.key sibling i = _ :=
    (congrFun (update_self ..) i).trans ((copySkip_apply _ n (show remove < h.count node - 1 by omega)).2 i)
  rw [entry]
  rcases Nat.lt_or_ge i n with below | above
  · grind [appendAt_of_lt, Filled.keys]
  · obtain ⟨j, rfl⟩ : ∃ j, i = n + j := ⟨i - n, by omega⟩
    grind [appendAt_add, removeAt]

theorem placeDown_spec (row : ∀ i < m, h.subPtr sibling i = kid i)
    (distinct : ∀ i < m, ∀ j < m, kid i = kid j → i = j) :
    let h' := forUp 0 (m - 1) (fun i h => h.place sibling i (h.subPtr sibling (i + 1))) h
    Touches (· = sibling) (fun child => ∃ i < m, kid i = child) h h' ∧ h'.parent = h.parent ∧ h'.key = h.key ∧
      h'.count = h.count ∧ (∀ x < m - 1, h'.subPtr sibling x = kid (x + 1) ∧ h'.parentKeyIdx (kid (x + 1)) = x - 1) ∧
      h'.parentKeyIdx (kid 0) = h.parentKeyIdx (kid 0) := by
  intro h'
  let motive := fun j (g : Heap) => Touches (· = sibling) (fun child => ∃ i < m, kid i = child) h g ∧
    g.parent = h.parent ∧ g.key = h.key ∧ g.count = h.count ∧
    (∀ x < j, g.subPtr sibling x = kid (x + 1) ∧ g.parentKeyIdx (kid (x + 1)) = x - 1) ∧
    (∀ x, j ≤ x → g.subPtr sibling x = h.subPtr sibling x) ∧ g.parentKeyIdx (kid 0) = h.parentKeyIdx (kid 0)
  have start : motive 0 h :=
    ⟨Touches.refl _ _ _, rfl, rfl, rfl, fun x less => absurd less (Nat.not_lt_zero x), fun _ _ => rfl, rfl⟩
  have run : motive (m - 1) h' := by
    refine forUp_invariant (Nat.zero_le _) start ?_
    rintro j g - less ⟨touches, parent, key, count, front, back, first⟩
    have source : g.subPtr sibling (j + 1) = kid (j + 1) := by rw [back _ (by omega), row _ (by omega)]
    have unlike : ∀ x < m, x ≠ j + 1 → kid x ≠ kid (j + 1) :=
      fun x inside other equal => other (distinct x inside (j + 1) (by omega) equal)
    rw [source]
    refine ⟨touches.place rfl ⟨j + 1, by omega, rfl⟩ _, parent, key, count, fun x low => ?_, fun x high => ?_, ?_⟩
    · by_cases here : x = j
      · subst here
        simp [place]
      · obtain ⟨slot, index⟩ := front x (by omega)
        simp [place, here, slot, index, unlike (x + 1) (by omega) (by omega)]
    · simp [place, show x ≠ j by omega, back x (by omega)]
    · simp [place, first, unlike 0 (by omega) (by omega)]
  grind

theorem nonLeafShiftFromRight_spec (own : h.Filled node n front keyN)
    (other : h.Filled sibling m kid keyS) (ne : sibling ≠ node) (above : parent ≠ node ∧ parent ≠ sibling)
    (pos : 0 < n) (enough : 2 ≤ m) (distinct : ∀ i < m, ∀ j < m, kid i = kid j → i = j)
    (apart : ∀ i < n, ∀ j < m, front i ≠ kid j) (index : Nat) :
    let result := h.nonLeafShiftFromRight node sibling parent index
    Touches (· ∈ [node, sibling, parent]) (fun child => ∃ i < m, kid i = child) h result ∧
      result.Filled node (n + 1) (update front n (kid 0))
        (update keyN (n - 1) (h.key parent index)) ∧
      result.Filled sibling (m - 1) (fun i => kid (i + 1)) (fun i => keyS (i + 1)) ∧
      result.key parent = update (h.key parent) index (keyS 0) ∧
      result.count parent = h.count parent ∧ result.subPtr parent = h.subPtr parent := by
  intro result
  obtain ⟨notNode, notSibling⟩ := above
  let borrowed := (((h.setKey node (n - 1) (h.key parent index)).setKey parent index (keyS 0)).adopt node n
    (kid 0)).setCount node (n + 1)
  let start : Heap :=
    { borrowed with key := update borrowed.key sibling (shiftLeft (h.key sibling) 0 (m - 2)) }
  let moved := forUp 0 (m - 1) (fun i h => h.place sibling i (h.subPtr sibling (i + 1))) start
  have rows : ∀ i < m, start.subPtr sibling i = kid i := fun i less =>
    (congrFun (update_of_ne ne ..) i).trans (other.kids i less)
  obtain ⟨touches, parents, keys, counts, slots, index0⟩ := placeDown_spec rows distinct
  have counted : moved.count sibling = m :=
    (congrFun counts sibling).trans ((update_of_ne ne ..).trans other.count)
  have same : result = moved.setCount sibling (m - 1) := by
    have first : h.key sibling 0 = keyS 0 := other.keys 0 (by omega)
    simp only [result, nonLeafShiftFromRight, setKey, adopt, setCount, own.count, other.count,
      update_of_ne ne, update_of_ne notSibling.symm, first, other.kids 0 (by omega)]
    exact congrArg (fun count => moved.setCount sibling (count - 1)) counted
  have reach : Touches (· ∈ [node, sibling, parent]) (fun child => ∃ i < m, kid i = child) h start :=
    ((((Touches.refl h (· ∈ [node, sibling, parent]) fun child => ∃ i < m, kid i = child).setKey (by simp) _
      _).setKey (by simp) _ _).adopt (by simp) ⟨0, by omega, rfl⟩ _).setCount (by simp) _ |>.keyRow (by simp) _
  have after := reach.trans (touches.weaken (fun _ own => by simp [own]) fun _ => id)
  rw [same]
  have kidRow : moved.subPtr node = update (h.subPtr node) n (kid 0) :=
    (touches.subPtr node ne.symm).trans (update_self ..)
  have keyRow : moved.key node = update (h.key node) (n - 1) (h.key parent index) := (congrFun keys node).trans (by
      simp [start, borrowed, setKey, adopt, setCount, Ne.symm ne, Ne.symm notNode])
  have parentRow : moved.key parent = update (h.key parent) index (keyS 0) :=
    (congrFun keys parent).trans (by simp [start, borrowed, setKey, adopt, setCount, notSibling, notNode])
  have siblingRow : moved.key sibling = shiftLeft (h.key sibling) 0 (m - 2) :=
    (congrFun keys sibling).trans (update_self ..)
  refine ⟨after.setCount (by simp) _, ⟨?_, ?_, ?_, ?_⟩, ⟨update_self .., ?_, ?_, ?_⟩, parentRow, ?_, ?_⟩
  · exact (update_of_ne ne.symm ..).trans
      ((congrFun counts node).trans (update_self ..))
  · intro i less
    show moved.subPtr node i = _
    rw [kidRow]
    by_cases last : i = n
    · rw [last, update_self, update_self]
    · grind [Filled.kids]
  · intro i less
    show moved.key node i = _
    rw [keyRow]
    by_cases last : i = n - 1
    · rw [last, update_self, update_self]
    · grind [Filled.keys]
  · intro i less
    show moved.parent _ = some node ∧ moved.parentKeyIdx _ = _
    by_cases last : i = n
    · rw [last, update_self, parents]
      refine ⟨update_self .., index0.trans (update_self ..)⟩
    · have outside : ¬∃ j < m, kid j = front i := by
        grind
      rw [update_of_ne last, after.parent _ outside, after.parentKeyIdx _ outside]
      exact own.parents i (by omega)
  · exact fun i less => (slots i less).1
  · intro i less
    show moved.key sibling i = _
    rw [siblingRow, shiftLeft_apply (Nat.zero_le _), if_pos (by omega), other.keys (i + 1) (by omega)]
  · intro i less
    refine ⟨?_, (slots i less).2⟩
    have unlike : kid (i + 1) ≠ kid 0 := fun equal => by
      grind
    show moved.parent (kid (i + 1)) = some sibling
    rw [parents]
    exact (update_of_ne unlike ..).trans (other.parents (i + 1) (by omega)).1
  · exact (update_of_ne notSibling ..).trans
      ((congrFun counts parent).trans (update_of_ne notNode ..))
  · exact (touches.subPtr parent notSibling).trans (update_of_ne notNode ..)

theorem placeUp_spec (loses : h.Loses node remove) :
    let h' := forDown (remove + 1) 0 (fun i h => h.place node i (h.subPtr node (i - 1))) h
    Touches (· = node) (fun child => ∃ i < h.count node - 1, removeAt (h.subPtr node) (remove + 1) i = child) h h' ∧
      h'.parent = h.parent ∧ h'.key = h.key ∧ h'.count = h.count ∧
      ∀ i < h.count node - 1, h'.subPtr node (i + 1) = removeAt (h.subPtr node) (remove + 1) i ∧
        h'.parentKeyIdx (removeAt (h.subPtr node) (remove + 1) i) = i := by
  intro h'
  have inside := loses.inside
  have low : ∀ x ≤ remove, removeAt (h.subPtr node) (remove + 1) x = h.subPtr node x :=
    fun x less => removeAt_of_lt (by omega)
  have high : ∀ x, remove < x → removeAt (h.subPtr node) (remove + 1) x = h.subPtr node (x + 1) :=
    fun x more => removeAt_of_ge (by omega)
  have distinct := loses.distinct
  generalize removeAt (h.subPtr node) (remove + 1) = kid at *
  let motive := fun j (g : Heap) => Touches (· = node) (fun child => ∃ i < h.count node - 1, kid i = child) h g ∧
    g.parent = h.parent ∧ g.key = h.key ∧ g.count = h.count ∧
    (∀ i, j ≤ i → i < h.count node - 1 → g.subPtr node (i + 1) = kid i ∧ g.parentKeyIdx (kid i) = i) ∧
    ∀ i ≤ j, g.subPtr node i = h.subPtr node i
  have start : motive (remove + 1) h := by
    grind [Touches.refl, Loses.parents]
  have run : motive 0 h' := by
    refine forDown_invariant (Nat.zero_le _) start ?_
    rintro j g - less ⟨touches, parent, key, count, upper, lower⟩
    have source : g.subPtr node (j + 1 - 1) = kid j := by
      rw [Nat.add_sub_cancel, lower j (by omega), low j (by omega)]
    rw [source]
    refine ⟨touches.place rfl ⟨j, by omega, rfl⟩ _, parent, key, count, fun i more small => ?_, fun i least => ?_⟩
    · by_cases here : i = j
      · subst here
        simp [place]
      · have unlike : kid i ≠ kid j := fun equal => here (distinct i small j (by omega) equal)
        obtain ⟨slot, index⟩ := upper i (by omega) small
        simp [place, here, slot, index, unlike]
    · simp [place, show i ≠ j + 1 by omega, lower i (by omega)]
  grind

theorem nonLeafShiftFromLeft_spec (loses : h.Loses node remove)
    (other : h.Filled sibling m front keyS) (ne : sibling ≠ node) (above : parent ≠ node ∧ parent ≠ sibling)
    (enough : 2 ≤ m) (distinct : ∀ i < m, ∀ j < m, front i = front j → i = j)
    (apart : ∀ i < m, ∀ j < h.count node - 1, front i ≠ removeAt (h.subPtr node) (remove + 1) j) (index : Nat) :
    let kid := removeAt (h.subPtr node) (remove + 1)
    let result := h.nonLeafShiftFromLeft node sibling parent index remove
    Touches (· ∈ [node, sibling, parent])
        (fun child => front (m - 1) = child ∨ ∃ i < h.count node - 1, kid i = child) h result ∧
      result.Filled node (h.count node) (insertAt kid 0 (front (m - 1)))
        (insertAt (removeAt (h.key node) remove) 0 (h.key parent index)) ∧
      result.Filled sibling (m - 1) front keyS ∧ result.key parent = update (h.key parent) index (keyS (m - 2)) ∧
      result.count parent = h.count parent ∧ result.subPtr parent = h.subPtr parent := by
  intro kid result
  obtain ⟨notNode, notSibling⟩ := above
  let start : Heap := { h with key := update h.key node (shiftRight (h.key node) 0 remove) }
  let moved := forDown (remove + 1) 0 (fun i h => h.place node i (h.subPtr node (i - 1))) start
  have ready : start.Loses node remove := ⟨loses.inside, loses.distinct, loses.parents⟩
  obtain ⟨touches, parents, keys, counts, slots⟩ := placeUp_spec ready
  replace slots : ∀ i < h.count node - 1, moved.subPtr node (i + 1) = kid i ∧ moved.parentKeyIdx (kid i) = i := slots
  have siblingKeys : moved.key sibling = h.key sibling := (congrFun keys sibling).trans (update_of_ne ne ..)
  have siblingKids : moved.subPtr sibling = h.subPtr sibling := touches.subPtr sibling ne
  have siblingCount : moved.count sibling = m := (congrFun counts sibling).trans other.count
  have parentKeys : moved.key parent = h.key parent := (congrFun keys parent).trans (update_of_ne notNode ..)
  have same : result = (((moved.setKey node 0 (h.key parent index)).setKey parent index (keyS (m - 2))).adopt node 0
      (front (m - 1))).setCount sibling (m - 1) := by
    let rest := fun g : Heap =>
      let g := g.setKey node 0 (g.key parent index)
      let g := g.setKey parent index (g.key sibling (g.count sibling - 2))
      let g := g.adopt node 0 (g.subPtr sibling (g.count sibling - 1))
      g.setCount sibling (g.count sibling - 1)
    have finish : result = rest moved := rfl
    rw [finish]
    simp only [rest, setKey, adopt, setCount, siblingCount, siblingKids, parentKeys, update_of_ne ne,
      siblingKeys, other.keys (m - 2) (by omega), other.kids (m - 1) (by omega)]
  let kids := fun child => front (m - 1) = child ∨ ∃ i < h.count node - 1, kid i = child
  have reach : Touches (· ∈ [node, sibling, parent]) kids h moved :=
    ((Touches.refl h (· ∈ [node, sibling, parent]) kids).keyRow (by simp) _).trans
      (touches.weaken (fun _ own => by simp [own]) fun _ => Or.inr)
  have after : Touches (· ∈ [node, sibling, parent]) kids h
      ((((moved.setKey node 0 (h.key parent index)).setKey parent index (keyS (m - 2))).adopt node 0
        (front (m - 1))).setCount sibling (m - 1)) :=
    (((reach.setKey (by simp) 0 _).setKey (by simp) index _).adopt (by simp) (Or.inl rfl) 0).setCount (by simp) _
  rw [same]
  refine ⟨after, ⟨?_, ?_, ?_, ?_⟩, ⟨update_self .., ?_, ?_, ?_⟩, ?_, ?_, ?_⟩
  · exact (update_of_ne ne.symm ..).trans (congrFun counts node)
  · intro i less
    cases i with
    | zero => simp [setCount, adopt, insertAt]
    | succ i =>
      rw [insertAt_zero_succ, ← (slots i (by omega)).1]
      simp [setCount, adopt, setKey]
  · intro i less
    have row : moved.key node = shiftRight (h.key node) 0 remove := (congrFun keys node).trans (update_self ..)
    cases i with
    | zero => simp [setCount, adopt, setKey, insertAt, Ne.symm notNode]
    | succ i =>
      rw [insertAt_zero_succ]
      simp only [setCount, adopt, setKey, update_of_ne notNode.symm, update_self, row]
      grind [shiftRight_apply, removeAt]
  · intro i less
    cases i with
    | zero => simp [setCount, adopt, insertAt]
    | succ i =>
      have unlike : kid i ≠ front (m - 1) := (apart (m - 1) (by omega) i (by omega)).symm
      rw [insertAt_zero_succ]
      refine ⟨(update_of_ne unlike ..).trans ((congrFun parents _).trans (loses.parent_kid (by omega))), ?_⟩
      exact (update_of_ne unlike ..).trans ((slots i (by omega)).2.trans (by omega))
  · intro i less
    rw [← other.kids i (by omega), ← siblingKids]
    exact congrFun (update_of_ne ne ..) i
  · intro i less
    rw [← other.keys i (by omega), ← siblingKeys]
    simp [setCount, adopt, setKey, ne, Ne.symm notSibling]
  · intro i less
    have outside : ¬kids (front i) := by
      grind
    rw [after.parent _ outside, after.parentKeyIdx _ outside]
    exact other.parents i (by omega)
  · simp [setCount, adopt, setKey, notNode, parentKeys]
  · exact (update_of_ne notSibling ..).trans (congrFun counts parent)
  · exact (update_of_ne notNode ..).trans (touches.subPtr parent notNode)

end Appending

end Heap

end BlockchainPG.Mbt
