import BlockchainPG.Mbt.Shape

/-! The stores made when an entry leaves a leaf. -/

namespace BlockchainPG.Mbt

open Lib Function List

namespace Heap

variable {h h' h'' : Heap} {leaf sibling parent : Addr} {remove index : Nat} {rows : Addr → Prop}

/-- The key and the string of each slot. -/
def row (h : Heap) (leaf : Addr) (i : Nat) : Int × CString := (h.key leaf i, h.data leaf i)

theorem row_ext {f : Nat → Int × CString} (key : h.key a i = (Prod.fst ∘ f) i)
    (data : h.data a i = (Prod.snd ∘ f) i) : h.row a i = f i := Prod.ext key data

/-- Only rows of some nodes changed, and no heap addresses. -/
structure Rewrites (rows : Addr → Prop) (h h' : Heap) : Prop where
  touches : Touches rows (fun _ => False) (h.withPayload h') h'
  data : ∀ a, ¬rows a → h'.data a = h.data a
  tids : h'.tids = h.tids
  cell : h'.cell = h.cell

theorem Rewrites.weaken (rewrites : Rewrites rows h h') (inside : ∀ a, rows a → more a) :
    Rewrites more h h' :=
  { rewrites with
    touches := rewrites.touches.weaken inside fun _ => id
    data := fun a out => rewrites.data a fun own => out (inside a own) }

theorem rewrites_of_eq {links : Links Link} {count : Addr → Nat} {keys : Addr → Nat → Int}
    {data : Addr → Nat → CString} (same : h' = { h with links := links, count := count, key := keys, data := data })
    (counts : ∀ a, ¬rows a → count a = h.count a) (kept : ∀ a, ¬rows a → keys a = h.key a)
    (strings : ∀ a, ¬rows a → data a = h.data a) : Rewrites rows { h with links := links } h' := by
  subst same
  exact ⟨⟨rfl, rfl, rfl, rfl, rfl, counts, kept, fun _ _ => rfl, fun _ _ => rfl, fun _ _ => rfl⟩, strings, rfl, rfl⟩

theorem leafSimpleRemove_spec (inside : remove < h.count leaf) : let h' := h.leafSimpleRemove leaf remove
    Rewrites (· = leaf) h h' ∧ h'.count leaf = h.count leaf - 1 ∧
      ∀ i < h.count leaf - 1, h'.row leaf i = removeAt (h.row leaf) remove i := by
  intro h'
  refine ⟨rewrites_of_eq rfl (fun a out => update_of_ne out ..) (fun a out => update_of_ne out ..)
    (fun a out => update_of_ne out ..), update_self .., fun i less => ?_⟩
  have moved : ∀ {α : Type} (array : Nat → α), shiftLeft array remove (h.count leaf - 1) i =
    removeAt array remove i := by
    grind [shiftLeft_apply, removeAt]
  refine row_ext ?_ ?_
  · rw [comp_removeAt]
    exact (congrFun (update_self ..) i).trans (moved _)
  · rw [comp_removeAt]
    exact (congrFun (update_self ..) i).trans (moved _)

theorem leafShiftFromLeft_spec (ne : sibling ≠ leaf) (above : parent ≠ leaf ∧ parent ≠ sibling) :
    let h' := h.leafShiftFromLeft leaf sibling parent index remove
    let last := h.count sibling - 1
    Rewrites (· ∈ [leaf, sibling, parent]) h h' ∧ h'.count leaf = h.count leaf ∧ h'.count sibling = last ∧
      (∀ i < h.count leaf, h'.row leaf i = insertAt (removeAt (h.row leaf) remove) 0 (h.row sibling last) i) ∧
      h'.row sibling = h.row sibling ∧ h'.key parent = update (h.key parent) index (h.key sibling last) ∧
      h'.count parent = h.count parent ∧ h'.subPtr parent = h.subPtr parent := by
  intro h' last
  obtain ⟨notLeaf, notSibling⟩ := above
  have moved : ∀ {α : Type} (array : Nat → α) (value : α), ∀ i < h.count leaf,
      update (shiftRight array 0 remove) 0 value i = insertAt (removeAt array remove) 0 value i := by
    grind [insertAt, shiftRight_apply, removeAt]
  have same : h' = { h with
      count := update h.count sibling last
      key := update (update h.key leaf (update (shiftRight (h.key leaf) 0 remove) 0
        (h.key sibling last))) parent (update (h.key parent) index (h.key sibling last))
      data := update h.data leaf (update (shiftRight (h.data leaf) 0 remove) 0
        (h.data sibling last)) } := by
    simp only [h', last, leafShiftFromLeft, setKey, setData, setCount, update_self, update_idem,
      update_of_ne ne, update_of_ne notLeaf]
  have keyRow : h'.key leaf = update (shiftRight (h.key leaf) 0 remove) 0 (h.key sibling last) := by
    simp [same, Ne.symm notLeaf]
  have dataRow : h'.data leaf = update (shiftRight (h.data leaf) 0 remove) 0 (h.data sibling last) := by
    simp [same]
  refine ⟨?_, ?_, ?_, fun i less => ?_, ?_, ?_, ?_, ?_⟩
  · refine rewrites_of_eq same (fun a out => ?_) (fun a out => ?_) (fun a out => ?_)
    all_goals
      simp only [mem_cons, not_mem_nil, or_false, not_or] at out
      simp [out]
  · simp [same, Ne.symm ne]
  · simp [same]
  · refine row_ext ?_ ?_
    · rw [comp_insertAt, comp_removeAt, keyRow]
      exact moved _ _ i less
    · rw [comp_insertAt, comp_removeAt, dataRow]
      exact moved _ _ i less
  · funext i
    simp [Heap.row, same, ne, Ne.symm notSibling]
  · simp [same]
  · simp [same, notSibling]
  · simp [same]

theorem leafMergeInt64ToLeft_spec (sibling : Addr) (inside : remove < h.count leaf) :
    let h' := h.leafMergeInt64ToLeft leaf sibling remove
    let n := h.count sibling + (h.count leaf - 1)
    Rewrites (· = sibling) { h with links := h.links.del (.node leaf) } h' ∧ h'.count sibling = n ∧
      ∀ i < n, h'.row sibling i = appendAt (h.row sibling) (h.count sibling) (removeAt (h.row leaf) remove) i := by
  intro h' n
  have moved : ∀ {α : Type} (array other : Nat → α), ∀ i < n,
      (copySkip array other (h.count sibling) (h.count leaf) remove).2 i =
        appendAt other (h.count sibling) (removeAt array remove) i := by
    intro α array other i less
    rw [(copySkip_apply other (h.count sibling) inside).2 i]
    rcases Nat.lt_or_ge i (h.count sibling) with below | above
    · rw [if_neg (by omega), appendAt_of_lt below]
    · obtain ⟨j, rfl⟩ : ∃ j, i = h.count sibling + j := ⟨i - h.count sibling, by omega⟩
      rw [if_pos (by omega), appendAt_add, Nat.add_sub_cancel_left, removeAt]
      split <;> rfl
  have same : h' = { h with
      links := h.links.del (.node leaf)
      count := update h.count sibling n
      key := update h.key sibling
        (copySkip (h.key leaf) (h.key sibling) (h.count sibling) (h.count leaf) remove).2
      data := update h.data sibling
        (copySkip (h.data leaf) (h.data sibling) (h.count sibling) (h.count leaf) remove).2 } := by
    grind [leafMergeInt64ToLeft, setCount, nodeDelete, copySkip_apply]
  refine ⟨?_, ?_, fun i less => row_ext ?_ ?_⟩
  · grind [rewrites_of_eq]
  · simp [same]
  · rw [comp_appendAt, comp_removeAt, same]
    exact (congrFun (update_self ..) i).trans (moved _ _ i less)
  · rw [comp_appendAt, comp_removeAt, same]
    exact (congrFun (update_self ..) i).trans (moved _ _ i less)

theorem leafShiftFromRight_spec (enough : 2 ≤ h.count sibling) (ne : sibling ≠ leaf)
    (above : parent ≠ leaf ∧ parent ≠ sibling) : let h' := h.leafShiftFromRight leaf sibling parent index
    Rewrites (· ∈ [leaf, sibling, parent]) h h' ∧ h'.count leaf = h.count leaf + 1 ∧
      h'.count sibling = h.count sibling - 1 ∧
      (∀ i < h.count leaf + 1, h'.row leaf i = update (h.row leaf) (h.count leaf) (h.row sibling 0) i) ∧
      (∀ i < h.count sibling - 1, h'.row sibling i = h.row sibling (i + 1)) ∧
      h'.key parent = update (h.key parent) index (h.key sibling 1) ∧
      h'.count parent = h.count parent ∧ h'.subPtr parent = h.subPtr parent := by
  intro h'
  obtain ⟨notLeaf, notSibling⟩ := above
  have moved : ∀ {α : Type} (array : Nat → α), ∀ i < h.count sibling - 1,
      shiftLeft array 0 (h.count sibling - 1) i = array (i + 1) := by
    grind [shiftLeft_apply]
  have same : h' = { h with
      count := update (update h.count leaf (h.count leaf + 1)) sibling (h.count sibling - 1)
      key := update (update (update h.key leaf (update (h.key leaf)
        (h.count leaf) (h.key sibling 0))) sibling (shiftLeft (h.key sibling) 0 (h.count sibling - 1))) parent
        (update (h.key parent) index (h.key sibling 1))
      data := update (update h.data leaf (update (h.data leaf) (h.count leaf)
        (h.data sibling 0))) sibling (shiftLeft (h.data sibling) 0 (h.count sibling - 1)) } := by
    simp only [h', leafShiftFromRight, setKey, setData, setCount, update_self,
      update_of_ne ne, update_of_ne notLeaf, update_of_ne notSibling,
      moved _ 0 (show 0 < h.count sibling - 1 by omega)]
  refine ⟨?_, ?_, ?_, fun i less => ?_, fun i less => Prod.ext ?_ ?_, ?_, ?_, ?_⟩
  · refine rewrites_of_eq same (fun a out => ?_) (fun a out => ?_) (fun a out => ?_)
    all_goals
      simp only [mem_cons, not_mem_nil, or_false, not_or] at out
      simp [out]
  · simp [same, Ne.symm ne]
  · simp [same]
  · by_cases last : i = h.count leaf
    · simp [Heap.row, same, last, Ne.symm ne, Ne.symm notLeaf]
    · simp [Heap.row, same, last, Ne.symm ne, Ne.symm notLeaf]
  · simp [same, Ne.symm notSibling, moved _ i less, Heap.row]
  · simp [same, moved _ i less, Heap.row]
  · simp [same]
  · simp [same, notSibling, notLeaf]
  · simp [same]

theorem leafMergeFromRight_spec (h : Heap) (leaf sibling : Addr) : let h' := h.leafMergeFromRight leaf sibling
    let n := h.count leaf + h.count sibling
    Rewrites (· = leaf) { h with links := h.links.del (.node sibling) } h' ∧ h'.count leaf = n ∧
      ∀ i < n, h'.row leaf i = appendAt (h.row leaf) (h.count leaf) (h.row sibling) i := by
  intro h' n
  have moved : ∀ {α : Type} (array other : Nat → α), ∀ i < n,
      copyRow array other (h.count leaf) 0 (h.count sibling) i = appendAt other (h.count leaf) array i := by
    intro α array other i less
    rw [copyRow_apply]
    rcases Nat.lt_or_ge i (h.count leaf) with below | above
    · rw [if_neg (by omega), appendAt_of_lt below]
    · obtain ⟨j, rfl⟩ : ∃ j, i = h.count leaf + j := ⟨i - h.count leaf, by omega⟩
      rw [if_pos (by omega), appendAt_add, Nat.zero_add, Nat.add_sub_cancel_left]
  refine ⟨rewrites_of_eq rfl (fun a out => update_of_ne out ..) (fun a out => update_of_ne out ..)
    (fun a out => update_of_ne out ..), update_self .., fun i less => row_ext ?_ ?_⟩
  · rw [comp_appendAt]
    exact (congrFun (update_self ..) i).trans (moved _ _ i less)
  · rw [comp_appendAt]
    exact (congrFun (update_self ..) i).trans (moved _ _ i less)

end Heap

end BlockchainPG.Mbt
