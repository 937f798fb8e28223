import BlockchainPG.Mbt.WellFormed

/-! Keys and the strings that were inserted with them. -/

namespace BlockchainPG.Mbt

open Lib Function List

theorem mem_flatMap_insert {α : Type u} {β : Type v} [DecidableEq α] {f : α → List β} {list : List α}
    {a : α} {x : β} (mem : a ∈ list) (p : Nat) (value : β) :
    x ∈ list.flatMap (update f a ((f a).take p ++ value :: (f a).drop p)) ↔ x = value ∨ x ∈ list.flatMap f := by
  have row : ∀ y, y ∈ (f a).take p ++ value :: (f a).drop p ↔ y = value ∨ y ∈ f a := by
    grind [take_append_drop]
  grind

namespace Heap

variable {h : Heap} {leaf sibling : Addr} {p : Nat}

theorem eq_insertAt_row {x : Int × CString} {key : Int} {data : CString} (keys : x.1 = insertAt (h.key leaf) p key j)
    (strings : x.2 = insertAt (h.data leaf) p data j) : x = insertAt (h.row leaf) p (key, data) j := by
  grind [insertAt, row]

theorem leafSimpleInsert_pairs (key : Int) (data : CString) (tid : ItemPointerData) (place : p ≤ h.count leaf) :
    let h' := h.leafSimpleInsert leaf key data tid p
    h'.pairs leaf = slots (insertAt (h.row leaf) p (key, data)) (h.count leaf + 1) ∧
      ∀ a ≠ leaf, h'.pairs a = h.pairs a := by
  intro h'
  obtain ⟨keys, strings, cells, keyRow, stringRow, -, -, same⟩ := leafSimpleInsert_eq key data tid place
  have value : h' = _ := same
  constructor
  · rw [pairs, value]
    simp only [update_self]
    refine slots_congr fun i less => eq_insertAt_row ?_ ?_
    · exact (congrFun (update_self ..) i).trans (keyRow i less)
    · exact (congrFun (update_self ..) i).trans (stringRow i less)
  · intro a other
    rw [value]
    grind [pairs_congr]

theorem leafSplitRight_pairs (key : Int) (data : CString) (tid : ItemPointerData) (ne : sibling ≠ leaf)
    (late : (h.count leaf + 1) / 2 ≤ p) (place : p ≤ h.count leaf) :
    let h' := h.leafSplitRight leaf sibling key data tid p
    h'.pairs leaf ++ h'.pairs sibling = slots (insertAt (h.row leaf) p (key, data)) (h.count leaf + 1) ∧
      ∀ a ≠ leaf, a ≠ sibling → h'.pairs a = h.pairs a := by
  intro h'
  obtain ⟨keys, strings, cells, keyRow, stringRow, -, -, same⟩ := leafSplitRight_eq key data tid sibling late place
  have value : h' = _ := same
  have first : h'.pairs leaf = slots (insertAt (h.row leaf) p (key, data)) ((h.count leaf + 1) / 2) := by
    rw [pairs, value]
    simp only [update_self]
    refine slots_congr fun i less => ?_
    rw [insertAt_of_lt (by omega)]
    simp [row, Ne.symm ne]
  have second : h'.pairs sibling = slots (fun i => insertAt (h.row leaf) p (key, data) ((h.count leaf + 1) / 2 + i))
      (h.count leaf + 1 - (h.count leaf + 1) / 2) := by
    rw [pairs, value]
    simp only [update_self, update_of_ne ne]
    refine slots_congr fun i less => eq_insertAt_row ?_ ?_
    · exact (congrFun (update_self ..) i).trans (keyRow i less)
    · exact (congrFun (update_self ..) i).trans (stringRow i less)
  constructor
  · rw [first, second, ← slots_drop, ← slots_take _ (show (h.count leaf + 1) / 2 ≤ h.count leaf + 1 by omega),
      take_append_drop]
  · intro a notLeaf notSibling
    rw [value]
    grind [pairs_congr]

end Heap

section Inserting

variable {t : BplusTree} {y : Shape} {leaf : Addr} {key : Int} {p : Nat}

/-- The leaves after an insertion hold a row each for `f`, if the leaves in the
place of the old one together hold its row with the new value. -/
theorem leafRun_flatMap {β : Type} {f g : Addr → List β} (valid : y.Valid) (mem : leaf ∈ y.nodes 0) (value : β)
    (here : (leafRun t leaf p).flatMap g = (f leaf).take p ++ value :: (f leaf).drop p)
    (others : ∀ a ∈ y.nodes 0, a ≠ leaf → g a = f a) : (replaceNode y.nodes 0 leaf (leafRun t leaf p) 0).flatMap g =
      (y.nodes 0).flatMap (update f leaf ((f leaf).take p ++ value :: (f leaf).drop p)) := by
  obtain ⟨front, back, list⟩ := append_of_mem mem
  have distinct := valid.nodup 0
  rw [replaceNode_eq distinct list, update_self, list, append_cons front leaf back]
  grind [flatMap_window]

/-- The leaves after an insertion that does not split to the left: keys and
strings stay together. -/
theorem leafStore_pairs (key : Int) (data : CString) (tid : ItemPointerData) (place : p ≤ t.heap.count leaf)
    (late : t.heap.count leaf = t.entries → (t.entries + 1) / 2 ≤ p) (fresh : t.heap.leafNew.1 ≠ leaf) :
    (leafRun t leaf p).flatMap (leafStore t leaf key data tid p).pairs =
        (t.heap.pairs leaf).take p ++ (key, data) :: (t.heap.pairs leaf).drop p ∧
      ∀ a ≠ leaf, a ≠ t.heap.leafNew.1 → (leafStore t leaf key data tid p).pairs a = t.heap.pairs a := by
  have inserted : slots (insertAt (t.heap.row leaf) p (key, data)) (t.heap.count leaf + 1) =
      (t.heap.pairs leaf).take p ++ (key, data) :: (t.heap.pairs leaf).drop p := slots_insertAt place _
  rw [← inserted]
  by_cases full : t.heap.count leaf = t.entries
  · have right : ¬p < (t.entries + 1) / 2 := not_lt.mpr (late full)
    simp only [leafRun, leafStore, full, right, ↓reduceIte]
    have kept : t.heap.leafNew.2.count leaf = t.heap.count leaf := rfl
    obtain ⟨row, others⟩ := Heap.leafSplitRight_pairs (h := t.heap.leafNew.2) key data tid fresh
      (by rw [kept, full]; exact late full) place
    rw [kept, full] at row
    rw [flatMap_cons, flatMap_singleton]
    exact ⟨row, others⟩
  · grind [leafRun, leafStore, Heap.leafSimpleInsert_pairs]

theorem insert_pairs (rep : Rep t y) (targets : Targets t y key leaf p) (absent : key ∉ y.leafKeys)
    (late : t.heap.count leaf = t.entries → (t.entries + 1) / 2 ≤ p) (data : CString) (tid : ItemPointerData)
    (height : (bplusTreeInsert t key data tid).2.level < BPLUS_MAX_LEVEL) :
    ∃ y', Rep (bplusTreeInsert t key data tid).2 y' ∧ ∀ x,
      x ∈ (y'.nodes 0).flatMap (bplusTreeInsert t key data tid).2.heap.pairs ↔
        x = (key, data) ∨ x ∈ (y.nodes 0).flatMap t.heap.pairs := by
  have fresh : ∀ k, t.heap.leafNew.1 ∉ y.nodes k := rep.outside
  have other : t.heap.leafNew.1 ≠ leaf := (ne_of_mem_of_not_mem targets.mem (fresh 0)).symm
  have place : p ≤ t.heap.count leaf := by
    rw [(rep.lies 0 leaf targets.mem id).1.leafCount]
    exact targets.place.inside
  obtain ⟨here, others⟩ := leafStore_pairs key data tid place late other
  obtain ⟨y', rep', rows⟩ := ((bplusTreeInsert_absent rep targets absent data tid).2 height).becomes.rep
  refine ⟨y', rep', fun x => ?_⟩
  rw [rows, leafRun_flatMap rep.valid targets.mem (key, data) here fun a mem ne =>
    others a ne (ne_of_mem_of_not_mem mem (fresh 0))]
  exact mem_flatMap_insert targets.mem p (key, data)

end Inserting

def BplusTree.leafFor (t : BplusTree) (key : Int) : Option Addr :=
  t.root.bind fun root => t.heap.descend key (t.level + 1) root

/-- The key is missing in a full leaf, and its place is in the lower half. -/
def BplusTree.splitsLeft (t : BplusTree) (key : Int) : Bool :=
  (t.leafFor key).any fun leaf =>
    t.heap.count leaf = t.entries ∧ key ∉ slots (t.heap.key leaf) (t.heap.count leaf) ∧
      key < t.heap.key leaf ((t.entries + 1) / 2 - 1)

/-- Calls of the two entry points, with strings that fit into a leaf. -/
inductive Call where
  | put (key : Int) (data : { text : CString // text.length ≤ 32 }) (tid : ItemPointerData)
  | get (key : Int)

def perform (t : BplusTree) : Call → BplusTree
  | .put key data tid => (bplusTreePut t key data tid).2
  | .get key => (bplusTreeGet t key).2

/-- The string of the last insertion of each key that found it missing and that
no deletion followed. -/
def lastInserted (stored : Int → Option CString) : Call → Int → Option CString
  | .put key data _ =>
    if data.val = zeroString then update stored key none
    else if stored key = none then update stored key (some data)
    else stored
  | .get _ => stored

/-- Lookups while the root is a leaf, and insertions that do not split to the left. -/
def Harmless (t : BplusTree) : Call → Prop
  | .put key data _ => data.val = zeroString ∨ t.splitsLeft key = false
  | .get _ => t.level = 0

instance (t : BplusTree) (call : Call) : Decidable (Harmless t call) :=
  match call with
  | .put key data _ => inferInstanceAs (Decidable (data.val = zeroString ∨ t.splitsLeft key = false))
  | .get _ => inferInstanceAs (Decidable (t.level = 0))

/-- The leaves hold the strings that were inserted. -/
def Paired (t : BplusTree) (stored : Int → Option CString) : Prop :=
  Stores t { x | stored x.1 = some x.2 } ∧ ∀ key, stored key ≠ some zeroString

section Paired

variable {t : BplusTree} {y : Shape} {stored : Int → Option CString} {key : Int}

theorem mem_keysOf_stored : key ∈ keysOf { x | stored x.1 = some x.2 } ↔ stored key ≠ none := by
  simp only [keysOf, Set.mem_image, Prod.exists, Option.ne_none_iff_exists']
  constructor
  · rintro ⟨_, data, own, rfl⟩
    exact ⟨data, own⟩
  · rintro ⟨data, own⟩
    exact ⟨key, data, own, rfl⟩

theorem Targets.leafFor (targets : Targets t y key leaf p) (rep : Rep t y) : t.leafFor key = some leaf := by
  rw [BplusTree.leafFor, rep.root]
  exact targets.found

theorem Targets.late (targets : Targets t y key leaf p) (rep : Rep t y) (absent : key ∉ y.keys leaf)
    (calm : t.splitsLeft key = false) (full : t.heap.count leaf = t.entries) : (t.entries + 1) / 2 ≤ p := by
  by_contra early
  have row := (rep.lies 0 leaf targets.mem id).1.2
  have pos := rep.config.2
  have inside : (t.entries + 1) / 2 - 1 < t.heap.count leaf := by omega
  have slot : t.heap.key leaf ((t.entries + 1) / 2 - 1) ∈ (y.keys leaf).drop p := by
    rw [← row, mem_drop_iff_getElem]
    refine ⟨(t.entries + 1) / 2 - 1 - p, by rw [slots_length]; omega, ?_⟩
    rw [slots_getElem]
    congr 1
    omega
  have less := targets.place.above_lt absent _ slot
  rw [← row] at absent
  simp [BplusTree.splitsLeft, targets.leafFor rep, full, less] at calm
  exact absent (full ▸ calm)

theorem Stores.insert_paired (stores : Stores t content) (absent : key ∉ keysOf content)
    (calm : t.splitsLeft key = false) (data : CString) (tid : ItemPointerData)
    (height : (bplusTreeInsert t key data tid).2.level < BPLUS_MAX_LEVEL) :
    Stores (bplusTreeInsert t key data tid).2 (insert (key, data) content) := by
  rcases stores with ⟨blank, rfl⟩ | ⟨y, rep, same⟩
  · obtain ⟨-, rep, pairs, -, -⟩ := bplusTreeInsert_blank blank key data tid
    refine Or.inr ⟨_, rep, fun x => ?_⟩
    simp [Layout.single, pairs]
  · obtain ⟨leaf, p, targets⟩ := rep.targets key
    have missing : key ∉ y.leafKeys := fun own => absent ((rep.mem_leafKeys same).mp own)
    obtain ⟨y', rep', held⟩ := insert_pairs rep targets missing
      (targets.late rep (fun own => missing ((targets.mem_iff rep).mpr own)) calm) data tid height
    refine Or.inr ⟨y', rep', fun x => ?_⟩
    rw [held, same]
    rfl

theorem search_rootLeaf (rep : Rep t y) (low : t.level = 0) (key : Int) : ∃ text, bplusTreeSearch t key = (text, t) ∧
      ((key, text) ∈ t.heap.pairs y.root ∨ (text = zeroString ∧ key ∉ y.keys y.root)) := by
  have mem : y.root ∈ y.nodes 0 := by
    have top := rep.valid.root_mem
    rwa [← rep.level, low] at top
  obtain ⟨type, row⟩ := (rep.lies 0 y.root mem id).1
  have leaf : t.heap.isLeaf y.root = true := by simp [Heap.isLeaf, type]
  have sorted := (rep.valid.leaf mem).1
  obtain ⟨p, place, result⟩ := keyBinarySearch_spec (row ▸ sorted) key
  rw [row] at place result
  by_cases present : key ∈ y.keys y.root
  · have slot := (place.mem_iff sorted).mp present
    rw [← row, slots_getElem?] at slot
    have inside : p < t.heap.count y.root := by
      by_contra out
      simp [out] at slot
    rw [if_pos inside, Option.some.injEq] at slot
    have found : (0 : Int) ≤ p := Int.natCast_nonneg p
    refine ⟨t.heap.data y.root p, ?_, Or.inl (mem_slots.mpr ⟨p, inside, Prod.ext slot rfl⟩)⟩
    simp only [bplusTreeSearch, rep.root, low, bplusTreeSearchLoop, leaf, result, present, ↓reduceIte, ge_iff_le, found,
      Int.toNat_natCast]
    rw [← rep.root, ← low]
  · have missing : ¬(-(p : Int) - 1 ≥ 0) := by omega
    refine ⟨zeroString, ?_, Or.inr ⟨rfl, present⟩⟩
    simp only [bplusTreeSearch, rep.root, low, bplusTreeSearchLoop, leaf, result, present, ↓reduceIte, missing]
    rw [← rep.root, ← low]

theorem Paired.get (paired : Paired t stored) (low : t.level = 0) (key : Int) :
    bplusTreeGet t key = ((stored key).getD minusOneString, t) := by
  obtain ⟨stores, nonzero⟩ := paired
  rcases stores with ⟨blank, none⟩ | ⟨y, rep, same⟩
  · have missing : stored key = Option.none := by
      cases value : stored key with
      | none => rfl
      | some data =>
        have own : (key, data) ∈ ({ x | stored x.1 = some x.2 } : Set (Int × CString)) := value
        grind
    simp only [bplusTreeGet, bplusTreeSearch, blank.root, missing]
    rfl
  · have mem : y.root ∈ y.nodes 0 := by
      have top := rep.valid.root_mem
      rwa [← rep.level, low] at top
    have alone := (rootLeaf_alone rep.valid rfl mem).2
    have held : ∀ x, x ∈ t.heap.pairs y.root ↔ stored x.1 = some x.2 := fun x => by
      grind
    obtain ⟨text, search, found | ⟨rfl, missing⟩⟩ := search_rootLeaf rep low key
    · grind [bplusTreeGet]
    · have value : stored key = none := by
        cases value : stored key with
        | none => rfl
        | some data =>
          refine absurd ?_ missing
          rw [rep.keys_eq mem id]
          exact mem_map.mpr ⟨(key, data), (held (key, data)).mpr value, rfl⟩
      grind [bplusTreeGet]

theorem Paired.perform (paired : Paired t stored) (call : Call) (height : (perform t call).level < BPLUS_MAX_LEVEL)
    (harmless : Harmless t call) : Paired (perform t call) (lastInserted stored call) := by
  cases call with
  | get key =>
    have same : Mbt.perform t (.get key) = t := congrArg Prod.snd (paired.get harmless key)
    rw [same]
    exact paired
  | put key data tid =>
    obtain ⟨stores, nonzero⟩ := paired
    by_cases deletes : data.val = zeroString
    · have call : Mbt.perform t (.put key data tid) = (bplusTreeDelete t key).2 := by
        grind [perform, bplusTreePut]
      simp only [call, lastInserted, deletes, ↓reduceIte]
      refine ⟨?_, fun other => ?_⟩
      · by_cases present : stored key = none
        · rw [stores.delete_absent (by simpa [mem_keysOf_stored] using present), ← present, update_eq_self]
          exact stores
        · obtain ⟨-, after, -, -⟩ := stores.delete_present (mem_keysOf_stored.mpr present)
          convert after using 1
          ext ⟨other, text⟩
          by_cases same : other = key
          · simp [same]
          · simp [same]
      · grind
    · have call : Mbt.perform t (.put key data tid) = (bplusTreeInsert t key data tid).2 := by
        grind [perform, bplusTreePut]
      have calm : t.splitsLeft key = false := harmless.resolve_left deletes
      rw [call] at height
      simp only [call, lastInserted, deletes, ↓reduceIte]
      by_cases absent : stored key = none
      · simp only [absent, ↓reduceIte]
        refine ⟨?_, fun other => ?_⟩
        · convert stores.insert_paired (by simpa [mem_keysOf_stored] using absent) calm data.val tid height using 1
          ext ⟨other, text⟩
          by_cases same : other = key
          · simp [same, absent, eq_comm]
          · simp [same]
        · grind
      · simp only [absent, ↓reduceIte]
        rw [stores.insert_present (mem_keysOf_stored.mpr absent)]
        exact ⟨stores, nonzero⟩

theorem Paired.leaves (paired : Paired t stored) (key : Int) (data : CString) :
    stored key = some data ↔ ∃ leaf ∈ t.nodesAt t.level, ∃ i < t.heap.count leaf,
      t.heap.key leaf i = key ∧ t.heap.data leaf i = data := by
  rcases paired.1 with ⟨blank, none⟩ | ⟨y, rep, same⟩
  · have leaves : t.nodesAt t.level = [] := by rw [blank.level, BplusTree.nodesAt, blank.root]; rfl
    have missing : (key, data) ∉ ({ x | stored x.1 = some x.2 } : Set (Int × CString)) := by
      rw [none]
      exact Set.notMem_empty _
    simpa [leaves] using missing
  · rw [rep.leaves_eq, show stored key = some data ↔ _ from (same (key, data)).symm, mem_flatMap]
    simp only [Heap.pairs, mem_slots, Heap.row, Prod.mk.injEq]

end Paired

/-- Lookups of a leaf root and insertions that do not split to the left: every
key stays with its string, and lookups return it and leave the tree alone. -/
theorem calls_paired (memory : Heap) (order entries : Nat)
    (orders : BPLUS_MIN_ORDER ≤ order ∧ order ≤ BPLUS_MAX_ORDER) (sizes : 1 ≤ entries ∧ entries ≤ BPLUS_MAX_ENTRIES)
    (calls : List Call)
    (meets : Meets perform (fun t call => Harmless t call ∧ (perform t call).level < BPLUS_MAX_LEVEL)
      (bplusTreeInit memory order entries) calls) : let t := run perform (bplusTreeInit memory order entries) calls
    let stored := run lastInserted (fun _ => none) calls
    (∀ key data, stored key = some data ↔ ∃ leaf ∈ t.nodesAt t.level, ∃ i < t.heap.count leaf,
        t.heap.key leaf i = key ∧ t.heap.data leaf i = data) ∧
      ∀ key, Harmless t (.get key) → bplusTreeGet t key = ((stored key).getD minusOneString, t) := by
  intro t stored
  have start : Paired (bplusTreeInit memory order entries) fun _ => none :=
    ⟨Or.inl ⟨bplusTreeInit_blank memory orders sizes, by simp⟩, fun _ => by simp⟩
  have paired : Paired t stored :=
    meets.simulates start fun _ _ call paired condition => paired.perform call condition.2 condition.1
  exact ⟨paired.leaves, fun key low => paired.get low key⟩

/-- Insertions that fill leaves from the left, a deletion and lookups. -/
def ascendingCalls : List Call :=
  [.put 1 ⟨['a'], by decide⟩ ⟨0, 0, 1⟩, .get 1, .put 2 ⟨['b'], by decide⟩ ⟨0, 0, 2⟩,
    .put 3 ⟨['c'], by decide⟩ ⟨0, 0, 3⟩, .put 3 ⟨zeroString, by decide⟩ ⟨0, 0, 3⟩,
    .put 1 ⟨zeroString, by decide⟩ ⟨0, 0, 1⟩]

theorem calls_paired_ascendingCalls : let t := run perform (bplusTreeInit Heap.zeroed 3 2) ascendingCalls
    bplusTreeGet t 2 = (['b'], t) ∧ bplusTreeGet t 1 = (minusOneString, t) := by
  obtain ⟨-, gets⟩ := calls_paired Heap.zeroed 3 2 (by decide) (by decide) ascendingCalls (by decide +kernel)
  exact ⟨gets 2 (by decide +kernel), gets 1 (by decide +kernel)⟩

/-- A lookup below an inner root misses the key and empties the root; a split to
the left gives a key the string of another. -/
theorem calls_not_paired :
    (let calls : List Call := [.put 1 ⟨['a'], by decide⟩ ⟨0, 0, 1⟩, .put 2 ⟨['b'], by decide⟩ ⟨0, 0, 2⟩,
        .put 3 ⟨['c'], by decide⟩ ⟨0, 0, 3⟩]
      let t := run perform (bplusTreeInit Heap.zeroed 3 2) calls
      run lastInserted (fun _ => none) calls 1 = some ['a'] ∧ (bplusTreeGet t 1).1 = minusOneString ∧
        t.root.map t.heap.count = some 2 ∧ t.root.map (bplusTreeGet t 1).2.heap.count = some 0) ∧
    (let calls : List Call := [.put 2 ⟨['b'], by decide⟩ ⟨0, 0, 2⟩, .put 3 ⟨['c'], by decide⟩ ⟨0, 0, 3⟩,
        .put 1 ⟨['a'], by decide⟩ ⟨0, 0, 1⟩, .put 3 ⟨zeroString, by decide⟩ ⟨0, 0, 3⟩,
        .put 2 ⟨zeroString, by decide⟩ ⟨0, 0, 2⟩]
      let t := run perform (bplusTreeInit Heap.zeroed 3 2) calls
      run lastInserted (fun _ => none) calls 1 = some ['a'] ∧ t.level = 0 ∧ (bplusTreeGet t 1).1 = ['b']) := by
  decide +kernel

end BlockchainPG.Mbt
