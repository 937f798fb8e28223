import BlockchainPG.Access.HashPage

/-! Scans of a bucket in both directions, `hashsearch.c`. -/

namespace BlockchainPG.Access.Hash

open Lib Storage
open List hiding after

variable {Tid : Type u}

/-- The primary page of a bucket and its overflow pages in the order of the chain. -/
structure BucketChain (Tid : Type u) where
  primary : HashPage Tid
  overflow : List (HashPage Tid)

namespace BucketChain

def pages (bucket : BucketChain Tid) : List (HashPage Tid) := bucket.primary :: bucket.overflow

def tuples (bucket : BucketChain Tid) : List (IndexTuple Tid) := bucket.pages.flatMap HashPage.items

end BucketChain

inductive ScanDirection where
  | forward
  | backward

/-- `hashso_curbuf` and `hashso_curpos`: a page with the pages before it, nearest first,
the pages after it, and an offset number, which is zero while the position is not valid. -/
structure Position (Tid : Type u) where
  before : List (HashPage Tid)
  page : HashPage Tid
  after : List (HashPage Tid)
  offnum : Nat

/-- The tuple at a position. -/
def Position.itup (position : Position Tid) : Option (IndexTuple Tid) := position.page.item position.offnum

def HashPage.hasKey (page : HashPage Tid) (offnum hashValue : Nat) : Prop :=
  (page.item offnum).map IndexTuple.hashkey = some hashValue

instance (page : HashPage Tid) (offnum hashValue : Nat) : Decidable (page.hasKey offnum hashValue) :=
  inferInstanceAs (Decidable (_ = _))

/-- The inner loop of `_hash_step` in a forward scan, with `_hash_readnext`. -/
def stepForward (hashValue : Nat) (before : List (HashPage Tid)) (page : HashPage Tid) (offnum : Nat) :
    List (HashPage Tid) → Option (Position Tid)
  | [] =>
    if offnum ≤ page.maxOffsetNumber ∧ page.hasKey offnum hashValue then some ⟨before, page, [], offnum⟩ else none
  | next :: after =>
    if offnum ≤ page.maxOffsetNumber ∧ page.hasKey offnum hashValue then some ⟨before, page, next :: after, offnum⟩
    else stepForward hashValue (page :: before) next (hashBinsearch next hashValue) after

/-- The inner loop of `_hash_step` in a backward scan, with `_hash_readprev`. -/
def stepBackward (hashValue : Nat) (after : List (HashPage Tid)) (page : HashPage Tid) (offnum : Nat) :
    List (HashPage Tid) → Option (Position Tid)
  | [] => if 1 ≤ offnum ∧ page.hasKey offnum hashValue then some ⟨[], page, after, offnum⟩ else none
  | prev :: before =>
    if 1 ≤ offnum ∧ page.hasKey offnum hashValue then some ⟨prev :: before, page, after, offnum⟩
    else stepBackward hashValue (page :: after) prev (hashBinsearchLast prev hashValue) before

/-- `_hash_step`; `_hash_checkqual` is true of every tuple. -/
def hashStep (hashValue : Nat) (position : Position Tid) : ScanDirection → Option (Position Tid)
  | .forward =>
    stepForward hashValue position.before position.page
      (if position.offnum ≠ 0 then position.offnum + 1 else hashBinsearch position.page hashValue) position.after
  | .backward =>
    stepBackward hashValue position.after position.page
      (if position.offnum ≠ 0 then position.offnum - 1 else hashBinsearchLast position.page hashValue) position.before

/-- The loop of `_hash_first` that moves to the end of the chain. -/
def readToEnd (before : List (HashPage Tid)) (page : HashPage Tid) : List (HashPage Tid) → Position Tid
  | [] => ⟨before, page, [], 0⟩
  | next :: after => readToEnd (page :: before) next after

/-- `_hash_first` on the bucket of the hash key. -/
def hashFirst (bucket : BucketChain Tid) (hashValue : Nat) (dir : ScanDirection) : Option (Position Tid) :=
  match dir with
  | .forward => hashStep hashValue ⟨[], bucket.primary, bucket.overflow, 0⟩ dir
  | .backward => hashStep hashValue (readToEnd [] bucket.primary bucket.overflow) dir

/-- The calls of `_hash_next` until there is no tuple any more; `none` if there are more calls than allowed. -/
def hashNexts (hashValue : Nat) (dir : ScanDirection) : Nat → Option (Position Tid) → Option (List (IndexTuple Tid))
  | _, none => some []
  | 0, some _ => none
  | calls + 1, some position => do
    let itup ← position.itup
    let rest ← hashNexts hashValue dir calls (hashStep hashValue position dir)
    return itup :: rest

def hashScan (bucket : BucketChain Tid) (hashValue : Nat) (dir : ScanDirection) : Option (List (IndexTuple Tid)) :=
  hashNexts hashValue dir bucket.tuples.length (hashFirst bucket hashValue dir)

section Found

/-- The tuples of a page with a hash key. -/
def matching (hashValue : Nat) (page : HashPage Tid) : List (IndexTuple Tid) :=
  equal IndexTuple.hashkey hashValue page.items

/-- The offset number in front of the tuples with a hash key. -/
def base (hashValue : Nat) (page : HashPage Tid) : Nat := (below IndexTuple.hashkey hashValue page.items).length

/-- A position on a match, with what a scan finds after it. -/
inductive At (hashValue : Nat) : ScanDirection → Position Tid → IndexTuple Tid → List (IndexTuple Tid) → Prop
  | forward {page : HashPage Tid} {after : List (HashPage Tid)} (ordered : page.Ordered)
      (rest : ∀ page ∈ after, page.Ordered)
      (i : Nat) (found : (matching hashValue page)[i]? = some itup) :
      At hashValue .forward ⟨before, page, after, base hashValue page + i + 1⟩ itup
        ((matching hashValue page).drop (i + 1) ++ after.flatMap (matching hashValue))
  | backward {page : HashPage Tid} {before : List (HashPage Tid)} (ordered : page.Ordered)
      (rest : ∀ page ∈ before, page.Ordered)
      (i : Nat) (found : (matching hashValue page)[i]? = some itup) :
      At hashValue .backward ⟨before, page, after, base hashValue page + i + 1⟩ itup
        (((matching hashValue page).take i).reverse ++ before.flatMap fun page => (matching hashValue page).reverse)

variable {page : HashPage Tid}

theorem item_matching (ordered : page.Ordered) (inside : i < (matching hashValue page).length) :
    page.item (base hashValue page + i + 1) = (matching hashValue page)[i]? :=
  Sorted.getElem?_equal ordered hashValue inside

theorem hasKey_iff (ordered : page.Ordered) (i : Nat) :
    page.hasKey (base hashValue page + i + 1) hashValue ↔ i < (matching hashValue page).length := by
  constructor
  · intro same
    obtain ⟨itup, found, key⟩ := Option.map_eq_some_iff.mp same
    have place := (Sorted.le_iff ordered hashValue found).mp key.le
    unfold base matching at *
    omega
  · intro inside
    unfold HashPage.hasKey
    rw [item_matching ordered inside, getElem?_eq_getElem inside, Option.map_some, Option.some_inj]
    exact (mem_equal.mp (getElem_mem inside)).2

theorem not_hasKey_base (ordered : page.Ordered) (pos : 1 ≤ base hashValue page) :
    ¬ page.hasKey (base hashValue page) hashValue := by
  intro same
  obtain ⟨itup, found, key⟩ := Option.map_eq_some_iff.mp same
  have place := (Sorted.lt_iff ordered hashValue found).mpr
    (show base hashValue page - 1 < base hashValue page by omega)
  exact absurd key place.ne

theorem base_length (ordered : page.Ordered) (hashValue : Nat) :
    base hashValue page + (matching hashValue page).length ≤ page.maxOffsetNumber :=
  Sorted.length ordered hashValue

theorem At.found (here : At hashValue dir position itup rest) : position.itup = some itup := by
  cases here with
  | forward ordered _ i found | backward ordered _ i found =>
    obtain ⟨inside, _⟩ := List.getElem?_eq_some_iff.mp found
    exact (item_matching ordered inside).trans found

def Gives (hashValue : Nat) (dir : ScanDirection) (result : Option (Position Tid)) : List (IndexTuple Tid) → Prop
  | [] => result = none
  | itup :: rest => ∃ position, result = some position ∧ At hashValue dir position itup rest

theorem forward_gives (ordered : page.Ordered) (rest : ∀ page ∈ after, page.Ordered) (i : Nat)
    (otherwise : Gives hashValue .forward result (after.flatMap (matching hashValue))) : Gives hashValue .forward
      (if base hashValue page + i + 1 ≤ page.maxOffsetNumber ∧ page.hasKey (base hashValue page + i + 1) hashValue then
        some ⟨before, page, after, base hashValue page + i + 1⟩ else result)
      ((matching hashValue page).drop i ++ after.flatMap (matching hashValue)) := by
  by_cases inside : i < (matching hashValue page).length
  · have length := base_length ordered hashValue
    rw [if_pos ⟨by omega, (hasKey_iff ordered i).mpr inside⟩, drop_eq_getElem_cons inside]
    exact ⟨_, rfl, .forward ordered rest i (getElem?_eq_getElem inside)⟩
  · grind [hasKey_iff, drop_eq_nil_of_le]

theorem stepForward_gives (ordered : page.Ordered) (rest : ∀ page ∈ after, page.Ordered) (i : Nat) :
    Gives hashValue .forward (stepForward hashValue before page (base hashValue page + i + 1) after)
      ((matching hashValue page).drop i ++ after.flatMap (matching hashValue)) := by
  induction after generalizing before page i with
  | nil => exact forward_gives ordered rest i rfl
  | cons next after ih =>
    have orderedNext : next.Ordered := rest next mem_cons_self
    refine forward_gives ordered rest i ?_
    rw [hashBinsearch_eq orderedNext]
    exact ih orderedNext (fun page mem => rest page (mem_cons_of_mem _ mem)) 0

theorem backward_gives (ordered : page.Ordered)
      (rest : ∀ page ∈ before, page.Ordered)
    (small : i ≤ (matching hashValue page).length)
    (otherwise : Gives hashValue .backward result (before.flatMap fun page => (matching hashValue page).reverse)) :
    Gives hashValue .backward (if 1 ≤ base hashValue page + i ∧ page.hasKey (base hashValue page + i) hashValue then
        some ⟨before, page, after, base hashValue page + i⟩ else result)
      (((matching hashValue page).take i).reverse ++ before.flatMap fun page => (matching hashValue page).reverse) := by
  cases i with
  | zero =>
    grind [not_hasKey_base]
  | succ i =>
    have inside : i < (matching hashValue page).length := small
    rw [if_pos ⟨by omega, (hasKey_iff ordered i).mpr inside⟩, take_succ_eq_append_getElem inside, reverse_append]
    exact ⟨_, rfl, .backward ordered rest i (getElem?_eq_getElem inside)⟩

theorem stepBackward_gives (ordered : page.Ordered)
      (rest : ∀ page ∈ before, page.Ordered)
    (small : i ≤ (matching hashValue page).length) :
    Gives hashValue .backward (stepBackward hashValue after page (base hashValue page + i) before)
      (((matching hashValue page).take i).reverse ++ before.flatMap fun page => (matching hashValue page).reverse) := by
  induction before generalizing after page i with
  | nil => exact backward_gives ordered rest small rfl
  | cons prev before ih =>
    have orderedPrev : prev.Ordered := rest prev mem_cons_self
    refine backward_gives ordered rest small ?_
    rw [hashBinsearchLast_eq orderedPrev]
    have found := @ih prev (matching hashValue prev).length (page :: after) orderedPrev
      (fun page mem => rest page (mem_cons_of_mem _ mem)) (Nat.le_refl _)
    rw [take_length] at found
    exact found

theorem At.step (here : At hashValue dir position itup rest) :
    Gives hashValue dir (hashStep hashValue position dir) rest := by
  cases here with
  | forward ordered rest i found => exact stepForward_gives ordered rest (i + 1)
  | backward ordered rest i found =>
    obtain ⟨inside, _⟩ := List.getElem?_eq_some_iff.mp found
    exact stepBackward_gives ordered rest (Nat.le_of_lt inside)

theorem hashNexts_eq {tuples : List (IndexTuple Tid)} (gives : Gives hashValue dir result tuples)
    (enough : tuples.length ≤ calls) : hashNexts hashValue dir calls result = some tuples := by
  induction tuples generalizing result calls with
  | nil =>
    rw [show result = none from gives]
    cases calls <;> rfl
  | cons itup rest ih =>
    obtain ⟨position, rfl, here⟩ := gives
    obtain ⟨calls, rfl⟩ : ∃ n, calls = n + 1 := ⟨calls - 1, by simp only [length_cons] at enough; omega⟩
    rw [hashNexts, here.found, ih here.step (Nat.le_of_succ_le_succ enough)]
    rfl

theorem readToEnd_eq (before : List (HashPage Tid)) (page : HashPage Tid) (after : List (HashPage Tid)) :
    ∃ last earlier, readToEnd before page after = ⟨earlier, last, [], 0⟩ ∧
      last :: earlier = (page :: after).reverse ++ before := by
  induction after generalizing before page with
  | nil => exact ⟨page, before, rfl, rfl⟩
  | cons next after ih =>
    obtain ⟨last, earlier, same, order⟩ := ih (page :: before) next
    refine ⟨last, earlier, same, ?_⟩
    grind

end Found

def BucketChain.Ordered (bucket : BucketChain Tid) : Prop := ∀ page ∈ bucket.pages, page.Ordered

instance (bucket : BucketChain Tid) : Decidable bucket.Ordered :=
  inferInstanceAs (Decidable (∀ page ∈ bucket.pages, page.Ordered))

theorem tuples_matching (bucket : BucketChain Tid) (hashValue : Nat) :
    bucket.pages.flatMap (matching hashValue) = equal IndexTuple.hashkey hashValue bucket.tuples := by
  unfold BucketChain.tuples equal
  rw [filter_flatMap]
  rfl

theorem hashScan_eq {bucket : BucketChain Tid} (ordered : bucket.Ordered) (hashValue : Nat) (dir : ScanDirection) :
    ∃ found, hashScan bucket hashValue dir = some found ∧
      found.Perm (equal IndexTuple.hashkey hashValue bucket.tuples) := by
  have fits : (equal IndexTuple.hashkey hashValue bucket.tuples).length ≤ bucket.tuples.length := length_filter_le ..
  have primary : bucket.primary.Ordered := ordered _ mem_cons_self
  cases dir with
  | forward =>
    have gives := @stepForward_gives _ _ _ hashValue [] primary
      (fun page mem => ordered page (mem_cons_of_mem _ mem)) 0
    rw [drop_zero, ← flatMap_cons] at gives
    have first : hashFirst bucket hashValue .forward = stepForward hashValue [] bucket.primary
        (base hashValue bucket.primary + 0 + 1) bucket.overflow := by
      rw [hashFirst, hashStep, if_neg (by simp), hashBinsearch_eq primary]
      rfl
    rw [← first, ← BucketChain.pages, tuples_matching] at gives
    exact ⟨_, hashNexts_eq gives fits, .refl _⟩
  | backward =>
    obtain ⟨last, earlier, reached, order⟩ := readToEnd_eq [] bucket.primary bucket.overflow
    rw [append_nil] at order
    have orderedPage : ∀ page ∈ last :: earlier, page.Ordered := by
      intro page mem
      rw [order, mem_reverse] at mem
      exact ordered page mem
    have gives := @stepBackward_gives _ _ _ (matching hashValue last).length hashValue []
      (orderedPage last mem_cons_self) (fun page mem => orderedPage page (mem_cons_of_mem _ mem))
      (Nat.le_refl _)
    have first : hashFirst bucket hashValue .backward = stepBackward hashValue [] last
        (base hashValue last + (matching hashValue last).length) earlier := by
      rw [hashFirst, reached, hashStep, if_neg (by simp), hashBinsearchLast_eq (orderedPage last mem_cons_self)]
      rfl
    have whole : (matching hashValue last).reverse ++
        (earlier.flatMap fun page => (matching hashValue page).reverse) =
          (equal IndexTuple.hashkey hashValue bucket.tuples).reverse := by
      rw [← flatMap_cons (f := fun page => (matching hashValue page).reverse), order, ← tuples_matching,
        reverse_flatMap]
      rfl
    rw [take_length, ← first, whole] at gives
    exact ⟨_, hashNexts_eq gives (by rw [length_reverse]; exact fits), reverse_perm _⟩

end BlockchainPG.Access.Hash
