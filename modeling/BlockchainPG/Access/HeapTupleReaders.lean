import BlockchainPG.Access.HeapTupleLayout

/-! Offsets in the descriptor's cache are those that every tuple has. -/

namespace BlockchainPG.Access.Tuple

open Lib List

/-- The offset that an attribute has in every tuple in which it and those before it are not
null, if there is one: only attributes of fixed width may come before it, and a varlena
must not need padding. -/
def nominal : Nat → List Attribute → Nat → Option Nat
  | _, [], _ => none
  | off, att :: _, 0 =>
    if att.attlen = -1 ∧ off ≠ attAlignNominal off att.attalign then none else some (attAlignNominal off att.attalign)
  | off, att :: atts, i + 1 =>
    if att.attlen ≤ 0 then none else nominal (attAlignNominal off att.attalign + att.attlen.toNat) atts i

/-- Cached offsets are right, and there is one for every attribute before one that has one. -/
structure CacheOk (atts : List Attribute) (cache : Cache) : Prop where
  right : ∀ i off, cache i = some off → nominal 0 atts i = some off
  closed : ∀ i j, j ≤ i → cache i ≠ none → cache j ≠ none

/-- A cache has offsets for the same attributes as before and maybe more. -/
def Grows (cache cache' : Cache) : Prop := ∀ i, cache i ≠ none → cache' i ≠ none

theorem Grows.refl (cache : Cache) : Grows cache cache := fun _ known => known

theorem Grows.trans (first : Grows cache cache') (second : Grows cache' cache'') : Grows cache cache'' :=
  fun i known => second i (first i known)

theorem Grows.edit (cache : Cache) (i off : Nat) : Grows cache (Function.update cache i (some off)) := by
  intro j known
  grind

theorem CacheOk.edit (ok : CacheOk atts cache) (right : nominal 0 atts i = some off)
    (before : ∀ j < i, cache j ≠ none) : CacheOk atts (Function.update cache i (some off)) := by
  refine ⟨fun j found known => ?_, fun j k less known => ?_⟩
  · grind [right]
  · grind [closed]

section Walk

/-- What the readers return for the attributes from an offset on. -/
def expected : Nat → List (Attribute × Option Datum) → List (Option Datum)
  | _, [] => []
  | off, (_, none) :: rest => none :: expected off rest
  | off, (att, some datum) :: rest =>
    some (fetchatt att (stored att datum ++ layout (off + gap att datum off + (stored att datum).length) rest)) ::
      expected (off + gap att datum off + (stored att datum).length) rest

theorem expected_length (off : Nat) (pairs : List (Attribute × Option Datum)) :
    (expected off pairs).length = pairs.length := by
  fun_induction expected off pairs with
  | case1 => rfl
  | case2 off att rest ih => rw [length_cons, length_cons, ih]
  | case3 off att datum rest ih => rw [length_cons, length_cons, ih]

/-- A reader has come to an attribute: the rest of the data area holds the rest of the values,
and as long as it is not slow, the attributes before have the same offsets in every tuple. -/
structure On (data : List UInt8) (atts : List Attribute) (attnum : Nat) (pairs : List (Attribute × Option Datum))
    (walk : Walk) : Prop where
  here : data.drop walk.off = layout walk.off pairs
  rest : pairs.map Prod.fst <+: atts.drop attnum
  quick : walk.slow = false → (∀ i, nominal 0 atts (attnum + i) = nominal walk.off (atts.drop attnum) i) ∧
    ∀ i < attnum, walk.cache i ≠ none
  cached : CacheOk atts walk.cache

variable {data : List UInt8} {atts : List Attribute} {att : Attribute} {datum : Datum}
  {pairs : List (Attribute × Option Datum)} {walk : Walk}

theorem rest_next (rest : (pair :: pairs).map Prod.fst <+: atts.drop attnum) :
    pairs.map Prod.fst <+: atts.drop (attnum + 1) := by
  obtain ⟨later, split⟩ := rest
  refine ⟨later, ?_⟩
  rw [← drop_drop, ← split]
  rfl

theorem On.null (on : On data atts attnum ((att, none) :: pairs) walk) :
    On data atts (attnum + 1) pairs { walk with slow := true } := by
  obtain ⟨here, rest, -, cached⟩ := on
  exact ⟨here, rest_next rest, nofun, cached⟩

theorem On.drop_eq (on : On data atts attnum ((att, value) :: pairs) walk) :
    atts.drop attnum = att :: atts.drop (attnum + 1) := by
  obtain ⟨later, split⟩ := on.rest
  have shorter : atts.drop (attnum + 1) = pairs.map Prod.fst ++ later := by
    rw [← drop_drop, ← split]
    rfl
  rw [← split, shorter]
  rfl

theorem drop_gap (here : data.drop off = layout off ((att, some datum) :: pairs)) :
    data.drop (off + gap att datum off) =
      stored att datum ++ layout (off + gap att datum off + (stored att datum).length) pairs := by
  rw [← drop_drop, here, layout, drop_left' length_replicate]

theorem On.locate (on : On data atts attnum ((att, some datum) :: pairs) walk) (fits : datum.Fits att) :
    (walk.locate data att attnum).off = walk.off + gap att datum walk.off ∧
      CacheOk atts (walk.locate data att attnum).cache ∧ Grows walk.cache (walk.locate data att attnum).cache ∧
      ((walk.locate data att attnum).slow = false →
        walk.slow = false ∧ (walk.locate data att attnum).cache attnum ≠ none) := by
  obtain ⟨off, slow, cache⟩ := walk
  have split := on.drop_eq
  obtain ⟨here, -, quick, cached⟩ := on
  simp only at here quick cached
  have first : slow = false → nominal 0 atts attnum =
      if att.attlen = -1 ∧ off ≠ attAlignNominal off att.attalign then none
      else some (attAlignNominal off att.attalign) := by
    intro isQuick
    have offset := (quick isQuick).1 0
    rw [Nat.add_zero, split] at offset
    exact offset
  have byPointer : att.attlen = -1 → attAlignPointer off att (data.drop off) = off + gap att datum off := by
    grind [layout, alignPointer_stored]
  have aligned : ¬ (att.attlen = -1 ∧ off ≠ attAlignNominal off att.attalign) →
      attAlignNominal off att.attalign = off + gap att datum off := by
    grind [gap_aligned, alignNominal_gap]
  cases slow with
  | true =>
    simp only [Walk.locate, Bool.true_eq_false, false_and, ↓reduceIte]
    by_cases varlena : att.attlen = -1
    · rw [if_pos varlena]
      exact ⟨byPointer varlena, cached, .refl _, by rintro ⟨⟩⟩
    · rw [if_neg varlena]
      exact ⟨aligned fun both => varlena both.1, cached, .refl _, by rintro ⟨⟩⟩
  | false =>
    obtain ⟨-, -⟩ := quick rfl
    cases known : cache attnum with
    | some offset =>
      simp only [Walk.locate, known]
      have right := cached.right attnum offset known
      rw [first rfl] at right
      split at right
      · cases right
      · next plain =>
        obtain rfl := Option.some.inj right
        exact ⟨aligned plain, cached, .refl _, fun _ => ⟨trivial, by simp⟩⟩
    | none =>
      simp only [Walk.locate, known, true_and, Bool.false_eq_true, ↓reduceIte]
      by_cases varlena : att.attlen = -1
      · rw [if_pos varlena]
        by_cases same : off = attAlignNominal off att.attalign
        · rw [if_pos same]
          refine ⟨by rw [gap_aligned att datum same]; rfl, ?_, .edit cache attnum _, fun _ => by simp⟩
          grind [CacheOk.edit]
        · rw [if_neg same]
          exact ⟨byPointer varlena, cached, .refl _, by rintro ⟨⟩⟩
      · rw [if_neg varlena]
        refine ⟨aligned fun both => varlena both.1, ?_, .edit cache attnum _, fun _ => by simp⟩
        grind [CacheOk.edit]

theorem On.pass (on : On data atts attnum ((att, some datum) :: pairs) walk) (fits : datum.Fits att) :
    ((walk.locate data att attnum).pass data att).off =
        walk.off + gap att datum walk.off + (stored att datum).length ∧
      On data atts (attnum + 1) pairs ((walk.locate data att attnum).pass data att) := by
  obtain ⟨place, cached, grows, quick⟩ := on.locate fits
  have found := drop_gap on.here
  have stop : ((walk.locate data att attnum).pass data att).off =
      walk.off + gap att datum walk.off + (stored att datum).length := by
    simp only [Walk.pass, place, found]
    exact addlength_stored fits _ _
  refine ⟨stop, ?_, rest_next on.rest, ?_, cached⟩
  · rw [stop, ← drop_drop, found, drop_left]
  · intro isQuick
    simp only [Walk.pass, Bool.or_eq_false_iff, decide_eq_false_iff_not] at isQuick
    obtain ⟨wasQuick, known⟩ := quick isQuick.1
    obtain ⟨offsets, before⟩ := on.quick wasQuick
    refine ⟨fun i => ?_, fun i less => ?_⟩
    · have next := offsets (i + 1)
      rw [on.drop_eq, nominal, if_neg isQuick.2] at next
      grind [Walk.pass, attAddlengthPointer, alignNominal_gap]
    · by_cases last : i = attnum
      · rw [last]
        exact known
      · exact grows i (before i (by omega))

theorem deformLoop_null (isNull : tuple.isnull attnum = true) (att : Attribute)
    (atts : List Attribute) (walk : Walk) : deformLoop tuple (att :: atts) attnum walk =
      (none :: (deformLoop tuple atts (attnum + 1) { walk with slow := true }).1,
        (deformLoop tuple atts (attnum + 1) { walk with slow := true }).2) := by
  rw [deformLoop, if_pos isNull]

theorem deformLoop_value (notNull : tuple.isnull attnum = false) (att : Attribute)
    (atts : List Attribute) (walk : Walk) : deformLoop tuple (att :: atts) attnum walk =
      (some (fetchatt att (tuple.data.drop (walk.locate tuple.data att attnum).off)) ::
          (deformLoop tuple atts (attnum + 1) ((walk.locate tuple.data att attnum).pass tuple.data att)).1,
        (deformLoop tuple atts (attnum + 1) ((walk.locate tuple.data att attnum).pass tuple.data att)).2) := by
  rw [deformLoop, if_neg (by simp [notNull])]

theorem deformLoop_spec (front back : List (Attribute × Option Datum))
    (nulls : ∀ i pair, front[i]? = some pair → tuple.isnull (attnum + i) = pair.2.isNone)
    (fits : ∀ att datum, (att, some datum) ∈ front → datum.Fits att)
    (on : On tuple.data atts attnum (front ++ back) walk) :
    (deformLoop tuple (front.map Prod.fst) attnum walk).1 = (expected walk.off (front ++ back)).take front.length ∧
      On tuple.data atts (attnum + front.length) back (deformLoop tuple (front.map Prod.fst) attnum walk).2 ∧
      Grows walk.cache (deformLoop tuple (front.map Prod.fst) attnum walk).2.cache ∧
      expected (deformLoop tuple (front.map Prod.fst) attnum walk).2.off back =
        (expected walk.off (front ++ back)).drop front.length := by
  induction front generalizing attnum walk with
  | nil => exact ⟨rfl, on, .refl _, rfl⟩
  | cons pair front ih =>
    have later : ∀ i pair', front[i]? = some pair' → tuple.isnull (attnum + 1 + i) = pair'.2.isNone := by
      intro i pair' found
      rw [show attnum + 1 + i = attnum + (i + 1) by omega]
      exact nulls (i + 1) pair' found
    have laterFits := fun att datum mem => fits att datum (mem_cons_of_mem _ mem)
    have first := nulls 0 pair rfl
    rw [Nat.add_zero] at first
    rw [show attnum + (pair :: front).length = attnum + 1 + front.length by simp only [length_cons]; omega]
    match pair with
    | (att, none) =>
      obtain ⟨values, after, grows, rest⟩ := ih later laterFits on.null
      rw [map_cons, deformLoop_null first]
      exact ⟨congrArg (none :: ·) values, after, grows, rest⟩
    | (att, some datum) =>
      have here := fits att datum mem_cons_self
      obtain ⟨place, -, grown, -⟩ := On.locate on here
      obtain ⟨stop, next⟩ := On.pass on here
      obtain ⟨values, after, grows, rest⟩ := ih later laterFits next
      rw [map_cons, deformLoop_value first]
      rw [stop] at values rest
      refine ⟨?_, after, grown.trans grows, rest⟩
      show some _ :: _ = _
      rw [values, place, drop_gap on.here]
      rfl

theorem walkTo_null (isNull : tuple.isnull attnum = true) (target : Nat) (att : Attribute)
    (atts : List Attribute) (walk : Walk) : walkTo tuple target (att :: atts) attnum walk =
      walkTo tuple target atts (attnum + 1) { walk with slow := true } := by
  rw [walkTo, if_pos isNull]

theorem walkTo_value (notNull : tuple.isnull attnum = false) (target : Nat) (att : Attribute)
    (atts : List Attribute) (walk : Walk) : walkTo tuple target (att :: atts) attnum walk =
      if attnum = target then walk.locate tuple.data att attnum
      else walkTo tuple target atts (attnum + 1) ((walk.locate tuple.data att attnum).pass tuple.data att) := by
  rw [walkTo, if_neg (by simp [notNull])]

theorem walkTo_spec {tuple : HeapTuple} (on : On tuple.data atts attnum pairs walk)
    (nulls : ∀ i pair, pairs[i]? = some pair → tuple.isnull (attnum + i) = pair.2.isNone)
    (fits : ∀ att datum, (att, some datum) ∈ pairs → datum.Fits att) (target : pairs[k]? = some (att, some datum)) :
    (expected walk.off pairs)[k]? = some (some (fetchatt att (tuple.data.drop
        (walkTo tuple (attnum + k) (atts.drop attnum) attnum walk).off))) ∧
      CacheOk atts (walkTo tuple (attnum + k) (atts.drop attnum) attnum walk).cache ∧
      Grows walk.cache (walkTo tuple (attnum + k) (atts.drop attnum) attnum walk).cache := by
  induction pairs generalizing attnum walk k with
  | nil => cases target
  | cons pair pairs ih =>
    have later : ∀ i pair', pairs[i]? = some pair' → tuple.isnull (attnum + 1 + i) = pair'.2.isNone := by
      intro i pair' found
      rw [show attnum + 1 + i = attnum + (i + 1) by omega]
      exact nulls (i + 1) pair' found
    have laterFits := fun att datum mem => fits att datum (mem_cons_of_mem _ mem)
    have first := nulls 0 pair rfl
    rw [Nat.add_zero] at first
    obtain ⟨att', value⟩ := pair
    rw [on.drop_eq]
    cases value with
    | none =>
      rw [walkTo_null first]
      cases k with
      | zero => cases target
      | succ k =>
        have found := ih on.null later laterFits target
        rw [show attnum + 1 + k = attnum + (k + 1) by omega] at found
        exact found
    | some datum' =>
      rw [walkTo_value first]
      have here := fits att' datum' mem_cons_self
      obtain ⟨place, cached, grown, -⟩ := On.locate on here
      cases k with
      | zero =>
        simp only [getElem?_cons_zero, Option.some.injEq, Prod.mk.injEq] at target
        obtain ⟨rfl, rfl⟩ := target
        rw [if_pos (Nat.add_zero attnum).symm, place, drop_gap on.here]
        exact ⟨rfl, cached, grown⟩
      | succ k =>
        obtain ⟨stop, next⟩ := On.pass on here
        have found := ih next later laterFits target
        rw [show attnum + 1 + k = attnum + (k + 1) by omega, stop] at found
        rw [if_neg (by omega)]
        exact ⟨found.1, found.2.1, grown.trans found.2.2⟩

theorem nominal_expected {off : Nat} (here : data.drop off = layout off pairs)
    (rest : pairs.map Prod.fst <+: atts) (offset : nominal off atts k = some place)
    (values : ∀ i ≤ k, ∀ pair, pairs[i]? = some pair → pair.2 ≠ none)
    (fits : ∀ att datum, (att, some datum) ∈ pairs → datum.Fits att) (target : pairs[k]? = some (att, some datum)) :
    (expected off pairs)[k]? = some (some (fetchatt att (data.drop place))) := by
  induction pairs generalizing atts off k with
  | nil => cases target
  | cons pair pairs ih =>
    obtain ⟨later, split⟩ := rest
    obtain ⟨att', value⟩ := pair
    rw [← split] at offset
    replace offset : nominal off (att' :: (pairs.map Prod.fst ++ later)) k = some place := offset
    cases value with
    | none => exact absurd rfl (values 0 (Nat.zero_le k) _ rfl)
    | some datum' =>
      have fit := fits att' datum' mem_cons_self
      cases k with
      | zero =>
        simp only [getElem?_cons_zero, Option.some.injEq, Prod.mk.injEq] at target
        obtain ⟨rfl, rfl⟩ := target
        rw [nominal] at offset
        split at offset
        · cases offset
        · next plain =>
          have same : place = off + gap att' datum' off := by
            grind [gap_aligned, alignNominal_gap]
          rw [same, drop_gap here]
          rfl
      | succ k =>
        rw [nominal] at offset
        split at offset
        · cases offset
        · next fixed =>
          have stop : attAlignNominal off att'.attalign + att'.attlen.toNat =
              off + gap att' datum' off + (stored att' datum').length := by
            have ends := addlength_stored fit (off + gap att' datum' off) []
            grind [attAddlengthPointer, alignNominal_gap]
          rw [stop] at offset
          refine ih ?_ (prefix_append _ later) offset (fun i less pair found => values (i + 1) (by omega) pair found)
            (fun att datum mem => fits att datum (mem_cons_of_mem _ mem)) target
          rw [← drop_drop, drop_gap here, drop_left]

end Walk

section Fast

variable {atts : List Attribute}

theorem nominal_next (offset : nominal off atts k = some place) (found : atts[k]? = some att)
    (fixed : 0 < att.attlen) (i : Nat) :
    nominal off atts (k + 1 + i) = nominal (place + att.attlen.toNat) (atts.drop (k + 1)) i := by
  induction atts generalizing off k with
  | nil => cases found
  | cons first atts ih =>
    cases k with
    | zero =>
      grind [nominal]
    | succ k =>
      grind [nominal]

theorem cacheFixed_spec (ok : CacheOk atts cache) (before : ∀ i < j, cache i ≠ none)
    (offsets : ∀ i, nominal 0 atts (j + i) = nominal off (atts.drop j) i) :
    CacheOk atts (cacheFixed (atts.drop j) j off cache) ∧ Grows cache (cacheFixed (atts.drop j) j off cache) ∧
      ∀ k < atts.length, (∀ i att, j ≤ i → i ≤ k → atts[i]? = some att → 0 < att.attlen) →
        cacheFixed (atts.drop j) j off cache k ≠ none := by
  induction rest : atts.drop j generalizing j off cache with
  | nil =>
    have ended : atts.length ≤ j := drop_eq_nil_iff.mp rest
    exact ⟨ok, .refl _, fun k less _ => before k (by omega)⟩
  | cons att later ih =>
    have here : atts[j]? = some att := by
      rw [← Nat.add_zero j, ← getElem?_drop, rest]
      rfl
    have next : atts.drop (j + 1) = later := by
      rw [← drop_drop, rest]
      rfl
    rw [cacheFixed]
    by_cases width : att.attlen ≤ 0
    · rw [if_pos width]
      refine ⟨ok, .refl _, fun k less fixed => ?_⟩
      by_cases small : k < j
      · exact before k small
      · grind
    · rw [if_neg width]
      have offset := offsets 0
      rw [Nat.add_zero, rest, nominal, if_neg (by omega)] at offset
      have after := @ih (Function.update cache j (some (attAlignNominal off att.attalign))) (j + 1)
        (attAlignNominal off att.attalign + att.attlen.toNat) (ok.edit offset before) ?_ ?_ next
      · obtain ⟨ok', grows, known⟩ := after
        refine ⟨ok', (Grows.edit cache j _).trans grows, fun k less fixed => ?_⟩
        grind
      · grind
      · intro i
        have shifted := nominal_next offset here (by omega) i
        rw [shifted, next]

theorem firstUncached_spec (cache : Cache) (atts : List Attribute) (j : Nat) :
    j ≤ firstUncached cache atts j ∧ (∀ i, j ≤ i → i < firstUncached cache atts j → cache i ≠ none) ∧
      ∀ k, j ≤ k → k < j + atts.length → cache k = none → firstUncached cache atts j ≤ k := by
  induction atts generalizing j with
  | nil =>
    grind [firstUncached]
  | cons att atts ih =>
    rw [firstUncached]
    split
    · next known =>
      obtain ⟨low, -, -⟩ := ih (j + 1)
      have here : cache j ≠ none := by
        intro none
        simp [none] at known
      refine ⟨by omega, fun i least less => ?_, fun k least less unknown => ?_⟩
      · grind
      · grind
    · grind

theorem fastCache_spec (ok : CacheOk atts cache) (inside : attnum < atts.length)
    (fixed : ∀ i att, i ≤ attnum → atts[i]? = some att → 0 < att.attlen) (unknown : cache attnum = none) :
    CacheOk atts (fastCache atts cache) ∧ Grows cache (fastCache atts cache) ∧ fastCache atts cache attnum ≠ none := by
  obtain ⟨first, rest, rfl⟩ : ∃ first rest, atts = first :: rest :=
    exists_cons_of_ne_nil (length_pos_iff.mp (Nat.zero_lt_of_lt inside))
  have firstFixed := fixed 0 first (Nat.zero_le _) rfl
  have start : nominal 0 (first :: rest) 0 = some 0 := by
    have zero : attAlignNominal 0 first.attalign = 0 := by
      have multiple := alignUp_mul first.attalign.size_pos 0
      rwa [Nat.zero_mul] at multiple
    rw [nominal, if_neg (by omega), zero]
  have ok' := ok.edit start (fun j less => absurd less (Nat.not_lt_zero j))
  unfold fastCache
  dsimp only
  generalize cached : Function.update cache 0 (some 0) = cache' at ok'
  obtain ⟨low, between, most⟩ := firstUncached_spec cache' rest 1
  have known : cache' 0 ≠ none := by rw [← cached]; simp
  have grows : Grows cache cache' := cached ▸ Grows.edit cache 0 0
  rw [drop_succ_cons, drop_zero]
  generalize firstUncached cache' rest 1 = j at *
  -- no attribute behind the target has an offset, as the target has none
  have small : j ≤ attnum + 1 := by
    by_cases zero : attnum = 0
    · subst zero
      by_contra large
      have second := between 1 (Nat.le_refl 1) (by omega)
      rw [← cached, Function.update_of_ne (by decide)] at second
      exact ok.closed 1 0 (by omega) second unknown
    · have least := most attnum (by omega) (by simp only [length_cons] at inside; omega)
        (by rw [← cached, Function.update_of_ne zero]; exact unknown)
      omega
  have before : ∀ i < j, cache' i ≠ none := by
    grind
  obtain ⟨place, found⟩ := Option.ne_none_iff_exists'.mp (before (j - 1) (by omega))
  obtain ⟨att, here⟩ : ∃ att, (first :: rest)[j - 1]? = some att :=
    ⟨_, getElem?_eq_getElem (show j - 1 < (first :: rest).length by omega)⟩
  have pos := fixed (j - 1) att (by omega) here
  have off : (((cache' (j - 1)).getD 0 : Int) + (((first :: rest)[j - 1]?).map Attribute.attlen).getD 0).toNat =
      place + att.attlen.toNat := by
    grind
  rw [off]
  have offsets : ∀ i, nominal 0 (first :: rest) (j + i) =
      nominal (place + att.attlen.toNat) ((first :: rest).drop j) i := by
    intro i
    have next := nominal_next (ok'.right _ _ found) here pos i
    rwa [show j - 1 + 1 = j by omega] at next
  grind [cacheFixed_spec, Grows.trans]

end Fast

section Tuples

/-- A tuple holds some values of the first attributes of a descriptor. -/
structure Holds (tuple : HeapTuple) (atts : List Attribute) (values : List (Option Datum)) : Prop where
  natts : tuple.natts = values.length
  fewer : values.length ≤ atts.length
  fits : ∀ att datum, (att, some datum) ∈ atts.zip values → datum.Fits att
  data : tuple.data = layout 0 (atts.zip values)
  isnull : ∀ i value, values[i]? = some value → tuple.isnull i = value.isNone
  nullBefore : ∀ i < values.length,
    (tuple.hasNulls && nullBefore tuple.bits i) = true ↔ ∃ j < i, values[j]? = some none
  hasVarWidth : tuple.hasVarWidth = false → ∀ att datum, (att, some datum) ∈ atts.zip values → 0 < att.attlen

/-- What `heap_deform_tuple` is to return for a tuple. -/
def expectedValues (atts : List Attribute) (values : List (Option Datum)) : List (Option Datum) :=
  expected 0 (atts.zip values) ++ replicate (atts.length - values.length) none

variable {tuple : HeapTuple} {atts : List Attribute} {values : List (Option Datum)}

theorem map_fst_zip_take (fewer : values.length ≤ atts.length) :
    (atts.zip values).map Prod.fst = atts.take values.length := by
  grind [zip_eq_zip_take_min, map_fst_zip]

theorem Holds.start (holds : Holds tuple atts values) (ok : CacheOk atts cache) :
    On tuple.data atts 0 (atts.zip values) ⟨0, false, cache⟩ := by
  constructor <;> grind [data, map_fst_zip_take, fewer]

theorem Holds.pairs_isnull (holds : Holds tuple atts values) (found : (atts.zip values)[i]? = some pair) :
    tuple.isnull i = pair.2.isNone :=
  holds.isnull i pair.2 (getElem?_zip_eq_some.mp found).2

theorem Holds.deform (holds : Holds tuple atts values) (ok : CacheOk atts cache) :
    (heapDeformTuple tuple atts cache).1 = expectedValues atts values ∧
      CacheOk atts (heapDeformTuple tuple atts cache).2 ∧ Grows cache (heapDeformTuple tuple atts cache).2 := by
  have start := holds.start ok
  rw [← append_nil (atts.zip values)] at start
  obtain ⟨found, after, grows, -⟩ := deformLoop_spec (atts.zip values) []
    (fun i pair found => by rw [Nat.zero_add]; exact holds.pairs_isnull found) holds.fits start
  grind [expected_length, map_fst_zip_take, fewer, heapDeformTuple, expectedValues, natts, On.cached]

theorem zip_getElem? {i : Nat} (here : atts[i]? = some att) (value : values[i]? = some (some datum)) :
    (atts.zip values)[i]? = some (att, some datum) :=
  getElem?_zip_eq_some.mpr ⟨here, value⟩

theorem Holds.fixed_before (holds : Holds tuple atts values) (inside : attnum < values.length)
    (noNull : (tuple.hasNulls && Tuple.nullBefore tuple.bits attnum) = false)
    (value : values[attnum]? = some (some datum))
    (narrow : ¬ (tuple.hasVarWidth && (atts.take (attnum + 1)).any fun att => att.attlen ≤ 0) = true)
    (less : i ≤ attnum) (found : atts[i]? = some att) : 0 < att.attlen := by
  cases width : tuple.hasVarWidth with
  | true =>
    rw [width, Bool.true_and, any_eq_true] at narrow
    by_contra small
    refine narrow ⟨att, mem_of_getElem? (i := i) ?_, decide_eq_true (by omega)⟩
    rw [getElem?_take_of_lt (by omega), found]
  | false =>
    cases there : values[i]? with
    | none =>
      rw [getElem?_eq_none_iff] at there
      omega
    | some value' =>
      cases value' with
      | none =>
        grind [nullBefore]
      | some datum' => exact holds.hasVarWidth width att datum' (mem_of_getElem? (zip_getElem? found there))

theorem Holds.nocachegetattr (holds : Holds tuple atts values) (ok : CacheOk atts cache)
    (here : atts[attnum]? = some att) (value : values[attnum]? = some (some datum)) :
    (expectedValues atts values)[attnum]? = some (some (nocachegetattr tuple att attnum atts cache).1) ∧
      CacheOk atts (nocachegetattr tuple att attnum atts cache).2 ∧
      Grows cache (nocachegetattr tuple att attnum atts cache).2 := by
  have target := zip_getElem? here value
  obtain ⟨inside, -⟩ := List.getElem?_eq_some_iff.mp value
  obtain ⟨insideAtts, -⟩ := List.getElem?_eq_some_iff.mp here
  have whole : (expectedValues atts values)[attnum]? = (expected 0 (atts.zip values))[attnum]? := by
    refine getElem?_append_left ?_
    rw [expected_length, length_zip]
    omega
  have rest : (atts.zip values).map Prod.fst <+: atts := by
    rw [map_fst_zip_take holds.fewer]
    exact take_prefix ..
  -- without a null before, an offset for every tuple is right
  have quick {place : Nat} (noNull : (tuple.hasNulls && Tuple.nullBefore tuple.bits attnum) = false)
      (offset : nominal 0 atts attnum = some place) :
      (expectedValues atts values)[attnum]? = some (some (fetchatt att (tuple.data.drop place))) := by
    grind [nominal_expected, data, fits, getElem?_zip_eq_some, nullBefore]
  have walked := walkTo_spec (holds.start ok)
    (fun i pair found => by rw [Nat.zero_add]; exact holds.pairs_isnull found) holds.fits target
  rw [Nat.zero_add, drop_zero, ← whole] at walked
  unfold Tuple.nocachegetattr
  cases slow : tuple.hasNulls && Tuple.nullBefore tuple.bits attnum with
  | true =>
    simp only [Bool.true_or, ↓reduceIte]
    exact walked
  | false =>
    cases known : cache attnum with
    | some place => exact ⟨quick slow (ok.right attnum place known), ok, .refl _⟩
    | none =>
      simp only [Bool.false_or]
      split
      · exact walked
      · next narrow =>
        have fixed : ∀ i att', i ≤ attnum → atts[i]? = some att' → 0 < att'.attlen :=
          fun i att' less found => holds.fixed_before inside slow value narrow less found
        obtain ⟨ok', grows, there⟩ := fastCache_spec ok insideAtts fixed known
        obtain ⟨place, found⟩ := Option.ne_none_iff_exists'.mp there
        grind [CacheOk.right]

end Tuples

end BlockchainPG.Access.Tuple
