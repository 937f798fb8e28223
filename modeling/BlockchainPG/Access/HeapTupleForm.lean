import BlockchainPG.Access.HeapTupleReaders

/-! What is read from the tuples that `heap_form_tuple` makes. -/

namespace BlockchainPG.Access.Tuple

open Lib
open List hiding flatten

section Form

variable {att : Attribute} {datum : Datum} {value : Option Datum} {atts : List Attribute}
  {given values : List (Option Datum)}

/-- `toast_flatten_tuple_attribute` makes a varlena of a varlena. -/
structure Flatten where
  flatten : Attribute → Memory → Memory
  valid : ∀ att memory, IsVarlena memory → IsVarlena (flatten att memory)

theorem fits_byref (fits : datum.Fits att) (varlena : att.attlen = -1) :
    att.attbyval = false ∧ IsVarlena datum.memory := by
  cases datum with
  | value word =>
    obtain ⟨byval, -⟩ := fits
    rcases att.byval byval with sizes | sizes | sizes | sizes <;> omega
  | pointer memory => exact ⟨fits.1, fits.2.2.1 varlena⟩

theorem flattenValue_fits (flatten : Flatten) (fits : ∀ datum, value = some datum → datum.Fits att) :
    ∀ datum, flattenValue flatten.flatten att value = some datum → datum.Fits att := by
  intro datum flattened
  cases value with
  | none => cases flattened
  | some datum' =>
    have fits' := fits datum' rfl
    simp only [flattenValue, Option.map_some, Option.some.injEq] at flattened
    split at flattened
    · next composite =>
      obtain ⟨byref, valid⟩ := fits_byref fits' composite.1
      subst flattened
      exact ⟨byref, fun pos => by omega, fun _ => flatten.valid att _ valid, fun cstring => by omega⟩
    · subst flattened
      exact fits'

/-- A tuple made by `heap_form_tuple` of values of the first attributes of a descriptor, which
may have got more attributes since. -/
structure Formed (flatten : Flatten) (atts : List Attribute) where
  td : Nat
  tdhasoid : Bool
  given : List (Option Datum)
  fewer : given.length ≤ atts.length
  fits : ∀ att datum, (att, some datum) ∈ atts.zip given → datum.Fits att
  tuple : HeapTuple
  values : List (Option Datum)
  formed : heapFormTuple flatten.flatten td tdhasoid (atts.take given.length) given = .ok (tuple, values)

section

variable (marked : filled.hasNull = true → Marked filled (values.map Option.isNone))
    (flag : filled.hasNull = values.any Option.isNone)
include marked flag

theorem marked_isnull {i : Nat} (here : values[i]? = some value) :
    (filled.hasNull && attIsnull i filled.bits) = value.isNone := by
  cases nulls : filled.hasNull with
  | true =>
    rw [attIsnull_eq, (marked nulls).bits, getElem?_map, here]
    cases value <;> rfl
  | false =>
    grind

theorem marked_nullBefore {i : Nat} (inside : i < values.length) :
    (filled.hasNull && nullBefore filled.bits i) = true ↔ ∃ j < i, values[j]? = some none := by
  rw [Bool.and_eq_true, nullBefore_iff]
  constructor
  · rintro ⟨nulls, j, less, bit⟩
    refine ⟨j, less, ?_⟩
    have here := getElem?_eq_getElem (show j < values.length by omega)
    rw [(marked nulls).bits, getElem?_map, here] at bit
    rw [here]
    cases value : values[j] with
    | none => rfl
    | some datum =>
      rw [value] at bit
      cases bit
  · rintro ⟨j, less, here⟩
    have nulls : filled.hasNull = true := by
      rw [flag, any_eq_true]
      exact ⟨none, mem_of_getElem? here, rfl⟩
    refine ⟨nulls, j, less, ?_⟩
    rw [(marked nulls).bits, getElem?_map, here]
    rfl

end

theorem zip_take (atts : List Attribute) (values : List (Option Datum)) :
    (atts.take values.length).zip values = atts.zip values := by
  induction atts generalizing values with
  | nil => rw [take_nil]
  | cons att atts ih =>
    cases values with
    | nil => rfl
    | cons value values =>
      grind

theorem holds_filled (fewer : values.length ≤ atts.length)
    (fits : ∀ att datum, (att, some datum) ∈ atts.zip values → datum.Fits att) (start : Nat)
    (done : heapFillTuple (8 * start) (atts.take values.length) values (values.any Option.isNone) = filled) :
    Holds ⟨values.length, filled.hasNull, filled.hasVarWidth, filled.hasExternal, filled.bits, filled.data⟩
      atts values := by
  subst done
  obtain ⟨data, width, nulls⟩ := fill_eq start (values.any Option.isNone) (atts.zip values)
    ⟨[], false, false, false, [], highbit⟩
  have second : (atts.zip values).map Prod.snd = values := map_snd_zip fewer
  have someNull : ((atts.zip values).any fun pair => pair.2.isNone) = values.any Option.isNone := by
    grind
  rw [someNull, Bool.and_self, Bool.false_or] at nulls
  have marked (some : values.any Option.isNone = true) :
      Marked ((atts.zip values).foldl (fillAtt (8 * start) (values.any Option.isNone))
        ⟨[], false, false, false, [], highbit⟩) (values.map Option.isNone) := by
    have empty : Marked ⟨[], false, false, false, [], highbit⟩ [] := ⟨rfl, rfl, fun i => by simp [bitOf]⟩
    have nullsOf : (atts.zip values).map (fun pair => pair.2.isNone) = values.map Option.isNone := by
      rw [← congrArg (List.map Option.isNone) second, map_map]
      rfl
    rw [some, ← nullsOf]
    exact fill_marked start (atts.zip values) empty
  unfold heapFillTuple
  rw [zip_take]
  refine ⟨rfl, fewer, fits, data, fun i value here => ?_, fun i inside => ?_, fun narrow att datum mem => ?_⟩
  · exact marked_isnull (fun some => marked (nulls ▸ some)) nulls here
  · grind [marked_nullBefore]
  · grind

theorem Formed.written (formed : Formed flatten atts) :
    formed.values = (atts.zip formed.given).map (fun pair => flattenValue flatten.flatten pair.1 pair.2) ∧
      ∃ start filled, heapFillTuple (8 * start) (atts.take formed.given.length) formed.values
          (formed.values.any Option.isNone) = filled ∧ formed.tuple =
          ⟨formed.values.length, filled.hasNull, filled.hasVarWidth, filled.hasExternal, filled.bits, filled.data⟩ := by
  have done := formed.formed
  unfold heapFormTuple at done
  split at done
  · cases done
  · obtain ⟨tuple, values⟩ := Prod.mk.inj (Except.ok.inj done)
    rw [values] at tuple
    have length : formed.values.length = (atts.take formed.given.length).length := by
      rw [← values]
      simp [formed.fewer]
    refine ⟨by rw [← values, zip_take], formed.td + (23 + (if formed.values.any Option.isNone then
      ((atts.take formed.given.length).length + 7) / 8 else 0) + (if formed.tdhasoid then 4 else 0) + 7) / 8, _,
        rfl, ?_⟩
    rw [← tuple, length, alignUp, Nat.mul_add, Nat.mul_comm (_ / 8) 8]

theorem Formed.values_length (formed : Formed flatten atts) : formed.values.length = formed.given.length := by
  grind [written, fewer]

theorem Formed.flattened (formed : Formed flatten atts) {i : Nat} (here : atts[i]? = some att)
    (there : formed.given[i]? = some value) : formed.values[i]? = some (flattenValue flatten.flatten att value) := by
  grind [written]

theorem Formed.holds (formed : Formed flatten atts) : Holds formed.tuple atts formed.values := by
  have length := formed.values_length
  have fewer := formed.fewer
  obtain ⟨-, start, filled, written, tuple⟩ := formed.written
  rw [← length] at written
  rw [tuple]
  refine holds_filled (by omega) (fun att datum mem => ?_) start written
  obtain ⟨i, here⟩ := List.mem_iff_getElem?.mp mem
  obtain ⟨hereAtt, hereValue⟩ := List.getElem?_zip_eq_some.mp here
  obtain ⟨inside, -⟩ := List.getElem?_eq_some_iff.mp hereValue
  have given := getElem?_eq_getElem (show i < formed.given.length by omega)
  rw [formed.flattened hereAtt given, Option.some.injEq] at hereValue
  refine flattenValue_fits flatten (fun datum' isDatum => ?_) datum hereValue
  rw [isDatum] at given
  exact formed.fits att datum' (mem_of_getElem? (zip_getElem? hereAtt given))

end Form

section RoundTrip

/-- A result stands for the same value: the same number, the same bytes, or for a varlena that
may have a short header the same bytes behind one. -/
def SameValue (att : Attribute) (given result : Datum) : Prop :=
  if att.attbyval then result = given
  else if att.attlen = -1 then
    result.memory.take (varsizeAny result.memory) = given.memory.take (varsizeAny given.memory) ∨
      attIsPackable att ∧ varattCanMakeShort given.memory ∧
        varattIsShort result.memory ∧ varattIsExternal result.memory = false ∧
        (result.memory.take (varsizeShort result.memory)).drop 1 =
          (given.memory.take (varsize given.memory)).drop varhdrsz
  else if att.attlen = -2 then
    result.memory.take (strlen result.memory + 1) = given.memory.take (strlen given.memory + 1)
  else result.memory.take att.attlen.toNat = given.memory.take att.attlen.toNat

def SameOption (att : Attribute) : Option Datum → Option Datum → Prop
  | none, none => True
  | some given, some result => SameValue att given result
  | _, _ => False

variable {att : Attribute} {datum : Datum} {atts : List Attribute} {values : List (Option Datum)}

theorem StoredVarlena.same (kind : StoredVarlena att val isAligned bytes) (varlena : att.attlen = -1) (tail : Memory) :
    (bytes ++ tail).take (varsizeAny (bytes ++ tail)) = val.take (varsizeAny val) ∨
      attIsPackable att ∧ varattCanMakeShort val ∧
        varattIsShort (bytes ++ tail) ∧ varattIsExternal (bytes ++ tail) = false ∧
        ((bytes ++ tail).take (varsizeShort (bytes ++ tail))).drop 1 = (val.take (varsize val)).drop varhdrsz := by
  have size := kind.size tail
  have whole : (bytes ++ tail).take (varsizeAny (bytes ++ tail)) = bytes := take_left' size.symm
  rw [whole]
  cases kind with
  | external external low inside => exact .inl (by rw [varsizeAny, if_pos external])
  | short inline short low inside => exact .inl (by rw [varsizeAny, if_neg (by simp [inline]), if_pos short])
  | converted packs inline long small low inside =>
    have pos : 1 ≤ varattConvertedShortSize val := Nat.le_add_left ..
    obtain ⟨notExternal, isShort, -⟩ := setVarsizeShort_spec pos small
    have external : varattIsExternal (setVarsizeShort (varattConvertedShortSize val) ::
        (val.drop varhdrsz).take (varattConvertedShortSize val - 1) ++ tail) = false := by
      simp [varattIsExternal, vaHeader, notExternal]
    have short : varattIsShort (setVarsizeShort (varattConvertedShortSize val) ::
        (val.drop varhdrsz).take (varattConvertedShortSize val - 1) ++ tail) = true := by
      simp [varattIsShort, vaHeader, isShort]
    rw [varsizeAny, if_neg (Bool.eq_false_iff.mp external), if_pos short] at whole
    refine .inr ⟨by simp [attIsPackable, varlena, packs.1], packs.2, short, external, ?_⟩
    rw [whole, drop_succ_cons, drop_zero, drop_take]
    rfl
  | aligned unpacked inline long low inside =>
    grind [varsizeAny]

theorem fetchatt_stored (fits : datum.Fits att) (tail : Memory) :
    SameValue att datum (fetchatt att (stored att datum ++ tail)) := by
  unfold SameValue
  cases datum with
  | value word =>
    obtain ⟨byval, small⟩ := fits
    rw [if_pos byval, fetchatt, if_pos byval, stored, if_pos byval, take_left' (storeWord_length ..)]
    exact congrArg Datum.value (wordOf_storeWord (fun n less => by rw [UInt8.toNat_ofNat']; omega) small)
  | pointer memory =>
    obtain ⟨byref, fixed, varlena, cstring⟩ := fits
    have fetched (bytes : Memory) : fetchatt att bytes = .pointer bytes := if_neg (Bool.eq_false_iff.mp byref)
    rw [if_neg (Bool.eq_false_iff.mp byref), fetched]
    simp only [Datum.memory]
    rcases att.sizes with pos | isVarlena | isCstring
    · have inside := fixed pos
      rw [if_neg (by omega), if_neg (by omega), stored, if_neg (by simp [byref]), if_neg (by omega),
        if_neg (by omega)]
      exact take_left' (by rw [length_take]; exact Nat.min_eq_left inside)
    · rw [if_pos isVarlena]
      exact (stored_varlena (.pointer memory) byref isVarlena (varlena isVarlena)).same isVarlena tail
    · grind [strlen_take, stored, Datum.memory]

theorem expected_same (pairs : List (Attribute × Option Datum))
    (fits : ∀ att datum, (att, some datum) ∈ pairs → datum.Fits att) (off : Nat) :
    ∀ (i : Nat) pair, pairs[i]? = some pair → ∃ result, (expected off pairs)[i]? = some result ∧
      SameOption pair.1 pair.2 result := by
  fun_induction expected off pairs with
  | case1 =>
    grind
  | case2 off att rest ih =>
    have later := ih fun att datum mem => fits att datum (mem_cons_of_mem _ mem)
    rintro (_ | i) pair here
    · cases here
      exact ⟨none, rfl, trivial⟩
    · exact later i pair here
  | case3 off att datum rest ih =>
    have later := ih fun att datum mem => fits att datum (mem_cons_of_mem _ mem)
    rintro (_ | i) pair here
    · cases here
      exact ⟨_, rfl, fetchatt_stored (fits att datum mem_cons_self) _⟩
    · exact later i pair here

/-- The values that the readers return are those that the tuple holds, and nulls for the
attributes it does not have. -/
theorem Holds.same (holds : Holds tuple atts values) :
    (∀ (i : Nat) att value, atts[i]? = some att → values[i]? = some value →
      ∃ result, (expectedValues atts values)[i]? = some result ∧ SameOption att value result) ∧
    ∀ i, values.length ≤ i → i < atts.length → (expectedValues atts values)[i]? = some none := by
  have length : (expected 0 (atts.zip values)).length = values.length := by
    rw [expected_length, length_zip, Nat.min_eq_right holds.fewer]
  refine ⟨fun i att value here there => ?_, fun i missing inside => ?_⟩
  · obtain ⟨result, found, same⟩ := expected_same (atts.zip values) holds.fits 0 i (att, value)
      (List.getElem?_zip_eq_some.mpr ⟨here, there⟩)
    grind [expectedValues]
  · grind [expectedValues]

end RoundTrip

end BlockchainPG.Access.Tuple
