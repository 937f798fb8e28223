import BlockchainPG.Access.HeapTupleForm
import BlockchainPG.Lib.Runs

/-! Accesses in any order return what `heap_deform_tuple` returns. -/

namespace BlockchainPG.Access.Tuple

open Lib List

variable {tuple : HeapTuple} {atts : List Attribute} {att : Attribute} {values : List (Option Datum)}
  {slot : TupleTableSlot} {flatten : Flatten}

section Getattr

theorem heapGetattr_eq (here : atts[attnum]? = some att) (inside : attnum < tuple.natts) (cache : Cache) :
    heapGetattr tuple atts attnum cache = if tuple.isnull attnum then (none, cache)
      else (some (nocachegetattr tuple att attnum atts cache).1, (nocachegetattr tuple att attnum atts cache).2) := by
  grind [heapGetattr, HeapTuple.isnull, nocachegetattr]

theorem expectedValues_length (fewer : values.length ≤ atts.length) :
    (expectedValues atts values).length = atts.length := by
  grind [expectedValues, expected_length]

/-- What the readers return for an attribute. -/
def expectedValue (atts : List Attribute) (values : List (Option Datum)) (attnum : Nat) : Option Datum :=
  (expectedValues atts values).getD attnum none

theorem Holds.value_cases (holds : Holds tuple atts values) (here : atts[attnum]? = some att) :
    (tuple.natts ≤ attnum ∧ expectedValue atts values attnum = none) ∨
      (attnum < tuple.natts ∧ tuple.isnull attnum = true ∧ expectedValue atts values attnum = none) ∨
      (attnum < tuple.natts ∧ tuple.isnull attnum = false ∧ ∃ datum, values[attnum]? = some (some datum)) := by
  obtain ⟨same, missing⟩ := holds.same
  obtain ⟨insideAtts, -⟩ := List.getElem?_eq_some_iff.mp here
  rw [holds.natts, expectedValue, getD_eq_getElem?_getD]
  by_cases inside : attnum < values.length
  · have there := getElem?_eq_getElem inside
    obtain ⟨result, found, agrees⟩ := same attnum att _ here there
    have isnull := holds.isnull attnum _ there
    rw [there, found, isnull]
    cases value : values[attnum] with
    | none =>
      rw [value] at agrees
      cases result with
      | none => exact .inr (.inl ⟨inside, rfl, rfl⟩)
      | some datum => exact absurd agrees id
    | some datum => exact .inr (.inr ⟨inside, rfl, datum, rfl⟩)
  · grind

theorem Holds.getattr (holds : Holds tuple atts values) (ok : CacheOk atts cache) (attnum : Nat) :
    (heapGetattr tuple atts attnum cache).1 = expectedValue atts values attnum ∧
      CacheOk atts (heapGetattr tuple atts attnum cache).2 ∧ Grows cache (heapGetattr tuple atts attnum cache).2 := by
  cases here : atts[attnum]? with
  | none =>
    have outside := List.getElem?_eq_none_iff.mp here
    rw [heapGetattr, here, expectedValue, getD_eq_getElem?_getD,
      getElem?_eq_none (by rw [expectedValues_length holds.fewer]; exact outside)]
    exact ⟨rfl, ok, .refl _⟩
  | some att =>
    rcases holds.value_cases here with ⟨outside, value⟩ | ⟨inside, isnull, value⟩ | ⟨inside, isnull, datum, value⟩
    · unfold heapGetattr
      rw [here, value]
      simp only [if_pos outside]
      exact ⟨trivial, ok, .refl _⟩
    · rw [heapGetattr_eq here inside, if_pos isnull, value]
      exact ⟨rfl, ok, .refl _⟩
    · obtain ⟨found, after, grows⟩ := holds.nocachegetattr ok here value
      grind [heapGetattr_eq, expectedValue]

end Getattr

section Slots

/-- The variables that a slot keeps for the next `slot_deform_tuple`. -/
def TupleTableSlot.walk (slot : TupleTableSlot) (cache : Cache) : Walk :=
  if slot.values.length = 0 then ⟨0, false, cache⟩ else ⟨slot.off, slot.slow, cache⟩

/-- A slot has the first values of its tuple and knows where the others begin. -/
structure SlotOk (atts : List Attribute) (values : List (Option Datum)) (slot : TupleTableSlot) (cache : Cache) :
    Prop where
  holds : Holds slot.tuple atts values
  fewer : slot.values.length ≤ values.length
  valid : slot.values = (expected 0 (atts.zip values)).take slot.values.length
  on : On slot.tuple.data atts slot.values.length ((atts.zip values).drop slot.values.length) (slot.walk cache)
  later : expected (slot.walk cache).off ((atts.zip values).drop slot.values.length) =
    (expected 0 (atts.zip values)).drop slot.values.length

theorem SlotOk.store (holds : Holds tuple atts values) (ok : CacheOk atts cache) :
    SlotOk atts values (.store tuple) cache :=
  ⟨holds, Nat.zero_le _, rfl, holds.start ok, rfl⟩

theorem walk_cache (slot : TupleTableSlot) (cache : Cache) : (slot.walk cache).cache = cache := by
  unfold TupleTableSlot.walk
  split <;> rfl

section

variable (ok : SlotOk atts values slot cache)
include ok

theorem SlotOk.grows (grows : Grows cache cache') (cached : CacheOk atts cache') :
    SlotOk atts values slot cache' := by
  obtain ⟨holds, fewer, valid, on, later⟩ := ok
  have off : (slot.walk cache').off = (slot.walk cache).off := by
    unfold TupleTableSlot.walk
    split <;> rfl
  have slow : (slot.walk cache').slow = (slot.walk cache).slow := by
    unfold TupleTableSlot.walk
    split <;> rfl
  refine ⟨holds, fewer, valid, ⟨?_, on.rest, fun quick => ?_, ?_⟩, ?_⟩
  · rw [off]
    exact on.here
  · rw [slow] at quick
    obtain ⟨offsets, known⟩ := on.quick quick
    rw [walk_cache] at known ⊢
    rw [off]
    exact ⟨offsets, fun i less => grows i (known i less)⟩
  · rw [walk_cache]
    exact cached
  · rw [off]
    exact later

theorem SlotOk.deform (more : slot.values.length < natts) (inside : natts ≤ values.length) :
    SlotOk atts values (slotDeformTuple slot atts natts cache).1 (slotDeformTuple slot atts natts cache).2 ∧
      Grows cache (slotDeformTuple slot atts natts cache).2 ∧
      (slotDeformTuple slot atts natts cache).1.values = (expected 0 (atts.zip values)).take natts := by
  obtain ⟨holds, -, valid, on, later⟩ := ok
  have pairsLength : (atts.zip values).length = values.length := by
    rw [length_zip, Nat.min_eq_right holds.fewer]
  generalize nvalid : slot.values.length = n at *
  generalize front : ((atts.zip values).take natts).drop n = pairs
  have split : (atts.zip values).drop n = pairs ++ (atts.zip values).drop natts := by
    grind [take_append_drop]
  have length : pairs.length = natts - n := by
    grind
  have names : pairs.map Prod.fst = (atts.take natts).drop n := by
    grind [map_drop, map_take, map_fst_zip_take]
  have place : n + pairs.length = natts := by omega
  rw [split] at on later
  obtain ⟨found, after, grows, rest⟩ := deformLoop_spec pairs ((atts.zip values).drop natts)
    (fun i pair found => holds.pairs_isnull (by
      rw [← getElem?_drop, split, getElem?_append_left (List.getElem?_eq_some_iff.mp found).1, found]))
    (fun att datum mem => holds.fits att datum (mem_of_mem_drop (by
      rw [split]
      exact mem_append_left _ mem))) on
  rw [walk_cache] at grows
  rw [names] at found after grows rest
  rw [place] at after
  rw [later] at found rest
  rw [drop_drop, place] at rest
  have taken : (expected 0 (atts.zip values)).take n ++ ((expected 0 (atts.zip values)).drop n).take pairs.length =
      (expected 0 (atts.zip values)).take natts := by
    rw [← place, take_add]
  have all : ((expected 0 (atts.zip values)).take natts).length = natts := by
    grind [expected_length]
  generalize result : deformLoop slot.tuple ((atts.take natts).drop n) n (slot.walk cache) = outcome at *
  obtain ⟨read, walk⟩ := outcome
  have eq : slotDeformTuple slot atts natts cache =
      (⟨slot.tuple, (expected 0 (atts.zip values)).take natts, walk.off, walk.slow⟩, walk.cache) := by
    grind [slotDeformTuple, TupleTableSlot.walk]
  rw [eq]
  have walked : TupleTableSlot.walk ⟨slot.tuple, (expected 0 (atts.zip values)).take natts, walk.off, walk.slow⟩
      walk.cache = walk := by
    rw [TupleTableSlot.walk, if_neg (by rw [all]; omega)]
  refine ⟨⟨holds, ?_, ?_, ?_, ?_⟩, grows, rfl⟩
  · rw [all]
    exact inside
  · rw [all]
  · rw [all, walked]
    exact after
  · rw [all, walked]
    exact rest

theorem SlotOk.valid_value (inside : attnum < slot.values.length) :
    slot.values.getD attnum none = expectedValue atts values attnum := by
  grind [expectedValue, valid, expectedValues]

/-- `slot_getattr` leaves a slot as it should be, and returns the value of an attribute that has
not been dropped. -/
theorem SlotOk.getattr (cached : CacheOk atts cache) (attnum : Nat) :
    SlotOk atts values (slotGetattr slot atts attnum cache).2.1 (slotGetattr slot atts attnum cache).2.2 ∧
      CacheOk atts (slotGetattr slot atts attnum cache).2.2 ∧ Grows cache (slotGetattr slot atts attnum cache).2.2 ∧
      ∀ att, atts[attnum]? = some att → att.attisdropped = false →
        (slotGetattr slot atts attnum cache).1 = expectedValue atts values attnum := by
  unfold slotGetattr
  by_cases known : attnum < slot.values.length
  · rw [if_pos known]
    exact ⟨ok, cached, .refl _, fun _ _ _ => ok.valid_value known⟩
  · rw [if_neg known]
    cases here : atts[attnum]? with
    | none => exact ⟨ok, cached, .refl _, fun att no => (nomatch no)⟩
    | some att =>
      simp only
      rcases ok.holds.value_cases here with ⟨outside, value⟩ | ⟨inside, isnull, value⟩ | ⟨inside, isnull, datum, value⟩
      · rw [if_pos outside]
        exact ⟨ok, cached, .refl _, fun _ _ _ => value.symm⟩
      · rw [if_neg (Nat.not_le.mpr inside), if_pos isnull]
        exact ⟨ok, cached, .refl _, fun _ _ _ => value.symm⟩
      · rw [if_neg (Nat.not_le.mpr inside), if_neg (Bool.eq_false_iff.mp isnull)]
        split
        · next dropped =>
          refine ⟨ok, cached, .refl _, fun att' same live => ?_⟩
          grind
        · obtain ⟨more, -⟩ := List.getElem?_eq_some_iff.mp value
          obtain ⟨after, grows, read⟩ := ok.deform (show slot.values.length < attnum + 1 by omega) more
          have cached' := after.on.cached
          grind [walk_cache, valid_value, expected_length]

end

end Slots

section Session

/-- What is done with tuples of a descriptor. -/
inductive Request (flatten : Flatten) (atts : List Attribute) where
  | deform (tuple : Formed flatten atts)
  | getattr (tuple : Formed flatten atts) (attnum : Nat)
  | store (slot : Nat) (tuple : Formed flatten atts)
  | slotGetattr (slot : Nat) (attnum : Nat)

/-- The offsets in the descriptor and the slots that have a tuple. -/
structure Session where
  cache : Cache
  slots : Nat → Option TupleTableSlot

def Session.answer (session : Session) : Request flatten atts → Session
  | .deform tuple => { session with cache := (heapDeformTuple tuple.tuple atts session.cache).2 }
  | .getattr tuple attnum => { session with cache := (heapGetattr tuple.tuple atts attnum session.cache).2 }
  | .store slot tuple => { session with slots := Function.update session.slots slot (some (.store tuple.tuple)) }
  | .slotGetattr i attnum =>
    match session.slots i with
    | none => session
    | some slot =>
      let (_, slot, cache) := slotGetattr slot atts attnum session.cache
      ⟨cache, Function.update session.slots i (some slot)⟩

/-- A new descriptor has no offsets. -/
def Session.start : Session := ⟨fun _ => none, fun _ => none⟩

structure SessionOk (flatten : Flatten) (atts : List Attribute) (session : Session) : Prop where
  cache : CacheOk atts session.cache
  slots : ∀ i slot, session.slots i = some slot →
    ∃ tuple : Formed flatten atts, SlotOk atts tuple.values slot session.cache

theorem SessionOk.start (flatten : Flatten) (atts : List Attribute) : SessionOk flatten atts .start :=
  ⟨⟨nofun, fun _ _ _ no => absurd rfl no⟩, nofun⟩

theorem SessionOk.grows {cache : Cache} (ok : SessionOk flatten atts session) (cached : CacheOk atts cache)
    (grows : Grows session.cache cache) : SessionOk flatten atts { session with cache := cache } := by
  refine ⟨cached, fun i slot here => ?_⟩
  obtain ⟨tuple, slotOk⟩ := ok.slots i slot here
  exact ⟨tuple, slotOk.grows grows cached⟩

theorem SessionOk.edit (ok : SessionOk flatten atts session) (tuple : Formed flatten atts)
    (slotOk : SlotOk atts tuple.values slot session.cache) (i : Nat) :
    SessionOk flatten atts { session with slots := Function.update session.slots i (some slot) } := by
  refine ⟨ok.cache, fun j slot' here => ?_⟩
  dsimp only at here ⊢
  by_cases own : j = i
  · grind
  · rw [Function.update_of_ne own] at here
    exact ok.slots j slot' here

theorem SessionOk.answer (ok : SessionOk flatten atts session) (request : Request flatten atts) :
    SessionOk flatten atts (session.answer request) := by
  cases request with
  | deform tuple =>
    obtain ⟨-, cached, grows⟩ := tuple.holds.deform ok.cache
    exact ok.grows cached grows
  | getattr tuple attnum =>
    obtain ⟨-, cached, grows⟩ := tuple.holds.getattr ok.cache attnum
    exact ok.grows cached grows
  | store slot tuple => exact ok.edit tuple (.store tuple.holds ok.cache) slot
  | slotGetattr i attnum =>
    unfold Session.answer
    dsimp only
    cases here : session.slots i with
    | none => exact ok
    | some slot =>
      obtain ⟨tuple, slotOk⟩ := ok.slots i slot here
      obtain ⟨after, cached, grows, -⟩ := slotOk.getattr ok.cache attnum
      exact (ok.grows cached grows).edit tuple after i

/-- The values of a tuple as `heap_deform_tuple` returns them with no offsets in the descriptor. -/
def deformed (tuple : HeapTuple) (atts : List Attribute) : List (Option Datum) :=
  (heapDeformTuple tuple atts fun _ => none).1

theorem Holds.deformed_eq (holds : Holds tuple atts values) : deformed tuple atts = expectedValues atts values :=
  (holds.deform (SessionOk.start ⟨fun _ memory => memory, fun _ _ valid => valid⟩ atts).cache).1

theorem exists_formed (flatten : Flatten) (td : Nat) (tdhasoid : Bool) {given : List (Option Datum)}
    (fewer : given.length ≤ atts.length) (fits : ∀ att datum, (att, some datum) ∈ atts.zip given → datum.Fits att)
    (small : given.length ≤ maxTupleAttributeNumber) :
    ∃ formed : Formed flatten atts, formed.td = td ∧ formed.tdhasoid = tdhasoid ∧ formed.given = given := by
  cases result : heapFormTuple flatten.flatten td tdhasoid (atts.take given.length) given with
  | error error =>
    grind [heapFormTuple]
  | ok formed => exact ⟨⟨td, tdhasoid, given, fewer, fits, formed.1, formed.2, result⟩, rfl, rfl, rfl⟩

end Session

/-- `heap_compute_data_size` says how much `heap_fill_tuple` writes; the values of a tuple that
`heap_form_tuple` makes are read back; and after any accesses to tuples of the descriptor the
readers that use its cached offsets return what `heap_deform_tuple` returns. -/
theorem heap_tuple_codec (flatten : Flatten) (atts : List Attribute) :
    (∀ start values bit, (∀ att datum, (att, some datum) ∈ atts.zip values → datum.Fits att) →
      heapComputeDataSize atts values = (heapFillTuple (8 * start) atts values bit).data.length) ∧
    (∀ td tdhasoid (given : List (Option Datum)), given.length ≤ atts.length →
      (∀ att datum, (att, some datum) ∈ atts.zip given → datum.Fits att) → given.length ≤ maxTupleAttributeNumber →
      ∃ formed : Formed flatten atts, formed.td = td ∧ formed.tdhasoid = tdhasoid ∧ formed.given = given) ∧
    (∀ formed : Formed flatten atts, (∀ (i : Nat) att value, atts[i]? = some att → formed.given[i]? = some value →
        ∃ result, (deformed formed.tuple atts)[i]? = some result ∧
          SameOption att (flattenValue flatten.flatten att value) result) ∧
      ∀ i, formed.given.length ≤ i → i < atts.length → (deformed formed.tuple atts)[i]? = some none) ∧
    ∀ requests : List (Request flatten atts), let session := run Session.answer .start requests
      (∀ formed : Formed flatten atts,
        (heapDeformTuple formed.tuple atts session.cache).1 = deformed formed.tuple atts ∧
        ∀ attnum att, atts[attnum]? = some att → att.attisdropped = false →
          (heapGetattr formed.tuple atts attnum session.cache).1 = (deformed formed.tuple atts).getD attnum none ∧
          (attnum < formed.tuple.natts → formed.tuple.isnull attnum = false → (deformed formed.tuple atts)[attnum]? =
              some (some (nocachegetattr formed.tuple att attnum atts session.cache).1))) ∧
      ∀ i slot attnum att, session.slots i = some slot → atts[attnum]? = some att → att.attisdropped = false →
        (slotGetattr slot atts attnum session.cache).1 = (deformed slot.tuple atts).getD attnum none := by
  refine ⟨fun start values bit fits => ?_, fun td tdhasoid given fewer fits small => ?_, fun formed => ?_,
    fun requests => ?_⟩
  · grind [fill_eq, heapComputeDataSize, computeDataSize_eq, heapFillTuple]
  · exact exists_formed flatten td tdhasoid fewer fits small
  · obtain ⟨same, missing⟩ := formed.holds.same
    rw [formed.holds.deformed_eq]
    grind [Formed.flattened, Formed.values_length]
  · have ok : SessionOk flatten atts (run Session.answer .start requests) :=
      run_keeps (SessionOk.start flatten atts) (fun session request ok => ok.answer request) requests
    refine ⟨fun formed => ⟨?_, fun attnum att here _ => ⟨?_, fun inside isnull => ?_⟩⟩,
      fun i slot attnum att stored here live => ?_⟩
    · rw [(formed.holds.deform ok.cache).1, formed.holds.deformed_eq]
    · rw [(formed.holds.getattr ok.cache attnum).1, formed.holds.deformed_eq]
      rfl
    · rw [formed.holds.deformed_eq]
      rcases formed.holds.value_cases here with ⟨outside, -⟩ | ⟨-, isnull', -⟩ | ⟨-, -, datum, value⟩
      · omega
      · rw [isnull] at isnull'
        cases isnull'
      · exact (formed.holds.nocachegetattr ok.cache here value).1
    · obtain ⟨formed, slotOk⟩ := ok.slots i slot stored
      rw [(slotOk.getattr ok.cache attnum).2.2.2 att here live, slotOk.holds.deformed_eq]
      rfl

/-- The attribute of a column of type `int4`. -/
def int4Attribute : Attribute :=
  ⟨4, true, .int, .plain, 0, false, by decide, by decide, by decide, by decide⟩

/-- The attribute of a column of type `text`. -/
def textAttribute : Attribute :=
  ⟨-1, false, .int, .extended, 0, false, by decide, by decide, by decide, by decide⟩

/-- A number behind a text of three bytes is read from a slot as `heap_deform_tuple` reads it. -/
theorem heap_tuple_codec_small : let flatten : Flatten := ⟨fun _ memory => memory, fun _ _ valid => valid⟩
    let atts := [textAttribute, int4Attribute]
    let given := [some (.pointer [28, 0, 0, 0, 97, 98, 99]), some (.value 7)]
    ∃ formed : Formed flatten atts, formed.given = given ∧
      (∃ result, (deformed formed.tuple atts)[1]? = some result ∧ SameOption int4Attribute (some (.value 7)) result) ∧
      (slotGetattr (.store formed.tuple) atts 1
          (run Session.answer .start [.deform formed, .store 0 formed]).cache).1 =
        (deformed formed.tuple atts).getD 1 none := by
  intro flatten atts given
  obtain ⟨-, forms, reads, accesses⟩ := heap_tuple_codec flatten atts
  have fits : ∀ att datum, (att, some datum) ∈ atts.zip given → datum.Fits att := by
    intro att datum mem
    simp only [atts, given, zip_cons_cons, zip_nil_right, mem_cons, Prod.mk.injEq, Option.some.injEq,
      not_mem_nil, or_false] at mem
    rcases mem with ⟨rfl, rfl⟩ | ⟨rfl, rfl⟩
    · exact ⟨rfl, by decide, fun _ => ⟨by decide, by decide⟩, by decide⟩
    · exact ⟨rfl, by decide⟩
  obtain ⟨formed, -, -, same⟩ := forms 0 false given (by decide) fits (by decide)
  refine ⟨formed, same, (reads formed).1 1 int4Attribute (some (.value 7)) rfl (by rw [same]; rfl), ?_⟩
  exact (accesses [.deform formed, .store 0 formed]).2 0 (.store formed.tuple) 1 int4Attribute rfl rfl rfl

end BlockchainPG.Access.Tuple
