import BlockchainPG.Access.HeapTuple

/-! The data area and the null bitmap of a tuple, as the writers and the readers see them. -/

namespace BlockchainPG.Access.Tuple

open Lib List

def headerSize (memory : Memory) : Nat :=
  if varattIsExternal memory then 2 else if varattIsShort memory then 1 else varhdrsz

/-- A varlena is in memory up to its end. -/
structure IsVarlena (memory : Memory) : Prop where
  header : headerSize memory ≤ varsizeAny memory
  inside : varsizeAny memory ≤ memory.length

/-- A datum is a value of the type of an attribute. -/
def Datum.Fits (att : Attribute) : Datum → Prop
  | .value word => att.attbyval = true ∧ word < 256 ^ att.attlen.toNat
  | .pointer memory => att.attbyval = false ∧ (0 < att.attlen → att.attlen.toNat ≤ memory.length) ∧
      (att.attlen = -1 → IsVarlena memory) ∧ (att.attlen = -2 → 0 ∈ memory)

/-- The bytes that `heap_fill_tuple` writes for a value. -/
def stored (att : Attribute) (datum : Datum) : List UInt8 :=
  if att.attbyval then storeWord UInt8.ofNat att.attlen.toNat datum.word
  else if att.attlen = -1 then
    let val := datum.memory
    if varattIsExternal val then val.take (varsizeExternal val)
    else if varattIsShort val then val.take (varsizeShort val)
    else if att.attstorage ≠ .plain ∧ varattCanMakeShort val then
      setVarsizeShort (varattConvertedShortSize val) :: (val.drop varhdrsz).take (varattConvertedShortSize val - 1)
    else val.take (varsize val)
  else if att.attlen = -2 then datum.memory.take (strlen datum.memory + 1)
  else datum.memory.take att.attlen.toNat

def aligns (att : Attribute) (datum : Datum) : Bool :=
  if att.attbyval then true
  else if att.attlen = -1 then
    ! (varattIsExternal datum.memory || varattIsShort datum.memory ||
      (att.attstorage ≠ .plain ∧ varattCanMakeShort datum.memory))
  else att.attlen ≠ -2

/-- The padding in front of a value. -/
def gap (att : Attribute) (datum : Datum) (off : Nat) : Nat :=
  if aligns att datum then attAlignNominal off att.attalign - off else 0

/-- The data area from an offset on. -/
def layout : Nat → List (Attribute × Option Datum) → List UInt8
  | _, [] => []
  | off, (_, none) :: rest => layout off rest
  | off, (att, some datum) :: rest =>
    replicate (gap att datum off) 0 ++
      (stored att datum ++ layout (off + gap att datum off + (stored att datum).length) rest)

theorem AttAlign.size_pos (align : AttAlign) : 0 < align.size := by cases align <;> decide

theorem AttAlign.size_dvd (align : AttAlign) : align.size ∣ 8 := by cases align <;> decide

theorem le_attAlignNominal (off : Nat) (align : AttAlign) : off ≤ attAlignNominal off align :=
  le_alignUp align.size_pos off

theorem attAlignNominal_char (off : Nat) : attAlignNominal off .char = off := by
  simp [attAlignNominal, alignUp, AttAlign.size]

theorem attAlignNominal_start (start off : Nat) (align : AttAlign) :
    attAlignNominal (8 * start + off) align = 8 * start + attAlignNominal off align :=
  alignUp_add align.size_pos (Nat.dvd_mul_right_of_dvd align.size_dvd start) off

section Fill

variable {filled : Filled} {att : Attribute} {datum : Datum}

theorem fillDatum_eq (start : Nat) (att : Attribute) (datum : Datum) (filled : Filled) :
    (fillDatum (8 * start) att datum filled).data = filled.data ++
        (replicate (gap att datum filled.data.length) 0 ++ stored att datum) ∧
      (fillDatum (8 * start) att datum filled).hasVarWidth = (filled.hasVarWidth || att.attlen ≤ 0) ∧
      (fillDatum (8 * start) att datum filled).hasNull = filled.hasNull ∧
      (fillDatum (8 * start) att datum filled).bits = filled.bits ∧
      (fillDatum (8 * start) att datum filled).bitmask = filled.bitmask := by
  have pad : attAlignNominal (8 * start + filled.data.length) att.attalign - (8 * start + filled.data.length) =
      attAlignNominal filled.data.length att.attalign - filled.data.length := by
    rw [attAlignNominal_start]
    omega
  have aligned (filled' : Filled) (same : filled'.data = filled.data) (bytes : List UInt8) :
      ((filled'.align (8 * start) att.attalign).copy bytes).data = filled.data ++ (replicate
        (attAlignNominal filled.data.length att.attalign - filled.data.length) 0 ++ bytes) := by
    rw [Filled.copy, Filled.align, same, pad, append_assoc]
  unfold fillDatum gap aligns stored
  by_cases byval : att.attbyval = true
  · have pos : ¬ att.attlen ≤ 0 := by
      rcases att.byval byval with sizes | sizes | sizes | sizes <;> omega
    simp only [byval, ↓reduceIte, pos, decide_false, Bool.or_false]
    exact ⟨aligned filled rfl _, rfl, rfl, rfl, rfl⟩
  · simp only [byval, Bool.false_eq_true, ↓reduceIte]
    by_cases varlena : att.attlen = -1
    · simp only [varlena, ↓reduceIte, show (-1 : Int) ≤ 0 by decide, decide_true, Bool.or_true]
      by_cases external : varattIsExternal datum.memory = true
      · simp [external, Filled.copy]
      · by_cases short : varattIsShort datum.memory = true
        · simp [external, short, Filled.copy]
        · by_cases packs : att.attstorage ≠ .plain ∧ varattCanMakeShort datum.memory = true
          · simp [external, short, packs, Filled.copy]
          · simp only [external, short, packs, Bool.false_eq_true, ↓reduceIte, Bool.or_self, decide_false,
              Bool.not_false]
            exact ⟨aligned { filled with hasVarWidth := true } rfl _, rfl, rfl, rfl, rfl⟩
    · by_cases cstring : att.attlen = -2
      · simp [cstring, Filled.copy]
      · have pos : ¬ att.attlen ≤ 0 := by
          have sizes := att.sizes
          omega
        simp only [varlena, cstring, ↓reduceIte, pos, decide_false, Bool.or_false, ne_eq, not_false_eq_true,
          decide_true]
        exact ⟨aligned filled rfl _, rfl, rfl, rfl, rfl⟩

theorem nextBit_data (filled : Filled) : filled.nextBit.data = filled.data ∧
    filled.nextBit.hasVarWidth = filled.hasVarWidth ∧ filled.nextBit.hasNull = filled.hasNull := by
  unfold Filled.nextBit
  split <;> exact ⟨rfl, rfl, rfl⟩

theorem fill_eq (start : Nat) (bit : Bool) (pairs : List (Attribute × Option Datum)) (filled : Filled) :
    (pairs.foldl (fillAtt (8 * start) bit) filled).data = filled.data ++ layout filled.data.length pairs ∧
      (pairs.foldl (fillAtt (8 * start) bit) filled).hasVarWidth =
        (filled.hasVarWidth || pairs.any fun pair => pair.2.isSome && pair.1.attlen ≤ 0) ∧
      (pairs.foldl (fillAtt (8 * start) bit) filled).hasNull =
        (filled.hasNull || bit && pairs.any fun pair => pair.2.isNone) := by
  induction pairs generalizing filled with
  | nil => simp [layout]
  | cons pair rest ih =>
    obtain ⟨att, value⟩ := pair
    rw [foldl_cons]
    obtain ⟨data, width, nulls⟩ := ih (fillAtt (8 * start) bit filled (att, value))
    rw [data, width, nulls]
    cases value with
    | none =>
      obtain ⟨sameData, sameWidth, -⟩ := nextBit_data filled
      cases bit
      · simp [fillAtt, layout]
      · simp [fillAtt, layout, sameData, sameWidth]
    | some datum =>
      have before : (if bit then filled.nextBit.setBit else filled).data = filled.data ∧
          (if bit then filled.nextBit.setBit else filled).hasVarWidth = filled.hasVarWidth ∧
          (if bit then filled.nextBit.setBit else filled).hasNull = filled.hasNull := by
        cases bit
        · exact ⟨rfl, rfl, rfl⟩
        · exact nextBit_data filled
      obtain ⟨dataBefore, widthBefore, nullBefore⟩ := before
      obtain ⟨dataNow, widthNow, nullNow, -, -⟩ :=
        fillDatum_eq start att datum (if bit then filled.nextBit.setBit else filled)
      simp only [fillAtt, dataNow, widthNow, nullNow, dataBefore, widthBefore, nullBefore]
      refine ⟨?_, ?_, ?_⟩
      · simp only [layout, append_assoc, length_append, length_replicate, Nat.add_assoc]
      · simp [Bool.or_assoc]
      · simp

end Fill

theorem vaHeader_take (memory tail : Memory) (pos : 0 < n) (inside : n ≤ memory.length) :
    vaHeader (memory.take n ++ tail) = vaHeader memory := by
  cases memory with
  | nil => simp at inside; omega
  | cons byte rest =>
    obtain ⟨n, rfl⟩ : ∃ m, n = m + 1 := ⟨n - 1, by omega⟩
    rfl

theorem take_take (memory tail : Memory) (less : m ≤ n) (inside : n ≤ memory.length) :
    (memory.take n ++ tail).take m = memory.take m := by
  grind

theorem varattIsShort_of_external (external : varattIsExternal memory = true) : varattIsShort memory = true := by
  grind [varattIsExternal, varattIsShort]

theorem setVarsizeShort_spec (low : 1 ≤ size) (high : size ≤ 0x7F) :
    setVarsizeShort size ≠ 0x01 ∧ setVarsizeShort size &&& 0x01 = 0x01 ∧
      ((setVarsizeShort size >>> 1) &&& 0x7F).toNat = size := by
  have all : ∀ size : Fin 128, 1 ≤ size.val → setVarsizeShort size ≠ 0x01 ∧ setVarsizeShort size &&& 0x01 = 0x01 ∧
      ((setVarsizeShort size >>> 1) &&& 0x7F).toNat = size := by
    decide +kernel
  exact all ⟨size, by omega⟩ low

/-- The kinds of varlenas and what is stored of them. -/
inductive StoredVarlena (att : Attribute) (val : Memory) : Bool → List UInt8 → Prop
  | external (external : varattIsExternal val = true) (low : 2 ≤ varsizeExternal val)
      (inside : varsizeExternal val ≤ val.length) : StoredVarlena att val false (val.take (varsizeExternal val))
  | short (inline : varattIsExternal val = false) (short : varattIsShort val = true) (low : 1 ≤ varsizeShort val)
      (inside : varsizeShort val ≤ val.length) : StoredVarlena att val false (val.take (varsizeShort val))
  | converted (packs : att.attstorage ≠ .plain ∧ varattCanMakeShort val = true)
      (inline : varattIsExternal val = false) (long : varattIsShort val = false)
      (small : varattConvertedShortSize val ≤ 0x7F) (low : varhdrsz ≤ varsize val) (inside : varsize val ≤ val.length) :
      StoredVarlena att val false (setVarsizeShort (varattConvertedShortSize val) ::
        (val.drop varhdrsz).take (varattConvertedShortSize val - 1))
  | aligned (whole : ¬ (att.attstorage ≠ .plain ∧ varattCanMakeShort val = true))
      (inline : varattIsExternal val = false) (long : varattIsShort val = false) (low : varhdrsz ≤ varsize val)
      (inside : varsize val ≤ val.length) : StoredVarlena att val true (val.take (varsize val))

theorem stored_varlena (datum : Datum) (byref : att.attbyval = false) (varlena : att.attlen = -1)
    (valid : IsVarlena datum.memory) : StoredVarlena att datum.memory (aligns att datum) (stored att datum) := by
  obtain ⟨header, inside⟩ := valid
  unfold aligns stored
  simp only [byref, Bool.false_eq_true, varlena, ↓reduceIte]
  unfold headerSize varsizeAny at header
  unfold varsizeAny at inside
  by_cases external : varattIsExternal datum.memory = true
  · simp only [external, ↓reduceIte, Bool.true_or, Bool.not_true] at header inside ⊢
    exact .external external header inside
  · simp only [external, Bool.false_eq_true, ↓reduceIte, Bool.false_or] at header inside ⊢
    have inline : varattIsExternal datum.memory = false := Bool.eq_false_iff.mpr external
    by_cases short : varattIsShort datum.memory = true
    · simp only [short, ↓reduceIte, Bool.true_or, Bool.not_true] at header inside ⊢
      exact .short inline short header inside
    · simp only [short, Bool.false_eq_true, ↓reduceIte, Bool.false_or] at header inside ⊢
      have long : varattIsShort datum.memory = false := Bool.eq_false_iff.mpr short
      by_cases packs : att.attstorage ≠ .plain ∧ varattCanMakeShort datum.memory = true
      · rw [if_pos packs, decide_eq_true packs]
        have small := packs.2
        simp only [varattCanMakeShort, Bool.and_eq_true, decide_eq_true_eq] at small
        exact .converted packs inline long small.2 header inside
      · rw [if_neg packs, decide_eq_false packs]
        exact .aligned packs inline long header inside

theorem StoredVarlena.size (kind : StoredVarlena att val isAligned bytes) (tail : Memory) :
    varsizeAny (bytes ++ tail) = bytes.length := by
  cases kind with
  | external external low inside =>
    grind [vaHeader_take, varsizeExternal, varsizeAny, varattIsExternal]
  | short inline short low inside =>
    grind [vaHeader_take, varsizeAny, varattIsExternal, varattIsShort, varsizeShort]
  | converted packs inline long small low inside =>
    grind [varattConvertedShortSize, setVarsizeShort_spec, varsizeAny, varattIsExternal, varattIsShort,
      varsizeShort, vaHeader]
  | aligned whole inline long low inside =>
    have header := vaHeader_take val tail (show 0 < varsize val from Nat.lt_of_lt_of_le (by decide) low) inside
    have word : varsize (val.take (varsize val) ++ tail) = varsize val :=
      congrArg (fun bytes => (wordOf UInt8.toNat bytes >>> 2) &&& 0x3FFFFFFF) (take_take val tail low inside)
    grind [varsizeAny, varattIsExternal, varattIsShort]

theorem StoredVarlena.notPadByte (kind : StoredVarlena att val false bytes) (tail : Memory) :
    varattNotPadByte (bytes ++ tail) = true := by
  have odd : ∀ header : UInt8, header &&& 0x01 = 0x01 → header ≠ 0 := by
    intro header isOdd isZero
    rw [isZero] at isOdd
    exact absurd isOdd (by decide)
  have short {memory : Memory} (isShort : varattIsShort memory = true) : varattNotPadByte memory = true := by
    grind [varattIsShort, varattNotPadByte]
  cases kind with
  | external external low inside =>
    unfold varattNotPadByte
    rw [vaHeader_take val tail (by omega) inside]
    exact short (varattIsShort_of_external external)
  | short inline isShort low inside =>
    grind [varattNotPadByte, vaHeader_take]
  | converted packs inline long small low inside =>
    obtain ⟨-, isShort, -⟩ := setVarsizeShort_spec (Nat.le_add_left 1 _) small
    simp only [varattNotPadByte, vaHeader, cons_append, headD_cons, bne_iff_ne]
    exact odd _ isShort

theorem strlen_take (tail : Memory) (ends : 0 ∈ memory) :
    strlen (memory.take (strlen memory + 1) ++ tail) = strlen memory ∧ strlen memory + 1 ≤ memory.length := by
  induction memory with
  | nil => cases ends
  | cons byte rest ih =>
    by_cases zero : byte = 0
    · subst zero
      simp [strlen]
    · grind [strlen, takeWhile_cons]

theorem addlength_stored (fits : datum.Fits att) (off : Nat) (tail : Memory) :
    attAddlengthPointer off att (stored att datum ++ tail) = off + (stored att datum).length := by
  unfold attAddlengthPointer
  cases datum with
  | value word =>
    obtain ⟨byval, -⟩ := fits
    grind [Attribute.byval, stored, storeWord_length]
  | pointer memory =>
    obtain ⟨byref, fixed, varlena, cstring⟩ := fits
    rcases att.sizes with pos | isVarlena | isCstring
    · grind [stored, Datum.memory]
    · rw [if_neg (by omega), if_pos isVarlena, StoredVarlena.size
        (stored_varlena (.pointer memory) byref isVarlena (varlena isVarlena))]
    · grind [strlen_take, stored, Datum.memory]

theorem alignPointer_stored (fits : datum.Fits att) (varlena : att.attlen = -1) (off : Nat) (tail : Memory) :
    attAlignPointer off att (replicate (gap att datum off) 0 ++ (stored att datum ++ tail)) =
      off + gap att datum off := by
  have more := le_attAlignNominal off att.attalign
  cases datum with
  | value word =>
    obtain ⟨byval, -⟩ := fits
    rcases att.byval byval with sizes | sizes | sizes | sizes <;> omega
  | pointer memory =>
    obtain ⟨byref, -, valid, -⟩ := fits
    have kind : StoredVarlena att memory _ _ := stored_varlena (.pointer memory) byref varlena (valid varlena)
    grind [attAlignPointer, gap, varattNotPadByte, vaHeader, StoredVarlena.notPadByte]

theorem alignNominal_gap (datum : Datum) (other : att.attlen ≠ -1) (off : Nat) :
    attAlignNominal off att.attalign = off + gap att datum off := by
  have more := le_attAlignNominal off att.attalign
  grind [gap, aligns, Attribute.cstring, attAlignNominal_char]

theorem gap_aligned (att : Attribute) (datum : Datum) (aligned : off = attAlignNominal off att.attalign) :
    gap att datum off = 0 := by
  unfold gap
  split <;> omega

theorem not_packable (other : att.attlen ≠ -1) : attIsPackable att = false := by simp [attIsPackable, other]

theorem varlena_size (byref : att.attbyval = false) (varlena : att.attlen = -1) (valid : IsVarlena memory) (off : Nat) :
    (if attIsPackable att ∧ varattCanMakeShort memory then off + varattConvertedShortSize memory
      else attAddlengthPointer (attAlignDatum off att memory) att memory) =
      off + gap att (.pointer memory) off + (stored att (.pointer memory)).length := by
  have kind : StoredVarlena att memory _ _ := stored_varlena (.pointer memory) byref varlena valid
  have more := le_attAlignNominal off att.attalign
  have notShort (extended : varattIsShort memory = true) : ¬ (attIsPackable att ∧ varattCanMakeShort memory) := by
    rintro ⟨-, short⟩
    simp only [varattCanMakeShort, varattIs4BU, Bool.and_eq_true, beq_iff_eq] at short
    simp only [varattIsShort, beq_iff_eq] at extended
    have low : vaHeader memory &&& 0x01 = vaHeader memory &&& 0x03 &&& 0x01 := by
      rw [UInt8.and_assoc]
      rfl
    rw [low, short.1] at extended
    exact absurd extended (by decide)
  unfold gap attAddlengthPointer attAlignDatum
  generalize aligns att (.pointer memory) = isAligned at kind ⊢
  generalize stored att (.pointer memory) = bytes at kind ⊢
  have notFixed : ¬ att.attlen > 0 := by omega
  cases kind with
  | external external low inside =>
    grind [varattIsShort_of_external, varsizeAny]
  | short inline short low inside =>
    grind [varsizeAny]
  | converted packs inline long small low inside =>
    grind [attIsPackable, varattConvertedShortSize]
  | aligned whole inline long low inside =>
    grind [attIsPackable, varsizeAny]

theorem computeDataSize_datum (fits : datum.Fits att) (rest : List (Attribute × Option Datum)) (off : Nat) :
    computeDataSize ((att, some datum) :: rest) off =
      computeDataSize rest (off + gap att datum off + (stored att datum).length) := by
  rw [computeDataSize, ← apply_ite (computeDataSize rest)]
  congr 1
  by_cases varlena : att.attlen = -1
  · cases datum with
    | value word =>
      obtain ⟨byval, -⟩ := fits
      rcases att.byval byval with sizes | sizes | sizes | sizes <;> omega
    | pointer memory =>
      obtain ⟨byref, -, valid, -⟩ := fits
      exact varlena_size byref varlena (valid varlena) off
  · have length : attAddlengthPointer (off + gap att datum off) att datum.memory =
        off + gap att datum off + (stored att datum).length := by
      unfold attAddlengthPointer
      cases datum with
      | value word =>
        obtain ⟨byval, -⟩ := fits
        grind [Attribute.byval, stored, storeWord_length]
      | pointer memory =>
        obtain ⟨byref, fixed, -, cstring⟩ := fits
        rcases att.sizes with pos | isVarlena | isCstring
        · grind [stored, Datum.memory]
        · exact absurd isVarlena varlena
        · have inside := (strlen_take [] (cstring isCstring)).2
          grind [stored, Datum.memory]
    grind [not_packable, attAlignDatum, alignNominal_gap]

theorem computeDataSize_eq {pairs : List (Attribute × Option Datum)}
    (fits : ∀ att datum, (att, some datum) ∈ pairs → datum.Fits att) (off : Nat) :
    computeDataSize pairs off = off + (layout off pairs).length := by
  induction pairs generalizing off with
  | nil => rfl
  | cons pair rest ih =>
    have later := fun att datum mem => fits att datum (mem_cons_of_mem _ mem)
    match pair with
    | (att, none) => exact ih later off
    | (att, some datum) =>
      grind [computeDataSize_datum, layout]

def bitOf (bits : List (BitVec 8)) (attnum : Nat) : Bool := (bits.getD (attnum / 8) 0).getLsbD (attnum % 8)

theorem isolated_bit : ∀ (byte : BitVec 8) (k : Fin 8), (byte &&& (1#8 <<< k.val) == 0) = ! byte.getLsbD k.val := by
  decide +kernel

theorem missing_low_bit : ∀ (byte : BitVec 8) (k : Fin 8),
    ((~~~ byte) &&& ((1#8 <<< k.val) - 1) != 0) = true ↔ ∃ i < k, byte.getLsbD i.val = false := by
  decide +kernel

theorem missing_bit : ∀ byte : BitVec 8, (byte != 0xFF) = true ↔ ∃ i : Fin 8, byte.getLsbD i.val = false := by
  decide +kernel

theorem attIsnull_eq (attnum : Nat) (bits : List (BitVec 8)) : attIsnull attnum bits = ! bitOf bits attnum :=
  isolated_bit (bits.getD (attnum / 8) 0) ⟨attnum % 8, Nat.mod_lt _ (by decide)⟩

theorem nullBefore_iff (bits : List (BitVec 8)) (attnum : Nat) :
    nullBefore bits attnum = true ↔ ∃ i < attnum, bitOf bits i = false := by
  have small : attnum % 8 < 8 := Nat.mod_lt _ (by decide)
  have last := missing_low_bit (bits.getD (attnum / 8) 0) ⟨attnum % 8, small⟩
  unfold nullBefore
  simp only [Bool.or_eq_true, any_eq_true, mem_range]
  constructor
  · rintro (found | ⟨byte, earlier, found⟩)
    · obtain ⟨i, less, bit⟩ := last.mp found
      have less' : i.val < attnum % 8 := less
      refine ⟨attnum / 8 * 8 + i, by omega, ?_⟩
      grind [bitOf]
    · obtain ⟨i, bit⟩ := (missing_bit _).mp found
      refine ⟨byte * 8 + i, by omega, ?_⟩
      grind [bitOf]
  · rintro ⟨i, less, bit⟩
    have smallBit : i % 8 < 8 := Nat.mod_lt _ (by decide)
    by_cases same : i / 8 = attnum / 8
    · refine .inl (last.mpr ⟨⟨i % 8, smallBit⟩, show i % 8 < attnum % 8 by omega, ?_⟩)
      rw [← same]
      exact bit
    · exact .inr ⟨i / 8, by omega, (missing_bit _).mpr ⟨⟨i % 8, smallBit⟩, bit⟩⟩

/-- The bitmap has a bit for every attribute so far, which is set if it is not null. -/
structure Marked (filled : Filled) (nulls : List Bool) : Prop where
  length : filled.bits.length = (nulls.length + 7) / 8
  mask : filled.bitmask = if nulls = [] then highbit else 1#8 <<< ((nulls.length - 1) % 8)
  bits : ∀ i, bitOf filled.bits i = (nulls[i]? == some false)

theorem nextBit_spec (marked : Marked filled nulls) :
    filled.nextBit.bits.length = nulls.length / 8 + 1 ∧ filled.nextBit.bitmask = 1#8 <<< (nulls.length % 8) ∧
      ∀ i, bitOf filled.nextBit.bits i = bitOf filled.bits i := by
  obtain ⟨length, mask, -⟩ := marked
  have full : filled.bitmask = highbit ↔ nulls.length % 8 = 0 := by
    have masks : ∀ k : Fin 8, (1#8 <<< k.val) = highbit ↔ k = 7 := by decide +kernel
    rw [mask]
    by_cases empty : nulls = []
    · simp [empty]
    · have pos : 0 < nulls.length := length_pos_iff.mpr empty
      rw [if_neg empty, masks ⟨(nulls.length - 1) % 8, Nat.mod_lt _ (by decide)⟩, Fin.ext_iff]
      show (nulls.length - 1) % 8 = 7 ↔ _
      omega
  grind [Filled.nextBit, bitOf]

theorem getElem?_snoc (nulls : List Bool) (isnull : Bool) (i : Nat) :
    ((nulls ++ [isnull])[i]? == some false) = if i = nulls.length then ! isnull else nulls[i]? == some false := by
  grind

theorem mask_after (nulls : List Bool) (isnull : Bool) : 1#8 <<< (nulls.length % 8) =
    if nulls ++ [isnull] = [] then highbit else 1#8 <<< (((nulls ++ [isnull]).length - 1) % 8) := by
  grind [length_singleton]

theorem Marked.null (marked : Marked filled nulls) : Marked filled.nextBit (nulls ++ [true]) := by
  obtain ⟨length, mask, bits⟩ := nextBit_spec marked
  refine ⟨by rw [length, length_append, length_singleton]; omega, mask.trans (mask_after nulls true), fun i => ?_⟩
  rw [bits, marked.bits, getElem?_snoc]
  grind

theorem Marked.value (marked : Marked filled nulls) : Marked filled.nextBit.setBit (nulls ++ [false]) := by
  obtain ⟨length, mask, bits⟩ := nextBit_spec marked
  refine ⟨?_, mask.trans (mask_after nulls false), fun i => ?_⟩
  · grind [Filled.setBit]
  · rw [getElem?_snoc, ← marked.bits, ← bits]
    grind [Filled.setBit, bitOf]

theorem fill_marked (start : Nat) (pairs : List (Attribute × Option Datum)) (marked : Marked filled nulls) :
    Marked (pairs.foldl (fillAtt (8 * start) true) filled) (nulls ++ pairs.map fun pair => pair.2.isNone) := by
  induction pairs generalizing filled nulls with
  | nil => simpa using marked
  | cons pair rest ih =>
    obtain ⟨att, value⟩ := pair
    rw [foldl_cons, map_cons, ← singleton_append, ← append_assoc]
    refine ih ?_
    cases value with
    | none =>
      obtain ⟨length, mask, bits⟩ := marked.null
      exact ⟨length, mask, bits⟩
    | some datum =>
      obtain ⟨length, mask, bits⟩ := marked.value
      constructor <;> grind [fillDatum_eq, fillAtt]

end BlockchainPG.Access.Tuple
