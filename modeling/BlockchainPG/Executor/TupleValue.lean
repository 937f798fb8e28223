import BlockchainPG.Mbt.Tree

/-! What `ExecInsertIndexTuples` enters into an authenticated index. -/

namespace BlockchainPG.Executor

open Mbt

/-- An attribute of a row: what `printtup_prepare_info` found for its column, and the stored datum. -/
structure Attribute where
  typisvarlena : Bool
  format : Nat
  /-- The bits of a value of an integer type. -/
  attbits : Nat
  outputFunction : BitVec 64 → CString
  origattr : BitVec 64

/-- `pg_index_info` before the insertion. The text is `none` where a buffer overflows, the value where
nothing was assigned to it. -/
structure PgIndexInfo where
  str : Option CString
  value : Option (BitVec 32)

/-- `malloc(12)` -/
def attributeBuffer : Nat := 12

/-- `malloc(64)` -/
def tupleBuffer : Nat := 64

section Tuple

variable (detoast : BitVec 64 → BitVec 64)

/-- The datum once it is detoasted. -/
def Attribute.attr (field : Attribute) : BitVec 64 :=
  if field.typisvarlena then detoast field.origattr else field.origattr

def Attribute.integer (field : Attribute) : BitVec 64 :=
  (field.attr detoast |>.truncate field.attbits).signExtend 64

def Attribute.text (field : Attribute) : CString := field.outputFunction (field.attr detoast)

/-- `strcpy` into a small buffer and `strcat` behind the text so far. -/
def appendText (str : Option CString) (text : CString) : Option CString := do
  let str ← str
  if text.length < attributeBuffer ∧ (str ++ text).length < tupleBuffer then some (str ++ text) else none

/-- The loop of `getTupleValue`, from column `i` on. -/
def getTupleValueLoop (indkey : Nat) : (i : Nat) → PgIndexInfo → List Attribute → PgIndexInfo
  | _, result, [] => result
  | i, result, field :: rest =>
    getTupleValueLoop indkey (i + 1)
      { str := if field.format = 0 then appendText result.str (field.text detoast) else result.str
        value := if indkey = i then some ((field.attr detoast).truncate 32) else result.value } rest

def getTupleValue (slot : List Attribute) (indkey : Nat) : PgIndexInfo :=
  getTupleValueLoop detoast indkey 0 ⟨some [], none⟩ slot

/-- `IndexInfo` of an index; `getTupleValue` is not given the columns. -/
structure IndexInfo where
  iiNumIndexAttrs : Nat
  iiKeyAttrNumbers : List Nat

/-- An authenticated index on one column; attribute numbers begin at 1. -/
def IndexInfo.onColumn (column : Nat) : IndexInfo := ⟨1, [column + 1]⟩

/-- What `ExecInsertIndexTuples` passes to `mbt_index_insert`. -/
def indexedInfo (indexInfo : IndexInfo) (slot : List Attribute) : PgIndexInfo :=
  getTupleValue detoast slot indexInfo.iiNumIndexAttrs

/-- The key of the entry: `mbtinsert` widens the value. -/
def indexedKey (indexInfo : IndexInfo) (slot : List Attribute) : Option (BitVec 64) :=
  (indexedInfo detoast indexInfo slot).value.map (·.signExtend 64)

def renderedTexts (slot : List Attribute) : List CString :=
  (slot.filter fun field => field.format = 0).map fun field => field.text detoast

variable {detoast}

theorem getTupleValueLoop_value (indkey i : Nat) (result : PgIndexInfo) (slot : List Attribute) :
    (getTupleValueLoop detoast indkey i result slot).value = if i ≤ indkey ∧ indkey < i + slot.length then
        slot[indkey - i]?.map fun field => (field.attr detoast).truncate 32 else result.value := by
  induction slot generalizing i result with
  | nil => rw [getTupleValueLoop, if_neg (by simp)]
  | cons field rest ih =>
    grind [getTupleValueLoop]

theorem getTupleValueLoop_str {result : PgIndexInfo}
    (found : (getTupleValueLoop detoast indkey i result slot).str = some str) :
    ∃ front, result.str = some front ∧ str = front ++ (renderedTexts detoast slot).flatten := by
  induction slot generalizing i result with
  | nil => exact ⟨str, found, by simp [renderedTexts]⟩
  | cons field rest ih =>
    obtain ⟨front, before, rfl⟩ := ih found
    grind [appendText, Option.bind_eq_some_iff, renderedTexts]

/-- A column of type `int4`, shown by a table of texts. -/
def shown (texts : List CString) (datum : BitVec 64) : Attribute where
  typisvarlena := false
  format := 0
  attbits := 32
  outputFunction := fun datum => texts.getD datum.toNat []
  origattr := datum

end Tuple

end BlockchainPG.Executor
