import BlockchainPG.Lib.Words

/-! Binary formats written field after field, and a reader that moves along a buffer. -/

namespace BlockchainPG.Lib

open List

abbrev wordBytes : Nat → Nat → List Char := storeWord Char.ofNat

abbrev bytesWord : List Char → Nat := wordOf Char.toNat

def signedBytes (width : Nat) (value : Int) : List Char := wordBytes width (BitVec.ofInt (8 * width) value).toNat

def FitsSigned (width : Nat) (value : Int) : Prop := -2 ^ (8 * width - 1) ≤ value ∧ value < 2 ^ (8 * width - 1)

instance : Decidable (FitsSigned width value) := inferInstanceAs (Decidable (_ ∧ _))

theorem toNat_ofNat_byte (small : value < 256) : (Char.ofNat value).toNat = value := by
  have valid : value.isValidChar := Or.inl (by omega)
  rw [Char.ofNat, dif_pos valid]
  rfl

theorem bytesWord_wordBytes (small : value < 256 ^ width) : bytesWord (wordBytes width value) = value :=
  wordOf_storeWord (fun _ => toNat_ofNat_byte) small

theorem signedWord_lt (value : Int) (width : Nat) : (BitVec.ofInt (8 * width) value).toNat < 256 ^ width := by
  have bound := (BitVec.ofInt (8 * width) value).isLt
  grind [pow_mul]

theorem toInt_ofInt_of_fits (pos : 0 < width) (fits : FitsSigned width value) :
    (BitVec.ofInt (8 * width) value).toInt = value := by
  have double : (2 : Nat) ^ (8 * width) = 2 * 2 ^ (8 * width - 1) := by
    rw [← pow_succ']
    congr 1
    omega
  obtain ⟨low, high⟩ := fits
  rw [BitVec.toInt_ofInt]
  apply Int.bmod_eq_of_le <;> rw [double] <;> push_cast <;> omega

theorem toInt_signedBytes (pos : 0 < width) (fits : FitsSigned width value) :
    (BitVec.ofNat (8 * width) (bytesWord (signedBytes width value))).toInt = value := by
  grind [signedBytes, bytesWord_wordBytes, signedWord_lt, toInt_ofInt_of_fits]

@[simp]
theorem signedBytes_length : (signedBytes width value).length = width := storeWord_length ..

/-- A read at the cursor: the value and the bytes behind it, or nothing when the
buffer ends before. -/
abbrev Reader (α : Type) := StateT (List Char) Option α

def takeBytes (count : Nat) : Reader (List Char) := fun buffer =>
  if count ≤ buffer.length then some (buffer.take count, buffer.drop count) else none

def readWord (width : Nat) : Reader Nat := do
  let bytes ← takeBytes width
  return bytesWord bytes

def readSigned (width : Nat) : Reader Int := do
  let word ← readWord width
  return (BitVec.ofNat (8 * width) word).toInt

def readText (length : Nat) : Reader (List Char) := do
  let bytes ← takeBytes length
  return bytes.takeWhile (· ≠ '\x00')

/-- A loop of `count` turns. -/
def times {σ : Type} (count : Nat) (body : σ → Reader σ) (state : σ) : Reader σ :=
  match count with
  | 0 => return state
  | count + 1 => do
    let next ← body state
    times count body next

/-- An array whose entries below a bound come from another one. -/
def overwrite {σ : Type} (source target : Nat → σ) (bound i : Nat) : σ := if i < bound then source i else target i

theorem overwrite_zero {σ : Type} (source target : Nat → σ) : overwrite source target 0 = target := by
  funext i
  simp [overwrite]

theorem overwrite_succ {σ : Type} (source target : Nat → σ) (bound : Nat) :
    Function.update (overwrite source target bound) bound (source bound) = overwrite source target (bound + 1) := by
  grind [overwrite]

def Reads {α : Type} (reader : Reader α) (bytes : List Char) (value : α) : Prop :=
  ∀ rest, reader.run (bytes ++ rest) = some (value, rest)

namespace Reads

variable {α β σ : Type}

theorem pure (value : α) : Reads (return value) [] value := fun _ => rfl

theorem bind (before : Reads first bytes value)
    (after : Reads (second value) more result) : Reads (first >>= second) (bytes ++ more) result := by
  intro rest
  rw [append_assoc, StateT.run_bind, before]
  exact after rest

theorem andReturn (reads : Reads reader bytes value) (f : α → β) :
    Reads (do let a ← reader; return f a) bytes (f value) := by
  intro rest
  rw [StateT.run_bind, reads]
  rfl

theorem take (bytes : List Char) : Reads (takeBytes bytes.length) bytes bytes := by
  intro rest
  simp [takeBytes, StateT.run]

theorem word (small : value < 256 ^ width) : Reads (readWord width) (wordBytes width value) value := by
  have read := (take (wordBytes width value)).andReturn bytesWord
  rwa [storeWord_length, bytesWord_wordBytes small] at read

theorem signed (pos : 0 < width) (fits : FitsSigned width value) :
    Reads (readSigned width) (signedBytes width value) value := by
  have read := (word (signedWord_lt value width)).andReturn fun word => (BitVec.ofNat (8 * width) word).toInt
  rwa [BitVec.ofNat_toNat, BitVec.setWidth_eq, toInt_ofInt_of_fits pos fits] at read

theorem text (clean : '\x00' ∉ string) : Reads (readText string.length) string string := by
  have read := (take string).andReturn (takeWhile fun c => decide (c ≠ '\x00'))
  rwa [takeWhile_eq_self_iff.mpr] at read
  intro c own
  exact decide_eq_true fun same => clean (same ▸ own)

theorem items {body : σ → Reader σ} {encode : α → List Char} {next : σ → α → σ} {list : List α}
    (step : ∀ state, ∀ item ∈ list, Reads (body state) (encode item) (next state item)) (state : σ) :
    Reads (times list.length body state) (list.flatMap encode) (list.foldl next state) := by
  induction list generalizing state with
  | nil => exact pure state
  | cons item list ih =>
    rw [flatMap_cons]
    exact (step state item mem_cons_self).bind
      (ih (fun state item own => step state item (mem_cons_of_mem _ own)) (next state item))

theorem pushes {reader : Reader α} {encode : α → List Char} {list : List α}
    (each : ∀ item ∈ list, Reads reader (encode item) item) (vector : List α) :
    Reads (times list.length (fun vector => do let item ← reader; return vector ++ [item]) vector)
      (list.flatMap encode) (vector ++ list) := by
  have read := items (fun (state : List α) item own => (each item own).andReturn fun item => state ++ [item]) vector
  have fold : list.foldl (fun state item => state ++ [item]) vector = vector ++ list := by
    clear read each
    induction list generalizing vector with
    | nil => simp
    | cons item list ih => simp [ih]
  rwa [fold] at read

/-- A loop over the indices below a bound that overwrites one entry of an array in each turn. -/
theorem fills (step : ∀ i < bound, ∀ array, array i = target i →
      Reads (body array i) (encode i) (Function.update array i (source i))) :
    Reads ((range bound).foldlM body target) ((range bound).flatMap encode)
      (overwrite source target bound) := by
  induction bound with
  | zero =>
    rw [overwrite_zero]
    exact pure _
  | succ bound ih =>
    rw [range_succ, foldlM_append, flatMap_append]
    refine (ih fun i below => step i (by omega)).bind ?_
    have last := step bound (Nat.lt_succ_self bound) (overwrite source target bound) (by simp [overwrite])
    simpa [overwrite_succ] using last

end Reads

end BlockchainPG.Lib
