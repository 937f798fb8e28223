import BlockchainPG.Lib.Codec

/-! Character arrays of a fixed size, and a bounded copy that need not write the zero. -/

namespace BlockchainPG.Lib

open List

structure CharArray (size : Nat) where
  bytes : List Char
  size_eq : bytes.length = size
deriving DecidableEq

namespace CharArray

/-- What the array holds in front of the first zero. -/
def text (array : CharArray size) : List Char := array.bytes.takeWhile (· ≠ '\x00')

/-- An array with a text in it and zeros behind. -/
def holding (size : Nat) (string : List Char) : CharArray size :=
  ⟨(string ++ replicate size '\x00').take size, by simp⟩

/-- A copy of at most `bound` characters, filled up with zeros. The bytes behind
stay, so that a text of full length gets no zero of its own. -/
def strncpy (array : CharArray size) (bound : Nat) (inside : bound ≤ size) (source : List Char) : CharArray size :=
  let copied := (source.take bound).takeWhile (· ≠ '\x00')
  ⟨copied ++ replicate (bound - copied.length) '\x00' ++ array.bytes.drop bound, by
    have short : copied.length ≤ bound := (takeWhile_sublist _).length_le.trans (length_take_le _ _)
    simp only [length_append, length_replicate, length_drop, array.size_eq]
    omega⟩

theorem takeWhile_text (clean : '\x00' ∉ string) (rest : List Char) :
    (string ++ rest).takeWhile (· ≠ '\x00') = string ++ rest.takeWhile (· ≠ '\x00') :=
  takeWhile_append_of_pos fun _ own => decide_eq_true fun same => clean (same ▸ own)

theorem holding_copied (clean : '\x00' ∉ string) (short : string.length ≤ bound) :
    ((holding (bound + 1) string).bytes.take bound).takeWhile (· ≠ '\x00') = string := by
  have room : (holding (bound + 1) string).bytes.take bound = string ++
    replicate (bound - string.length) '\x00' := by
    rw [holding, take_take, min_eq_left (Nat.le_succ bound), take_append, take_of_length_le short,
      take_replicate, min_eq_left (by omega)]
  rw [room, takeWhile_text clean, takeWhile_replicate]
  simp

/-- A copied text is read back exactly when it is shorter than the bound or
finds a zero right behind it. -/
theorem text_strncpy_iff (array : CharArray (bound + 1)) (clean : '\x00' ∉ string)
    (short : string.length ≤ bound) :
    (array.strncpy bound (Nat.le_succ bound) (holding (bound + 1) string).bytes).text = string ↔
      string.length < bound ∨ array.bytes[bound]? = some '\x00' := by
  simp only [text, strncpy, holding_copied clean short, append_assoc]
  rw [takeWhile_text clean, append_right_eq_self]
  rcases Nat.lt_or_eq_of_le short with less | full
  · obtain ⟨gap, size⟩ : ∃ gap, bound - string.length = gap + 1 := ⟨bound - string.length - 1, by omega⟩
    simp [size, replicate_succ, less]
  · obtain ⟨last, behind⟩ : ∃ last, array.bytes.drop bound = [last] :=
      length_eq_one_iff.mp (by rw [length_drop, array.size_eq]; omega)
    have entry : (array.bytes.drop bound)[0]? = array.bytes[bound]? := getElem?_drop
    rw [behind] at entry
    simp [full, behind, ← entry, takeWhile_cons]

end CharArray

def wrapSigned (width : Nat) (value : Int) : Int := (BitVec.ofInt (8 * width) value).toInt

theorem wrapSigned_of_fits (pos : 0 < width) (fits : FitsSigned width value) : wrapSigned width value = value :=
  toInt_ofInt_of_fits pos fits

namespace Reads

theorem wrapped (width : Nat) (value : Int) :
    Reads (readSigned width) (signedBytes width value) (wrapSigned width value) := by
  have read := (word (signedWord_lt value width)).andReturn fun word => (BitVec.ofNat (8 * width) word).toInt
  rwa [BitVec.ofNat_toNat, BitVec.setWidth_eq] at read

theorem array (source : CharArray size) : Reads (takeBytes size) source.bytes source.bytes := by
  have read := take source.bytes
  rwa [source.size_eq] at read

end Reads

end BlockchainPG.Lib
