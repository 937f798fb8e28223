import BlockchainPG.Libpq.Roots

/-! The state root in the completion tag of an `INSERT`. -/

namespace BlockchainPG.Libpq

open Lib Mbt List

/-- `snprintf` into a buffer: the last byte is for the terminating zero. -/
def snprintf (size : Nat) (text : CString) : CString := text.take (size - 1)

/-- `%u` -/
def unsigned (number : Nat) : CString := Nat.toDigits 10 number

/-- The part of the tag in front of the hashes. -/
def insertCounts (lastOid processed : Nat) : CString :=
  ['I', 'N', 'S', 'E', 'R', 'T', ' '] ++ unsigned lastOid ++ [' '] ++ unsigned processed ++ [' ']

/-- The completion tag of an `INSERT` with `plan->hashinfo`. -/
def insertCompletionTag (lastOid processed : Nat) (hashinfo : CString) : CString :=
  snprintf CMDSTATUS_LEN (insertCounts lastOid processed ++ '$' :: hashinfo)

/-- `my_hash`: the state root and the hash of the chain. -/
def chainedHash (root strHash : CString) : CString := root.take 32 ++ strHash.take 32

theorem unsigned_length (small : number < 2 ^ 32) : (unsigned number).length ≤ 10 :=
  (Nat.length_toDigits_le_iff (by decide) (by decide)).mpr (small.trans (by decide))

theorem plain_of_mem_unsigned (mem : c ∈ unsigned number) : c ≠ '$' ∧ c ≠ '\x00' := by
  have digit := Nat.isDigit_of_mem_toDigits (by decide) (by decide) mem
  constructor
  · rintro rfl
    exact absurd digit (by decide)
  · rintro rfl
    exact absurd digit (by decide)

theorem insertCounts_length (smallOid : lastOid < 2 ^ 32) (smallCount : processed < 2 ^ 32) :
    (insertCounts lastOid processed).length ≤ 29 := by
  have first := unsigned_length smallOid
  have second := unsigned_length smallCount
  simp only [insertCounts, length_append, length_cons, length_nil]
  omega

theorem plain_of_mem_insertCounts (mem : c ∈ insertCounts lastOid processed) : c ≠ '$' ∧ c ≠ '\x00' := by
  simp only [insertCounts, mem_append] at mem
  have fixed : ∀ c ∈ ['I', 'N', 'S', 'E', 'R', 'T', ' '], c ≠ '$' ∧ c ≠ '\x00' := by simp
  have blank : ∀ c ∈ [' '], c ≠ '$' ∧ c ≠ '\x00' := by simp
  rcases mem with (((text | number) | space) | number) | space
  · exact fixed c text
  · exact plain_of_mem_unsigned number
  · exact blank c space
  · exact plain_of_mem_unsigned number
  · exact blank c space

theorem completionTag_eq (smallOid : lastOid < 2 ^ 32) (smallCount : processed < 2 ^ 32) (root rest : CString)
    (size : root.length = 32) : ∃ kept, insertCompletionTag lastOid processed (root ++ rest) =
      insertCounts lastOid processed ++ '$' :: (root ++ kept) ∧ kept <+: rest := by
  have short := insertCounts_length smallOid smallCount
  refine ⟨rest.take (62 - (insertCounts lastOid processed).length - 32), ?_, take_prefix ..⟩
  have room : CMDSTATUS_LEN - 1 - (insertCounts lastOid processed).length =
      62 - (insertCounts lastOid processed).length + 1 := by
    simp only [CMDSTATUS_LEN]
    omega
  rw [insertCompletionTag, snprintf, take_append, take_of_length_le (by simp only [CMDSTATUS_LEN]; omega), room,
    take_succ_cons, take_append, take_of_length_le (by omega), size]

/-- A client that receives the tag of an `INSERT` has the state root in the first 32 characters of `mbroot`. -/
theorem completionTag_delivers_root (client : Client) (root strHash : CString) (lastOid processed : Nat)
    (rootSize : root.length = 32) (hashSize : strHash.length = 32) (rootText : '\x00' ∉ root)
    (hashText : '\x00' ∉ strHash) (smallOid : lastOid < 2 ^ 32) (smallCount : processed < 2 ^ 32) :
    ∃ mbroot, (caseCommandComplete client).run
        (insertCompletionTag lastOid processed (chainedHash root strHash) ++ ['\x00']) =
          some ({ client with mbroot := some mbroot }, []) ∧ mbroot.take 32 = root := by
  have hashinfo : chainedHash root strHash = root ++ strHash := by
    rw [chainedHash, take_of_length_le rootSize.le, take_of_length_le hashSize.le]
  obtain ⟨kept, tag, front⟩ := completionTag_eq smallOid smallCount root strHash rootSize
  rw [hashinfo, tag]
  have plain : ∀ c ∈ insertCounts lastOid processed, (decide (c ≠ '$')) = true := fun c mem =>
    decide_eq_true (plain_of_mem_insertCounts mem).1
  have clean : '\x00' ∉ insertCounts lastOid processed ++ '$' :: (root ++ kept) := by
    simp only [mem_append, mem_cons, not_or]
    exact ⟨fun mem => (plain_of_mem_insertCounts mem).2 rfl, by decide, rootText,
      fun mem => hashText (front.subset mem)⟩
  have whole : (insertCounts lastOid processed ++ '$' :: (root ++ kept)).length ≤ CMDSTATUS_LEN := by
    rw [← tag, insertCompletionTag, snprintf, length_take]
    simp only [CMDSTATUS_LEN]
    omega
  have found : rootOf (insertCounts lastOid processed ++ '$' :: (root ++ kept)) = some ((root ++ kept).take 33) := by
    rw [rootOf, take_of_length_le whole, dropWhile_append_of_pos plain, dropWhile_cons_of_neg (by simp)]
  refine ⟨(root ++ kept).take 33, ?_, ?_⟩
  · have reads := (reads_gets clean).andReturn (fun text => commandComplete client text) []
    rw [append_nil, commandComplete, found] at reads
    exact reads
  · rw [take_take, show min 32 33 = 32 from rfl, ← rootSize, take_left]

theorem completionTag_delivers_root_sample : ∃ mbroot, (caseCommandComplete Client.start).run
        (insertCompletionTag 4294967295 4294967295 (chainedHash (replicate 32 'a') (replicate 32 'b')) ++
          ['\x00']) =
          some ({ Client.start with mbroot := some mbroot }, []) ∧ mbroot.take 32 = replicate 32 'a' :=
  completionTag_delivers_root Client.start (replicate 32 'a') (replicate 32 'b') 4294967295 4294967295
    (by decide) (by decide) (by decide) (by decide) (by decide) (by decide)

end BlockchainPG.Libpq
