import BlockchainPG.Lib.Runs
import Mathlib

/-! Block numbers of the buckets and overflow pages of a hash index, and why they last. -/

namespace BlockchainPG.Access.Hash

open Lib Function List

/-- `InvalidBlockNumber` and `P_NEW` -/
def invalidBlockNumber : Nat := 2 ^ 32 - 1

/-- The fields of the metapage that block numbers depend on, with the bits of the bitmap pages in `mapp`. -/
structure Metapage where
  maxbucket : Nat
  ovflpoint : Nat
  firstfree : Nat
  spares : Nat → Nat
  mapp : List Nat
  bmshift : Nat
  inUse : Nat → Bool

namespace Metapage

/-- `_hash_log2`: the loop stops at the first power of two that is not below `num`. -/
def hashLog2 (num : Nat) : Nat := Nat.find (⟨num, Nat.lt_two_pow_self.le⟩ : ∃ i, num ≤ 2 ^ i)

def bucketToBlkno (metap : Metapage) (bucket : Nat) : Nat :=
  bucket + (if bucket ≠ 0 then metap.spares (hashLog2 (bucket + 1) - 1) else 0) + 1

/-- The split number at which the loop of `bitno_to_blkno` stops. -/
def splitOf (metap : Metapage) (ovflbitnum : Nat) : Nat :=
  Nat.find (⟨max 1 metap.ovflpoint, le_max_left .., Or.inl (le_max_right ..)⟩ :
    ∃ i, 1 ≤ i ∧ (metap.ovflpoint ≤ i ∨ ovflbitnum ≤ metap.spares i))

def bitnoToBlkno (metap : Metapage) (ovflbitnum : Nat) : Nat :=
  2 ^ metap.splitOf (ovflbitnum + 1) + (ovflbitnum + 1)

/-- `none` is the error "invalid overflow block number". -/
def blknoToBitno (metap : Metapage) (ovflblkno : Nat) : Option Nat := do
  let i ← (range' 1 metap.ovflpoint).find? fun i => ovflblkno ≤ 2 ^ i ∨ ovflblkno - 2 ^ i ≤ metap.spares i
  if ovflblkno ≤ 2 ^ i then none else some (ovflblkno - 2 ^ i - 1)

/-- `_hash_firstfreebit`, of the word that begins at a bit. -/
def firstfreebit (metap : Metapage) (word : Nat) : Option Nat := (range 32).find? fun i => !metap.inUse (word + i)

/-- The loop of `_hash_getovflpage` over the words of one bitmap page from `bit` to `lastInpage`. -/
def scan (metap : Metapage) (page bit lastInpage : Nat) : Option Nat :=
  (range ((lastInpage + 32 - bit) / 32)).findSome? fun j =>
    let word := page <<< metap.bmshift + (bit + 32 * j)
    (metap.firstfreebit word).map (word + ·)

/-- `hashm_spares[splitnum]++`, and the block of the new page. -/
def newPage (metap : Metapage) : Metapage × Option Nat :=
  let bit := metap.spares metap.ovflpoint
  let blkno := metap.bitnoToBlkno bit
  if blkno = invalidBlockNumber then (metap, none)
  else ({ metap with spares := update metap.spares metap.ovflpoint (bit + 1) }, some blkno)

/-- `_hash_initbitmap` with the new page that it is given; there are at most `HASH_MAX_BITMAPS`. -/
def initbitmap (metap : Metapage) : Option Metapage :=
  match metap.newPage with
  | (_, none) => none
  | (grown, some blkno) =>
    if metap.mapp.length ≥ 128 then none
    else some { grown with
      inUse := fun bit => decide (bit >>> metap.bmshift = metap.mapp.length) || metap.inUse bit
      mapp := metap.mapp ++ [blkno] }

/-- `_hash_getovflpage` when no bit is clear. -/
def extend (metap : Metapage) (origFirstfree : Nat) : Metapage × Option Nat :=
  let lastBit := (metap.spares metap.ovflpoint - 1) % 2 ^ metap.bmshift
  match if lastBit = 2 ^ metap.bmshift - 1 then metap.initbitmap else some metap with
  | none => (metap, none)
  | some metap =>
    match metap.newPage with
    | (metap, none) => (metap, none)
    | (grown, some blkno) =>
      ({ grown with firstfree :=
          if grown.firstfree = origFirstfree then metap.spares metap.ovflpoint + 1 else grown.firstfree }, some blkno)

/-- The metapage in `_hash_expandtable`, with the check of `_hash_alloc_buckets`; block numbers have 32 bits. -/
def expandtable (metap : Metapage) : Metapage :=
  if metap.maxbucket ≥ 0x7FFFFFFE then metap
  else
    let newBucket := metap.maxbucket + 1
    let spareNdx := hashLog2 (newBucket + 1)
    let firstblock := metap.bucketToBlkno newBucket
    let lastblock := (firstblock + newBucket - 1) % 2 ^ 32
    if spareNdx > metap.ovflpoint then
      if lastblock < firstblock ∨ lastblock = invalidBlockNumber then metap
      else { metap with
        maxbucket := newBucket
        spares := update metap.spares spareNdx (metap.spares metap.ovflpoint)
        ovflpoint := spareNdx }
    else { metap with maxbucket := newBucket }

/-- `_hash_metapinit` for an estimate of buckets. -/
def metapinit (dnumbuckets bmshift : Nat) : Metapage :=
  let numBuckets :=
    if dnumbuckets ≤ 2 then 2 else if dnumbuckets ≥ 0x40000000 then 0x40000000 else 2 ^ hashLog2 dnumbuckets
  { maxbucket := numBuckets - 1
    ovflpoint := hashLog2 numBuckets
    firstfree := 0
    spares := update (fun _ => 0) (hashLog2 numBuckets) 1
    mapp := [numBuckets + 1]
    bmshift
    inUse := fun _ => true }

/-- What a process does under one lock of the metapage or a bitmap page, with what it remembers from before. -/
inductive Section where
  /-- Search of a bitmap page, whose clear bit is then set. -/
  | scan (page bit lastInpage : Nat)
  /-- End of the search at a clear bit. -/
  | recycle (origFirstfree bit : Nat)
  | extend (origFirstfree : Nat)
  /-- `_hash_freeovflpage` clears the bit of a block. -/
  | clear (ovflblkno : Nat)
  /-- It then lowers `hashm_firstfree`. -/
  | lower (ovflbitno : Nat)
  | expandtable

def step (metap : Metapage) : Section → Metapage
  | .scan page bit lastInpage =>
    match metap.scan page bit lastInpage with
    | none => metap
    | some found => { metap with inUse := update metap.inUse found true }
  | .recycle origFirstfree bit =>
    if metap.firstfree = origFirstfree then { metap with firstfree := bit + 1 } else metap
  | .extend origFirstfree => (metap.extend origFirstfree).1
  | .clear ovflblkno =>
    match metap.blknoToBitno ovflblkno with
    | none => metap
    | some bit =>
      if bit >>> metap.bmshift ≥ metap.mapp.length then metap
      else { metap with inUse := update metap.inUse bit false }
  | .lower ovflbitno => if ovflbitno < metap.firstfree then { metap with firstfree := ovflbitno } else metap
  | .expandtable => metap.expandtable

/-- Overflow pages up to a split point only become more, and there is a block for every page. -/
structure Addressing (metap : Metapage) : Prop where
  point : 1 ≤ metap.ovflpoint
  none : metap.spares 0 = 0
  rising : ∀ i j, i ≤ j → j ≤ metap.ovflpoint → metap.spares i ≤ metap.spares j
  buckets : metap.maxbucket < 2 ^ metap.ovflpoint
  room : 2 ^ metap.ovflpoint + metap.spares metap.ovflpoint < invalidBlockNumber
  clear : ∀ bit, metap.inUse bit = false → bit < metap.spares metap.ovflpoint

/-- What was given out before the last split point stays. -/
structure Grows (metap later : Metapage) : Prop where
  point : metap.ovflpoint ≤ later.ovflpoint
  buckets : metap.maxbucket ≤ later.maxbucket
  below : ∀ i < metap.ovflpoint, later.spares i = metap.spares i
  last : metap.spares metap.ovflpoint ≤ later.spares metap.ovflpoint

section Addresses

variable {metap later : Metapage}

theorem hashLog2_le_iff : hashLog2 num ≤ i ↔ num ≤ 2 ^ i := by
  rw [hashLog2, Nat.find_le_iff]
  exact ⟨fun ⟨_, below, enough⟩ => enough.trans (Nat.pow_le_pow_right (by decide) below), fun enough =>
    ⟨i, le_rfl, enough⟩⟩

theorem hashLog2_pow (i : Nat) : hashLog2 (2 ^ i) = i :=
  le_antisymm (hashLog2_le_iff.mpr le_rfl) ((Nat.pow_le_pow_iff_right (by decide)).mp (hashLog2_le_iff.mp le_rfl))

theorem bucket_split (pos : 0 < bucket) :
    ∃ j, hashLog2 (bucket + 1) = j + 1 ∧ 2 ^ j ≤ bucket ∧ bucket < 2 ^ (j + 1) := by
  have enough : bucket + 1 ≤ 2 ^ hashLog2 (bucket + 1) := hashLog2_le_iff.mp le_rfl
  cases log : hashLog2 (bucket + 1) with
  | zero =>
    rw [log] at enough
    omega
  | succ j =>
    have more : ¬ bucket + 1 ≤ 2 ^ j := fun less => by
      have := hashLog2_le_iff.mpr less
      omega
    exact ⟨j, rfl, by omega, by rw [log] at enough; omega⟩

section

variable (sound : Addressing metap)
include sound

theorem Addressing.bucketToBlkno_eq (bucket : Nat) :
    metap.bucketToBlkno bucket = bucket + metap.spares (hashLog2 (bucket + 1) - 1) + 1 := by
  unfold bucketToBlkno
  split
  · rfl
  · next zero =>
    rw [not_not.mp zero, show hashLog2 (0 + 1) = 0 from hashLog2_pow 0, sound.none]

theorem Addressing.bitnoToBlkno_eq (pos : 1 ≤ i) (point : i ≤ metap.ovflpoint)
    (below : metap.spares (i - 1) ≤ bit) (above : bit < metap.spares i) :
    metap.bitnoToBlkno bit = 2 ^ i + (bit + 1) := by
  have stops : metap.splitOf (bit + 1) = i := by
    rw [splitOf, Nat.find_eq_iff]
    refine ⟨⟨pos, Or.inr above⟩, fun j less ⟨_, found⟩ => ?_⟩
    have := sound.rising j (i - 1) (by omega) (by omega)
    omega
  rw [bitnoToBlkno, stops]

theorem Addressing.split (bound : bit < metap.spares metap.ovflpoint) :
    ∃ i, 1 ≤ i ∧ i ≤ metap.ovflpoint ∧ metap.spares (i - 1) ≤ bit ∧ bit < metap.spares i := by
  classical
  have found : ∃ i, bit < metap.spares i := ⟨_, bound⟩
  have first := Nat.find_spec found
  have pos : Nat.find found ≠ 0 := fun zero => by
    rw [zero, sound.none] at first
    omega
  exact ⟨Nat.find found, by omega, Nat.find_min' found bound, not_lt.mp (Nat.find_min found (by omega)), first⟩

theorem Addressing.bits_increase (less : bit < other)
    (bound : other < metap.spares metap.ovflpoint) : metap.bitnoToBlkno bit < metap.bitnoToBlkno other := by
  obtain ⟨i, pos, point, below, above⟩ := sound.split (less.trans bound)
  obtain ⟨j, pos', point', below', above'⟩ := sound.split bound
  have ordered : i ≤ j := by
    by_contra later
    have := sound.rising j (i - 1) (by omega) (by omega)
    omega
  rw [sound.bitnoToBlkno_eq pos point below above, sound.bitnoToBlkno_eq pos' point' below' above']
  have := Nat.pow_le_pow_right (n := 2) (by decide) ordered
  omega

theorem Addressing.buckets_increase (less : bucket < other) (bound : other ≤ metap.maxbucket) :
    metap.bucketToBlkno bucket < metap.bucketToBlkno other := by
  have last : hashLog2 (other + 1) ≤ metap.ovflpoint := hashLog2_le_iff.mpr (by have := sound.buckets; omega)
  have ordered : hashLog2 (bucket + 1) ≤ hashLog2 (other + 1) :=
    hashLog2_le_iff.mpr (le_trans (by omega) (hashLog2_le_iff.mp le_rfl))
  have := sound.rising (hashLog2 (bucket + 1) - 1) (hashLog2 (other + 1) - 1) (by omega) (by omega)
  rw [sound.bucketToBlkno_eq, sound.bucketToBlkno_eq]
  omega

theorem Addressing.apart (bound : bucket ≤ metap.maxbucket)
    (exists' : bit < metap.spares metap.ovflpoint) : metap.bucketToBlkno bucket ≠ metap.bitnoToBlkno bit := by
  obtain ⟨i, pos, point, below, above⟩ := sound.split exists'
  rw [sound.bitnoToBlkno_eq pos point below above, sound.bucketToBlkno_eq]
  rcases Nat.eq_zero_or_pos bucket with rfl | nonzero
  · have := Nat.one_le_two_pow (n := i)
    rw [show hashLog2 (0 + 1) = 0 from hashLog2_pow 0, sound.none]
    omega
  · obtain ⟨j, log, least, most⟩ := bucket_split nonzero
    have last : j + 1 ≤ metap.ovflpoint := log ▸ hashLog2_le_iff.mpr (by have := sound.buckets; omega)
    rw [log, Nat.add_sub_cancel]
    rcases Nat.lt_or_ge j i with before | after
    · have := sound.rising j (i - 1) (by omega) (by omega)
      have := Nat.pow_le_pow_right (n := 2) (by decide) (show j + 1 ≤ i from before)
      omega
    · have := sound.rising i j after (by omega)
      have := Nat.pow_le_pow_right (n := 2) (by decide) after
      omega

theorem Addressing.blknoToBitno_inverts (bound : bit < metap.spares metap.ovflpoint) :
    metap.blknoToBitno (metap.bitnoToBlkno bit) = some bit := by
  obtain ⟨i, pos, point, below, above⟩ := sound.split bound
  rw [sound.bitnoToBlkno_eq pos point below above, blknoToBitno]
  have stops : ((range' 1 metap.ovflpoint).find? fun j =>
      decide (2 ^ i + (bit + 1) ≤ 2 ^ j ∨ 2 ^ i + (bit + 1) - 2 ^ j ≤ metap.spares j)) = some i := by
    rw [find?_range'_eq_some]
    refine ⟨by simp; omega, mem_range'_1.mpr (by omega), fun j least less => ?_⟩
    have := sound.rising j (i - 1) (by omega) (by omega)
    have := Nat.pow_lt_pow_right (a := 2) (by decide) less
    simp
    omega
  grind

theorem Addressing.bucket_kept (later' : Addressing later) (grows : Grows metap later)
    (bound : bucket ≤ metap.maxbucket) : later.bucketToBlkno bucket = metap.bucketToBlkno bucket := by
  have last : hashLog2 (bucket + 1) ≤ metap.ovflpoint := hashLog2_le_iff.mpr (by have := sound.buckets; omega)
  grind [point, bucketToBlkno_eq, Grows.below]

end

theorem Grows.spares_le (grows : Grows metap later) (point : i ≤ metap.ovflpoint) :
    metap.spares i ≤ later.spares i := by
  grind [below, last]

theorem Addressing.bit_kept (sound : Addressing metap) (later' : Addressing later) (grows : Grows metap later)
    (bound : bit < metap.spares metap.ovflpoint) : later.bitnoToBlkno bit = metap.bitnoToBlkno bit := by
  obtain ⟨i, pos, point, below, above⟩ := sound.split bound
  grind [bitnoToBlkno_eq, LE.le.trans, Grows.point, Grows.below, Grows.spares_le]

theorem Grows.refl (metap : Metapage) : Grows metap metap := ⟨le_rfl, le_rfl, fun _ _ => rfl, le_rfl⟩

theorem Grows.trans {metap later latest : Metapage} (first : Grows metap later) (second : Grows later latest) :
    Grows metap latest :=
  ⟨first.point.trans second.point, first.buckets.trans second.buckets,
    fun i below => (second.below i (below.trans_le first.point)).trans (first.below i below),
    first.last.trans (second.spares_le first.point)⟩

end Addresses

section Steps

variable {metap : Metapage}

/-- A state that a section leads to. -/
structure Leads (metap later : Metapage) : Prop where
  sound : Addressing later
  grows : Grows metap later

theorem Addressing.stays (sound : Addressing metap) : Leads metap metap := ⟨sound, Grows.refl metap⟩

theorem Leads.bits (leads : Leads metap later) (firstfree : Nat) (mapp : List Nat) {inUse : Nat → Bool}
    (clear : ∀ bit, inUse bit = false → bit < later.spares later.ovflpoint) :
    Leads metap { later with firstfree, mapp, inUse } := by
  obtain ⟨⟨point, none, rising, buckets, room, -⟩, ⟨later', more, below, last⟩⟩ := leads
  exact ⟨⟨point, none, rising, buckets, room, clear⟩, later', more, below, last⟩

section

variable (sound : Addressing metap)
include sound

theorem Addressing.next_eq :
    metap.bitnoToBlkno (metap.spares metap.ovflpoint) = 2 ^ metap.ovflpoint + (metap.spares metap.ovflpoint + 1) := by
  have stops : metap.splitOf (metap.spares metap.ovflpoint + 1) = metap.ovflpoint := by
    rw [splitOf, Nat.find_eq_iff]
    grind [point, rising]
  rw [bitnoToBlkno, stops]

theorem Addressing.leads_point (maxbucket : Nat) {point : Nat} {spares : Nat → Nat}
    (next : point = metap.ovflpoint ∨ point = metap.ovflpoint + 1) (same : ∀ i < point, spares i = metap.spares i)
    (last : metap.spares metap.ovflpoint ≤ spares point) (more : metap.maxbucket ≤ maxbucket)
    (buckets : maxbucket < 2 ^ point) (room : 2 ^ point + spares point < invalidBlockNumber) :
    Leads metap { metap with maxbucket, spares, ovflpoint := point } := by
  have pos := sound.point
  refine ⟨⟨by dsimp only; omega, (same 0 (by omega)).trans sound.none, fun i j ordered bound => ?_, buckets, room,
    fun bit clear => (sound.clear bit clear).trans_le last⟩, by dsimp only; omega, more, fun i below =>
      same i (by omega), ?_⟩
  · dsimp only at bound ⊢
    have old := sound.rising i j ordered
    have top := sound.rising i metap.ovflpoint
    grind
  · grind

theorem Addressing.leads_newPage (made : metap.newPage = (later, some blkno)) :
    Leads metap later ∧ metap.spares metap.ovflpoint < later.spares later.ovflpoint ∧
      blkno = later.bitnoToBlkno (metap.spares metap.ovflpoint) ∧ later.inUse = metap.inUse := by
  rw [newPage, sound.next_eq] at made
  split at made
  · cases made
  · next valid =>
    have room := sound.room
    have pos := sound.point
    obtain ⟨rfl, same⟩ := Prod.mk.inj made
    obtain rfl := Option.some.inj same
    have leads := sound.leads_point metap.maxbucket (Or.inl rfl)
      (fun i below => update_of_ne below.ne (metap.spares metap.ovflpoint + 1) metap.spares)
      (by rw [update_self]; omega) le_rfl sound.buckets (by rw [update_self]; omega)
    have larger : metap.spares metap.ovflpoint <
        update metap.spares metap.ovflpoint (metap.spares metap.ovflpoint + 1) metap.ovflpoint := by
      rw [update_self]
      omega
    refine ⟨leads, larger, (leads.sound.bitnoToBlkno_eq pos le_rfl ?_ larger).symm, rfl⟩
    exact (leads.grows.below _ (by omega)).trans_le (sound.rising _ _ (by omega) le_rfl)

theorem Addressing.leads_initbitmap (made : metap.initbitmap = some later) : Leads metap later := by
  rw [initbitmap] at made
  split at made
  · cases made
  · next grown blkno page =>
    split at made
    · cases made
    · grind [leads_newPage, Leads.bits, clear, Leads.sound]

theorem Addressing.leads_extend (origFirstfree : Nat) :
    Leads metap (metap.extend origFirstfree).1 ∧ ∀ blkno ∈ (metap.extend origFirstfree).2,
      ∃ bit < (metap.extend origFirstfree).1.spares (metap.extend origFirstfree).1.ovflpoint,
        blkno = (metap.extend origFirstfree).1.bitnoToBlkno bit := by
  have mapped : ∀ more, (if (metap.spares metap.ovflpoint - 1) % 2 ^ metap.bmshift = 2 ^ metap.bmshift - 1 then
      metap.initbitmap else some metap) = some more → Leads metap more := by
    grind [leads_initbitmap, stays]
  unfold extend
  dsimp only
  split
  · exact ⟨sound.stays, by simp⟩
  · next more made =>
    have first := mapped more made
    split
    · grind [newPage]
    · next grown blkno page =>
      obtain ⟨second, bound, block, -⟩ := first.sound.leads_newPage page
      have both : Leads metap grown := ⟨second.sound, first.grows.trans second.grows⟩
      refine ⟨both.bits _ _ second.sound.clear, fun own mem => ?_⟩
      obtain rfl := Option.some.inj mem
      exact ⟨_, bound, block⟩

theorem Addressing.leads_expandtable : Leads metap metap.expandtable := by
  have buckets := sound.buckets
  have room := sound.room
  unfold expandtable
  dsimp only
  split
  · exact sound.stays
  · split
    · next doubles =>
      have full : metap.maxbucket + 1 = 2 ^ metap.ovflpoint := by
        have := mt hashLog2_le_iff.mpr (not_le.mpr doubles)
        omega
      have log : hashLog2 (metap.maxbucket + 1 + 1) = metap.ovflpoint + 1 := by
        grind [le_antisymm, hashLog2_le_iff]
      grind [bucketToBlkno_eq, stays, invalidBlockNumber, leads_point]
    · grind [hashLog2_le_iff, leads_point]

end

theorem scan_clear (found : metap.scan page first lastInpage = some bit) : metap.inUse bit = false := by
  obtain ⟨j, -, word⟩ := exists_of_findSome?_eq_some found
  obtain ⟨i, free, rfl⟩ := Option.map_eq_some_iff.mp word
  simpa using find?_some free

theorem Addressing.blknoToBitno_lt (sound : Addressing metap) (found : metap.blknoToBitno blkno = some bit) :
    bit < metap.spares metap.ovflpoint := by
  obtain ⟨i, stops, found⟩ := Option.bind_eq_some_iff.mp found
  have bound := mem_range'_1.mp (mem_of_find?_eq_some stops)
  have exit := find?_some stops
  rw [decide_eq_true_eq] at exit
  have := sound.rising i metap.ovflpoint (by omega) le_rfl
  grind

theorem Addressing.leads_step (sound : Addressing metap) (event : Section) : Leads metap (metap.step event) := by
  cases event with
  | scan page bit lastInpage =>
    rw [step]
    split
    · exact sound.stays
    · exact sound.stays.bits _ _ fun bit clear => sound.clear bit (by grind [update_of_ne, update_self])
  | recycle origFirstfree bit =>
    rw [step]
    split
    · exact sound.stays.bits _ _ sound.clear
    · exact sound.stays
  | extend origFirstfree => exact (sound.leads_extend origFirstfree).1
  | clear ovflblkno =>
    rw [step]
    split
    · exact sound.stays
    · next found =>
      split
      · exact sound.stays
      · refine sound.stays.bits _ _ fun bit clear => ?_
        have := sound.blknoToBitno_lt found
        have := sound.clear bit
        grind [update_of_ne]
  | lower ovflbitno =>
    rw [step]
    split
    · exact sound.stays.bits _ _ sound.clear
    · exact sound.stays
  | expandtable => exact sound.leads_expandtable

theorem addressing_metapinit (dnumbuckets bmshift : Nat) : Addressing (metapinit dnumbuckets bmshift) := by
  obtain ⟨log, least, most, buckets⟩ : ∃ log, 1 ≤ log ∧ log ≤ 30 ∧ (if dnumbuckets ≤ 2 then 2
      else if dnumbuckets ≥ 0x40000000 then 0x40000000 else 2 ^ hashLog2 dnumbuckets) = 2 ^ log := by
    split
    · exact ⟨1, by decide⟩
    · split
      · exact ⟨30, by decide⟩
      · refine ⟨hashLog2 dnumbuckets, ?_, hashLog2_le_iff.mpr (by omega), rfl⟩
        exact not_lt.mp fun zero => absurd (hashLog2_le_iff.mp (Nat.lt_one_iff.mp zero).le) (by omega)
  unfold metapinit
  rw [buckets]
  dsimp only
  rw [hashLog2_pow]
  have small := Nat.pow_le_pow_right (n := 2) (by decide) most
  constructor <;> grind [invalidBlockNumber]

/-- After any sections of any processes, a bucket and an overflow page, two buckets and two overflow pages have
different block numbers, which give back the bit and stay what they are whatever follows; the pages that are given
out are among them. -/
theorem addresses_last (dnumbuckets bmshift : Nat) (before after : List Section) :
    let metap := run step (metapinit dnumbuckets bmshift) before
    let later := run step metap after
    (∀ bucket ≤ metap.maxbucket, ∀ bit < metap.spares metap.ovflpoint,
      metap.bucketToBlkno bucket ≠ metap.bitnoToBlkno bit) ∧
    (∀ bucket ≤ metap.maxbucket, ∀ other < bucket, metap.bucketToBlkno other ≠ metap.bucketToBlkno bucket) ∧
    (∀ bit < metap.spares metap.ovflpoint, ∀ other < bit, metap.bitnoToBlkno other ≠ metap.bitnoToBlkno bit) ∧
    (∀ bit < metap.spares metap.ovflpoint, metap.blknoToBitno (metap.bitnoToBlkno bit) = some bit) ∧
    (∀ bucket ≤ metap.maxbucket, bucket ≤ later.maxbucket ∧ later.bucketToBlkno bucket = metap.bucketToBlkno bucket) ∧
    (∀ bit < metap.spares metap.ovflpoint, bit < later.spares later.ovflpoint ∧
      later.bitnoToBlkno bit = metap.bitnoToBlkno bit) ∧
    (∀ page first lastInpage, ∀ bit ∈ metap.scan page first lastInpage, bit < metap.spares metap.ovflpoint) ∧
    ∀ origFirstfree, ∀ blkno ∈ (metap.extend origFirstfree).2, ∃ bit,
      bit < (metap.extend origFirstfree).1.spares (metap.extend origFirstfree).1.ovflpoint ∧
        blkno = (metap.extend origFirstfree).1.bitnoToBlkno bit := by
  intro metap later
  have sound : Addressing metap :=
    run_keeps (addressing_metapinit dnumbuckets bmshift) (fun _ event sound => (sound.leads_step event).sound) before
  have leads : Leads metap later := run_keeps sound.stays
    (fun _ event leads => ⟨(leads.sound.leads_step event).sound,
      leads.grows.trans (leads.sound.leads_step event).grows⟩) after
  refine ⟨fun bucket bound bit exists' => sound.apart bound exists',
    fun bucket bound other less => (sound.buckets_increase less bound).ne,
    fun bit bound other less => (sound.bits_increase less bound).ne,
    fun bit bound => sound.blknoToBitno_inverts bound,
    fun bucket bound => ⟨bound.trans leads.grows.buckets, sound.bucket_kept leads.sound leads.grows bound⟩,
    fun bit bound => ⟨?_, sound.bit_kept leads.sound leads.grows bound⟩,
    fun page first lastInpage bit found => sound.clear bit (scan_clear found),
    fun origFirstfree => (sound.leads_extend origFirstfree).2⟩
  exact bound.trans_le (leads.grows.last.trans (leads.sound.rising _ _ leads.grows.point le_rfl))

end Steps

end Metapage

end BlockchainPG.Access.Hash
