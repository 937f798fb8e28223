import BlockchainPG.Access.HashBuckets
import BlockchainPG.Lib.Buckets
import BlockchainPG.Lib.LinearHash
import BlockchainPG.Lib.Runs

/-! Hash indexes under insertions, splits, bulk deletions and squeezes. -/

namespace BlockchainPG.Access.Hash

open Lib Storage Function List

variable {Tid : Type u}

/-- The fields of `HashMetaPageData` that the routines read. -/
structure HashMetaPage where
  ntuples : Nat
  ffactor : Nat
  maxbucket : Nat
  highmask : Nat
  lowmask : Nat

def hashHashkey2bucket (hashkey : Nat) (metap : HashMetaPage) : Nat :=
  let bucket := hashkey &&& metap.highmask
  if bucket > metap.maxbucket then bucket &&& metap.lowmask else bucket

/-- The metapage in `_hash_expandtable` when there is a new bucket. -/
def HashMetaPage.grow (metap : HashMetaPage) : HashMetaPage :=
  let newBucket := metap.maxbucket + 1
  if newBucket > metap.highmask then
    { metap with maxbucket := newBucket, lowmask := metap.highmask, highmask := newBucket ||| metap.highmask }
  else { metap with maxbucket := newBucket }

section Masks

/-- The masks cover a power of two of buckets each, and the greater one all that are in use. -/
structure Masks (metap : HashMetaPage) (log : Nat) : Prop where
  low : metap.lowmask = 2 ^ log - 1
  high : metap.highmask = 2 ^ (log + 1) - 1
  most : 2 ^ log ≤ metap.maxbucket + 1
  least : metap.maxbucket + 1 ≤ 2 ^ (log + 1)

variable {metap : HashMetaPage}

theorem Masks.linear (masks : Masks metap log) : LinearHash.Masks metap.maxbucket metap.highmask metap.lowmask log :=
  ⟨masks.low, masks.high, masks.most, masks.least⟩

theorem Masks.bucket_le (masks : Masks metap log) (hashkey : Nat) :
    hashHashkey2bucket hashkey metap ≤ metap.maxbucket :=
  masks.linear.bucket_le hashkey

theorem Masks.old_le (masks : Masks metap log) : (metap.maxbucket + 1) &&& metap.lowmask ≤ metap.maxbucket :=
  masks.linear.old_le

theorem grow_eq (metap : HashMetaPage) : metap.grow = { metap with
    maxbucket := metap.maxbucket + 1, highmask := LinearHash.growHigh metap.maxbucket metap.highmask
    lowmask := LinearHash.growLow metap.maxbucket metap.highmask metap.lowmask } := by
  rw [HashMetaPage.grow, LinearHash.growHigh, LinearHash.growLow]
  split <;> rfl

/-- One more bucket: the masks stay right, and only hash keys of one old bucket change to the new one. -/
theorem Masks.grow (masks : Masks metap log) : (∃ log', Masks metap.grow log') ∧ ∀ hashkey,
    (hashHashkey2bucket hashkey metap.grow = metap.maxbucket + 1 ∧
      hashHashkey2bucket hashkey metap = (metap.maxbucket + 1) &&& metap.lowmask) ∨
    hashHashkey2bucket hashkey metap.grow = hashHashkey2bucket hashkey metap := by
  rw [grow_eq]
  obtain ⟨log', masks', -⟩ := masks.linear.grow_masks
  exact ⟨⟨log', masks'.low, masks'.high, masks'.most, masks'.least⟩, masks.linear.grow⟩

end Masks

/-- A hash index; the buckets in use are those up to `maxbucket`. -/
structure HashIndex (Tid : Type u) where
  metap : HashMetaPage
  bucket : Nat → BucketChain Tid

/-- What `_hash_metapinit` leaves, for a number of buckets that is a power of two. -/
def hashMetapinit (log ffactor : Nat) : HashIndex Tid where
  metap :=
    { ntuples := 0, ffactor := ffactor, maxbucket := 2 ^ log - 1, highmask := 2 ^ (log + 1) - 1,
      lowmask := 2 ^ log - 1 }
  bucket := fun _ => ⟨.empty, []⟩

/-- `HashMaxItemSize((Page) metap)`: the macro is given the contents of the metapage, so
that the upper byte of `hashm_bsize` is read as the page size. -/
def hashMaxItemSize : Nat :=
  let bsize := pageSize - (sizeOfPageHeaderData + sizeOfHashPageOpaqueData)
  (bsize / 256 * 256 - sizeOfPageHeaderData - sizeOfItemIdData - sizeOfHashPageOpaqueData) / 8 * 8

inductive HashError where
  /-- index row size %lu exceeds hash maximum %lu -/
  | indexRowSizeExceedsHashMaximum (itemsz maximum : Nat)

namespace HashIndex

def bucketOf (index : HashIndex Tid) (hashkey : Nat) : Nat := hashHashkey2bucket hashkey index.metap

/-- The check of `_hash_doinsert` and `_hash_expandtable` whether there are too many tuples. -/
def crowded (index : HashIndex Tid) : Prop := index.metap.ntuples > index.metap.ffactor * (index.metap.maxbucket + 1)

instance (index : HashIndex Tid) : Decidable index.crowded := inferInstanceAs (Decidable (_ > _))

def oldBucket (index : HashIndex Tid) : Nat := (index.metap.maxbucket + 1) &&& index.metap.lowmask

/-- The split of `_hash_expandtable`. -/
def split (index : HashIndex Tid) : HashIndex Tid :=
  let newBucket := index.metap.maxbucket + 1
  let metap := index.metap.grow
  let (old, new) := hashSplitbucket (fun itup => hashHashkey2bucket itup.hashkey metap = newBucket)
    (index.bucket index.oldBucket)
  { metap := metap, bucket := update (update index.bucket index.oldBucket old) newBucket new }

/-- The table is to be expanded, and there is a bucket number left. -/
def splits (index : HashIndex Tid) : Prop := index.crowded ∧ ¬ index.metap.maxbucket ≥ 0x7FFFFFFE

instance (index : HashIndex Tid) : Decidable index.splits := inferInstanceAs (Decidable (_ ∧ _))

/-- `_hash_expandtable`; `available` says whether it gets the locks and the pages it needs. -/
def hashExpandtable (index : HashIndex Tid) (available : Bool) : HashIndex Tid :=
  if index.splits then
    if available then index.split else index
  else index

/-- The part of `_hash_doinsert` up to the check for a split. -/
def insert (index : HashIndex Tid) (itup : IndexTuple Tid) : HashIndex Tid where
  metap := { index.metap with ntuples := index.metap.ntuples + 1 }
  bucket := update index.bucket (index.bucketOf itup.hashkey)
    ((index.bucket (index.bucketOf itup.hashkey)).insert itup)

def hashDoinsert (index : HashIndex Tid) (itup : IndexTuple Tid) (available : Bool) :
    Except HashError (HashIndex Tid) :=
  if itup.itemsz > hashMaxItemSize then .error (.indexRowSizeExceedsHashMaximum itup.itemsz hashMaxItemSize)
  else
    let index := index.insert itup
    .ok (if index.crowded then index.hashExpandtable available else index)

/-- The body of the loop of `hashbulkdelete` over the buckets. -/
def vacuumBucket (callback : Tid → Bool) (bucket : BucketChain Tid) : BucketChain Tid :=
  if bucket.tuples.any fun itup => callback itup.tid then hashSqueezebucket
    (bucket.filter fun itup => ! callback itup.tid)
  else bucket

/-- All tuples of the buckets in use. -/
def stored (index : HashIndex Tid) : List (IndexTuple Tid) :=
  (range (index.metap.maxbucket + 1)).flatMap fun bucket => (index.bucket bucket).tuples

/-- `hashbulkdelete` when nothing else is inserted meanwhile: the number of tuples is the
number of those it kept. -/
def hashbulkdelete (index : HashIndex Tid) (callback : Tid → Bool) : HashIndex Tid where
  metap := { index.metap with ntuples := (index.stored.filter fun itup => ! callback itup.tid).length }
  bucket := fun bucket =>
    if bucket ≤ index.metap.maxbucket then vacuumBucket callback (index.bucket bucket) else index.bucket bucket

/-- `_hash_squeezebucket` for a bucket in use. -/
def squeeze (index : HashIndex Tid) (bucket : Nat) : HashIndex Tid :=
  if bucket ≤ index.metap.maxbucket then
    { index with bucket := update index.bucket bucket (hashSqueezebucket (index.bucket bucket)) }
  else index

/-- `_hash_first` and then `_hash_step` until the end. -/
def scan (index : HashIndex Tid) (hashValue : Nat) (dir : ScanDirection) : Option (List (IndexTuple Tid)) :=
  hashScan (index.bucket (index.bucketOf hashValue)) hashValue dir

end HashIndex

inductive Event (Tid : Type u) where
  | insert (itup : IndexTuple Tid) (available : Bool)
  | bulkdelete (callback : Tid → Bool)
  | squeeze (bucket : Nat)

/-- A step of the index; a refused insertion leaves it as it is. -/
def step (index : HashIndex Tid) : Event Tid → HashIndex Tid
  | .insert itup available =>
    match index.hashDoinsert itup available with
    | .ok index => index
    | .error _ => index
  | .bulkdelete callback => index.hashbulkdelete callback
  | .squeeze bucket => index.squeeze bucket

def contentsStep (tuples : List (IndexTuple Tid)) : Event Tid → List (IndexTuple Tid)
  | .insert itup _ => if itup.itemsz > hashMaxItemSize then tuples else itup :: tuples
  | .bulkdelete callback => tuples.filter fun itup => ! callback itup.tid
  | .squeeze _ => tuples

/-- The buckets that a step squeezes have ascending hash keys before. -/
def Gentle (index : HashIndex Tid) : Event Tid → Prop
  | .insert itup available => itup.itemsz ≤ hashMaxItemSize → available = true → (index.insert itup).splits →
      ((index.insert itup).bucket (index.insert itup).oldBucket).Ascends
  | .bulkdelete callback => ∀ bucket < index.metap.maxbucket + 1,
      ((index.bucket bucket).tuples.any fun itup => callback itup.tid) = true →
        ((index.bucket bucket).filter fun itup => ! callback itup.tid).Ascends
  | .squeeze bucket => bucket ≤ index.metap.maxbucket → (index.bucket bucket).Ascends

instance (index : HashIndex Tid) : ∀ event, Decidable (Gentle index event)
  | .insert _ _ => inferInstanceAs (Decidable (_ → _ → _ → _))
  | .bulkdelete _ => inferInstanceAs (Decidable (∀ bucket < _, _ → _))
  | .squeeze _ => inferInstanceAs (Decidable (_ → _))

/-- The index holds some tuples as it should. -/
structure Holds (index : HashIndex Tid) (tuples : List (IndexTuple Tid)) : Prop where
  masks : ∃ log, Masks index.metap log
  ordered : ∀ bucket ≤ index.metap.maxbucket, (index.bucket bucket).Ordered
  placed : ∀ bucket ≤ index.metap.maxbucket, ∀ itup ∈ (index.bucket bucket).tuples, index.bucketOf itup.hashkey = bucket
  stored : index.stored.Perm tuples

section Steps

variable {index : HashIndex Tid} {tuples : List (IndexTuple Tid)}

theorem stored_update (mem : bucket ≤ index.metap.maxbucket) (chain : BucketChain Tid) :
    ((range (index.metap.maxbucket + 1)).flatMap fun other =>
      (update index.bucket bucket chain other).tuples).Perm
      (chain.tuples ++ ((range (index.metap.maxbucket + 1)).erase bucket).flatMap fun other =>
        (index.bucket other).tuples) := by
  have same : (fun other => (update index.bucket bucket chain other).tuples) =
      update (fun other => (index.bucket other).tuples) bucket chain.tuples := by
    grind
  grind [flatMap_update]

theorem stored_bucket (index : HashIndex Tid) (mem : bucket ≤ index.metap.maxbucket) :
    index.stored.Perm ((index.bucket bucket).tuples ++
      ((range (index.metap.maxbucket + 1)).erase bucket).flatMap fun other => (index.bucket other).tuples) :=
  flatMap_erase (mem_range.mpr (Nat.lt_succ_of_le mem)) _

theorem Holds.edit (holds : Holds index tuples) (mem : bucket ≤ index.metap.maxbucket) (ordered : chain.Ordered)
    (more : List (IndexTuple Tid)) (perm : chain.tuples.Perm (more ++ (index.bucket bucket).tuples))
    (placed : ∀ itup ∈ more, index.bucketOf itup.hashkey = bucket) (ntuples : Nat) :
    Holds { metap := { index.metap with ntuples := ntuples }, bucket := update index.bucket bucket chain }
      (more ++ tuples) where
  masks := by
    obtain ⟨log, low, high, most, least⟩ := holds.masks
    exact ⟨log, low, high, most, least⟩
  ordered := by
    grind [ordered]
  placed := by
    intro other below itup inside
    show index.bucketOf itup.hashkey = other
    grind [placed]
  stored := by
    refine (stored_update mem chain).trans ?_
    refine (perm.append_right _).trans ?_
    rw [append_assoc]
    exact ((stored_bucket index mem).symm.trans holds.stored).append_left _

theorem Holds.bucketOf_le (holds : Holds index tuples) (hashkey : Nat) :
    index.bucketOf hashkey ≤ index.metap.maxbucket := by
  obtain ⟨_, masks⟩ := holds.masks
  exact masks.bucket_le hashkey

theorem Holds.insert (holds : Holds index tuples) (itup : IndexTuple Tid) :
    Holds (index.insert itup) (itup :: tuples) :=
  holds.edit (holds.bucketOf_le itup.hashkey)
    (insertPages_ordered itup (holds.ordered _ (holds.bucketOf_le itup.hashkey))) [itup] (insertPages_perm ..)
    (forall_mem_singleton.mpr rfl) _

theorem Holds.squeeze (holds : Holds index tuples)
    (ascends : bucket ≤ index.metap.maxbucket → (index.bucket bucket).Ascends) :
    Holds (index.squeeze bucket) tuples := by
  unfold HashIndex.squeeze
  split
  · next mem =>
    exact holds.edit mem (hashSqueezebucket_ordered (holds.ordered bucket mem) (ascends mem)) []
      (hashSqueezebucket_perm _) (nofun) index.metap.ntuples
  · exact holds

/-- The hash keys that belong to the new bucket after a split. -/
def HashIndex.moves (index : HashIndex Tid) (itup : IndexTuple Tid) : Bool :=
  hashHashkey2bucket itup.hashkey index.metap.grow = index.metap.maxbucket + 1

theorem split_halves (ordered : (index.bucket index.oldBucket).Ordered)
    (ascends : (index.bucket index.oldBucket).Ascends) : ∃ old new,
      index.split = ⟨index.metap.grow, update (update index.bucket index.oldBucket old)
        (index.metap.maxbucket + 1) new⟩ ∧
      old.Ordered ∧ old.tuples.Perm ((index.bucket index.oldBucket).tuples.filter fun itup => ! index.moves itup) ∧
      new.Ordered ∧ new.tuples = (index.bucket index.oldBucket).tuples.filter index.moves := by
  obtain ⟨kept, moved⟩ := hashSplitbucket_eq index.moves (index.bucket index.oldBucket)
  refine ⟨_, _, rfl, ?_, ?_, ?_, moved⟩
  · show BucketChain.Ordered (hashSplitbucket index.moves (index.bucket index.oldBucket)).1
    rw [kept]
    exact hashSqueezebucket_ordered (ordered.filter _) (ascends.filter _)
  · show (BucketChain.tuples (hashSplitbucket index.moves (index.bucket index.oldBucket)).1).Perm _
    rw [kept, ← BucketChain.filter_tuples]
    exact hashSqueezebucket_perm _
  · refine BucketChain.ordered_of_sorted ?_
    show Sorted IndexTuple.hashkey (hashSplitbucket index.moves (index.bucket index.oldBucket)).2.tuples
    rw [moved]
    exact List.Pairwise.filter _ (ascends.sorted ordered)

theorem grow_maxbucket (metap : HashMetaPage) : metap.grow.maxbucket = metap.maxbucket + 1 := by
  unfold HashMetaPage.grow
  dsimp only
  split <;> rfl

theorem Holds.split (holds : Holds index tuples) (ascends : (index.bucket index.oldBucket).Ascends) :
    Holds index.split tuples := by
  obtain ⟨log, masks⟩ := holds.masks
  obtain ⟨masks', moves⟩ := masks.grow
  have mem : index.oldBucket ≤ index.metap.maxbucket := masks.old_le
  obtain ⟨old, new, same, oldOrdered, kept, newOrdered, moved⟩ := split_halves (holds.ordered _ mem) ascends
  have apart : index.oldBucket ≠ index.metap.maxbucket + 1 := by omega
  rw [same]
  refine ⟨masks', fun bucket below => ?_, fun bucket below itup inside => ?_, ?_⟩
  · grind [grow_maxbucket, ordered]
  · simp only [grow_maxbucket] at below
    show hashHashkey2bucket itup.hashkey index.metap.grow = bucket
    by_cases isNew : bucket = index.metap.maxbucket + 1
    · simp only [isNew, update_self, moved] at inside
      rw [isNew]
      exact of_decide_eq_true (mem_filter.mp inside).2
    · by_cases isOld : bucket = index.oldBucket
      · simp only [isOld, update_of_ne apart, update_self] at inside
        obtain ⟨inside, stays⟩ := mem_filter.mp (kept.mem_iff.mp inside)
        rcases moves itup.hashkey with ⟨goes, -⟩ | stays'
        · simp [HashIndex.moves, goes] at stays
        · rw [stays', isOld]
          exact holds.placed _ mem itup inside
      · simp only [update_of_ne isNew, update_of_ne isOld] at inside
        have own := holds.placed bucket (by omega) itup inside
        rcases moves itup.hashkey with ⟨-, fromOld⟩ | stays
        · exact absurd (own.symm.trans fromOld) isOld
        · rw [stays]
          exact own
  · have others : (range (index.metap.maxbucket + 1)).flatMap (fun bucket => (update (update
        index.bucket index.oldBucket old) (index.metap.maxbucket + 1) new bucket).tuples) =
        (range (index.metap.maxbucket + 1)).flatMap fun bucket =>
          (update index.bucket index.oldBucket old bucket).tuples := by
      grind [flatMap_congr]
    have parts : ((index.bucket index.oldBucket).tuples.filter (fun itup => ! index.moves itup) ++
        (index.bucket index.oldBucket).tuples.filter index.moves).Perm (index.bucket index.oldBucket).tuples :=
      perm_append_comm.trans (filter_append_perm ..)
    unfold HashIndex.stored
    simp only [grow_maxbucket]
    rw [range_succ, flatMap_append, others, flatMap_singleton, update_self, moved]
    refine ((stored_update mem old).append_right _).trans ?_
    refine List.Perm.trans ?_ ((stored_bucket index mem).symm.trans holds.stored)
    refine ((kept.append_right _).append_right _).trans ?_
    rw [append_assoc]
    refine (perm_append_comm.append_left _).trans ?_
    rw [← append_assoc]
    exact parts.append_right _

theorem vacuumBucket_spec (callback : Tid → Bool) {bucket : BucketChain Tid} (ordered : bucket.Ordered)
    (ascends : (bucket.tuples.any fun itup => callback itup.tid) = true →
      (bucket.filter fun itup => ! callback itup.tid).Ascends) : (HashIndex.vacuumBucket callback bucket).Ordered ∧
      (HashIndex.vacuumBucket callback bucket).tuples.Perm (bucket.tuples.filter fun itup => ! callback itup.tid) := by
  unfold HashIndex.vacuumBucket
  split
  · grind [hashSqueezebucket_ordered, BucketChain.Ordered.filter, BucketChain.filter_tuples, hashSqueezebucket_perm]
  · next clean =>
    refine ⟨ordered, ?_⟩
    rw [filter_eq_self.mpr]
    grind

theorem Holds.bulkdelete (holds : Holds index tuples) (callback : Tid → Bool)
    (ascends : ∀ bucket < index.metap.maxbucket + 1,
      ((index.bucket bucket).tuples.any fun itup => callback itup.tid) = true →
        ((index.bucket bucket).filter fun itup => ! callback itup.tid).Ascends) :
    Holds (index.hashbulkdelete callback) (tuples.filter fun itup => ! callback itup.tid) := by
  have each (bucket : Nat) (below : bucket ≤ index.metap.maxbucket) :=
    vacuumBucket_spec callback (holds.ordered bucket below) (ascends bucket (Nat.lt_succ_of_le below))
  have replaced (bucket : Nat) (below : bucket ≤ index.metap.maxbucket) :
      (index.hashbulkdelete callback).bucket bucket = HashIndex.vacuumBucket callback (index.bucket bucket) :=
    if_pos below
  obtain ⟨log, low, high, most, least⟩ := holds.masks
  refine ⟨⟨log, low, high, most, least⟩, fun bucket below => ?_, fun bucket below itup inside => ?_, ?_⟩
  · rw [replaced bucket below]
    exact (each bucket below).1
  · rw [replaced bucket below] at inside
    exact holds.placed bucket below itup (mem_filter.mp ((each bucket below).2.mem_iff.mp inside)).1
  · refine List.Perm.trans ?_ (holds.stored.filter _)
    unfold HashIndex.stored
    rw [filter_flatMap]
    refine List.Perm.flatMap_left _ fun bucket inside => ?_
    have below : bucket ≤ index.metap.maxbucket := Nat.le_of_lt_succ (mem_range.mp inside)
    rw [replaced bucket below]
    exact (each bucket below).2

theorem Holds.step (holds : Holds index tuples) (event : Event Tid) (gentle : Gentle index event) :
    Holds (step index event) (contentsStep tuples event) := by
  cases event with
  | insert itup available =>
    unfold Hash.step contentsStep HashIndex.hashDoinsert
    by_cases large : itup.itemsz > hashMaxItemSize
    · simp only [if_pos large]
      exact holds
    · simp only [if_neg large]
      have inserted := holds.insert itup
      unfold HashIndex.hashExpandtable
      split
      · split
        · next splits =>
          split
          · next available => exact inserted.split (gentle (Nat.le_of_not_gt large) available splits)
          · exact inserted
        · exact inserted
      · exact inserted
  | bulkdelete callback => exact holds.bulkdelete callback gentle
  | squeeze bucket => exact holds.squeeze gentle

theorem Holds.scan (holds : Holds index tuples) (hashValue : Nat) (dir : ScanDirection) :
    ∃ found, index.scan hashValue dir = some found ∧ found.Perm (equal IndexTuple.hashkey hashValue tuples) := by
  have mem := holds.bucketOf_le hashValue
  obtain ⟨found, scanned, perm⟩ := hashScan_eq (holds.ordered _ mem) hashValue dir
  refine ⟨found, scanned, perm.trans ?_⟩
  have stored := ((stored_bucket index mem).symm.trans holds.stored).filter fun itup => itup.hashkey = hashValue
  refine List.Perm.trans ?_ stored
  have elsewhere : (((range (index.metap.maxbucket + 1)).erase (index.bucketOf hashValue)).flatMap fun other =>
      (index.bucket other).tuples).filter (fun itup => itup.hashkey = hashValue) = [] := by
    grind [filter_eq_nil_iff, nodup_range, placed]
  rw [filter_append, elsewhere, append_nil]
  exact .refl _

theorem hashMetapinit_holds (log ffactor : Nat) : Holds (hashMetapinit log ffactor : HashIndex Tid) [] := by
  have pos := Nat.two_pow_pos log
  have none : ∀ bucket, ((hashMetapinit log ffactor : HashIndex Tid).bucket bucket).tuples = [] := fun _ => rfl
  refine ⟨⟨log, rfl, rfl, ?_, ?_⟩, fun bucket _ => ?_, fun bucket _ itup inside => ?_, ?_⟩
  · simp only [hashMetapinit]
    omega
  · simp only [hashMetapinit, Nat.pow_succ]
    omega
  · exact forall_mem_singleton.mpr List.Pairwise.nil
  · rw [none] at inside
    cases inside
  · unfold HashIndex.stored
    simp only [none]
    simp

end Steps

/-- After every run in which buckets are squeezed and split only while their hash keys
ascend, every page is sorted, every tuple is in its bucket, and a scan in either
direction returns the tuples of its hash key that were inserted and not deleted. -/
theorem hash_index_scans (log ffactor : Nat) (events : List (Event Tid))
    (gentle : Meets step Gentle (hashMetapinit log ffactor) events) :
    let index := run step (hashMetapinit log ffactor) events
    (∀ bucket ≤ index.metap.maxbucket, (∀ page ∈ (index.bucket bucket).pages, page.Ordered) ∧
      ∀ itup ∈ (index.bucket bucket).tuples, index.bucketOf itup.hashkey = bucket) ∧
    ∀ hashValue dir, ∃ found, index.scan hashValue dir = some found ∧
      found.Perm ((run contentsStep [] events).filter fun itup => itup.hashkey = hashValue) := by
  intro index
  have holds : Holds index (run contentsStep [] events) :=
    gentle.simulates (hashMetapinit_holds log ffactor) fun index tuples event holds gentle => holds.step event gentle
  exact ⟨fun bucket below => ⟨holds.ordered bucket below, holds.placed bucket below⟩, holds.scan⟩

/-- Insertions of which the last one splits a bucket, a deletion and a squeeze. -/
def smallRun : List (Event Nat) :=
  (range 21).map (fun tid => .insert ⟨tid, tid, 16⟩ true) ++ [.bulkdelete (· == 3), .squeeze 0]

theorem hash_index_scans_small : Meets step Gentle (hashMetapinit 1 10) smallRun ∧
    ∀ dir, ∃ found, (run step (hashMetapinit 1 10) smallRun).scan 5 dir = some found ∧
      found.Perm ((run contentsStep [] smallRun).filter fun itup => itup.hashkey = 5) :=
  ⟨by decide +kernel, (hash_index_scans 1 10 smallRun (by decide +kernel)).2 5⟩

/-- The primary page is filled with tuples of one hash key, the next tuple has a smaller
one and gets an overflow page, and then a tuple is deleted from the primary page. -/
def overfilled : List (Event Nat) :=
  (range 407).map (fun tid => .insert ⟨4, tid + 1, 16⟩ true) ++ [.insert ⟨2, 0, 16⟩ true, .bulkdelete (· == 1)]

/-- The squeeze puts the tuple behind greater hash keys, and no scan finds it. -/
theorem hash_index_loses_tuple : ∃ index : HashIndex Nat, index = run step (hashMetapinit 1 307) overfilled ∧
    ¬ (index.bucket 0).primary.Ordered ∧ ⟨2, 0, 16⟩ ∈ run contentsStep [] overfilled ∧
    ⟨2, 0, 16⟩ ∈ (index.bucket (index.bucketOf 2)).tuples ∧
    index.scan 2 .forward = some [] ∧ index.scan 2 .backward = some [] := by
  refine ⟨_, rfl, ?_⟩
  decide +kernel

end BlockchainPG.Access.Hash
