import BlockchainPG.Lib.Runs
import BlockchainPG.Vo.ChildMaps

/-! The chained hash map of `hashmap.c` as a finite map. -/

namespace BlockchainPG.Vo.Hashing

open Lib Function

/-- `get_bucket`: the remainder of the key becomes a `size_t`. -/
def bucketOf (numBuckets : Nat) (key : BitVec 64) : Nat := myhash key.toInt % numBuckets

/-- A value is a pointer, `none` is `NULL`. -/
abbrev Table (α : Type) := Buckets (BitVec 64) (Option α)

/-- The calls of the three functions. -/
inductive Call (α : Type) where
  | set (key : BitVec 64) (value : Option α)
  | get (key : BitVec 64)
  | delete (key : BitVec 64)
deriving DecidableEq

variable {α : Type}

def hashmapSet (numBuckets : Nat) (hashmap : Table α) (key : BitVec 64) (value : Option α) : Table α :=
  hashmap.set (bucketOf numBuckets) key value

def hashmapGet (numBuckets : Nat) (hashmap : Table α) (key : BitVec 64) : Option α :=
  match hashmap.get (bucketOf numBuckets) key with
  | some value => value
  | none => none

/-- `hashmap_delete` returns the value and does not change `size`. -/
def hashmapDelete (numBuckets : Nat) (hashmap : Table α) (key : BitVec 64) : Option α × Table α :=
  match hashmap.get (bucketOf numBuckets) key with
  | some value => (value, hashmap.delete (bucketOf numBuckets) key)
  | none => (none, hashmap)

def step (numBuckets : Nat) (hashmap : Table α) : Call α → Table α
  | .set key value => hashmapSet numBuckets hashmap key value
  | .get _ => hashmap
  | .delete key => (hashmapDelete numBuckets hashmap key).2

/-- What a call returns; `hashmap_set` returns no pointer. -/
def reply (numBuckets : Nat) (hashmap : Table α) : Call α → Option α
  | .set _ _ => none
  | .get key => hashmapGet numBuckets hashmap key
  | .delete key => (hashmapDelete numBuckets hashmap key).1

/-- A finite map under the same calls. -/
abbrev FiniteMap (α : Type) := BitVec 64 → Option (Option α)

def FiniteMap.step (map : FiniteMap α) : Call α → FiniteMap α
  | .set key value => update map key (some value)
  | .get _ => map
  | .delete key => update map key none

def FiniteMap.reply (map : FiniteMap α) : Call α → Option α
  | .set _ _ => none
  | .get key => (map key).join
  | .delete key => (map key).join

def FiniteMap.NothingRemoved (map : FiniteMap α) (call : Call α) : Prop :=
  ∀ key, call = .delete key → map key = none

/-- The table has the pairs of the map, one pair for each key. -/
structure Stores (numBuckets : Nat) (hashmap : Table α) (map : FiniteMap α) : Prop where
  distinct : hashmap.Distinct
  pairs : hashmap.get (bucketOf numBuckets) = map

theorem Stores.empty (numBuckets : Nat) : Stores numBuckets (Buckets.empty : Table α) fun _ => none :=
  ⟨fun _ => List.nodup_nil, rfl⟩

theorem Stores.step (stores : Stores numBuckets hashmap map) (call : Call α) :
    Stores numBuckets (Hashing.step numBuckets hashmap call) (FiniteMap.step map call) := by
  obtain ⟨distinct, rfl⟩ := stores
  cases call with
  | set key value =>
    refine ⟨distinct.set key value, funext fun other => ?_⟩
    exact (Buckets.get_set key other value).trans (update_apply ..).symm
  | get key => exact ⟨distinct, rfl⟩
  | delete key =>
    simp only [Hashing.step, hashmapDelete, FiniteMap.step]
    constructor <;> grind [Buckets.Distinct.delete, Buckets.get_delete]

theorem Stores.reply (stores : Stores numBuckets hashmap map) (call : Call α) :
    Hashing.reply numBuckets hashmap call = FiniteMap.reply map call := by
  obtain ⟨-, rfl⟩ := stores
  cases call with
  | set key value => rfl
  | get key =>
    grind [reply, hashmapGet, FiniteMap.reply]
  | delete key =>
    grind [reply, hashmapDelete, FiniteMap.reply]

/-- The size is the number of the keys and of those that were removed. -/
def Exceeds (numBuckets : Nat) (hashmap : Table α) (removed : Nat) : Prop :=
  ∃ keys : List (BitVec 64), keys.Nodup ∧ (∀ key, key ∈ keys ↔ hashmap.get (bucketOf numBuckets) key ≠ none) ∧
    hashmap.size = keys.length + removed

theorem Exceeds.counts_iff (exceeds : Exceeds numBuckets hashmap removed) :
    hashmap.Counts (bucketOf numBuckets) ↔ removed = 0 := by
  obtain ⟨keys, nodup, keysOf, size⟩ := exceeds
  constructor
  · intro counts
    have same := counts.length_eq nodup keysOf
    omega
  · rintro rfl
    exact ⟨keys, nodup, keysOf, size⟩

theorem Exceeds.set (exceeds : Exceeds numBuckets hashmap removed) (key : BitVec 64) (value : Option α) :
    Exceeds numBuckets (hashmapSet numBuckets hashmap key value) removed := by
  obtain ⟨keys, nodup, keysOf, size⟩ := exceeds
  obtain ⟨keys', nodup', keysOf', grown⟩ := Buckets.keys_set nodup keysOf key value
  exact ⟨keys', nodup', keysOf', by rw [hashmapSet]; omega⟩

theorem Exceeds.delete (exceeds : Exceeds numBuckets hashmap removed) (distinct : hashmap.Distinct)
    (present : hashmap.get (bucketOf numBuckets) key ≠ none) :
    Exceeds numBuckets (hashmap.delete (bucketOf numBuckets) key) (removed + 1) := by
  obtain ⟨keys, nodup, keysOf, size⟩ := exceeds
  have own : key ∈ keys := (keysOf key).mpr present
  refine ⟨keys.erase key, nodup.erase key, fun other => ?_, ?_⟩
  · grind [Buckets.get_delete]
  · have shorter := List.length_erase_of_mem own
    have pos := List.length_pos_of_mem own
    show hashmap.size = _
    omega

theorem Exceeds.run_iff (exceeds : Exceeds numBuckets hashmap removed) (stores : Stores numBuckets hashmap map)
    (calls : List (Call α)) : (run (step numBuckets) hashmap calls).Counts (bucketOf numBuckets) ↔
      removed = 0 ∧ Meets FiniteMap.step FiniteMap.NothingRemoved map calls := by
  induction calls generalizing hashmap map removed with
  | nil => exact exceeds.counts_iff.trans (and_iff_left trivial).symm
  | cons call rest ih =>
    have after := stores.step call
    cases call with
    | set key value =>
      refine (ih (exceeds.set key value) after).trans ?_
      simp [Meets, FiniteMap.NothingRemoved]
    | get key =>
      refine (ih exceeds after).trans ?_
      simp [Meets, FiniteMap.NothingRemoved]
    | delete key =>
      have condition : FiniteMap.NothingRemoved map (.delete key) ↔ map key = none := by
        simp [FiniteMap.NothingRemoved]
      rw [Meets, condition, ← stores.pairs]
      rw [← stores.pairs] at after
      cases present : hashmap.get (bucketOf numBuckets) key with
      | none =>
        have same : Hashing.step numBuckets hashmap (.delete key) = hashmap := by
          simp [Hashing.step, hashmapDelete, present]
        refine (ih (same.symm ▸ exceeds) after).trans ?_
        simp
      | some value =>
        have shrunk : Hashing.step numBuckets hashmap (.delete key) = hashmap.delete (bucketOf numBuckets) key := by
          simp [Hashing.step, hashmapDelete, present]
        have more : Exceeds numBuckets (hashmap.delete (bucketOf numBuckets) key) (removed + 1) :=
          exceeds.delete stores.distinct (by simp [present])
        refine (ih (shrunk.symm ▸ more) after).trans ?_
        simp

/-- The calls answer as those of a finite map do. The size is the number of keys just as long as no call has
removed one. -/
theorem hashmap_calls_iff (numBuckets : Nat) (calls : List (Call α)) :
    answers (step numBuckets) (reply numBuckets) (Buckets.empty : Table α) calls =
        answers FiniteMap.step FiniteMap.reply (fun _ => none) calls ∧
      ((run (step numBuckets) (Buckets.empty : Table α) calls).Counts (bucketOf numBuckets) ↔
        Meets FiniteMap.step FiniteMap.NothingRemoved (fun _ => none) calls) := by
  constructor
  · exact answers_eq (Stores.empty numBuckets) (fun _ _ call stores => stores.step call)
      (fun _ _ call stores => stores.reply call) calls
  · have start : Exceeds numBuckets (Buckets.empty : Table α) 0 := ⟨[], List.nodup_nil, by simp, rfl⟩
    exact (start.run_iff (Stores.empty numBuckets) calls).trans (and_iff_right rfl)

/-- After a key is set and deleted the size is 1, and there is no key. -/
theorem size_after_delete : let hashmap := run (step 16) (Buckets.empty : Table Nat) [.set 5 (some 7), .delete 5]
    hashmap.size = 1 ∧ ∀ bucket, hashmap.buckets bucket = [] := by
  refine ⟨by decide, fun bucket => ?_⟩
  simp [run, step, hashmapSet, hashmapDelete, Buckets.set, Buckets.delete, Buckets.get, Buckets.empty, chainSet,
    chainErase]

end BlockchainPG.Vo.Hashing
