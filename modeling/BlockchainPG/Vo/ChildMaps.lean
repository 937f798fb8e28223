import BlockchainPG.Lib.Buckets
import BlockchainPG.Vo.Object

/-! The maps of children, as they are written and read. -/

namespace BlockchainPG.Vo

open Lib Mbt Function List

def NUM_BUCKETS : Nat := 16

/-- The columns of `temp_node_id`. -/
def NODE_IDS : Nat := 500

/-- `myhash`: the remainder, as a `size_t`. -/
def myhash (key : Int) : Nat := (BitVec.ofInt 64 (key.tmod 10000000)).toNat

def getBucket (key : Int) : Nat := myhash key % NUM_BUCKETS

abbrev Hashmap := Buckets Int (List Int)

def hashmapNew : Hashmap := Buckets.empty

def hashmapSet (hashmap : Hashmap) (key : Int) (value : List Int) : Hashmap := hashmap.set getBucket key value

def hashmapGet (hashmap : Hashmap) (key : Int) : Option (List Int) := hashmap.get getBucket key

/-- The maps that `hashmap_new` and `hashmap_set` make. -/
inductive Made : Hashmap → Prop where
  | new : Made hashmapNew
  | set (made : Made hashmap) (key : Int) (value : List Int) : Made (hashmapSet hashmap key value)

theorem Made.counts (made : Made hashmap) : hashmap.Counts getBucket := by
  induction made with
  | new => exact Buckets.counts_empty
  | set _ key value ih =>
    obtain ⟨keys, nodup, keysOf, size⟩ := ih
    obtain ⟨keys', nodup', keysOf', grown⟩ := Buckets.keys_set nodup keysOf key value
    exact ⟨keys', nodup', keysOf', by rw [hashmapSet]; omega⟩

def childrenBytes (index : Int) (children : List Int) : List Char :=
  signedBytes 8 index ++ (wordBytes 8 children.length ++ children.flatMap (signedBytes 8))

/-- One turn of the inner loop of `hashmap_serialize`. A flagged id without a
pair is a null pointer that is followed. -/
def idSerialize (hp : Hashmap) (flags : Nat → Int) (j : Nat) : Option (List Char) :=
  if flags j = 0 then return []
  else do
    let pv ← hashmapGet hp j
    return childrenBytes j pv

def levelSerialize (hp : Hashmap) (flags : Nat → Int) : Option (List Char) :=
  if hp.size > 0 then do
    let pairs ← (range NODE_IDS).mapM (idSerialize hp flags)
    return signedBytes 8 hp.size ++ pairs.flatten
  else
    return signedBytes 8 hp.size

/-- `hashmap_serialize` of the server. -/
def hashmapSerialize (hashp : Nat → Hashmap) (tempNodeId : Nat → Nat → Int) : Option (List Char) := do
  let levels ← (range BPLUS_MAX_LEVEL).mapM fun i => levelSerialize (hashp i) (tempNodeId i)
  return levels.flatten

def readChildren (hashmap : Hashmap) : Reader Hashmap := do
  let key ← readSigned 8
  let vSize ← readWord 8
  let pv ← times vSize (fun pv => do let value ← readSigned 8; return pv ++ [value]) []
  return hashmapSet hashmap key pv

def readLevel (hashp : Nat → Hashmap) (i : Nat) : Reader (Nat → Hashmap) := do
  let hpSize ← readSigned 8
  let hashmap ← times hpSize.toNat readChildren (hashp i)
  return update hashp i hashmap

/-- `hashmap_deserialize` of the client. -/
def hashmapDeserialize (hashp : Nat → Hashmap) : Reader (Nat → Hashmap) :=
  (range BPLUS_MAX_LEVEL).foldlM readLevel hashp

def flaggedIds (flags : Nat → Int) : List Int := ((range NODE_IDS).filter (flags · ≠ 0)).map Int.ofNat

/-- The flagged ids of a level are the keys of its map, and children are `int64_t`. -/
structure Consistent (hp : Hashmap) (flags : Nat → Int) : Prop where
  made : Made hp
  keys : ∀ key, hashmapGet hp key ≠ none ↔ ∃ j : Nat, j < NODE_IDS ∧ flags j ≠ 0 ∧ key = j
  children : ∀ key pv, hashmapGet hp key = some pv → pv.length < 256 ^ 8 ∧ ∀ child ∈ pv, FitsSigned 8 child

theorem mapM_eq_map {f : α → Option β} {g : α → β} {list : List α} (each : ∀ a ∈ list, f a = some (g a)) :
    list.mapM f = some (list.map g) := by
  induction list with
  | nil => rfl
  | cons a list ih =>
    grind

theorem flatten_map_ite {p : α → Prop} [DecidablePred p] (f : α → List β) (list : List α) :
    (list.map fun a => if p a then f a else []).flatten = (list.filter (p ·)).flatMap f := by
  induction list with
  | nil => rfl
  | cons a list ih => by_cases holds : p a <;> simp [holds, ih]

theorem mem_flaggedIds : key ∈ flaggedIds flags ↔ ∃ j : Nat, j < NODE_IDS ∧ flags j ≠ 0 ∧ key = j := by
  grind [flaggedIds]

theorem flaggedIds_nodup : (flaggedIds flags).Nodup :=
  (nodup_range.filter _).map fun _ _ same => Int.ofNat.inj same

namespace Consistent

variable {hp : Hashmap} {flags : Nat → Int}

/-- The children of a key; only asked for flagged ones. -/
def childrenOf (hp : Hashmap) (key : Int) : List Int := (hashmapGet hp key).getD []

section

variable (consistent : Consistent hp flags)
include consistent

theorem mem_iff (key : Int) : key ∈ flaggedIds flags ↔ hashmapGet hp key ≠ none := by
  rw [mem_flaggedIds, consistent.keys]

theorem get_eq (own : key ∈ flaggedIds flags) : hashmapGet hp key = some (childrenOf hp key) := by
  obtain ⟨pv, found⟩ := Option.ne_none_iff_exists'.mp ((consistent.mem_iff key).mp own)
  simp [childrenOf, found]

theorem size_eq : (flaggedIds flags).length = hp.size :=
  consistent.made.counts.length_eq flaggedIds_nodup consistent.mem_iff

theorem idSerialize_eq (below : j < NODE_IDS) :
    idSerialize hp flags j = some (if flags j ≠ 0 then childrenBytes j (childrenOf hp j) else []) := by
  grind [idSerialize, mem_flaggedIds, get_eq]

theorem levelSerialize_eq : levelSerialize hp flags =
      some (signedBytes 8 hp.size ++ (flaggedIds flags).flatMap fun key => childrenBytes key (childrenOf hp key)) := by
  have pairs := mapM_eq_map fun j own => consistent.idSerialize_eq (mem_range.mp own)
  by_cases filled : hp.size > 0
  · simp only [levelSerialize, filled, ↓reduceIte, pairs, flaggedIds, flatMap_map]
    rw [Option.bind_eq_bind, Option.bind_some, flatten_map_ite]
    rfl
  · have none : flaggedIds flags = [] := length_eq_zero_iff.mp (by rw [consistent.size_eq]; omega)
    simp [levelSerialize, filled, none]

theorem reads_children (own : key ∈ flaggedIds flags) (hashmap : Hashmap) :
    Reads (readChildren hashmap) (childrenBytes key (childrenOf hp key))
      (hashmapSet hashmap key (childrenOf hp key)) := by
  obtain ⟨size, fits⟩ := consistent.children key _ (consistent.get_eq own)
  obtain ⟨j, below, -, rfl⟩ := mem_flaggedIds.mp own
  have small : FitsSigned 8 (j : Int) := by
    have bound : j < 500 := below
    exact ⟨by omega, by omega⟩
  have pv := Reads.pushes (fun child own => Reads.signed (by decide) (fits child own)) []
  exact (Reads.signed (by decide) small).bind ((Reads.word size).bind (pv.andReturn fun pv => hashmapSet hashmap j pv))

def readMap (hp : Hashmap) (flags : Nat → Int) : Hashmap :=
  (flaggedIds flags).foldl (fun hashmap key => hashmapSet hashmap key (childrenOf hp key)) hashmapNew

theorem reads_level (hashp : Nat → Hashmap) (i : Nat) (fresh : hashp i = hashmapNew) : Reads (readLevel hashp i)
      (signedBytes 8 hp.size ++ (flaggedIds flags).flatMap fun key => childrenBytes key (childrenOf hp key))
      (update hashp i (readMap hp flags)) := by
  have bound : (flaggedIds flags).length ≤ 500 := by
    rw [flaggedIds, length_map]
    exact (length_filter_le _ _).trans (length_range).le
  have small : FitsSigned 8 (hp.size : Int) := by
    rw [consistent.size_eq] at bound
    exact ⟨by omega, by omega⟩
  have pairs := Reads.items (fun hashmap key own => consistent.reads_children own hashmap) hashmapNew
  rw [consistent.size_eq] at pairs
  rw [readLevel, fresh]
  exact (Reads.signed (by decide) small).bind (pairs.andReturn fun hashmap => update hashp i hashmap)

theorem get_readMap (key : Int) : hashmapGet (readMap hp flags) key = hashmapGet hp key := by
  refine (Buckets.get_foldl_set (flaggedIds flags) (childrenOf hp) flaggedIds_nodup key).trans ?_
  by_cases own : key ∈ flaggedIds flags
  · rw [if_pos own, consistent.get_eq own]
  · rw [if_neg own]
    have missing := mt (consistent.mem_iff key).mpr own
    rw [not_not.mp missing]
    rfl

end

end Consistent

/-- The client's maps answer as the server's do, and the client stops behind the last byte. -/
theorem hashmapDeserialize_hashmapSerialize (hashp : Nat → Hashmap) (tempNodeId : Nat → Nat → Int)
    (consistent : ∀ i < BPLUS_MAX_LEVEL, Consistent (hashp i) (tempNodeId i)) :
    ∃ bytes maps, hashmapSerialize hashp tempNodeId = some bytes ∧
      Reads (hashmapDeserialize fun _ => hashmapNew) bytes maps ∧
      ∀ i < BPLUS_MAX_LEVEL, ∀ key, hashmapGet (maps i) key = hashmapGet (hashp i) key := by
  have levels := mapM_eq_map fun i own => (consistent i (mem_range.mp own)).levelSerialize_eq
  have read : Reads (hashmapDeserialize fun _ => hashmapNew) _
      (overwrite (fun i => Consistent.readMap (hashp i) (tempNodeId i)) (fun _ => hashmapNew) BPLUS_MAX_LEVEL) :=
    Reads.fills fun i below array fresh => (consistent i below).reads_level array i fresh
  refine ⟨_, _, ?_, read, fun i below key => ?_⟩
  · rw [hashmapSerialize, levels]
    rfl
  · rw [overwrite, if_pos below]
    exact (consistent i below).get_readMap key

def rootMap (i : Nat) : Hashmap := if i = 1 then hashmapSet hashmapNew 0 [0, 1] else hashmapNew

def rootFlags (i j : Nat) : Int := if i = 1 ∧ j = 0 then 1 else 0

theorem hashmapDeserialize_hashmapSerialize_rootMap : (∀ i < BPLUS_MAX_LEVEL, Consistent (rootMap i) (rootFlags i)) ∧
    ∃ bytes maps, hashmapSerialize rootMap rootFlags = some bytes ∧
      Reads (hashmapDeserialize fun _ => hashmapNew) bytes maps ∧
      ∀ i < BPLUS_MAX_LEVEL, ∀ key, hashmapGet (maps i) key = hashmapGet (rootMap i) key := by
  have consistent : ∀ i < BPLUS_MAX_LEVEL, Consistent (rootMap i) (rootFlags i) := fun i _ => by
    by_cases one : i = 1
    · subst one
      refine ⟨.set .new 0 [0, 1], fun key => ?_, fun key pv found => ?_⟩
      · by_cases zero : key = 0 <;> simp [rootMap, rootFlags, hashmapGet, hashmapSet, hashmapNew, NODE_IDS, zero]
      · by_cases zero : key = 0
        · simp [rootMap, hashmapGet, hashmapSet, zero] at found
          subst found
          decide
        · simp [rootMap, hashmapGet, hashmapSet, hashmapNew, zero] at found
    · refine ⟨by rw [rootMap, if_neg one]; exact .new, fun key => ?_, fun key pv found => ?_⟩
      · simp [rootMap, rootFlags, one, hashmapGet, hashmapNew]
      · simp [rootMap, one, hashmapGet, hashmapNew] at found
  exact ⟨consistent, hashmapDeserialize_hashmapSerialize rootMap rootFlags consistent⟩

end BlockchainPG.Vo
