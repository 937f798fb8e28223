import Mathlib.Data.List.Nodup
import Mathlib.Data.List.Perm.Basic

/-! A table of chained buckets that counts the keys it was given. -/

namespace BlockchainPG.Lib

open Function List

structure Buckets (κ α : Type) where
  buckets : Nat → List (κ × α)
  size : Nat

variable {κ α : Type} [DecidableEq κ]

def chainSet : List (κ × α) → κ → α → List (κ × α)
  | [], key, value => [(key, value)]
  | pair :: rest, key, value =>
    if pair.1 = key then (pair.1, value) :: rest else pair :: chainSet rest key value

theorem lookup_pair (pair : κ × α) (rest : List (κ × α)) (key : κ) :
    (pair :: rest).lookup key = if key = pair.1 then some pair.2 else rest.lookup key := by
  obtain ⟨first, value⟩ := pair
  by_cases same : key = first
  · simp [same]
  · have apart : (key == first) = false := beq_false_of_ne same
    simp [lookup_cons, apart, same]

theorem lookup_chainSet (chain : List (κ × α)) (key other : κ) (value : α) :
    (chainSet chain key value).lookup other = if other = key then some value else chain.lookup other := by
  induction chain with
  | nil => rw [chainSet, lookup_pair]
  | cons pair rest ih =>
    by_cases hit : pair.1 = key
    · rw [chainSet, if_pos hit, lookup_pair, lookup_pair, ← hit]
      by_cases same : other = pair.1 <;> simp [same]
    · rw [chainSet, if_neg hit, lookup_pair, lookup_pair, ih]
      by_cases own : other = pair.1 <;> simp [own, hit]

def chainErase : List (κ × α) → κ → List (κ × α)
  | [], _ => []
  | pair :: rest, key => if pair.1 = key then rest else pair :: chainErase rest key

theorem lookup_eq_none_of_not_mem {chain : List (κ × α)} (absent : key ∉ chain.map Prod.fst) :
    chain.lookup key = none := by
  induction chain with
  | nil => rfl
  | cons pair rest ih =>
    rw [map_cons, mem_cons, not_or] at absent
    rw [lookup_pair, if_neg absent.1, ih absent.2]

theorem lookup_chainErase {chain : List (κ × α)} (distinct : (chain.map Prod.fst).Nodup) (key other : κ) :
    (chainErase chain key).lookup other = if other = key then none else chain.lookup other := by
  induction chain with
  | nil => simp [chainErase]
  | cons pair rest ih =>
    obtain ⟨fresh, distinct⟩ := nodup_cons.mp distinct
    by_cases hit : pair.1 = key
    · rw [chainErase, if_pos hit, lookup_pair, ← hit]
      by_cases same : other = pair.1
      · rw [if_pos same, same, lookup_eq_none_of_not_mem fresh]
      · rw [if_neg same, if_neg same]
    · rw [chainErase, if_neg hit, lookup_pair, lookup_pair, ih distinct]
      by_cases own : other = pair.1 <;> simp [own, hit]

theorem chainErase_sublist (chain : List (κ × α)) (key : κ) : (chainErase chain key).Sublist chain := by
  induction chain with
  | nil => exact .slnil
  | cons pair rest ih =>
    by_cases hit : pair.1 = key
    · rw [chainErase, if_pos hit]
      exact sublist_cons_self ..
    · rw [chainErase, if_neg hit]
      exact ih.cons_cons pair

theorem mem_keys_chainSet (chain : List (κ × α)) (key other : κ) (value : α) :
    other ∈ (chainSet chain key value).map Prod.fst ↔ other = key ∨ other ∈ chain.map Prod.fst := by
  induction chain with
  | nil => simp [chainSet]
  | cons pair rest ih =>
    by_cases hit : pair.1 = key
    · simp [chainSet, hit]
    · simp only [chainSet, if_neg hit, map_cons, mem_cons, ih]
      tauto

theorem nodup_keys_chainSet (distinct : (chain.map Prod.fst).Nodup) (key : κ) (value : α) :
    ((chainSet chain key value).map Prod.fst).Nodup := by
  induction chain with
  | nil => simp [chainSet]
  | cons pair rest ih =>
    obtain ⟨fresh, distinct⟩ := nodup_cons.mp distinct
    by_cases hit : pair.1 = key
    · rw [chainSet, if_pos hit]
      exact nodup_cons.mpr ⟨fresh, distinct⟩
    · rw [chainSet, if_neg hit]
      refine nodup_cons.mpr ⟨fun mem => ?_, ih distinct⟩
      exact ((mem_keys_chainSet ..).mp mem).elim hit fresh

namespace Buckets

variable {hash : κ → Nat} {table : Buckets κ α}

def empty : Buckets κ α := { buckets := fun _ => [], size := 0 }

def get (hash : κ → Nat) (table : Buckets κ α) (key : κ) : Option α := (table.buckets (hash key)).lookup key

def set (hash : κ → Nat) (table : Buckets κ α) (key : κ) (value : α) : Buckets κ α where
  buckets := update table.buckets (hash key) (chainSet (table.buckets (hash key)) key value)
  size := if (table.get hash key).isNone then table.size + 1 else table.size

/-- Takes the pair of a key out; the size stays. -/
def delete (hash : κ → Nat) (table : Buckets κ α) (key : κ) : Buckets κ α where
  buckets := update table.buckets (hash key) (chainErase (table.buckets (hash key)) key)
  size := table.size

/-- No chain has two pairs of one key. -/
def Distinct (table : Buckets κ α) : Prop := ∀ bucket, ((table.buckets bucket).map Prod.fst).Nodup

@[simp]
theorem get_empty (key : κ) : (empty : Buckets κ α).get hash key = none := rfl

@[simp]
theorem get_set (key other : κ) (value : α) :
    (table.set hash key value).get hash other = if other = key then some value else table.get hash other := by
  show List.lookup other (update table.buckets (hash key) _ (hash other)) = _
  by_cases bucket : hash other = hash key
  · rw [bucket, update_self, lookup_chainSet, get, bucket]
  · have apart : other ≠ key := fun same => bucket (congrArg hash same)
    rw [update_of_ne bucket, if_neg apart, get]

theorem get_delete (distinct : table.Distinct) (key other : κ) :
    (table.delete hash key).get hash other = if other = key then none else table.get hash other := by
  show List.lookup other (update table.buckets (hash key) _ (hash other)) = _
  by_cases bucket : hash other = hash key
  · rw [bucket, update_self, lookup_chainErase (distinct _), get, bucket]
  · have apart : other ≠ key := fun same => bucket (congrArg hash same)
    rw [update_of_ne bucket, if_neg apart, get]

omit [DecidableEq κ] in
theorem Distinct.edit (distinct : table.Distinct) (nodup : (chain.map Prod.fst).Nodup) (place : Nat) :
    Distinct { table with buckets := update table.buckets place chain } := by
  intro bucket
  show ((update table.buckets place chain bucket).map Prod.fst).Nodup
  by_cases here : bucket = place
  · subst here
    rwa [update_self]
  · rw [update_of_ne here]
    exact distinct bucket

theorem Distinct.set (distinct : table.Distinct) (key : κ) (value : α) : (table.set hash key value).Distinct :=
  distinct.edit (nodup_keys_chainSet (distinct _) key value) (hash key)

theorem Distinct.delete (distinct : table.Distinct) (key : κ) : (table.delete hash key).Distinct :=
  distinct.edit ((distinct _).sublist ((chainErase_sublist _ key).map _)) (hash key)

/-- The size of the table is the number of its keys. -/
def Counts (hash : κ → Nat) (table : Buckets κ α) : Prop :=
  ∃ keys : List κ, keys.Nodup ∧ (∀ key, key ∈ keys ↔ table.get hash key ≠ none) ∧ table.size = keys.length

theorem counts_empty : (empty : Buckets κ α).Counts hash := ⟨[], nodup_nil, by simp, rfl⟩

/-- A new key makes the table larger, and the value of an old one does not. -/
theorem keys_set {keys : List κ} (nodup : keys.Nodup) (keysOf : ∀ key, key ∈ keys ↔ table.get hash key ≠ none)
    (key : κ) (value : α) : ∃ keys' : List κ, keys'.Nodup ∧
      (∀ other, other ∈ keys' ↔ (table.set hash key value).get hash other ≠ none) ∧
      (table.set hash key value).size + keys.length = table.size + keys'.length := by
  cases present : table.get hash key with
  | none =>
    have fresh : key ∉ keys := fun own => (keysOf key).mp own present
    refine ⟨key :: keys, nodup.cons fresh, fun other => ?_, ?_⟩
    · by_cases same : other = key <;> simp [same, keysOf]
    · simp [Buckets.set, present]
      omega
  | some old =>
    refine ⟨keys, nodup, fun other => ?_, by simp [Buckets.set, present]⟩
    by_cases same : other = key
    · simp [same, keysOf, present]
    · simp [same, keysOf]

theorem Counts.length_eq {keys : List κ} (counts : table.Counts hash) (nodup : keys.Nodup)
    (keysOf : ∀ key, key ∈ keys ↔ table.get hash key ≠ none) : keys.length = table.size := by
  obtain ⟨own, ownNodup, ownKeys, size⟩ := counts
  have same : keys.Perm own := (perm_ext_iff_of_nodup nodup ownNodup).mpr fun key => by rw [keysOf, ownKeys]
  rw [size, same.length_eq]

/-- What a table answers after the pairs of a list were set one after the other. -/
theorem get_foldl_set (keys : List κ) (value : κ → α) (nodup : keys.Nodup) (key : κ) :
    (keys.foldl (fun table key => table.set hash key (value key)) table).get hash key =
      if key ∈ keys then some (value key) else table.get hash key := by
  induction keys generalizing table with
  | nil => simp
  | cons first rest ih =>
    rw [foldl_cons, ih nodup.of_cons]
    by_cases own : key ∈ rest
    · simp [own]
    · by_cases same : key = first <;> simp [own, same]

end Buckets

section Contents

variable {β : Type u} {γ : Type v} [DecidableEq β]

theorem flatMap_erase {indices : List β} (mem : index ∈ indices) (contents : β → List γ) :
    (indices.flatMap contents).Perm (contents index ++ (indices.erase index).flatMap contents) :=
  (perm_cons_erase mem).flatMap_right contents

theorem flatMap_update {indices : List β} (nodup : indices.Nodup) (mem : index ∈ indices) (contents : β → List γ)
    (bucket : List γ) : (indices.flatMap (update contents index bucket)).Perm
      (bucket ++ (indices.erase index).flatMap contents) := by
  have rest : (indices.erase index).flatMap (update contents index bucket) =
      (indices.erase index).flatMap contents := by
    refine flatMap_congr fun other inside => update_of_ne ?_ _ _
    exact (nodup.mem_erase_iff.mp inside).1
  refine (flatMap_erase mem _).trans ?_
  rw [update_self, rest]

end Contents

end BlockchainPG.Lib
