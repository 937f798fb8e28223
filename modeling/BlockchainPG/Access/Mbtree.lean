import BlockchainPG.Lib.CharArray
import BlockchainPG.Libpq.Protocol3
import BlockchainPG.Mbt.RangeQuery
import BlockchainPG.Vo.ChildMaps

/-! The index access method over the tree, `mbtgettuple`. -/

namespace BlockchainPG.Access

open Lib Mbt Vo Libpq List

/-- The loop of `AuthRangeQuery` over neighbours: an address is dropped when the next one has the same offset number. -/
def dropRepeats : List ItemPointerData → List ItemPointerData
  | tid :: next :: rest =>
    if tid.ipPosid ≠ next.ipPosid then tid :: dropRepeats (next :: rest) else dropRepeats (next :: rest)
  | _ => []

/-- The part of `AuthRangeQuery` behind the range query. Without any result the entry in front
of the array would be read. -/
def itemdataOf (result : List ItemPointerData) : Option (List ItemPointerData) := do
  let last ← result.getLast?
  return dropRepeats result ++ if last.ipPosid < 100 then [last] else []

/-- `AuthRangeQuery`: the verification object and its `itemdata`. -/
def authRangeQuery (t : BplusTree) (start stop : Int) (vo : Rangevo) : Option (Rangevo × List ItemPointerData) := do
  let (vo, result, _) ← bplusTreeGetRangeDiskVo t start stop vo
  let itemdata ← itemdataOf result
  return (vo, itemdata)

/-- `hashp` and `temp_node_id`, which belong to the process: `mbtbuild` replaces them and `set_node_id` fills them,
whichever index it is for. -/
structure SharedMaps where
  hashp : Nat → Hashmap
  tempNodeId : Nat → Nat → Int

def SharedMaps.text (maps : SharedMaps) : Option (List Char) := hashmapSerialize maps.hashp maps.tempNodeId

/-- A text written to cleared memory; nothing if it runs over the end. -/
def fillBuffer (size : Nat) (text : List Char) : Option { buffer : List Char // buffer.length = size } :=
  if fits : text.length ≤ size then
    some ⟨text ++ replicate (size - text.length) '\x00', by rw [length_append, length_replicate]; omega⟩
  else none

/-- What `mbtgettuple` returns. -/
structure Pgvo where
  vo : Rangevo
  itemdata : List ItemPointerData
  hashmap : List Char
  mbtreeSize : Nat
  sized : hashmap.length = mbtreeSize * DEFAULTSIZE

/-- `mbtgettuple` on the tree of the index. The sizes are of type `int`, and no memory is found for a
negative one; `hashmap_serialize` may follow a null pointer or run over `hashmap`. -/
def mbtgettuple (t : BplusTree) (left right : Int) (maps : SharedMaps) (memory : Rangevo) : Option Pgvo :=
  let sizes := wrapSigned 4 (right - left + 1)
  let hashmapSize := wrapSigned 4 ((sizes.tdiv 400 + 1) * 8192)
  let mbtreeSize := (hashmapSize.tdiv 8192).toNat
  if hashmapSize < 0 then none
  else do
    let text ← maps.text
    let ⟨hashmap, sized⟩ ← fillBuffer (mbtreeSize * DEFAULTSIZE) text
    let (vo, itemdata) ← authRangeQuery t left right (rangevoInit memory)
    return { vo, itemdata, hashmap, mbtreeSize, sized }

theorem dropRepeats_eq (ne : (tids.map ItemPointerData.ipPosid).IsChain (· ≠ ·)) :
    dropRepeats tids = tids.dropLast := by
  induction tids with
  | nil => rfl
  | cons tid rest ih =>
    cases rest with
    | nil => rfl
    | cons next rest =>
      obtain ⟨other, others⟩ := isChain_cons_cons.mp ne
      rw [dropRepeats, if_pos other, ih others]
      rfl

theorem dropRepeats_sublist (tids : List ItemPointerData) : (dropRepeats tids).Sublist tids.dropLast := by
  induction tids with
  | nil => exact .slnil
  | cons tid rest ih =>
    cases rest with
    | nil => exact .slnil
    | cons next rest =>
      rw [dropRepeats, dropLast_cons_cons]
      split
      · exact ih.cons_cons tid
      · exact ih.cons tid

theorem different_of_dropRepeats (all : dropRepeats tids = tids.dropLast) :
    (tids.map ItemPointerData.ipPosid).IsChain (· ≠ ·) := by
  induction tids with
  | nil => exact .nil
  | cons tid rest ih =>
    cases rest with
    | nil => exact .singleton _
    | cons next rest =>
      rw [dropRepeats, dropLast_cons_cons] at all
      split at all
      next other => exact isChain_cons_cons.mpr ⟨other, ih (List.cons.inj all).2⟩
      next same =>
        have shorter := (dropRepeats_sublist (next :: rest)).length_le
        rw [all, length_cons] at shorter
        omega

theorem itemdataOf_eq_iff (tids : List ItemPointerData) : itemdataOf tids = some tids ↔
    tids ≠ [] ∧ (tids.map ItemPointerData.ipPosid).IsChain (· ≠ ·) ∧ ∀ last ∈ tids.getLast?, last.ipPosid < 100 := by
  refine ⟨fun complete => ?_, fun ⟨nonempty, ne, low⟩ => ?_⟩
  · obtain ⟨last, found, complete⟩ := Option.bind_eq_some_iff.mp complete
    have nonempty : tids ≠ [] := fun none => by simp [none] at found
    obtain rfl : tids.getLast nonempty = last := by simpa [getLast?_eq_some_getLast nonempty] using found
    rw [Option.pure_def, Option.some.injEq] at complete
    have whole := dropLast_append_getLast nonempty
    have sizes := congrArg List.length complete
    have total := congrArg List.length whole
    have fewer := dropRepeats_sublist tids
    rw [length_append] at sizes total
    by_cases low : (tids.getLast nonempty).ipPosid < 100
    · rw [if_pos low] at sizes
      refine ⟨nonempty, different_of_dropRepeats (fewer.eq_of_length (by omega)), fun last own => ?_⟩
      rwa [Option.some.inj (found.symm.trans own)] at low
    · rw [if_neg low, length_nil] at sizes
      rw [length_singleton] at total
      have := fewer.length_le
      omega
  · have last := getLast?_eq_some_getLast nonempty
    simp only [itemdataOf, last, Option.bind_eq_bind, Option.bind_some, dropRepeats_eq ne,
      if_pos (low _ last), dropLast_append_getLast]
    rfl

/-- `itemdata` is all that was found just if something was found, no neighbours have the same offset number and
the last offset number is below 100. -/
theorem authRangeQuery_complete_iff (t : BplusTree) (start stop : Int) (vo : Rangevo) (tids : List ItemPointerData) :
    authRangeQuery t start stop vo =
      (bplusTreeGetRangeDiskVo t start stop vo).bind (fun (vo, result, _) => (itemdataOf result).map (vo, ·)) ∧
    (itemdataOf tids = some tids ↔
      tids ≠ [] ∧ (tids.map ItemPointerData.ipPosid).IsChain (· ≠ ·) ∧ ∀ last ∈ tids.getLast?, last.ipPosid < 100) := by
  refine ⟨?_, itemdataOf_eq_iff tids⟩
  simp only [authRangeQuery, Option.bind_eq_bind]
  rcases bplusTreeGetRangeDiskVo t start stop vo with _ | ⟨vo, result, keys⟩
  · rfl
  · cases found : itemdataOf result <;> simp [found]

/-- Of two rows with the same offset number on different pages only the second is left. -/
theorem itemdataOf_drops : itemdataOf [⟨0, 1, 7⟩, ⟨0, 2, 7⟩] = some [⟨0, 2, 7⟩] := by
  rfl

theorem mbtgettuple_itemdata (opens : mbtgettuple t lo hi maps memory = some myvo) :
    ∃ vo, authRangeQuery t lo hi (rangevoInit memory) = some (vo, myvo.itemdata) := by
  simp only [mbtgettuple, Option.bind_eq_bind] at opens
  split at opens
  · exact nomatch opens
  · obtain ⟨text, _, opens⟩ := Option.bind_eq_some_iff.mp opens
    obtain ⟨buffer, _, opens⟩ := Option.bind_eq_some_iff.mp opens
    obtain ⟨⟨vo, itemdata⟩, found, opens⟩ := Option.bind_eq_some_iff.mp opens
    obtain rfl := Option.some.inj opens
    exact ⟨vo, found⟩

end BlockchainPG.Access
