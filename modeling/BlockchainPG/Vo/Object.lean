import BlockchainPG.Lib.Codec
import BlockchainPG.Mbt.Tree

/-! The verification object, as the server writes it and the client reads it. -/

namespace BlockchainPG.Vo

open Lib Mbt Function

def DATA_SIZE : Nat := 32

/-- `nodevo`: a node on a border of the range and the hashes beside it. -/
structure Nodevo where
  nodeId : Int
  boundNodeChildno : Int
  nhash : List CString
deriving DecidableEq, Repr

/-- `rangevo`: what the client needs to recompute the root hash. -/
structure Rangevo where
  traverseHeight : Int
  leftvo : Nat → Nodevo
  rightvo : Nat → Nodevo
  data : List (List CString)

/-- `rangevo_init` on fresh memory, whose node ids hold anything. -/
def rangevoInit (memory : Rangevo) : Rangevo where
  traverseHeight := 0
  leftvo := fun level => { memory.leftvo level with nhash := [] }
  rightvo := fun level => { memory.rightvo level with nhash := [] }
  data := []

/-- `memcpy` of a hash slot without its last byte. -/
def slotBytes (hash : CString) : List Char := (hash ++ List.replicate DATA_SIZE '\x00').take DATA_SIZE

def stringBytes (string : CString) : List Char := wordBytes 8 string.length ++ string

def groupBytes (group : List CString) : List Char := wordBytes 8 group.length ++ group.flatMap stringBytes

def nodevoBytes (node : Nodevo) : List Char :=
  signedBytes 8 node.nodeId ++ (signedBytes 8 node.boundNodeChildno ++
    (wordBytes 8 node.nhash.length ++ node.nhash.flatMap slotBytes))

/-- `vo_serialize` of the server. -/
def voSerialize (vo : Rangevo) : List Char :=
  signedBytes 4 vo.traverseHeight ++ (wordBytes 8 vo.data.length ++ (vo.data.flatMap groupBytes ++
    ((List.range BPLUS_MAX_LEVEL).flatMap (fun i => nodevoBytes (vo.leftvo i)) ++
      (List.range BPLUS_MAX_LEVEL).flatMap (fun i => nodevoBytes (vo.rightvo i)))))

def readString : Reader CString := do
  let len ← readWord 8
  readText len

def readGroup : Reader (List CString) := do
  let dataSize1 ← readWord 8
  times dataSize1 (fun subpv => do let value ← readString; return subpv ++ [value]) []

/-- Reads one entry of `leftvo` or `rightvo`; the hashes are pushed behind those already there. -/
def readNodevo (nodes : Nat → Nodevo) (i : Nat) : Reader (Nat → Nodevo) := do
  let nodeId ← readSigned 8
  let boundNodeChildno ← readSigned 8
  let pvSize ← readWord 8
  let nhash ← times pvSize (fun nhash => do let value ← readText DATA_SIZE; return nhash ++ [value]) (nodes i).nhash
  return update nodes i { nodeId, boundNodeChildno, nhash }

/-- `vo_deserialize` of the client. -/
def voDeserialize (vo : Rangevo) : Reader Rangevo := do
  let traverseHeight ← readSigned 4
  let dataSize ← readWord 8
  let data ← times dataSize (fun data => do let subpv ← readGroup; return data ++ [subpv]) vo.data
  let leftvo ← (List.range BPLUS_MAX_LEVEL).foldlM readNodevo vo.leftvo
  let rightvo ← (List.range BPLUS_MAX_LEVEL).foldlM readNodevo vo.rightvo
  return { traverseHeight, leftvo, rightvo, data }

/-- The values that `int64_t`, `size_t` and 32-character hashes can have. -/
structure Nodevo.Fits (node : Nodevo) : Prop where
  nodeId : FitsSigned 8 node.nodeId
  boundNodeChildno : FitsSigned 8 node.boundNodeChildno
  size : node.nhash.length < 256 ^ 8
  hashes : ∀ hash ∈ node.nhash, hash.length = DATA_SIZE ∧ '\x00' ∉ hash

/-- The values that the fields of a `rangevo` can have, its boundary hashes being 32 characters long. -/
structure Rangevo.Fits (vo : Rangevo) : Prop where
  traverseHeight : FitsSigned 4 vo.traverseHeight
  size : vo.data.length < 256 ^ 8
  groups : ∀ group ∈ vo.data, group.length < 256 ^ 8 ∧ ∀ string ∈ group, string.length < 256 ^ 8 ∧ '\x00' ∉ string
  leftvo : ∀ i < BPLUS_MAX_LEVEL, (vo.leftvo i).Fits
  rightvo : ∀ i < BPLUS_MAX_LEVEL, (vo.rightvo i).Fits

theorem reads_string (small : string.length < 256 ^ 8) (clean : '\x00' ∉ string) :
    Reads readString (stringBytes string) string := (Reads.word small).bind (Reads.text clean)

theorem reads_group (small : group.length < 256 ^ 8)
    (strings : ∀ string ∈ group, string.length < 256 ^ 8 ∧ '\x00' ∉ string) :
    Reads readGroup (groupBytes group) group :=
  (Reads.word small).bind (Reads.pushes (fun string own =>
    reads_string (strings string own).1 (strings string own).2) [])

theorem reads_slot {hash : CString} (long : hash.length = DATA_SIZE) (clean : '\x00' ∉ hash) :
    Reads (readText DATA_SIZE) (slotBytes hash) hash := by
  have read := Reads.text clean
  rwa [slotBytes, ← long, List.take_left]

theorem reads_nodevo (fits : node.Fits) (nodes : Nat → Nodevo) (i : Nat) (cleared : (nodes i).nhash = []) :
    Reads (readNodevo nodes i) (nodevoBytes node) (update nodes i node) := by
  have hashes := Reads.pushes (fun hash own => reads_slot (fits.hashes hash own).1 (fits.hashes hash own).2)
    (nodes i).nhash
  rw [cleared, List.nil_append] at hashes
  rw [readNodevo, cleared]
  exact (Reads.signed (by decide) fits.nodeId).bind ((Reads.signed (by decide) fits.boundNodeChildno).bind
    ((Reads.word fits.size).bind (hashes.andReturn fun nhash => update nodes i { node with nhash })))

theorem reads_nodevos {source : Nat → Nodevo} (fits : ∀ i < BPLUS_MAX_LEVEL, (source i).Fits) (nodes : Nat → Nodevo)
    (cleared : ∀ i, (nodes i).nhash = []) : Reads ((List.range BPLUS_MAX_LEVEL).foldlM readNodevo nodes)
      ((List.range BPLUS_MAX_LEVEL).flatMap fun i => nodevoBytes (source i))
      (overwrite source nodes BPLUS_MAX_LEVEL) :=
  Reads.fills fun i below array same => reads_nodevo (fits i below) array i (same ▸ cleared i)

/-- The client rebuilds the server's object and stops behind its last byte. -/
theorem voDeserialize_voSerialize (fits : vo.Fits) (memory : Rangevo) :
    ∃ read, Reads (voDeserialize (rangevoInit memory)) (voSerialize vo) read ∧
      read.traverseHeight = vo.traverseHeight ∧ read.data = vo.data ∧
      ∀ level < BPLUS_MAX_LEVEL, read.leftvo level = vo.leftvo level ∧ read.rightvo level = vo.rightvo level := by
  have groups := Reads.pushes (fun group own => reads_group (fits.groups group own).1 (fits.groups group own).2) []
  have left := reads_nodevos fits.leftvo (rangevoInit memory).leftvo (fun _ => rfl)
  have right := reads_nodevos fits.rightvo (rangevoInit memory).rightvo (fun _ => rfl)
  refine ⟨_, (Reads.signed (by decide) fits.traverseHeight).bind ((Reads.word fits.size).bind (groups.bind
    (left.bind (right.andReturn fun rightvo => Rangevo.mk _ _ rightvo _)))), rfl, rfl, fun level below => ?_⟩
  simp [overwrite, below]

/-- Two groups of strings, one of them empty, and a hash on each level of the left border. -/
def twoGroups : Rangevo where
  traverseHeight := 1
  leftvo := fun _ => { nodeId := 7, boundNodeChildno := 2, nhash := [List.replicate 32 'h'] }
  rightvo := fun _ => { nodeId := -1, boundNodeChildno := 0, nhash := [] }
  data := [[['a', 'b'], []], []]

theorem voDeserialize_voSerialize_twoGroups : twoGroups.Fits ∧
    ∃ read, Reads (voDeserialize (rangevoInit twoGroups)) (voSerialize twoGroups) read ∧
      read.traverseHeight = twoGroups.traverseHeight ∧ read.data = twoGroups.data ∧ ∀ level < BPLUS_MAX_LEVEL,
        read.leftvo level = twoGroups.leftvo level ∧ read.rightvo level = twoGroups.rightvo level := by
  have fits : twoGroups.Fits := by
    have left : (twoGroups.leftvo 0).Fits := ⟨by decide, by decide, by decide, by decide⟩
    have right : (twoGroups.rightvo 0).Fits := ⟨by decide, by decide, by decide, by decide⟩
    exact ⟨by decide, by decide, by decide, fun _ _ => left, fun _ _ => right⟩
  exact ⟨fits, voDeserialize_voSerialize fits twoGroups⟩

end BlockchainPG.Vo
