import BlockchainPG.Lib.Codec
import BlockchainPG.Lib.Framing
import BlockchainPG.Mbt.Tree

/-! The messages that carry a verification object and the trusted root. -/

namespace BlockchainPG.Libpq

open Lib Mbt

def DEFAULTSIZE : Nat := 8192

/-- Length of `cmdStatus`, and of the completion tags of the server. -/
def CMDSTATUS_LEN : Nat := 64

/-- `pq_sendint`: an integer in network byte order. -/
def pqSendint (value : Int) (bytes : Nat) : List Char := (signedBytes bytes value).reverse

/-- What the executor leaves in the slot of an authenticated scan: two buffers of
`hashmap_num` chunks. A buffer's size is an `int`. -/
structure Slot where
  hashmapNum : Nat
  hashmapStr : List Char
  voStr : List Char
  pos : 1 ≤ hashmapNum
  small : hashmapNum * DEFAULTSIZE < 2 ^ 31
  hashmapSize : hashmapStr.length = hashmapNum * DEFAULTSIZE
  voSize : voStr.length = hashmapNum * DEFAULTSIZE

def chunk (text : List Char) (sequenceNum : Nat) : List Char :=
  (text.drop (sequenceNum * DEFAULTSIZE)).take DEFAULTSIZE

/-- `pq_beginmessage` and `pq_endmessage` around the body of a message. -/
def pqMessage (id : Char) (body : List Char) : List Char := id :: (pqSendint (body.length + 4 : Nat) 4 ++ body)

/-- `printVO`: one chunk of each buffer. -/
def printVO (slot : Slot) (sequenceNum : Nat) : List Char :=
  pqMessage 'U' (pqSendint slot.hashmapNum 4 ++ (pqSendint 2 2 ++
    (chunk slot.hashmapStr sequenceNum ++ chunk slot.voStr sequenceNum)))

/-- The messages of one transfer, as `ExecutePlan` sends them. -/
def executePlan (slot : Slot) : List Char := (List.range slot.hashmapNum).flatMap (printVO slot)

/-- What a run of the verification was given. -/
structure Verification where
  hashmapStr : List Char
  voStr : List Char
  mbroot : Option CString
deriving DecidableEq

/-- The globals of the client process. `mbroot` is `none` until a root was
stored: it is null, or memory that was never written. `fault` is raised where the program would leave a buffer or follow a null
pointer, `trouble` where it reports a message that does not agree with its
length. -/
structure Client where
  mbroot : Option CString
  mbtCount : Int
  voObject : Nat → Option (List Char)
  verifications : List Verification
  fault : Bool
  trouble : Bool

/-- A client process that has received nothing. -/
def Client.start : Client where
  mbroot := none
  mbtCount := 0
  voObject := fun _ => none
  verifications := []
  fault := false
  trouble := false

def pqGetInt4 : Reader Int := do
  let bytes ← takeBytes 4
  return (BitVec.ofNat 32 (bytesWord bytes.reverse)).toInt

def pqGetInt2 : Reader Nat := do
  let bytes ← takeBytes 2
  return bytesWord bytes.reverse

/-- `pqGets`: a text and the zero behind it. -/
def pqGets : Reader CString := fun buffer =>
  if '\x00' ∈ buffer then some (buffer.takeWhile (· ≠ '\x00'), (buffer.dropWhile (· ≠ '\x00')).tail) else none

def peekBytes (count : Nat) : Reader (List Char) := fun buffer =>
  if count ≤ buffer.length then some (buffer.take count, buffer) else none

def beginTransfer (client : Client) (count : Int) (nfields : Nat) : Client :=
  if client.mbtCount = 0 then
    { client with
      mbtCount := count
      voObject := fun i => if i < nfields then some (List.replicate (count * DEFAULTSIZE).toNat '\x00') else none
      fault := client.fault || decide (nfields ≠ 2) }
  else client

/-- The inner copy loop: one chunk into `vo_object[i]`. -/
def storeField (count : Int) (client : Client) (i : Nat) (bytes : List Char) : Client :=
  let offset := (count - client.mbtCount) * DEFAULTSIZE
  match client.voObject i with
  | none => { client with fault := true }
  | some object =>
    if 0 ≤ offset ∧ offset + bytes.length ≤ object.length then
      { client with
        voObject := Function.update client.voObject i
          (some (object.take offset.toNat ++ bytes ++ object.drop (offset.toNat + bytes.length))) }
    else { client with fault := true }

def readField (count : Int) (client : Client) (i : Nat) : Reader Client := do
  let _ ← takeBytes (i * DEFAULTSIZE)
  let bytes ← peekBytes DEFAULTSIZE
  return storeField count client i bytes

/-- The end of a message. The last one of a transfer is followed by the verification, which reads `mbroot`. -/
def endMessage (client : Client) (nfields : Nat) : Client :=
  if client.mbtCount - 1 ≤ 0 then
    { client with
      mbtCount := client.mbtCount - 1
      voObject := fun i => if i < nfields then none else client.voObject i
      verifications := client.verifications ++
        [{ hashmapStr := (client.voObject 0).getD [], voStr := (client.voObject 1).getD [], mbroot := client.mbroot }]
      fault := client.fault || (client.voObject 0).isNone || (client.voObject 1).isNone || client.mbroot.isNone }
  else { client with mbtCount := client.mbtCount - 1 }

/-- `case 'U'` of `pqParseInput3`. -/
def caseVo (client : Client) : Reader Client := do
  let count ← pqGetInt4
  let nfields ← pqGetInt2
  let stored ← (List.range nfields).foldlM (readField count) (beginTransfer client count nfields)
  let _ ← takeBytes DEFAULTSIZE
  return endMessage stored nfields

/-- The root behind the first `$` of a command status. -/
def rootOf (text : CString) : Option CString :=
  match (text.take CMDSTATUS_LEN).dropWhile (· ≠ '$') with
  | [] => none
  | _ :: root => some (root.take 33)

def commandComplete (client : Client) (text : CString) : Client :=
  match rootOf text with
  | none => client
  | some root => { client with mbroot := some root }

/-- `case 'C'` of `pqParseInput3`. -/
def caseCommandComplete (client : Client) : Reader Client := do
  let text ← pqGets
  return commandComplete client text

/-- `case 'L'` of `pqParseInput3`; `StrNCpy` keeps 31 characters. -/
def caseRoot (client : Client) : Reader Client := do
  let nfields ← pqGetInt2
  times nfields (fun client => do let text ← pqGets; return { client with mbroot := some (text.take 31) }) client

/-- The message types that touch the globals; every other one is read to its end. -/
def handleMessage (id : Char) (msgLength : Nat) (client : Client) : Reader Client :=
  if id = 'U' then caseVo client
  else if id = 'C' then caseCommandComplete client
  else if id = 'L' then caseRoot client
  else do
    let _ ← takeBytes msgLength
    return client

def validLongMessageType (id : Char) : Bool := ['T', 'D', 'd', 'V', 'E', 'N', 'A'].contains id

def messageHeader : Reader (Char × Int) := do
  let id ← takeBytes 1
  let msgLength ← pqGetInt4
  return (id.headD '\x00', msgLength)

/-- One turn of the loop of `pqParseInput3`, on the bytes from `inStart` on. -/
def parseMessage (client : Client) (buffer : List Char) : Option (Client × List Char) :=
  match messageHeader.run buffer with
  | none => none
  | some ((id, msgLength), body) =>
    if msgLength < 4 ∨ (msgLength > 30000 ∧ validLongMessageType id = false) then
      some ({ client with trouble := true }, [])
    else
      let bodyLength := (msgLength - 4).toNat
      if body.length < bodyLength then none
      else
        match (handleMessage id bodyLength client).run body with
        | none => none
        | some (next, rest) =>
          if rest.length + bodyLength = body.length then some (next, rest)
          else some ({ next with trouble := true }, body.drop bodyLength)

end BlockchainPG.Libpq
