import BlockchainPG.Libpq.Protocol3
import Mathlib.Tactic.Ring

/-! Transfers of verification objects, however the network cuts the stream. -/

namespace BlockchainPG.Libpq

open Lib Mbt Function
open List hiding length

/-- A `'U'` message with two chunks. -/
structure VoMessage where
  count : Int
  hashmapChunk : List Char
  voChunk : List Char
  fits : FitsSigned 4 count
  hashmapSize : hashmapChunk.length = DEFAULTSIZE
  voSize : voChunk.length = DEFAULTSIZE

namespace VoMessage

variable (message : VoMessage)

def body : List Char :=
  pqSendint message.count 4 ++ (pqSendint 2 2 ++ (message.hashmapChunk ++ message.voChunk))

def bytes : List Char := pqMessage 'U' message.body

/-- What the message does to the globals of the client. -/
def receive (client : Client) : Client :=
  endMessage (storeField message.count (storeField message.count (beginTransfer client message.count 2) 0
    message.hashmapChunk) 1 message.voChunk) 2

end VoMessage

@[simp]
theorem pqSendint_length : (pqSendint value width).length = width := by simp [pqSendint]

theorem reads_int4 (fits : FitsSigned 4 value) : Reads pqGetInt4 (pqSendint value 4) value := by
  have read := (Reads.take (pqSendint value 4)).andReturn fun bytes => (BitVec.ofNat 32 (bytesWord bytes.reverse)).toInt
  have same : (BitVec.ofNat 32 (bytesWord (pqSendint value 4).reverse)).toInt = value := by
    grind [pqSendint, toInt_signedBytes]
  rwa [pqSendint_length, same] at read

theorem reads_two : Reads pqGetInt2 (pqSendint 2 2) 2 := (Reads.take (pqSendint 2 2)).andReturn fun bytes =>
  bytesWord bytes.reverse

theorem readField_run (size : field.length = DEFAULTSIZE) (before : front.length = i * DEFAULTSIZE) (count : Int)
    (client : Client) (rest : List Char) : (readField count client i).run (front ++ (field ++ rest)) =
      some (storeField count client i field, field ++ rest) := by
  have skip := Reads.take front (field ++ rest)
  rw [before] at skip
  have here : (peekBytes DEFAULTSIZE).run (field ++ rest) = some (field, field ++ rest) := by
    simp [peekBytes, StateT.run, ← size]
  rw [readField, StateT.run_bind, skip]
  grind

theorem reads_caseVo (message : VoMessage) (client : Client) :
    Reads (caseVo client) message.body (message.receive client) := by
  refine (reads_int4 message.fits).bind (reads_two.bind fun rest => ?_)
  have first : (readField message.count (beginTransfer client message.count 2) 0).run _ = _ :=
    readField_run message.hashmapSize (List.length_nil.trans (zero_mul _).symm) _ _ (message.voChunk ++ rest)
  have second := readField_run message.voSize (message.hashmapSize.trans (one_mul _).symm) message.count
    (storeField message.count (beginTransfer client message.count 2) 0 message.hashmapChunk) rest
  have last := Reads.take message.voChunk rest
  rw [message.voSize] at last
  show StateT.run (([0, 1].foldlM (readField message.count) _ : Reader Client) >>= _) _ = _
  simp only [foldlM_cons, foldlM_nil, StateT.run_bind, append_assoc]
  rw [nil_append] at first
  simp only [first, second, last, Option.bind_eq_bind, Option.bind_some, Option.pure_def, StateT.run_pure]
  rfl

theorem body_length (message : VoMessage) : message.body.length = 16390 := by
  simp [VoMessage.body, message.hashmapSize, message.voSize, DEFAULTSIZE]

theorem reads_header (id : Char) (small : length ≤ 29996) :
    Reads messageHeader (id :: pqSendint (length + 4 : Nat) 4) (id, (length + 4 : Nat)) := by
  have fits : FitsSigned 4 ((length + 4 : Nat) : Int) := ⟨by omega, by omega⟩
  exact (Reads.take [id]).bind ((reads_int4 fits).andReturn fun msgLength => (id, msgLength))

theorem header_short (short : front.length < 5) : messageHeader.run front = none := by
  cases front with
  | nil => rfl
  | cons byte front =>
    have few : ¬4 ≤ front.length := by
      rw [length_cons] at short
      omega
    simp [messageHeader, pqGetInt4, takeBytes, StateT.run, few, bind, StateT.bind]

theorem parseMessage_eq {id : Char} (small : length ≤ 29996)
    (header : messageHeader.run buffer = some ((id, ((length + 4 : Nat) : Int)), body)) (client : Client) :
    parseMessage client buffer = if body.length < length then none else
        match (handleMessage id length client).run body with
        | none => none
        | some (next, rest) => if rest.length + length = body.length then some (next, rest)
          else some ({ next with trouble := true }, body.drop length) := by
  have valid : ¬(((length + 4 : Nat) : Int) < 4 ∨
      (((length + 4 : Nat) : Int) > 30000 ∧ validLongMessageType id = false)) := by omega
  have bodyLength : (((length + 4 : Nat) : Int) - 4).toNat = length := by omega
  rw [parseMessage, header]
  refine (if_neg valid).trans ?_
  generalize (((length + 4 : Nat) : Int) - 4).toNat = shown at bodyLength ⊢
  subst bodyLength
  rfl

theorem parseMessage_whole {next : Client} (id : Char) (small : body.length ≤ 29996)
    (handled : Reads (handleMessage id body.length client) body next) (rest : List Char) :
    parseMessage client (pqMessage id body ++ rest) = some (next, rest) := by
  have header := reads_header id small (body ++ rest)
  rw [pqMessage, cons_append, append_assoc, ← cons_append]
  rw [parseMessage_eq small header, handled rest, length_append, if_neg (by omega)]
  exact if_pos (Nat.add_comm _ _)

theorem parseMessage_part (id : Char) (small : body.length ≤ 29996) (split : pqMessage id body = front ++ back)
    (missing : back ≠ []) (client : Client) : parseMessage client front = none := by
  by_cases short : front.length < 5
  · rw [parseMessage, header_short short]
  · have start : (id :: pqSendint (body.length + 4 : Nat) 4).length = 5 := by simp
    rw [pqMessage, ← cons_append] at split
    have cut := congrArg (List.take 5) split
    rw [take_append_of_le_length start.ge, take_of_length_le start.le,
      take_append_of_le_length (Nat.le_of_not_lt short)] at cut
    have header := reads_header id small (front.drop 5)
    rw [cut, take_append_drop] at header
    have total := congrArg List.length split
    rw [length_append, start, length_append] at total
    have pos := List.length_pos_iff.mpr missing
    rw [parseMessage_eq small header, length_drop, if_pos (by omega)]

theorem framed : Framed parseMessage (fun client message => VoMessage.receive message client) VoMessage.bytes where
  whole client message rest :=
    parseMessage_whole 'U' (by rw [body_length]; decide) (reads_caseVo message client) rest
  part client message _ _ split missing :=
    parseMessage_part 'U' (by rw [body_length]; decide) split missing client
  idle _ := rfl

/-- A buffer of the client after `k` of `n` chunks were copied into it. -/
def filled (text : List Char) (n k : Nat) : List Char :=
  text.take (k * DEFAULTSIZE) ++ List.replicate ((n - k) * DEFAULTSIZE) '\x00'

theorem chunk_length (size : text.length = n * DEFAULTSIZE) (below : k < n) : (chunk text k).length = DEFAULTSIZE := by
  grind [DEFAULTSIZE, chunk]

theorem filled_last (size : text.length = n * DEFAULTSIZE) : filled text n n = text := by
  simp [filled, ← size]

theorem storeField_filled (size : text.length = n * DEFAULTSIZE) (below : k < n) {client : Client} {i : Nat}
    (count : client.mbtCount = n - k) (object : client.voObject i = some (filled text n k)) :
    storeField n client i (chunk text k) =
      { client with voObject := update client.voObject i (some (filled text n (k + 1))) } := by
  have room : (k + 1) * DEFAULTSIZE ≤ n * DEFAULTSIZE := Nat.mul_le_mul_right _ below
  have left : (n - k) * DEFAULTSIZE = (n - (k + 1)) * DEFAULTSIZE + DEFAULTSIZE := by
    rw [← Nat.succ_mul]
    congr 1
    omega
  have offset : ((n : Int) - client.mbtCount) * DEFAULTSIZE = (k * DEFAULTSIZE : Nat) := by
    rw [count]
    push_cast
    ring
  have taken : (text.take (k * DEFAULTSIZE)).length = k * DEFAULTSIZE := by
    grind
  have inside : (k * DEFAULTSIZE : Nat) + ((chunk text k).length : Int) ≤ (filled text n k).length := by
    grind [chunk_length, filled]
  have block : (filled text n k).take (k * DEFAULTSIZE) ++ chunk text k ++
      (filled text n k).drop (k * DEFAULTSIZE + (chunk text k).length) = filled text n (k + 1) := by
    rw [chunk_length size below]
    simp only [filled]
    rw [take_left' taken, drop_append, drop_of_length_le (by omega), taken, chunk, ← take_add,
      left, Nat.add_sub_cancel_left, drop_replicate, Nat.add_sub_cancel, nil_append, Nat.succ_mul]
  simp only [storeField, object, offset, Int.toNat_natCast, block]
  exact if_pos ⟨Int.natCast_nonneg _, inside⟩

namespace Slot

variable (slot : Slot)

theorem fits : FitsSigned 4 (slot.hashmapNum : Int) := by
  have small := slot.small
  rw [DEFAULTSIZE] at small
  exact ⟨by omega, by omega⟩

def message (k : Fin slot.hashmapNum) : VoMessage where
  count := slot.hashmapNum
  hashmapChunk := chunk slot.hashmapStr k
  voChunk := chunk slot.voStr k
  fits := slot.fits
  hashmapSize := chunk_length slot.hashmapSize k.isLt
  voSize := chunk_length slot.voSize k.isLt

/-- The client between two messages of a transfer. -/
def during (client : Client) (k : Nat) : Client where
  mbroot := client.mbroot
  mbtCount := slot.hashmapNum - k
  voObject := fun i =>
    if i = 0 then some (filled slot.hashmapStr slot.hashmapNum k)
    else if i = 1 then some (filled slot.voStr slot.hashmapNum k)
    else none
  verifications := client.verifications
  fault := client.fault
  trouble := client.trouble

def verification (mbroot : Option CString) : Verification where
  hashmapStr := slot.hashmapStr
  voStr := slot.voStr
  mbroot := mbroot

/-- The client after a transfer. -/
def done (client : Client) : Client where
  mbroot := client.mbroot
  mbtCount := 0
  voObject := fun _ => none
  verifications := client.verifications ++ [slot.verification client.mbroot]
  fault := client.fault || client.mbroot.isNone
  trouble := client.trouble

/-- The client after the first `k` messages of a transfer. -/
def progress (client : Client) (k : Nat) : Client :=
  if k = 0 then client else if k < slot.hashmapNum then slot.during client k else slot.done client

variable {slot} {client : Client}

theorem filled_zero : filled text n 0 = List.replicate (n * DEFAULTSIZE) '\x00' := by simp [filled]

theorem beginTransfer_progress (idle : client.mbtCount = 0) (below : k < slot.hashmapNum) :
    beginTransfer (slot.progress client k) slot.hashmapNum 2 = slot.during client k := by
  cases k with
  | zero =>
    grind [progress, beginTransfer, during, filled_zero]
  | succ k =>
    have busy : ¬(slot.hashmapNum : Int) - (k + 1 : Nat) = 0 := by omega
    simp only [progress, below, ↓reduceIte, Nat.succ_ne_zero, beginTransfer]
    exact if_neg busy

theorem stored_eq (k : Fin slot.hashmapNum) :
    storeField slot.hashmapNum (storeField slot.hashmapNum (slot.during client k) 0 (chunk slot.hashmapStr k)) 1
      (chunk slot.voStr k) = { slot.during client (k + 1) with mbtCount := slot.hashmapNum - k } := by
  rw [storeField_filled slot.hashmapSize k.isLt rfl rfl, storeField_filled slot.voSize k.isLt rfl rfl]
  simp only [during]
  congr 1
  funext i
  rcases i with _ | _ | i <;> simp [update]

theorem progress_last : slot.progress client slot.hashmapNum = slot.done client := by
  grind [pos, progress]

theorem receive_progress (idle : client.mbtCount = 0) (k : Fin slot.hashmapNum) :
    (slot.message k).receive (slot.progress client k) = slot.progress client (k + 1) := by
  have below := k.isLt
  show endMessage (storeField slot.hashmapNum (storeField slot.hashmapNum
    (beginTransfer (slot.progress client k) slot.hashmapNum 2) 0 _) 1 _) 2 = _
  rw [beginTransfer_progress idle below]
  refine (congrArg (endMessage · 2) (stored_eq k)).trans ?_
  grind [endMessage, during, done, verification, filled_last, hashmapSize, voSize, progress]

def messages (slot : Slot) : List VoMessage := (List.finRange slot.hashmapNum).map slot.message

theorem flatMap_messages_take (below : sent ≤ slot.hashmapNum) :
    (slot.messages.take sent).flatMap VoMessage.bytes = (List.range sent).flatMap (printVO slot) := by
  have ids : List.range sent = ((List.finRange slot.hashmapNum).take sent).map Fin.val := by
    rw [map_take, map_coe_finRange_eq_range, take_range, Nat.min_eq_left below]
  rw [ids, messages, ← map_take, flatMap_map, flatMap_map]
  rfl

theorem flatMap_messages : slot.messages.flatMap VoMessage.bytes = executePlan slot := by
  have all : (slot.messages.take slot.hashmapNum).flatMap _ = _ := flatMap_messages_take le_rfl
  rwa [take_of_length_le (by simp [messages])] at all

theorem foldl_messages_take (idle : client.mbtCount = 0) (below : sent ≤ slot.hashmapNum) :
    (slot.messages.take sent).foldl (fun client message => VoMessage.receive message client) client =
      slot.progress client sent := by
  induction sent with
  | zero => simp [progress]
  | succ sent ih =>
    have size : sent < slot.messages.length := by
      grind [messages]
    rw [take_succ_eq_append_getElem size, foldl_append, ih (by omega)]
    have step := receive_progress idle ⟨sent, below⟩
    simpa [messages] using step

theorem foldl_messages (idle : client.mbtCount = 0) :
    slot.messages.foldl (fun client message => VoMessage.receive message client) client = slot.done client := by
  have all : (slot.messages.take slot.hashmapNum).foldl _ _ = _ := foldl_messages_take idle le_rfl
  rwa [take_of_length_le (by simp [messages]), progress_last] at all

end Slot

theorem foldl_transfers (slots : List Slot) (idle : client.mbtCount = 0) :
    ∃ voObject, (slots.flatMap Slot.messages).foldl (fun client message => VoMessage.receive message client) client =
      { client with
        voObject := voObject
        verifications := client.verifications ++ slots.map fun slot => slot.verification client.mbroot
        fault := client.fault || (!slots.isEmpty && client.mbroot.isNone) } := by
  induction slots generalizing client with
  | nil => exact ⟨client.voObject, by simp⟩
  | cons slot slots ih =>
    have idleAgain : (slot.done client).mbtCount = 0 := rfl
    obtain ⟨voObject, rest⟩ := ih idleAgain
    refine ⟨voObject, ?_⟩
    rw [flatMap_cons, foldl_append, Slot.foldl_messages idle, rest]
    simp only [Slot.done, idle, map_cons, append_assoc, singleton_append, isEmpty_cons, Bool.not_false, Bool.true_and,
      Client.mk.injEq, true_and, and_true]
    cases client.mbroot <;> simp

/-- The client after any number of transfers and a part of one more, however they arrive. -/
private theorem feed_transfers (mbroot : Option CString) (slots : List Slot) (next : Slot) (sent : Nat)
    (more : sent < next.hashmapNum) (unfinished : printVO next sent = front ++ back) (missing : back ≠ [])
    {arrivals : List (List Char)} (stream : arrivals.flatten =
      slots.flatMap executePlan ++ ((List.range sent).flatMap (printVO next) ++ front)) :
    ∃ client, arrivals.foldl (feed parseMessage) ({ Client.start with mbroot := mbroot }, []) = (client, front) ∧
      client.verifications = slots.map (fun slot => ⟨slot.hashmapStr, slot.voStr, mbroot⟩) ∧
      client.mbtCount = (if sent = 0 then 0 else (next.hashmapNum : Int) - sent) ∧
      client.fault = (!slots.isEmpty && mbroot.isNone) ∧ client.trouble = false := by
  have part : Unfinished VoMessage.bytes front := Or.inr ⟨next.message ⟨sent, more⟩, back, unfinished, missing⟩
  have frames : (slots.flatMap Slot.messages ++ next.messages.take sent).flatMap VoMessage.bytes ++ front =
      slots.flatMap executePlan ++ ((List.range sent).flatMap (printVO next) ++ front) := by
    rw [flatMap_append, Slot.flatMap_messages_take more.le, flatMap_assoc, append_assoc]
    simp only [Slot.flatMap_messages]
  have idle : ({ Client.start with mbroot := mbroot } : Client).mbtCount = 0 := rfl
  obtain ⟨voObject, before⟩ := foldl_transfers slots idle
  refine ⟨_, framed.feed_eq part _ (stream.trans frames.symm), ?_⟩
  grind [Slot.foldl_messages_take, Slot.progress, Client.start, Slot.verification, Slot.during]

def twoChunks : Slot where
  hashmapNum := 2
  hashmapStr := List.replicate 16384 'h'
  voStr := List.replicate 16384 'v'
  pos := by decide
  small := by decide
  hashmapSize := length_replicate
  voSize := length_replicate

theorem twoChunks_missing : (printVO twoChunks 1).tail ≠ [] := ne_nil_of_length_pos (by
  rw [printVO, pqMessage, tail_cons, length_append, pqSendint_length]
  omega)

end BlockchainPG.Libpq
