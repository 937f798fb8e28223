import BlockchainPG.Lib.Runs
import BlockchainPG.Libpq.Transfer

/-! Connections of one client process, which share one trusted root. -/

namespace BlockchainPG.Libpq

open Lib Mbt List

/-- A completion tag, as the server can send it. -/
structure CompletionTag where
  text : CString
  clean : '\x00' ∉ text
  short : text.length < CMDSTATUS_LEN

inductive Message where
  | commandComplete (tag : CompletionTag)
  | vo (message : VoMessage)

namespace Message

def bytes : Message → List Char
  | commandComplete tag => pqMessage 'C' (tag.text ++ ['\x00'])
  | vo message => message.bytes

def receive (client : Client) : Message → Client
  | commandComplete tag => Libpq.commandComplete client tag.text
  | vo message => message.receive client

def root : Message → Option CString
  | commandComplete tag => rootOf tag.text
  | vo _ => none

end Message

theorem reads_gets (clean : '\x00' ∉ text) : Reads pqGets (text ++ ['\x00']) text := by
  intro rest
  have all : ∀ c ∈ text, (!decide (c = '\x00')) = true := fun c own => by
    grind
  simp [pqGets, StateT.run, takeWhile_append_of_pos all, dropWhile_append_of_pos all]

theorem parseMessage_message (message : Message) (client : Client) :
    parseMessage client message.bytes = some (message.receive client, []) := by
  rw [← append_nil message.bytes]
  cases message with
  | vo message => exact framed.whole client message []
  | commandComplete tag =>
    have short := tag.short
    refine parseMessage_whole 'C' ?_ ((reads_gets tag.clean).andReturn fun text => commandComplete client text) []
    grind [CMDSTATUS_LEN]

section Connections

variable {κ : Type}

/-- A message arrives on one of the connections. -/
def deliver (client : Client) (event : κ × Message) : Client := (feed parseMessage (client, []) event.2.bytes).1

theorem deliver_eq (client : Client) (event : κ × Message) : deliver client event = event.2.receive client := by
  have whole := parseMessage_message event.2 client
  have idle : parseMessage (event.2.receive client) [] = none := rfl
  have some : ∃ fuel, event.2.bytes.length = fuel + 1 := by
    cases empty : event.2.bytes with
    | nil => rw [empty] at whole; cases whole
    | cons byte rest => exact ⟨rest.length, rfl⟩
  obtain ⟨fuel, length⟩ := some
  rw [deliver, feed, nil_append, length, drain, whole]
  cases fuel with
  | zero => rfl
  | succ fuel => simp [drain, idle]

def lastRoot (messages : List Message) : Option CString := (messages.filterMap Message.root).getLast?

/-- The characters of a root that are compared; `memset` has cleared those behind its end. -/
def comparedRoot (root : CString) : List Char := (root ++ replicate 32 '\x00').take 32

def messagesOn [DecidableEq κ] (connection : κ) (history : List (κ × Message)) : List Message :=
  (history.filter (·.1 = connection)).map (·.2)

theorem receive_vo (client : Client) (message : VoMessage) : (message.receive client).mbroot = client.mbroot ∧
      ((message.receive client).verifications = client.verifications ∨
        ∃ verification, (message.receive client).verifications = client.verifications ++ [verification] ∧
          verification.mbroot = client.mbroot) := by
  unfold VoMessage.receive endMessage
  split <;> grind [storeField, beginTransfer]

theorem receive_mbroot (client : Client) (message : Message) :
    (message.receive client).mbroot = message.root.or client.mbroot := by
  cases message with
  | commandComplete tag =>
    simp only [Message.receive, Message.root, commandComplete]
    cases rootOf tag.text <;> rfl
  | vo message => exact (receive_vo client message).1

theorem run_mbroot (history : List (κ × Message)) :
    (run deliver Client.start history).mbroot = lastRoot (history.map (·.2)) := by
  induction history using reverseRecOn with
  | nil => rfl
  | append_singleton history event ih =>
    grind [run, deliver_eq, receive_mbroot, lastRoot]

/-- A result is verified against the last root of its own connection exactly when there is one and no other
root came last on another connection. -/
theorem verified_root_iff [DecidableEq κ] (history : List (κ × Message)) (connection : κ) (message : VoMessage)
    (verification : Verification)
    (verified : (deliver (run deliver Client.start history) (connection, .vo message)).verifications =
      (run deliver Client.start history).verifications ++ [verification]) :
    (∃ root, lastRoot (messagesOn connection history) = some root ∧
      verification.mbroot.map comparedRoot = some (comparedRoot root)) ↔
    ∃ root, lastRoot (messagesOn connection history) = some root ∧
      (lastRoot (history.map (·.2))).map comparedRoot = some (comparedRoot root) := by
  have used : verification.mbroot = lastRoot (history.map (·.2)) := by
    grind [deliver_eq, receive_vo, Message.receive, append_cancel_left_eq, run_mbroot]
  rw [used]

end Connections

def oneChunk : Slot where
  hashmapNum := 1
  hashmapStr := replicate 8192 'h'
  voStr := replicate 8192 'v'
  pos := by decide
  small := by decide
  hashmapSize := length_replicate
  voSize := length_replicate

def oneMessage : VoMessage := oneChunk.message ⟨0, oneChunk.pos⟩

theorem receive_oneMessage (idle : client.mbtCount = 0) : oneMessage.receive client = oneChunk.done client := by
  have step := Slot.receive_progress idle ⟨0, oneChunk.pos⟩
  have start : oneChunk.progress client 0 = client := if_pos rfl
  rw [start] at step
  exact step.trans Slot.progress_last

def insertTag (root : Char) (visible : root ≠ '\x00') : CompletionTag where
  text := ['I', 'N', 'S', 'E', 'R', 'T', '$', root]
  clean := by simp [visible.symm]
  short := (by decide : 8 < CMDSTATUS_LEN)

def twoRoots : List (Bool × Message) :=
  [(false, .commandComplete (insertTag 'a' (by decide))), (true, .commandComplete (insertTag 'b' (by decide)))]

theorem twoRoots_verified (connection : Bool) :
    (deliver (run deliver Client.start twoRoots) (connection, .vo oneMessage)).verifications =
      (run deliver Client.start twoRoots).verifications ++ [oneChunk.verification (some ['b'])] := by
  have state : run deliver Client.start twoRoots = { Client.start with mbroot := some ['b'] } := by
    simp only [run, twoRoots, foldl_cons, foldl_nil, deliver_eq]
    rfl
  rw [state, deliver_eq, Message.receive, receive_oneMessage rfl]
  rfl

theorem verified_root_iff_twoRoots :
    ∃ root, lastRoot (messagesOn true twoRoots) = some root ∧
      (oneChunk.verification (some ['b'])).mbroot.map comparedRoot = some (comparedRoot root) :=
  (verified_root_iff twoRoots true oneMessage _ (twoRoots_verified true)).mpr ⟨['b'], by decide, by decide⟩

/-- The first connection's result is verified against the root of the second connection. -/
theorem verified_root_of_other : ∃ (history : List (Bool × Message)) (message : VoMessage)
    (verification : Verification), (deliver (run deliver Client.start history) (false, .vo message)).verifications =
      (run deliver Client.start history).verifications ++ [verification] ∧
    lastRoot (messagesOn false history) = some ['a'] ∧ verification.mbroot = some ['b'] ∧
    comparedRoot ['a'] ≠ comparedRoot ['b'] :=
  ⟨twoRoots, oneMessage, _, twoRoots_verified false, by decide, rfl, by decide⟩

end BlockchainPG.Libpq
