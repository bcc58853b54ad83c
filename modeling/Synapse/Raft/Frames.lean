import Synapse.Lib.Bytes
import Synapse.Lib.Json
import Synapse.Raft.Transport

/-!
# Frames between peers

A peer message is sent as its JSON text after the number of its bytes, in four bytes. The writer
sends whatever the node has built; the reader refuses a frame of more than sixteen megabytes, and
takes a length that does not fit in four bytes for a smaller one. So a message is received exactly
if its text is short enough (`readMessage_writeMessage`), and a leader that has a large enough entry
to send, or enough of them, cannot reach its follower.

Encoding and decoding are parameters of the two functions. `WireMessage.toVec` is the text the
derived serializer produces: the bytes of a payload are an array of numbers, so the text is at
least twice as long as the payload.
-/

namespace Synapse

open ByteCode List

/-! ## Reading and writing -/

def maxFrameLen : ℕ := 16 * 1024 * 1024

section Frames

variable (encode : WireMessage → Bytes) (decode : Bytes → Except String WireMessage)

def writeMessage (m : WireMessage) : Bytes := beBytes 4 (encode m).length ++ encode m

def readMessage (stream : Bytes) : EngineResult WireMessage :=
  if stream.length < 4 then .error (.internal "read frame len: early eof")
  else
    let len := beNat (stream.take 4)
    if maxFrameLen < len then .error (.internal "frame too large")
    else if (stream.drop 4).length < len then .error (.internal "read frame body: early eof")
    else
      match decode ((stream.drop 4).take len) with
      | .ok m => .ok m
      | .error e => .error (.internal ("decode wire msg: " ++ e))

/-- The reader sees the length that fits in four bytes, and then the text. -/
theorem readMessage_frame (body : Bytes) : readMessage decode (beBytes 4 body.length ++ body) =
      if maxFrameLen < body.length % 2 ^ 32 then .error (.internal "frame too large")
      else
        match decode (body.take (body.length % 2 ^ 32)) with
        | .ok m => .ok m
        | .error e => .error (.internal ("decode wire msg: " ++ e)) := by
  have htake : (beBytes 4 body.length ++ body).take 4 = beBytes 4 body.length :=
    take_left' (length_beBytes ..)
  have hdrop : (beBytes 4 body.length ++ body).drop 4 = body := drop_left' (length_beBytes ..)
  have hle : ¬body.length < body.length % 2 ^ 32 := Nat.not_lt.mpr (Nat.mod_le _ _)
  rw [readMessage, if_neg (by simp), htake, hdrop, beNat_beBytes]
  exact ite_congr rfl (fun _ ↦ rfl) fun _ ↦ if_neg hle

/-- **Peer messages on the wire.** If decoding inverts encoding on a message and refuses what is cut
off, then the message is received if and only if its text has at most sixteen megabytes. -/
theorem readMessage_writeMessage (m : WireMessage) (hinv : decode (encode m) = .ok m)
    (hcut : ∀ k < (encode m).length, ∃ e, decode ((encode m).take k) = .error e) :
    (readMessage decode (writeMessage encode m) = .ok m ↔ (encode m).length ≤ maxFrameLen) ∧
      (maxFrameLen < (encode m).length % 2 ^ 32 →
        readMessage decode (writeMessage encode m) = .error (.internal "frame too large")) := by
  rw [writeMessage, readMessage_frame]
  refine ⟨⟨fun hok ↦ ?_, fun hle ↦ ?_⟩, fun hlarge ↦ if_pos hlarge⟩
  · split_ifs at hok with hlarge
    by_contra hlong
    -- A length that does not fit in four bytes is read as a smaller one.
    have hsmall : (encode m).length % 2 ^ 32 < (encode m).length := by
      have hmod := Nat.mod_le (encode m).length (2 ^ 32)
      omega
    obtain ⟨e, he⟩ := hcut _ hsmall
    rw [he] at hok
    cases hok
  · have hlt : (encode m).length < 2 ^ 32 := Nat.lt_of_le_of_lt hle (by decide)
    rw [Nat.mod_eq_of_lt hlt, if_neg (Nat.not_lt.mpr hle), take_length, hinv]

end Frames

/-! ## The text of a message -/

def Entry.json (e : Entry) : List Char :=
  Json.object [("term", Json.number e.term), ("index", Json.number e.index),
    ("data", Json.array (e.data.map fun b ↦ Json.number b.toNat))]

def WireMessage.json : WireMessage → List Char
  | .requestVote m =>
    Json.object [("RequestVote", Json.object [("term", Json.number m.term),
      ("candidate_id", Json.string m.candidateId),
      ("last_log_index", Json.number m.lastLogIndex),
      ("last_log_term", Json.number m.lastLogTerm)])]
  | .requestVoteResponse term voteGranted =>
    Json.object [("RequestVoteResponse", Json.object [("term", Json.number term),
      ("vote_granted", Json.bool voteGranted)])]
  | .appendEntries m =>
    Json.object [("AppendEntries", Json.object [("term", Json.number m.term),
      ("leader_id", Json.string m.leaderId),
      ("prev_log_index", Json.number m.prevLogIndex),
      ("prev_log_term", Json.number m.prevLogTerm),
      ("entries", Json.array (m.entries.map Entry.json)),
      ("leader_commit", Json.number m.leaderCommit)])]
  | .appendEntriesResponse term success matchIndex =>
    Json.object [("AppendEntriesResponse", Json.object [("term", Json.number term),
      ("success", Json.bool success), ("match_index", Json.number matchIndex)])]

def WireMessage.toVec (m : WireMessage) : Bytes := m.json.flatMap String.utf8EncodeChar

theorem length_toVec (m : WireMessage) :
    m.json.length ≤ m.toVec.length ∧ m.toVec.length ≤ 4 * m.json.length := by
  rw [WireMessage.toVec]
  induction m.json with
  | nil => exact ⟨Nat.zero_le _, Nat.zero_le _⟩
  | cons c cs ih =>
    rw [flatMap_cons, length_append, String.length_utf8EncodeChar, length_cons]
    have hpos := c.utf8Size_pos
    have hle := c.utf8Size_le_four
    omega

def leaderWithEntry (data : Bytes) : RaftNode :=
  { (RaftNode.new "a" ["a", "b"] {}).beginElection.1 with
    role := .leader, log := [⟨1, 1, data⟩] }

theorem buildAppendEntries_leaderWithEntry (data : Bytes) :
    (leaderWithEntry data).buildAppendEntries ((leaderWithEntry data).nextIndexOf "b") =
      ⟨1, "a", 0, 0, [⟨1, 1, data⟩], 0⟩ := by
  rfl

theorem length_json_zeros (k : ℕ) : (WireMessage.appendEntries
      ⟨1, "a", 0, 0, [⟨1, 1, List.replicate (k + 1) 0⟩], 0⟩).json.length = 2 * k + 143 := by
  have hdigits : (Json.number 0).length = 1 ∧ (Json.number 1).length = 1 ∧
      (Json.number (UInt8.toNat 0)).length = 1 := by decide
  have hstrings : (Json.string "AppendEntries").length = 15 ∧ (Json.string "term").length = 6 ∧
      (Json.string "leader_id").length = 11 ∧ (Json.string "a").length = 3 ∧
      (Json.string "prev_log_index").length = 16 ∧ (Json.string "prev_log_term").length = 15 ∧
      (Json.string "entries").length = 9 ∧ (Json.string "index").length = 7 ∧
      (Json.string "data").length = 6 ∧ (Json.string "leader_commit").length = 15 := by decide
  simp only [WireMessage.json, Entry.json, Json.length_object, Json.length_array, map_cons,
    map_nil, sum_cons, sum_nil, length_cons, length_nil,
    map_replicate, sum_replicate_nat, length_replicate, hdigits, hstrings]
  omega

/-- A decoder that knows one text only. -/
theorem heartbeat_received :
    let m : WireMessage := .appendEntries ⟨1, "a", 0, 0, [], 0⟩
    ∃ decode, readMessage decode (writeMessage WireMessage.toVec m) = .ok m := by
  intro m
  refine ⟨fun text ↦ if text = m.toVec then .ok m else .error "EOF while parsing a value",
    (readMessage_writeMessage WireMessage.toVec _ _ (if_pos rfl) fun k hk ↦ ?_).1.mpr (by decide)⟩
  refine ⟨_, if_neg fun heq ↦ ?_⟩
  rw [← heq, length_take] at hk
  exact Nat.lt_irrefl k (Nat.lt_of_lt_of_le hk (Nat.min_le_left ..))

/-- An entry of eight megabytes does not reach the peer, whatever the decoder. -/
theorem entry_too_large : (readMessage · (writeMessage WireMessage.toVec (.appendEntries
        ((leaderWithEntry (List.replicate (2 ^ 23) 0)).buildAppendEntries
          ((leaderWithEntry (List.replicate (2 ^ 23) 0)).nextIndexOf "b"))))) =
      fun _ ↦ .error (.internal "frame too large") := by
  funext decode
  have hsplit : (2 : ℕ) ^ 23 = 8388607 + 1 := by decide
  rw [buildAppendEntries_leaderWithEntry, writeMessage, readMessage_frame, hsplit]
  have hjson := length_json_zeros 8388607
  obtain ⟨hlower, hupper⟩ := length_toVec (.appendEntries
    ⟨1, "a", 0, 0, [⟨1, 1, List.replicate (8388607 + 1) 0⟩], 0⟩)
  rw [hjson] at hlower hupper
  rw [Nat.mod_eq_of_lt (by omega), if_pos (by rw [maxFrameLen]; omega)]

end Synapse
