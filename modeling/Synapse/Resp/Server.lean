import Synapse.Lib.Pacing
import Synapse.Resp.Broker
import Synapse.Resp.Wire

/-!
# The RESP connection loop

`handle_connection` appends each read to its buffer and then decodes and handles values, but it
leaves the inner loop as soon as it has written a reply. So a read answers at most one command, and
a command that arrived together with an earlier one waits for the next read, which a client that
waits for its replies never sends. `pipelining` says exactly which splits of a stream of commands
into reads are answered completely.

The loop sees the broker through the replies it gives only, and is modelled over any service. The
frames that other connections push to this one are written by the other branch of the `select!`
and are not part of the model.
-/

namespace Synapse.Resp

open Pacing List

/-- What a connection uses of the broker. -/
structure Service (σ : Type) where
  handle : σ → Value → Option Value × σ
  disconnect : σ → σ

/-- A connection: the state of the broker, the bytes not yet decoded, the replies written, and
whether `handle_connection` has returned. -/
structure Connection (σ : Type) where
  broker : σ
  buf : Bytes
  sent : List Value
  closed : Bool

section Loop

variable {σ : Type} (svc : Service σ)

/-- The inner loop: decode and handle values until one has a reply. Each takes at least one byte, so
the buffer's length bounds the turns. -/
def serveBuffered : ℕ → Connection σ → Connection σ
  | 0, s => s
  | fuel + 1, s =>
    match (decodeValue s.buf).run with
    | .error _ => { s with closed := true }
    | .ok none => s
    | .ok (some (value, consumed)) =>
      match svc.handle s.broker value with
      -- the inner loop is left with the reply, whatever is still in the buffer
      | (some reply, broker) =>
        { s with buf := s.buf.drop consumed, broker := broker, sent := s.sent ++ [reply] }
      | (none, broker) =>
        serveBuffered fuel { s with buf := s.buf.drop consumed, broker := broker }

/-- One read. An empty one is the end of the stream. -/
def onRead (s : Connection σ) (chunk : Bytes) : Connection σ :=
  if s.closed then s
  else if chunk = [] then { s with closed := true, broker := svc.disconnect s.broker }
  else serveBuffered svc (s.buf.length + chunk.length + 1) { s with buf := s.buf ++ chunk }

def serve (broker : σ) (reads : List Bytes) : Connection σ :=
  reads.foldl (onRead svc) ⟨broker, [], [], false⟩

/-- The replies to a sequence of commands, handled one after the other. -/
def replies : σ → List Value → List Value
  | _, [] => []
  | s, v :: vs => (svc.handle s v).1.toList ++ replies (svc.handle s v).2 vs

/-- The value has a reply in every state. -/
def Answered (v : Value) : Prop := ∀ s, (svc.handle s v).1.isSome

/-! ## One read -/

variable {svc}

variable {vs : List Value} {s : Connection σ} {v : Value} {chunk : Bytes} {reads : List Bytes}
  {r : ℕ}

theorem length_replies {s : σ} (h : ∀ v ∈ vs, Answered svc v) :
    (replies svc s vs).length = vs.length := by
  induction vs generalizing s with
  | nil => rfl
  | cons v vs ih =>
    obtain ⟨hv, hvs⟩ := forall_mem_cons.mp h
    obtain ⟨reply, hrep⟩ := Option.isSome_iff_exists.mp (hv s)
    rw [replies, hrep, Option.toList_some, singleton_append, length_cons, ih hvs, length_cons]

/-- A read that completes the first waiting command answers it. -/
theorem onRead_complete {rest : Bytes} {reply : Value} {broker : σ} (hopen : s.closed = false)
    (hchk : chunk ≠ []) (hv : WellFormed v) (hbuf : s.buf ++ chunk = encodeValue v ++ rest)
    (hrep : svc.handle s.broker v = (some reply, broker)) :
    onRead svc s chunk = ⟨broker, rest, s.sent ++ [reply], false⟩ := by
  have hdec : (decodeValue (s.buf ++ chunk)).run = .ok (some (v, (encodeValue v).length)) := by
    rw [hbuf]
    exact congrArg OptionT.run (reads_of_wellFormed hv rest)
  rw [onRead, hopen, if_neg (by decide), if_neg hchk, serveBuffered]
  dsimp only
  rw [hdec]
  dsimp only
  rw [hrep, hbuf, drop_left]

/-- A read that leaves the first waiting command incomplete only fills the buffer, unless it ends
right after a type marker. -/
theorem onRead_cut (hopen : s.closed = false) (hchk : chunk ≠ []) (hv : WellFormed v)
    (hpre : s.buf ++ chunk <+: encodeValue v)
    (hlt : (s.buf ++ chunk).length < (encodeValue v).length)
    (hmarker : afterMarker v (s.buf ++ chunk).length = false) :
    onRead svc s chunk = { s with buf := s.buf ++ chunk } := by
  have hdec : (decodeValue (s.buf ++ chunk)).run = .ok none := by
    have hcut := cuts_of_wellFormed hv _ hlt
    rw [← prefix_iff_eq_take.mp hpre, hmarker] at hcut
    exact congrArg OptionT.run hcut
  rw [onRead, hopen, if_neg (by decide), if_neg hchk, serveBuffered]
  dsimp only
  rw [hdec]

/-! ## All reads -/

def wireSizes (vs : List Value) : List ℕ := vs.map fun v ↦ (encodeValue v).length

/-- No read ends right after the type marker of a command or of one of its elements. -/
def NoMarkerCut (vs : List Value) (buffered : ℕ) (reads : List Bytes) : Prop :=
  ∀ r ∈ totals buffered (reads.map List.length), afterItemMarker vs r = false

theorem NoMarkerCut.next (h : NoMarkerCut vs r (chunk :: reads)) :
    NoMarkerCut vs (r + chunk.length) reads :=
  fun t ht ↦ h t (mem_cons_of_mem _ ht)

theorem NoMarkerCut.tail (h : NoMarkerCut (v :: vs) r reads) (hr : (encodeValue v).length ≤ r) :
    NoMarkerCut vs (r - (encodeValue v).length) reads := by
  intro t ht
  rw [totals_sub hr] at ht
  obtain ⟨total, htot, rfl⟩ := mem_map.mp ht
  have hle := hr.trans (le_of_mem_totals htot)
  have hcut := h total htot
  rwa [afterItemMarker, if_neg (not_lt.mpr hle)] at hcut

/-- The replies written after the reads are those to the commands that had their turn. -/
theorem sent_foldl_onRead (hopen : s.closed = false)
    (hbuf : s.buf ++ reads.flatten = encodeItems vs) (hrds : ∀ chunk ∈ reads, chunk ≠ [])
    (hvs : ∀ v ∈ vs, WellFormed v ∧ Answered svc v) (hcut : NoMarkerCut vs s.buf.length reads) :
    (reads.foldl (onRead svc) s).sent = s.sent ++ (replies svc s.broker vs).take
        (handled (wireSizes vs) s.buf.length (reads.map List.length)) := by
  -- the invariant is that the buffer and the reads to come hold the commands not yet answered
  induction reads generalizing s vs with
  | nil => cases vs <;> rw [map_nil, handled, take_zero, append_nil] <;> rfl
  | cons chunk reads ih =>
    obtain ⟨hchk, hrds⟩ := forall_mem_cons.mp hrds
    rw [flatten_cons, ← append_assoc] at hbuf
    cases vs with
    | nil =>
      have hnil := (append_eq_nil_iff.mp (append_eq_nil_iff.mp hbuf).1).2
      exact absurd hnil hchk
    | cons v vs =>
      obtain ⟨⟨hv, hans⟩, hvs'⟩ := forall_mem_cons.mp hvs
      rw [foldl_cons, map_cons, wireSizes, map_cons, handled, ← length_append]
      rw [encodeItems] at hbuf
      have hwhole : encodeValue v <+: s.buf ++ chunk ++ reads.flatten := hbuf ▸ prefix_append _ _
      split_ifs with hle
      · -- the command is complete: it is answered, and the rest of the buffer waits
        obtain ⟨rest, hrest⟩ := prefix_of_prefix_length_le hwhole (prefix_append _ _) hle
        obtain ⟨reply, hrep⟩ := Option.isSome_iff_exists.mp (hans s.broker)
        have hlen : rest.length = (s.buf ++ chunk).length - (encodeValue v).length := by
          rw [← hrest, length_append, Nat.add_sub_cancel_left]
        rw [onRead_complete hopen hchk hv hrest.symm (Prod.ext hrep rfl), ih rfl _ hrds hvs',
          replies, hrep, Option.toList_some, singleton_append, take_succ_cons,
          append_assoc, singleton_append, hlen]
        · rfl
        · rw [hlen, length_append]
          exact NoMarkerCut.tail hcut.next (by rwa [← length_append])
        · rw [← hrest, append_assoc] at hbuf
          exact append_cancel_left hbuf
      · -- the command is cut: nothing happens
        rw [not_le] at hle
        have hpre := prefix_of_prefix_length_le (prefix_append _ _) hwhole hle.le
        have hmarker := hcut _ mem_cons_self
        rw [← length_append, afterItemMarker, if_pos hle] at hmarker
        have hnext : NoMarkerCut (v :: vs) (s.buf ++ chunk).length reads := by
          rw [length_append]
          exact hcut.next
        rw [onRead_cut hopen hchk hv hpre hle hmarker]
        exact @ih (v :: vs) { s with buf := s.buf ++ chunk } hopen hbuf hrds hvs hnext

end Loop

/-! ## The broker as a service -/

/-- What a command finds outside the broker: the clock, and the channels that are still open. -/
structure Moment where
  now : ℕ
  isOpen : String → Bool

/-- The broker as one connection uses it, with the frames it has pushed and the commands counted. -/
structure Session where
  broker : RespBroker
  pushed : List Push
  turn : ℕ

def respService (upper : String → String) (connId : String) (moments : ℕ → Moment) :
    Service Session where
  handle s value :=
    let moment := moments s.turn
    let (reply, pushed, broker) :=
      handleValue upper s.broker moment.isOpen connId moment.now value
    (reply, ⟨broker, s.pushed ++ pushed, s.turn + 1⟩)
  disconnect s := { s with broker := s.broker.disconnect connId }

/-- `SUBSCRIBE` and `UNSUBSCRIBE`, the commands whose answers go over the channel. -/
def isPubSub (upper : String → String) (value : Value) : Bool :=
  match value.asArray with
  | none | some [] => false
  | some cmd => commandName upper cmd = "SUBSCRIBE" || commandName upper cmd = "UNSUBSCRIBE"

theorem answered_of_not_isPubSub {upper : String → String} {v : Value}
    (h : isPubSub upper v = false) (connId : String) (moments : ℕ → Moment) :
    Answered (respService upper connId moments) v := by
  intro s
  change (handleValue _ _ _ _ _ v).1.isSome
  unfold isPubSub at h
  unfold handleValue
  cases harray : v.asArray with
  | none => rfl
  | some cmd =>
    rw [harray] at h
    cases cmd with
    | nil => rfl
    | cons c cs =>
      simp only [Bool.or_eq_false_iff, decide_eq_false_iff_not] at h
      dsimp only
      split <;> rename_i hname
      · rfl
      · exact absurd hname h.1
      · exact absurd hname h.2
      · rfl
      · rfl

/-- **Pipelining.** The bytes of some request/response commands arrive in non-empty reads, none of
which ends right after a type marker. All commands are answered when all bytes are read if and only
if at the start and after every read there are no more incomplete commands than reads to come. -/
theorem pipelining (upper : String → String) (connId : String) (moments : ℕ → Moment)
    (start : Session) (cmds : List Value)
    (hcmds : ∀ v ∈ cmds, WellFormed v ∧ isPubSub upper v = false) (reads : List Bytes)
    (hreads : ∀ chunk ∈ reads, chunk ≠ []) (hbytes : reads.flatten = encodeItems cmds)
    (hcut : NoMarkerCut cmds 0 reads) :
    (serve (respService upper connId moments) start reads).sent =
        replies (respService upper connId moments) start cmds ↔
      Paced cmds.length
        (0 :: (totals 0 (reads.map List.length)).map (completed (wireSizes cmds))) := by
  have hanswer : ∀ v ∈ cmds, WellFormed v ∧ Answered (respService upper connId moments) v :=
    fun v hv ↦ ⟨(hcmds v hv).1, answered_of_not_isPubSub (hcmds v hv).2 connId moments⟩
  have hlength : (replies (respService upper connId moments) start cmds).length = cmds.length :=
    length_replies fun v hv ↦ (hanswer v hv).2
  have hsizes : (wireSizes cmds).length = cmds.length := length_map _
  have hsent : (serve (respService upper connId moments) start reads).sent = _ :=
    sent_foldl_onRead rfl hbytes hreads hanswer hcut
  rw [hsent, nil_append, take_eq_self_iff, hlength, ← hsizes, ← length_le_handled_iff]
  rfl

def ping : Value := .array [.text "PING"]

def fresh : Session := ⟨.new (.withObjectStore .empty), [], 0⟩

theorem pipelining_two_reads :
    (serve (respService asciiUpper "conn-1" fun _ ↦ ⟨0, fun _ ↦ true⟩) fresh
        [encodeValue ping, encodeValue ping]).sent =
      replies (respService asciiUpper "conn-1" fun _ ↦ ⟨0, fun _ ↦ true⟩) fresh [ping, ping] :=
  (pipelining asciiUpper "conn-1" (fun _ ↦ ⟨0, fun _ ↦ true⟩) fresh [ping, ping]
    (by decide) [encodeValue ping, encodeValue ping] (by decide) (by decide)
    (by unfold NoMarkerCut; decide)).mpr (by decide)

/-- Two commands in one read: the second one is not answered. -/
theorem pipelining_one_read : (∀ v ∈ [ping, ping], WellFormed v ∧ isPubSub asciiUpper v = false) ∧
    (serve (respService asciiUpper "conn-1" fun _ ↦ ⟨0, fun _ ↦ true⟩) fresh
        [encodeItems [ping, ping]]).sent = [.simpleString "PONG"] ∧
    replies (respService asciiUpper "conn-1" fun _ ↦ ⟨0, fun _ ↦ true⟩) fresh [ping, ping] =
      [.simpleString "PONG", .simpleString "PONG"] :=
  ⟨by decide, rfl, rfl⟩

end Synapse.Resp
