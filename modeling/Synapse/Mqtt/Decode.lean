import Synapse.Mqtt.Reader

/-!
# Decoding MQTT packets

`decodePacket` is the entry point for untrusted input. It reads the fixed header (type, flags and
the length of the body), waits with `none` until the body is there, and decodes the body by packet
type. The body decoders see the body only.

What comes of it is a matter of the frame alone: a packet is decoded from its own bytes, whatever
follows them, and from no fewer (`decodePacket_framing`).
-/

namespace Synapse.Mqtt

open ByteCode Parse Parse.Parser Reader List

abbrev malformed {β : Type} (reason : String) : Result β := .error (.fail (.malformed reason))

def parseId (body : Bytes) : Result UInt16 :=
  if body.length < 2 then malformed "expected packet id"
  else do return .ofNat (beNat [← index body 0, ← index body 1])

/-- A property block is there under version 5 only. -/
def propertiesFor (version : ProtocolVersion) : Reader (Option Properties) :=
  optional (version = .v5) properties

def reasonCode : Reader ReasonCode := do
  let v ← u8
  ofExcept (ReasonCode.fromU8 v)

/-- A reason, and a property block if anything follows. -/
def reasonTail : Reader (ReasonCode × Option Properties) := do
  let reason ← reasonCode
  if (← remaining) = 0 then return (reason, none)
  else return (reason, some (← properties))

/-- The shape of PUBACK, PUBREC, PUBREL and PUBCOMP: under version 5 the reason and the properties
may be left out. -/
def decodeSimpleAck (body : Bytes) (version : ProtocolVersion) :
    Result (UInt16 × ReasonCode × Option Properties) :=
  if version ≠ .v5 then do return (← parseId body, .success, none)
  else run body do
    let packetId ← u16
    if (← remaining) = 0 then return (packetId, .success, none)
    else return (packetId, ← reasonTail)

/-- The shape of a version 5 DISCONNECT and of AUTH. -/
def decodeReasonProperties (body : Bytes) : Result (ReasonCode × Option Properties) :=
  if body.isEmpty then .ok (.success, none) else run body reasonTail

def protocolLevel : UInt8 → Except ProtocolError ProtocolVersion
  | 4 => .ok .v311
  | 5 => .ok .v5
  | _ => .error (.malformed "unsupported protocol level")

/-- The will of a CONNECT; its quality of service and retain flag are in the connect flags. -/
def connectWill (version : ProtocolVersion) (qos : QoS) (retain : Bool) : Reader Will := do
  let properties ← propertiesFor version
  let topic ← string
  let payload ← binary
  return ⟨topic, payload, qos, retain, properties⟩

def decodeConnect (body : Bytes) : Result Packet := run body do
  let proto ← string
  rejectIf (proto ≠ "MQTT") (.malformed "bad protocol name")
  let level ← u8
  let version ← ofExcept (protocolLevel level)
  let connectFlags ← u8
  let keepAlive ← u16
  let properties ← propertiesFor version
  let clientId ← string
  let cleanSession := connectFlags &&& 0x02 != 0
  let willFlag := connectFlags &&& 0x04 != 0
  let willRetain := connectFlags &&& 0x20 != 0
  let willQos ← okOr (QoS.fromU8 ((connectFlags >>> 3) &&& 0x03)) (.malformed "bad will qos")
  let usernameFlag := connectFlags &&& 0x80 != 0
  let passwordFlag := connectFlags &&& 0x40 != 0
  let will ← optional willFlag (connectWill version willQos willRetain)
  let username ← optional usernameFlag string
  let password ← optional passwordFlag binary
  return .connect ⟨version, clientId, keepAlive, cleanSession, will, username, password, properties⟩

def decodeConnack (body : Bytes) (version : ProtocolVersion) : Result Packet :=
  if body.length < 2 then malformed "connack too short"
  else do
    let sessionPresent := (← index body 0) &&& 0x01 != 0
    let code ← index body 1
    if version = .v5 then
      let rest ← slice body 2 body.length
      let properties ← run rest properties
      return .connAck sessionPresent code (some properties)
    else return .connAck sessionPresent code none

def decodePublish (body : Bytes) (flags : UInt8) (version : ProtocolVersion) : Result Packet :=
  run body do
    let dup := flags &&& 0x08 != 0
    let qos ← okOr (QoS.fromU8 ((flags >>> 1) &&& 0x03)) (.malformed "bad publish qos")
    let retain := flags &&& 0x01 != 0
    let topic ← string
    let packetId ← optional (qos ≠ .atMostOnce) u16
    let properties ← propertiesFor version
    rejectIf (version = .v311 ∧ topic.isEmpty) (.malformed "empty publish topic")
    let payload ← bytes (← remaining)
    return .publish ⟨dup, qos, retain, topic, packetId, payload, properties⟩

def subscribeTopic (version : ProtocolVersion) : Reader SubscribeTopic := do
  let filter ← string
  let opts ← u8
  let qos ← okOr (QoS.fromU8 (opts &&& 0x03)) (.malformed "bad subscribe qos")
  if version = .v5 then
    let retainHandling ← ofExcept (RetainHandling.fromBits ((opts >>> 4) &&& 0x03))
    return ⟨filter, qos, opts &&& 0x04 != 0, opts &&& 0x08 != 0, retainHandling⟩
  else return ⟨filter, qos, false, false, .sendAtSubscribe⟩

/-- `while r.remaining() >= n { items.push(item) }`. -/
def collect {β : Type} (n : ℕ) (item : Reader β) : Reader (List β) :=
  whileDo (do return n ≤ (← remaining)) (fun items ↦ do return items ++ [← item]) []

def decodeSubscribe (body : Bytes) (version : ProtocolVersion) : Result Packet := run body do
  let packetId ← u16
  let properties ← propertiesFor version
  let topics ← collect 3 (subscribeTopic version)
  rejectIf topics.isEmpty (.malformed "subscribe has no topics")
  return .subscribe packetId topics properties

def decodeSuback (body : Bytes) (version : ProtocolVersion) : Result Packet := run body do
  let packetId ← u16
  if version = .v5 then
    let properties ← properties
    let reasons ← collect 1 reasonCode
    return .subAck packetId (reasons.map ReasonCode.toSubacklike) (some reasons) (some properties)
  else
    let codes ← collect 1 (SubAckCode.fromU8 <$> u8)
    return .subAck packetId codes none none

def decodeUnsubscribe (body : Bytes) (version : ProtocolVersion) : Result Packet := run body do
  let packetId ← u16
  let properties ← propertiesFor version
  let topics ← collect 2 string
  return .unsubscribe packetId topics properties

def decodeUnsuback (body : Bytes) (version : ProtocolVersion) : Result Packet :=
  if version = .v5 then run body do
    let packetId ← u16
    let properties ← properties
    let reasons ← collect 1 reasonCode
    return .unsubAck packetId (some reasons) (some properties)
  else do return .unsubAck (← parseId body) none none

/-- The body of a packet, by its type. -/
def decodeBody (packetType flags : UInt8) (body : Bytes) (version : ProtocolVersion) :
    Result Packet :=
  match packetType with
  | PacketType.connect => decodeConnect body
  | PacketType.connack => decodeConnack body version
  | PacketType.publish => decodePublish body flags version
  | PacketType.puback => do
    let (packetId, reason, properties) ← decodeSimpleAck body version
    return .pubAck packetId reason properties
  | PacketType.pubrec => do
    let (packetId, reason, properties) ← decodeSimpleAck body version
    return .pubRec packetId reason properties
  | PacketType.pubrel =>
    if flags ≠ 0x02 then malformed "PUBREL must use flags 0x02"
    else do
      let (packetId, reason, properties) ← decodeSimpleAck body version
      return .pubRel packetId reason properties
  | PacketType.pubcomp => do
    let (packetId, reason, properties) ← decodeSimpleAck body version
    return .pubComp packetId reason properties
  | PacketType.subscribe =>
    if flags ≠ 0x02 then malformed "SUBSCRIBE must use flags 0x02"
    else decodeSubscribe body version
  | PacketType.suback => decodeSuback body version
  | PacketType.unsubscribe =>
    if flags ≠ 0x02 then malformed "UNSUBSCRIBE must use flags 0x02"
    else decodeUnsubscribe body version
  | PacketType.unsuback => decodeUnsuback body version
  | PacketType.pingreq => .ok .pingReq
  | PacketType.pingresp => .ok .pingResp
  | PacketType.disconnect =>
    if version = .v5 then do
      let (reason, properties) ← decodeReasonProperties body
      return .disconnect reason properties
    else .ok (.disconnect .success none)
  | PacketType.auth => do
    let (reason, properties) ← decodeReasonProperties body
    return .auth reason properties
  | _ => malformed "unknown packet type"

def decodeFrame (buf : Bytes) (version : ProtocolVersion) (first : UInt8) (remainingLen : UInt32)
    (varintLen : ℕ) : Result (Option (Packet × ℕ)) :=
  let packetType := first >>> 4
  let flags := first &&& 0x0F
  let headerLen := 1 + varintLen
  let total := headerLen + remainingLen.toNat
  if buf.length < total then .ok none
  else do
    let body ← slice buf headerLen total
    let packet ← decodeBody packetType flags body version
    return some (packet, total)

/-- Parse one packet from the front of `buf`: a packet and the bytes it spans, or `none` if `buf` is
the beginning of one. -/
def decodePacket (buf : Bytes) (version : ProtocolVersion) : Result (Option (Packet × ℕ)) :=
  if buf.isEmpty then .ok none
  else do
    let (first, pos) ← u8 buf 0
    match varint buf pos with
    | .error (.fail .incomplete) => .ok none
    | .error e => .error e
    | .ok ((remainingLen, varintLen), _) => decodeFrame buf version first remainingLen varintLen

/-! ## Decoding a body does not go wrong -/

variable (body : Bytes) (version : ProtocolVersion)

theorem regular_parseId : (parseId body).Regular := by
  rw [parseId]
  split_ifs with hsrt
  · trivial
  · rw [index_of_lt (show 0 < body.length by omega), index_of_lt (show 1 < body.length by omega)]
    trivial

theorem safe_propertiesFor : Safe (propertiesFor version) := safe_properties.optional _

theorem advances_reasonCode : Advances reasonCode :=
  advances_u8.bind fun v ↦ safe_ofExcept (ReasonCode.fromU8 v)

theorem safe_collect {β : Type} (n : ℕ) {item : Reader β} (hitem : Advances item) :
    Safe (collect n item) := by
  apply safe_whileDo
  · exact safe_remaining.bind fun _ ↦ safe_pure _
  · intro items
    exact hitem.bind fun _ ↦ safe_pure _

theorem safe_reasonTail : Safe reasonTail := by
  apply advances_reasonCode.safe.bind
  intro reason
  apply safe_remaining.bind
  intro left
  split_ifs
  · exact safe_pure _
  · exact safe_properties.bind fun _ ↦ safe_pure _

theorem regular_decodeSimpleAck : (decodeSimpleAck body version).Regular := by
  rw [decodeSimpleAck]
  split_ifs
  · exact (regular_parseId body).bind fun _ _ ↦ trivial
  apply Safe.run
  apply takes_u16.safe.bind
  intro packetId
  apply safe_remaining.bind
  intro left
  split_ifs
  · exact safe_pure _
  · exact safe_reasonTail.bind fun _ ↦ safe_pure _

theorem regular_decodeReasonProperties : (decodeReasonProperties body).Regular := by
  rw [decodeReasonProperties]
  split_ifs
  · trivial
  · exact safe_reasonTail.run body

theorem safe_connectWill (qos : QoS) (retain : Bool) : Safe (connectWill version qos retain) := by
  apply (safe_propertiesFor version).bind
  intro properties
  apply safe_string.bind
  intro topic
  exact safe_binary.bind fun _ ↦ safe_pure _

theorem regular_decodeConnect : (decodeConnect body).Regular := by
  apply Safe.run
  apply safe_string.bind
  intro proto
  apply (safe_rejectIf _ _).bind
  intro _
  apply takes_u8.safe.bind
  intro level
  apply (safe_ofExcept _).bind
  intro version
  apply takes_u8.safe.bind
  intro connectFlags
  apply takes_u16.safe.bind
  intro keepAlive
  apply (safe_propertiesFor version).bind
  intro properties
  apply safe_string.bind
  intro clientId
  apply (safe_okOr _ _).bind
  intro willQos
  apply ((safe_connectWill version willQos _).optional _).bind
  intro will
  apply (safe_string.optional _).bind
  intro username
  apply (safe_binary.optional _).bind
  intro password
  exact safe_pure _

theorem regular_decodeConnack : (decodeConnack body version).Regular := by
  rw [decodeConnack]
  split_ifs with hsrt hv5
  · trivial
  · rw [index_of_lt (show 0 < body.length by omega), index_of_lt (show 1 < body.length by omega),
      slice_of_le (by omega) le_rfl]
    apply Outcome.Regular.bind (safe_properties.run _)
    intro properties _
    trivial
  · rw [index_of_lt (show 0 < body.length by omega), index_of_lt (show 1 < body.length by omega)]
    trivial

theorem regular_decodePublish (flags : UInt8) (version : ProtocolVersion) :
    (decodePublish body flags version).Regular := by
  apply Safe.run
  apply (safe_okOr _ _).bind
  intro qos
  apply safe_string.bind
  intro topic
  apply (takes_u16.safe.optional _).bind
  intro packetId
  apply (safe_propertiesFor version).bind
  intro properties
  apply (safe_rejectIf _ _).bind
  intro _
  apply safe_remaining.bind
  intro left
  exact (takes_bytes left).safe.bind fun _ ↦ safe_pure _

theorem advances_subscribeTopic : Advances (subscribeTopic version) := by
  apply advances_string.bind
  intro filter
  apply takes_u8.safe.bind
  intro opts
  apply (safe_okOr _ _).bind
  intro qos
  split_ifs
  · exact (safe_ofExcept _).bind fun _ ↦ safe_pure _
  · exact safe_pure _

section

variable (body : Bytes) (version : ProtocolVersion)

theorem regular_decodeSubscribe : (decodeSubscribe body version).Regular := by
  apply Safe.run
  apply takes_u16.safe.bind
  intro packetId
  apply (safe_propertiesFor version).bind
  intro properties
  apply (safe_collect 3 (advances_subscribeTopic version)).bind
  intro topics
  exact (safe_rejectIf _ _).bind fun _ ↦ safe_pure _

theorem regular_decodeSuback : (decodeSuback body version).Regular := by
  apply Safe.run
  apply takes_u16.safe.bind
  intro packetId
  split_ifs
  · apply safe_properties.bind
    intro properties
    exact (safe_collect 1 advances_reasonCode).bind fun _ ↦ safe_pure _
  · exact (safe_collect 1 (advances_u8.bind fun _ ↦ safe_pure _)).bind fun _ ↦ safe_pure _

theorem regular_decodeUnsubscribe : (decodeUnsubscribe body version).Regular := by
  apply Safe.run
  apply takes_u16.safe.bind
  intro packetId
  apply (safe_propertiesFor version).bind
  intro properties
  exact (safe_collect 2 advances_string).bind fun _ ↦ safe_pure _

theorem regular_decodeUnsuback : (decodeUnsuback body version).Regular := by
  rw [decodeUnsuback]
  split_ifs
  · apply Safe.run
    apply takes_u16.safe.bind
    intro packetId
    apply safe_properties.bind
    intro properties
    exact (safe_collect 1 advances_reasonCode).bind fun _ ↦ safe_pure _
  · exact (regular_parseId body).bind fun _ _ ↦ trivial

end

theorem regular_decodeBody (packetType flags : UInt8) (body : Bytes) (version : ProtocolVersion) :
    (decodeBody packetType flags body version).Regular := by
  have hack := regular_decodeSimpleAck body version
  have hrea := regular_decodeReasonProperties body
  unfold decodeBody
  split
  · exact regular_decodeConnect body
  · exact regular_decodeConnack body version
  · exact regular_decodePublish body flags version
  · exact hack.bind fun _ _ ↦ trivial
  · exact hack.bind fun _ _ ↦ trivial
  · split_ifs
    · trivial
    · exact hack.bind fun _ _ ↦ trivial
  · exact hack.bind fun _ _ ↦ trivial
  · split_ifs
    · trivial
    · exact regular_decodeSubscribe body version
  · exact regular_decodeSuback body version
  · split_ifs
    · trivial
    · exact regular_decodeUnsubscribe body version
  · exact regular_decodeUnsuback body version
  · trivial
  · trivial
  · split_ifs
    · exact hrea.bind fun _ _ ↦ trivial
    · trivial
  · exact hrea.bind fun _ _ ↦ trivial
  · trivial

/-! ## The fixed header -/

/-- The first byte, then the length of the body and how many bytes it takes. -/
def fixedHeader : Reader (UInt8 × UInt32 × ℕ) := do
  let first ← u8
  let len ← varint
  return (first, len)

theorem ensures_fixedHeader (pos : ℕ) :
    Ensures pos fixedHeader fun h pos' ↦ pos' = pos + 1 + h.2.2 ∧ 0 < h.2.2 := by
  apply (takes_u8.ensures pos).bind
  rintro first _ rfl
  apply (ensures_varint (pos + 1)).bind
  rintro len _ ⟨rfl, hlen⟩
  apply (ensures_pure _ _).imp
  rintro _ _ ⟨rfl, rfl⟩
  exact ⟨rfl, Nat.pos_of_lt_add_right hlen⟩

theorem streams_fixedHeader : Streams .incomplete fixedHeader := by
  apply takes_u8.streams.bind (P := fun _ ↦ True) takes_u8.safe
  · intro first _
    exact streams_varint.bind (P := fun _ ↦ True) safe_varint (fun _ _ ↦ streams_pure _)
      fun _ _ ↦ safe_pure _
  · intro first _
    exact safe_varint.bind fun _ ↦ safe_pure _

section Framing

variable {buf : Bytes} {version : ProtocolVersion}

theorem u8_cons (first : UInt8) (rest : Bytes) : u8 (first :: rest) 0 = .ok (first, 1) := by
  have hrds : Reads 0 rest u8 [first] first := takes_u8.reads 0 rest rfl
  exact hrds (first :: rest) (Nat.zero_le _) rfl

theorem fixedHeader_cons (first : UInt8) (rest : Bytes) : fixedHeader (first :: rest) 0 =
      varint (first :: rest) 1 >>= fun r ↦ .ok ((first, r.1), r.2) := by
  rw [fixedHeader, bind_of_ok (u8_cons first rest)]
  rfl

theorem decodePacket_eq (buf : Bytes) (version : ProtocolVersion) : decodePacket buf version =
    match fixedHeader buf 0 with
    | .error (.fail .incomplete) => .ok none
    | .error e => .error e
    | .ok ((first, len, n), _) => decodeFrame buf version first len n := by
  rcases buf with _ | ⟨first, rest⟩
  · rfl
  rw [decodePacket, isEmpty_cons, if_neg Bool.false_ne_true, u8_cons, fixedHeader_cons]
  dsimp only [bind, Except.bind]
  rcases varint (first :: rest) 1 with ((_ | _) | _ | _) | _ <;> rfl

theorem decodePacket_of_incomplete (h : fixedHeader buf 0 = .error (.fail .incomplete)) :
    decodePacket buf version = .ok none := by
  rw [decodePacket_eq, h]

theorem decodePacket_of_error {e : Fault ProtocolError} (h : fixedHeader buf 0 = .error e)
    (he : e ≠ .fail .incomplete) : decodePacket buf version = .error e := by
  rw [decodePacket_eq, h]
  rcases e with (_ | reason) | _ | _
  · exact absurd rfl he
  all_goals rfl

variable {first : UInt8} {len : UInt32} {n total : ℕ} {packet : Packet}

theorem decodePacket_of_header {pos : ℕ} (h : fixedHeader buf 0 = .ok ((first, len, n), pos)) :
    decodePacket buf version = decodeFrame buf version first len n := by
  rw [decodePacket_eq, h]

theorem decodeFrame_of_lt (h : buf.length < 1 + n + len.toNat) :
    decodeFrame buf version first len n = .ok none :=
  if_pos h

theorem decodeFrame_of_le (h : 1 + n + len.toNat ≤ buf.length) :
    decodeFrame buf version first len n =
      decodeBody (first >>> 4) (first &&& 0x0F) ((buf.take (1 + n + len.toNat)).drop (1 + n))
        version >>= fun packet ↦ .ok (some (packet, 1 + n + len.toNat)) := by
  dsimp only [decodeFrame]
  rw [if_neg (Nat.not_lt.mpr h), slice_of_le (Nat.le_add_right _ _) h]
  rfl

/-- The three ways a call ends: it waits, the header is wrong, or the body is decoded. -/
theorem decodePacket_cases (buf : Bytes) (version : ProtocolVersion) :
    decodePacket buf version = .ok none ∨
    (∃ e, fixedHeader buf 0 = .error e ∧ e ≠ .fail .incomplete ∧
      decodePacket buf version = .error e) ∨
    ∃ first len n, fixedHeader buf 0 = .ok ((first, len, n), 1 + n) ∧ 0 < n ∧
      1 + n + len.toNat ≤ buf.length ∧
      decodePacket buf version = decodeFrame buf version first len n := by
  rcases hhd : fixedHeader buf 0 with e | ⟨⟨first, len, n⟩, pos⟩
  · by_cases he : e = .fail .incomplete
    · exact .inl (decodePacket_of_incomplete (he ▸ hhd))
    · exact .inr (.inl ⟨e, rfl, he, decodePacket_of_error hhd he⟩)
  obtain ⟨-, -, hpos, hn⟩ := (ensures_fixedHeader 0 buf (Nat.zero_le _)).2 _ pos hhd
  have hfrm : decodePacket buf version = decodeFrame buf version first len n :=
    decodePacket_of_header hhd
  by_cases hlen : 1 + n + len.toNat ≤ buf.length
  · refine .inr (.inr ⟨first, len, n, ?_, hn, hlen, hfrm⟩)
    rw [hpos, zero_add]
  · left
    rw [hfrm, decodeFrame_of_lt (lt_of_not_ge hlen)]

theorem regular_decodePacket (buf : Bytes) (version : ProtocolVersion) :
    (decodePacket buf version).Regular := by
  have hhd := (ensures_fixedHeader 0 buf (Nat.zero_le _)).1
  obtain heq | ⟨e, he, -, heq⟩ | ⟨first, len, n, -, -, hlen, heq⟩ := decodePacket_cases buf version
  · rw [heq]
    trivial
  · rw [he] at hhd
    rwa [heq]
  · rw [heq, decodeFrame_of_le hlen]
    exact (regular_decodeBody _ _ _ _).bind fun _ _ ↦ trivial

section

variable (h : decodePacket buf version = .ok (some (packet, total)))

include h

theorem decodePacket_eq_some :
    ∃ first len n, fixedHeader buf 0 = .ok ((first, len, n), 1 + n) ∧ 0 < n ∧
      total = 1 + n + len.toNat ∧ total ≤ buf.length ∧
      decodeBody (first >>> 4) (first &&& 0x0F) ((buf.take total).drop (1 + n)) version =
        .ok packet := by
  obtain heq | ⟨e, -, -, heq⟩ | ⟨first, len, n, hhd, hn, hlen, heq⟩ :=
    decodePacket_cases buf version
  · cases heq.symm.trans h
  · cases heq.symm.trans h
  rw [heq, decodeFrame_of_le hlen] at h
  rcases hbody : decodeBody (first >>> 4) (first &&& 0x0F)
      ((buf.take (1 + n + len.toNat)).drop (1 + n)) version with e | packet'
  · rw [hbody] at h
    cases h
  · rw [hbody] at h
    cases h
    exact ⟨first, len, n, hhd, hn, rfl, hlen, hbody⟩

theorem decodePacket_take_append (rest : Bytes) :
    decodePacket (buf.take total ++ rest) version = .ok (some (packet, total)) := by
  obtain ⟨first, len, n, hhd, -, rfl, hlen, hbody⟩ := decodePacket_eq_some h
  set total := 1 + n + len.toNat with htot
  have htake : (buf.take total).length = total := length_take_of_le hlen
  have hcut : fixedHeader (buf.take total) 0 = .ok ((first, len, n), 1 + n) :=
    streams_fixedHeader.take_of_ok (Nat.zero_le _) hhd (by omega)
  have happ : fixedHeader (buf.take total ++ rest) 0 = .ok ((first, len, n), 1 + n) := by
    rw [streams_fixedHeader.append (Nat.zero_le _) _ rest, hcut]
    rw [hcut]
    exact nofun
  have hle : total ≤ (buf.take total ++ rest).length := by
    rw [length_append]
    omega
  rw [decodePacket_of_header happ, decodeFrame_of_le hle, take_left' htake, hbody]
  rfl

theorem decodePacket_take_of_lt {k : ℕ}
    (hk : k < total) : decodePacket (buf.take k) version = .ok none := by
  obtain ⟨first, len, n, hhd, -, rfl, hlen, -⟩ := decodePacket_eq_some h
  rcases streams_fixedHeader.take (Nat.zero_le (buf.take k).length) with hsrt | hsame
  · exact decodePacket_of_incomplete hsrt
  · rw [decodePacket_of_header (hsame.trans hhd), decodeFrame_of_lt]
    rw [length_take]
    omega

end

/-- More bytes do not repair an error. -/
theorem decodePacket_append_of_error {e : ProtocolError}
    (h : decodePacket buf version = .error (.fail e)) (rest : Bytes) :
    decodePacket (buf ++ rest) version = .error (.fail e) := by
  have happ := streams_fixedHeader.append (Nat.zero_le buf.length)
  obtain heq | ⟨e', hhd, he', heq⟩ | ⟨first, len, n, hhd, -, hlen, heq⟩ :=
    decodePacket_cases buf version
  · cases heq.symm.trans h
  · obtain rfl := Except.error.inj (heq.symm.trans h)
    apply decodePacket_of_error _ he'
    rw [happ (by rw [hhd]; exact fun heq ↦ he' (Except.error.inj heq)), hhd]
  have hsame : fixedHeader (buf ++ rest) 0 = .ok ((first, len, n), 1 + n) := by
    rw [happ (by rw [hhd]; exact nofun), hhd]
  have hle : 1 + n + len.toNat ≤ (buf ++ rest).length := by
    rw [length_append]
    omega
  -- the frame lies within the first buffer, so the body is the same
  rw [heq, decodeFrame_of_le hlen] at h
  rwa [decodePacket_of_header hsame, decodeFrame_of_le hle, take_append_of_le_length hlen]

end Framing

/-- **Framing.** Decoding indexes in range and ends. A packet of `n` bytes is decoded from these
bytes, whatever follows, and from no fewer; an error stays one when more bytes arrive. -/
theorem decodePacket_framing (buf : Bytes) (version : ProtocolVersion) :
    (decodePacket buf version ≠ .error .panic ∧ decodePacket buf version ≠ .error .spin) ∧
    (∀ packet n, decodePacket buf version = .ok (some (packet, n)) → 2 ≤ n ∧ n ≤ buf.length ∧
      (∀ k < n, decodePacket (buf.take k) version = .ok none) ∧
      ∀ rest, decodePacket (buf.take n ++ rest) version = .ok (some (packet, n))) ∧
    ∀ e, decodePacket buf version = .error (.fail e) →
      ∀ rest, decodePacket (buf ++ rest) version = .error (.fail e) := by
  have hregular := regular_decodePacket buf version
  refine ⟨⟨hregular.ne_panic, hregular.ne_spin⟩, fun packet n h ↦ ?_, fun e h ↦ ?_⟩
  · obtain ⟨first, len, k, -, hk, hn, hlen, -⟩ := decodePacket_eq_some h
    exact ⟨by omega, hlen, fun _ ↦ decodePacket_take_of_lt h, decodePacket_take_append h⟩
  · exact decodePacket_append_of_error h

example : decodePacket [0xC0, 0x00, 0xC0] .v311 = .ok (some (.pingReq, 2)) := by decide +kernel

end Synapse.Mqtt
