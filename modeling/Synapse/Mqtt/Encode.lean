import Synapse.Lib.Bytes
import Synapse.Mqtt.Packet
import Synapse.Routing.Topic

/-!
# Encoding MQTT packets

The `Writer` of the codec collects bytes; `encodePacket` writes the body of a packet into one, and
then the fixed header and the body to the output. A length is cast to the width of its field, so
what does not fit is cut off and the encoding is wrong: which packets have one that can be read
back is the subject of the round trip.
-/

namespace Synapse.Mqtt

open ByteCode

structure Writer where
  buf : Bytes

namespace Writer

def new : Writer := ⟨[]⟩

def u8 (w : Writer) (v : UInt8) : Writer := ⟨w.buf ++ [v]⟩

def u16 (w : Writer) (v : UInt16) : Writer := ⟨w.buf ++ beBytes 2 v.toNat⟩

def u32 (w : Writer) (v : UInt32) : Writer := ⟨w.buf ++ beBytes 4 v.toNat⟩

def bytes (w : Writer) (b : Bytes) : Writer := ⟨w.buf ++ b⟩

def string (w : Writer) (s : String) : Writer :=
  let b := asBytes s
  (w.u16 (.ofNat b.length)).bytes b

def binary (w : Writer) (b : Bytes) : Writer := (w.u16 (.ofNat b.length)).bytes b

/-- The loop of `varint`, for at most so many rounds. -/
def varintLoop : ℕ → Writer → UInt32 → Writer
  | 0, w, _ => w
  | n + 1, w, v =>
    let b := (v &&& 0x7F).toUInt8
    let v := v >>> 7
    let w := w.u8 (if 0 < v then b ||| 0x80 else b)
    if v = 0 then w else varintLoop n w v

/-- A variable-byte integer. Seven bits are written a round, so five rounds write all 32. -/
def varint (w : Writer) (v : UInt32) : Writer := varintLoop 5 w v

/-- `if let Some(v) = o { write(v) }`. -/
def ifSome {β : Type} (w : Writer) (write : Writer → β → Writer) : Option β → Writer
  | none => w
  | some v => write w v

/-- A property that may be absent. -/
def option {β : Type} (w : Writer) (id : UInt8) (write : Writer → β → Writer)
    (o : Option β) : Writer :=
  w.ifSome (fun w v ↦ write (w.u8 id) v) o

def userProperty (w : Writer) (property : String × String) : Writer :=
  ((w.u8 PropId.userProperty).string property.1).string property.2

/-- The properties of a block, without its length. -/
def propertiesBody (p : Properties) : Writer :=
  let body := Writer.new
    |>.option PropId.payloadFormatIndicator u8 p.payloadFormatIndicator
    |>.option PropId.messageExpiryInterval u32 p.messageExpiryInterval
    |>.option PropId.contentType string p.contentType
    |>.option PropId.responseTopic string p.responseTopic
    |>.option PropId.correlationData binary p.correlationData
    |>.option PropId.subscriptionIdentifier varint p.subscriptionIdentifier
    |>.option PropId.sessionExpiryInterval u32 p.sessionExpiryInterval
    |>.option PropId.assignedClientIdentifier string p.assignedClientIdentifier
    |>.option PropId.serverKeepAlive u16 p.serverKeepAlive
    |>.option PropId.authenticationMethod string p.authenticationMethod
    |>.option PropId.authenticationData binary p.authenticationData
    |>.option PropId.requestProblemInformation u8 p.requestProblemInformation
    |>.option PropId.willDelayInterval u32 p.willDelayInterval
    |>.option PropId.requestResponseInformation u8 p.requestResponseInformation
    |>.option PropId.responseInformation string p.responseInformation
    |>.option PropId.serverReference string p.serverReference
    |>.option PropId.reasonString string p.reasonString
    |>.option PropId.receiveMaximum u16 p.receiveMaximum
    |>.option PropId.topicAliasMaximum u16 p.topicAliasMaximum
    |>.option PropId.topicAlias u16 p.topicAlias
    |>.option PropId.maximumQos u8 p.maximumQos
    |>.option PropId.retainAvailable u8 p.retainAvailable
  p.userProperties.foldl userProperty body
    |>.option PropId.maximumPacketSize u32 p.maximumPacketSize
    |>.option PropId.wildcardSubscriptionAvailable u8 p.wildcardSubscriptionAvailable
    |>.option PropId.subscriptionIdentifierAvailable u8 p.subscriptionIdentifierAvailable
    |>.option PropId.sharedSubscriptionAvailable u8 p.sharedSubscriptionAvailable

def properties (w : Writer) (p : Properties) : Writer :=
  let body := propertiesBody p
  (w.varint (.ofNat body.buf.length)).bytes body.buf

def propertiesFor (version : ProtocolVersion) (w : Writer) (p : Option Properties) : Writer :=
  if version = .v5 then w.properties (p.getD .default) else w

end Writer

/-- A frame: type and flags, the length of the body, and the body. -/
def fixed (typ flags : UInt8) (body out : Bytes) : Bytes :=
  out ++ [(typ <<< 4) ||| flags] ++ (Writer.new.varint (.ofNat body.length)).buf ++ body

def fixedId (typ : UInt8) (id : UInt16) (out : Bytes) : Bytes :=
  fixed typ 0 (Writer.new.u16 id).buf out

/-! ## Bodies -/

/-- Reason and properties, as far as they are not the default. -/
def Writer.reasonTail (w : Writer) (reason : ReasonCode) (properties : Option Properties) :
    Writer :=
  let hasProps := properties.any fun p ↦ !p.isEmpty
  if reason = .success ∧ !hasProps then w
  else if !hasProps then w.u8 reason.toU8
  else (w.u8 reason.toU8).properties (properties.getD .default)

def simpleAckBody (version : ProtocolVersion) (packetId : UInt16) (reason : ReasonCode)
    (properties : Option Properties) : Writer :=
  let w := Writer.new.u16 packetId
  if version = .v5 then w.reasonTail reason properties else w

def encodeSimpleAck (typ flags : UInt8) (version : ProtocolVersion) (packetId : UInt16)
    (reason : ReasonCode) (properties : Option Properties) (out : Bytes) : Bytes :=
  fixed typ flags (simpleAckBody version packetId reason properties).buf out

def encodeReasonProperties (typ flags : UInt8) (reason : ReasonCode)
    (properties : Option Properties) (out : Bytes) : Bytes :=
  fixed typ flags (Writer.reasonTail .new reason properties).buf out

def Writer.connectWill (version : ProtocolVersion) (w : Writer) (will : Will) : Writer :=
  ((w.propertiesFor version will.properties).string will.topic).binary will.payload

def connectFlags (c : Connect) : UInt8 :=
  let cf : UInt8 := 0
  let cf := if c.cleanSession then cf ||| 0x02 else cf
  let cf := if c.will.isSome then cf ||| 0x04 else cf
  let cf := if c.password.isSome then cf ||| 0x40 else cf
  let cf := if c.username.isSome then cf ||| 0x80 else cf
  match c.will with
  | some will =>
    let cf := if will.retain then cf ||| 0x20 else cf
    cf ||| (will.qos.toU8 <<< 3)
  | none => cf

def connectBody (c : Connect) : Writer :=
  let w := Writer.new.string "MQTT"
  let w := w.u8 (if c.protocol = .v5 then 5 else 4)
  let w := (w.u8 (connectFlags c)).u16 c.keepAlive
  let w := w.propertiesFor c.protocol c.properties
  let w := w.string c.clientId
  let w := w.ifSome (Writer.connectWill c.protocol) c.will
  let w := w.ifSome Writer.string c.username
  w.ifSome Writer.binary c.password

def encodeConnect (c : Connect) (out : Bytes) : Bytes :=
  fixed PacketType.connect 0 (connectBody c).buf out

def connackBody (version : ProtocolVersion) (sessionPresent : Bool) (code : UInt8)
    (properties : Option Properties) : Writer :=
  let w := (Writer.new.u8 (if sessionPresent then 0x01 else 0x00)).u8 code
  w.propertiesFor version properties

def publishBody (p : Publish) (version : ProtocolVersion) : Writer :=
  let w := Writer.new.string p.topic
  let w := if p.qos ≠ .atMostOnce then w.u16 (p.packetId.getD 0) else w
  let w := w.propertiesFor version p.properties
  w.bytes p.payload

def publishFlags (p : Publish) : UInt8 :=
  let flags := p.qos.toU8 <<< 1
  let flags := if p.dup then flags ||| 0x08 else flags
  if p.retain then flags ||| 0x01 else flags

def encodePublish (p : Publish) (version : ProtocolVersion) (out : Bytes) : Bytes :=
  fixed PacketType.publish (publishFlags p) (publishBody p version).buf out

def subscribeOptions (version : ProtocolVersion) (t : SubscribeTopic) : UInt8 :=
  let opts := t.qos.toU8
  if version = .v5 then
    let opts := if t.noLocal then opts ||| 0x04 else opts
    let opts := if t.retainAsPublished then opts ||| 0x08 else opts
    opts ||| (t.retainHandling.toBits <<< 4)
  else opts

def subscribeBody (version : ProtocolVersion) (packetId : UInt16) (topics : List SubscribeTopic)
    (properties : Option Properties) : Writer :=
  let w := (Writer.new.u16 packetId).propertiesFor version properties
  topics.foldl (fun w t ↦ (w.string t.filter).u8 (subscribeOptions version t)) w

def subackBody (version : ProtocolVersion) (packetId : UInt16) (codes : List SubAckCode)
    (v5Reasons : Option (List ReasonCode)) (properties : Option Properties) : Writer :=
  let w := Writer.new.u16 packetId
  if version = .v5 then
    let w := w.properties (properties.getD .default)
    let reasons := v5Reasons.getD (codes.map SubAckCode.toReason)
    reasons.foldl (fun w rc ↦ w.u8 rc.toU8) w
  else codes.foldl (fun w c ↦ w.u8 c.toU8) w

def unsubscribeBody (version : ProtocolVersion) (packetId : UInt16) (topics : List String)
    (properties : Option Properties) : Writer :=
  let w := (Writer.new.u16 packetId).propertiesFor version properties
  topics.foldl Writer.string w

def unsubackBody (packetId : UInt16) (v5Reasons : Option (List ReasonCode))
    (properties : Option Properties) : Writer :=
  let w := (Writer.new.u16 packetId).properties (properties.getD .default)
  (v5Reasons.getD []).foldl (fun w rc ↦ w.u8 rc.toU8) w

/-! ## Packets -/

/-- Append the encoding of a packet to `out`. The version is ignored for a CONNECT, which carries
its own. -/
def encodePacket (packet : Packet) (version : ProtocolVersion) (out : Bytes) : Bytes :=
  match packet with
  | .connect c => encodeConnect c out
  | .connAck sessionPresent code properties =>
    fixed PacketType.connack 0 (connackBody version sessionPresent code properties).buf out
  | .publish p => encodePublish p version out
  | .pubAck packetId reason properties =>
    encodeSimpleAck PacketType.puback 0 version packetId reason properties out
  | .pubRec packetId reason properties =>
    encodeSimpleAck PacketType.pubrec 0 version packetId reason properties out
  | .pubRel packetId reason properties =>
    encodeSimpleAck PacketType.pubrel 0x02 version packetId reason properties out
  | .pubComp packetId reason properties =>
    encodeSimpleAck PacketType.pubcomp 0 version packetId reason properties out
  | .subscribe packetId topics properties =>
    fixed PacketType.subscribe 0x02 (subscribeBody version packetId topics properties).buf out
  | .subAck packetId codes v5Reasons properties =>
    fixed PacketType.suback 0 (subackBody version packetId codes v5Reasons properties).buf out
  | .unsubscribe packetId topics properties =>
    fixed PacketType.unsubscribe 0x02 (unsubscribeBody version packetId topics properties).buf out
  | .unsubAck packetId v5Reasons properties =>
    if version = .v5 then
      fixed PacketType.unsuback 0 (unsubackBody packetId v5Reasons properties).buf out
    else fixedId PacketType.unsuback packetId out
  | .pingReq => fixed PacketType.pingreq 0 [] out
  | .pingResp => fixed PacketType.pingresp 0 [] out
  | .disconnect reason properties =>
    if version = .v5 then encodeReasonProperties PacketType.disconnect 0 reason properties out
    else fixed PacketType.disconnect 0 [] out
  | .auth reason properties => encodeReasonProperties PacketType.auth 0 reason properties out

end Synapse.Mqtt
