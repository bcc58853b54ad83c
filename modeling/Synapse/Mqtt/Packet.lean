import Synapse.Basic

/-!
# MQTT control packets

The packets of MQTT 3.1.1 and 5.0 as the codec sees them, and the codes a byte on the wire stands
for. A type of the wire is a number here as there: packet identifiers have two bytes, intervals
four. Strings are text, and their bytes are its UTF-8 encoding.

Fields that exist in version 5 only are optional: the property blocks, and the reason lists of the
subscription acknowledgements. Under version 3.1.1 they are absent, and a reason is `success`.
-/

namespace Synapse.Mqtt

/-- Negotiated protocol version of a connection. -/
inductive ProtocolVersion
  | v311
  | v5
deriving DecidableEq, Repr

/-- Why a packet could not be decoded. `incomplete` asks for more bytes. -/
inductive ProtocolError
  | incomplete
  | malformed (reason : String)
deriving DecidableEq, Repr

inductive QoS
  | atMostOnce
  | atLeastOnce
  | exactlyOnce
deriving DecidableEq, Repr

namespace QoS

def toU8 : QoS → UInt8
  | atMostOnce => 0
  | atLeastOnce => 1
  | exactlyOnce => 2

def fromU8 : UInt8 → Option QoS
  | 0 => some atMostOnce
  | 1 => some atLeastOnce
  | 2 => some exactlyOnce
  | _ => none

end QoS

inductive SubAckCode
  | qos0
  | qos1
  | qos2
  | failure
deriving DecidableEq, Repr

/-- Reason codes of version 5, for all packet types. -/
inductive ReasonCode
  | success
  | grantedQoS1
  | grantedQoS2
  | disconnectWithWillMessage
  | noMatchingSubscribers
  | noSubscriptionExisted
  | continueAuthentication
  | reAuthenticate
  | unspecifiedError
  | malformedPacket
  | protocolError
  | implementationSpecificError
  | unsupportedProtocolVersion
  | clientIdentifierNotValid
  | badUsernameOrPassword
  | notAuthorized
  | serverUnavailable
  | serverBusy
  | banned
  | serverShuttingDown
  | badAuthenticationMethod
  | keepAliveTimeout
  | sessionTakenOver
  | topicFilterInvalid
  | topicNameInvalid
  | packetIdentifierInUse
  | packetIdentifierNotFound
  | receiveMaximumExceeded
  | topicAliasInvalid
  | packetTooLarge
  | messageRateTooHigh
  | quotaExceeded
  | administrativeAction
  | payloadFormatInvalid
  | retainNotSupported
  | qosNotSupported
  | useAnotherServer
  | serverMoved
  | sharedSubscriptionsNotSupported
  | connectionRateExceeded
  | maximumConnectTime
  | subscriptionIdentifiersNotSupported
  | wildcardSubscriptionsNotSupported
deriving DecidableEq, Repr

namespace ReasonCode

def toU8 : ReasonCode → UInt8
  | success => 0x00
  | grantedQoS1 => 0x01
  | grantedQoS2 => 0x02
  | disconnectWithWillMessage => 0x04
  | noMatchingSubscribers => 0x10
  | noSubscriptionExisted => 0x11
  | continueAuthentication => 0x18
  | reAuthenticate => 0x19
  | unspecifiedError => 0x80
  | malformedPacket => 0x81
  | protocolError => 0x82
  | implementationSpecificError => 0x83
  | unsupportedProtocolVersion => 0x84
  | clientIdentifierNotValid => 0x85
  | badUsernameOrPassword => 0x86
  | notAuthorized => 0x87
  | serverUnavailable => 0x88
  | serverBusy => 0x89
  | banned => 0x8A
  | serverShuttingDown => 0x8B
  | badAuthenticationMethod => 0x8C
  | keepAliveTimeout => 0x8D
  | sessionTakenOver => 0x8E
  | topicFilterInvalid => 0x8F
  | topicNameInvalid => 0x90
  | packetIdentifierInUse => 0x91
  | packetIdentifierNotFound => 0x92
  | receiveMaximumExceeded => 0x93
  | topicAliasInvalid => 0x94
  | packetTooLarge => 0x95
  | messageRateTooHigh => 0x96
  | quotaExceeded => 0x97
  | administrativeAction => 0x98
  | payloadFormatInvalid => 0x99
  | retainNotSupported => 0x9A
  | qosNotSupported => 0x9B
  | useAnotherServer => 0x9C
  | serverMoved => 0x9D
  | sharedSubscriptionsNotSupported => 0x9E
  | connectionRateExceeded => 0x9F
  | maximumConnectTime => 0xA0
  | subscriptionIdentifiersNotSupported => 0xA1
  | wildcardSubscriptionsNotSupported => 0xA2

def fromU8 : UInt8 → Except ProtocolError ReasonCode
  | 0x00 => .ok success
  | 0x01 => .ok grantedQoS1
  | 0x02 => .ok grantedQoS2
  | 0x04 => .ok disconnectWithWillMessage
  | 0x10 => .ok noMatchingSubscribers
  | 0x11 => .ok noSubscriptionExisted
  | 0x18 => .ok continueAuthentication
  | 0x19 => .ok reAuthenticate
  | 0x80 => .ok unspecifiedError
  | 0x81 => .ok malformedPacket
  | 0x82 => .ok protocolError
  | 0x83 => .ok implementationSpecificError
  | 0x84 => .ok unsupportedProtocolVersion
  | 0x85 => .ok clientIdentifierNotValid
  | 0x86 => .ok badUsernameOrPassword
  | 0x87 => .ok notAuthorized
  | 0x88 => .ok serverUnavailable
  | 0x89 => .ok serverBusy
  | 0x8A => .ok banned
  | 0x8B => .ok serverShuttingDown
  | 0x8C => .ok badAuthenticationMethod
  | 0x8D => .ok keepAliveTimeout
  | 0x8E => .ok sessionTakenOver
  | 0x8F => .ok topicFilterInvalid
  | 0x90 => .ok topicNameInvalid
  | 0x91 => .ok packetIdentifierInUse
  | 0x92 => .ok packetIdentifierNotFound
  | 0x93 => .ok receiveMaximumExceeded
  | 0x94 => .ok topicAliasInvalid
  | 0x95 => .ok packetTooLarge
  | 0x96 => .ok messageRateTooHigh
  | 0x97 => .ok quotaExceeded
  | 0x98 => .ok administrativeAction
  | 0x99 => .ok payloadFormatInvalid
  | 0x9A => .ok retainNotSupported
  | 0x9B => .ok qosNotSupported
  | 0x9C => .ok useAnotherServer
  | 0x9D => .ok serverMoved
  | 0x9E => .ok sharedSubscriptionsNotSupported
  | 0x9F => .ok connectionRateExceeded
  | 0xA0 => .ok maximumConnectTime
  | 0xA1 => .ok subscriptionIdentifiersNotSupported
  | 0xA2 => .ok wildcardSubscriptionsNotSupported
  | _ => .error (.malformed "unknown reason code")

theorem fromU8_toU8 (reason : ReasonCode) : fromU8 reason.toU8 = .ok reason := by
  cases reason <;> rfl

def toSubacklike : ReasonCode → SubAckCode
  | success => .qos0
  | grantedQoS1 => .qos1
  | grantedQoS2 => .qos2
  | _ => .failure

end ReasonCode

namespace SubAckCode

def toU8 : SubAckCode → UInt8
  | qos0 => 0
  | qos1 => 1
  | qos2 => 2
  | failure => 0x80

def fromU8 : UInt8 → SubAckCode
  | 0 => qos0
  | 1 => qos1
  | 2 => qos2
  | _ => failure

def toReason : SubAckCode → ReasonCode
  | qos0 => .success
  | qos1 => .grantedQoS1
  | qos2 => .grantedQoS2
  | failure => .unspecifiedError

theorem fromU8_toU8 (code : SubAckCode) : fromU8 code.toU8 = code := by cases code <;> rfl

end SubAckCode

/-! ## Properties -/

/-- A version 5 property block: every property has its own type and, the user property apart, is
there at most once. -/
@[ext]
structure Properties where
  payloadFormatIndicator : Option UInt8 := none
  messageExpiryInterval : Option UInt32 := none
  contentType : Option String := none
  responseTopic : Option String := none
  correlationData : Option Bytes := none
  subscriptionIdentifier : Option UInt32 := none
  sessionExpiryInterval : Option UInt32 := none
  assignedClientIdentifier : Option String := none
  serverKeepAlive : Option UInt16 := none
  authenticationMethod : Option String := none
  authenticationData : Option Bytes := none
  requestProblemInformation : Option UInt8 := none
  willDelayInterval : Option UInt32 := none
  requestResponseInformation : Option UInt8 := none
  responseInformation : Option String := none
  serverReference : Option String := none
  reasonString : Option String := none
  receiveMaximum : Option UInt16 := none
  topicAliasMaximum : Option UInt16 := none
  topicAlias : Option UInt16 := none
  maximumQos : Option UInt8 := none
  retainAvailable : Option UInt8 := none
  userProperties : List (String × String) := []
  maximumPacketSize : Option UInt32 := none
  wildcardSubscriptionAvailable : Option UInt8 := none
  subscriptionIdentifierAvailable : Option UInt8 := none
  sharedSubscriptionAvailable : Option UInt8 := none
deriving DecidableEq, Repr

/-- The block without properties, `Properties::default()`. -/
def Properties.default : Properties := {}

def Properties.isEmpty (p : Properties) : Bool := p == Properties.default

namespace PropId

@[match_pattern] def payloadFormatIndicator : UInt8 := 0x01
@[match_pattern] def messageExpiryInterval : UInt8 := 0x02
@[match_pattern] def contentType : UInt8 := 0x03
@[match_pattern] def responseTopic : UInt8 := 0x08
@[match_pattern] def correlationData : UInt8 := 0x09
@[match_pattern] def subscriptionIdentifier : UInt8 := 0x0B
@[match_pattern] def sessionExpiryInterval : UInt8 := 0x11
@[match_pattern] def assignedClientIdentifier : UInt8 := 0x12
@[match_pattern] def serverKeepAlive : UInt8 := 0x13
@[match_pattern] def authenticationMethod : UInt8 := 0x15
@[match_pattern] def authenticationData : UInt8 := 0x16
@[match_pattern] def requestProblemInformation : UInt8 := 0x17
@[match_pattern] def willDelayInterval : UInt8 := 0x18
@[match_pattern] def requestResponseInformation : UInt8 := 0x19
@[match_pattern] def responseInformation : UInt8 := 0x1A
@[match_pattern] def serverReference : UInt8 := 0x1C
@[match_pattern] def reasonString : UInt8 := 0x1F
@[match_pattern] def receiveMaximum : UInt8 := 0x21
@[match_pattern] def topicAliasMaximum : UInt8 := 0x22
@[match_pattern] def topicAlias : UInt8 := 0x23
@[match_pattern] def maximumQos : UInt8 := 0x24
@[match_pattern] def retainAvailable : UInt8 := 0x25
@[match_pattern] def userProperty : UInt8 := 0x26
@[match_pattern] def maximumPacketSize : UInt8 := 0x27
@[match_pattern] def wildcardSubscriptionAvailable : UInt8 := 0x28
@[match_pattern] def subscriptionIdentifierAvailable : UInt8 := 0x29
@[match_pattern] def sharedSubscriptionAvailable : UInt8 := 0x2A

end PropId

/-! ## Packets -/

/-- Retain handling of a version 5 topic filter. -/
inductive RetainHandling
  | sendAtSubscribe
  | sendIfNewSubscription
  | doNotSend
deriving DecidableEq, Repr

namespace RetainHandling

def fromBits : UInt8 → Except ProtocolError RetainHandling
  | 0 => .ok sendAtSubscribe
  | 1 => .ok sendIfNewSubscription
  | 2 => .ok doNotSend
  | _ => .error (.malformed "bad retain handling")

def toBits : RetainHandling → UInt8
  | sendAtSubscribe => 0
  | sendIfNewSubscription => 1
  | doNotSend => 2

end RetainHandling

structure SubscribeTopic where
  filter : String
  qos : QoS
  noLocal : Bool
  retainAsPublished : Bool
  retainHandling : RetainHandling
deriving DecidableEq, Repr

structure Will where
  topic : String
  payload : Bytes
  qos : QoS
  retain : Bool
  properties : Option Properties
deriving DecidableEq, Repr

structure Connect where
  protocol : ProtocolVersion
  clientId : String
  keepAlive : UInt16
  cleanSession : Bool
  will : Option Will
  username : Option String
  password : Option Bytes
  properties : Option Properties
deriving DecidableEq, Repr

structure Publish where
  dup : Bool
  qos : QoS
  retain : Bool
  topic : String
  packetId : Option UInt16
  payload : Bytes
  properties : Option Properties
deriving DecidableEq, Repr

inductive Packet
  | connect (c : Connect)
  | connAck (sessionPresent : Bool) (code : UInt8) (properties : Option Properties)
  | publish (p : Publish)
  | pubAck (packetId : UInt16) (reason : ReasonCode) (properties : Option Properties)
  | pubRec (packetId : UInt16) (reason : ReasonCode) (properties : Option Properties)
  | pubRel (packetId : UInt16) (reason : ReasonCode) (properties : Option Properties)
  | pubComp (packetId : UInt16) (reason : ReasonCode) (properties : Option Properties)
  | subscribe (packetId : UInt16) (topics : List SubscribeTopic) (properties : Option Properties)
  | subAck (packetId : UInt16) (codes : List SubAckCode) (v5Reasons : Option (List ReasonCode))
      (properties : Option Properties)
  | unsubscribe (packetId : UInt16) (topics : List String) (properties : Option Properties)
  | unsubAck (packetId : UInt16) (v5Reasons : Option (List ReasonCode))
      (properties : Option Properties)
  | pingReq
  | pingResp
  | disconnect (reason : ReasonCode) (properties : Option Properties)
  | auth (reason : ReasonCode) (properties : Option Properties)
deriving DecidableEq, Repr

/-! ## Packet types -/

namespace PacketType

@[match_pattern] def connect : UInt8 := 1
@[match_pattern] def connack : UInt8 := 2
@[match_pattern] def publish : UInt8 := 3
@[match_pattern] def puback : UInt8 := 4
@[match_pattern] def pubrec : UInt8 := 5
@[match_pattern] def pubrel : UInt8 := 6
@[match_pattern] def pubcomp : UInt8 := 7
@[match_pattern] def subscribe : UInt8 := 8
@[match_pattern] def suback : UInt8 := 9
@[match_pattern] def unsubscribe : UInt8 := 10
@[match_pattern] def unsuback : UInt8 := 11
@[match_pattern] def pingreq : UInt8 := 12
@[match_pattern] def pingresp : UInt8 := 13
@[match_pattern] def disconnect : UInt8 := 14
@[match_pattern] def auth : UInt8 := 15

end PacketType

end Synapse.Mqtt
