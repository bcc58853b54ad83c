import Synapse.Mqtt.Decode
import Synapse.Mqtt.Wire

/-!
# Packets survive the wire

A packet that the wire can represent is decoded from its encoding. `Packet.Representable` says what
that takes: texts and binary data that fit their lengths, the fields of the version at hand and no
others, and no field that the encoder drops because it is the default.
-/

namespace Synapse.Mqtt

open ByteCode Parse Parse.Parser List Option

/-! ## Representable packets -/

/-- A property block that the encoder always writes under version 5. -/
def BlockGiven : ProtocolVersion → Option Properties → Prop
  | .v311, properties => properties = none
  | .v5, properties => ∃ p, properties = some p ∧ p.Representable

/-- A property block that the encoder leaves out if it is empty. -/
def BlockOptional : ProtocolVersion → Option Properties → Prop
  | .v311, properties => properties = none
  | .v5, properties => ∀ p ∈ properties, p ≠ .default ∧ p.Representable

def ReasonsGiven : ProtocolVersion → Option (List ReasonCode) → Prop
  | .v311, reasons => reasons = none
  | .v5, reasons => reasons.isSome

structure Will.Representable (version : ProtocolVersion) (will : Will) : Prop where
  topic : (asBytes will.topic).length ≤ 65535
  payload : will.payload.length ≤ 65535
  properties : BlockGiven version will.properties

structure Connect.Representable (c : Connect) : Prop where
  clientId : (asBytes c.clientId).length ≤ 65535
  will : ∀ will ∈ c.will, will.Representable c.protocol
  username : ∀ u ∈ c.username, (asBytes u).length ≤ 65535
  password : ∀ p ∈ c.password, p.length ≤ 65535
  properties : BlockGiven c.protocol c.properties

structure Publish.Representable (version : ProtocolVersion) (p : Publish) : Prop where
  topic : (asBytes p.topic).length ≤ 65535
  topic_ne : version = .v311 → p.topic ≠ ""
  packetId : p.packetId.isSome ↔ p.qos ≠ .atMostOnce
  properties : BlockGiven version p.properties

structure SubscribeTopic.Representable (version : ProtocolVersion) (t : SubscribeTopic) :
    Prop where
  filter : (asBytes t.filter).length ≤ 65535
  options : version = .v311 →
    t.noLocal = false ∧ t.retainAsPublished = false ∧ t.retainHandling = .sendAtSubscribe

/-- The packet has an encoding under this version; a CONNECT has its own version. -/
def Packet.Representable (version : ProtocolVersion) : Packet → Prop
  | .connect c => c.Representable
  | .connAck _ _ properties => BlockGiven version properties
  | .publish p => p.Representable version
  | .pubAck _ reason properties
  | .pubRec _ reason properties
  | .pubRel _ reason properties
  | .pubComp _ reason properties
  | .disconnect reason properties =>
    (version = .v311 → reason = .success) ∧ BlockOptional version properties
  | .subscribe _ topics properties =>
    topics ≠ [] ∧ (∀ t ∈ topics, t.Representable version) ∧ BlockGiven version properties
  | .subAck _ codes v5Reasons properties =>
    (∀ reasons ∈ v5Reasons, codes = reasons.map ReasonCode.toSubacklike) ∧
      ReasonsGiven version v5Reasons ∧ BlockGiven version properties
  | .unsubscribe _ topics properties =>
    (∀ t ∈ topics, (asBytes t).length ≤ 65535) ∧ BlockGiven version properties
  | .unsubAck _ v5Reasons properties =>
    ReasonsGiven version v5Reasons ∧ BlockGiven version properties
  | .pingReq => True
  | .pingResp => True
  | .auth _ properties => BlockOptional version properties

/-! ## Frames -/

namespace Packet

def typ : Packet → UInt8
  | connect _ => PacketType.connect
  | connAck .. => PacketType.connack
  | publish _ => PacketType.publish
  | pubAck .. => PacketType.puback
  | pubRec .. => PacketType.pubrec
  | pubRel .. => PacketType.pubrel
  | pubComp .. => PacketType.pubcomp
  | subscribe .. => PacketType.subscribe
  | subAck .. => PacketType.suback
  | unsubscribe .. => PacketType.unsubscribe
  | unsubAck .. => PacketType.unsuback
  | pingReq => PacketType.pingreq
  | pingResp => PacketType.pingresp
  | disconnect .. => PacketType.disconnect
  | auth .. => PacketType.auth

def flags : Packet → UInt8
  | publish p => publishFlags p
  | pubRel .. => 0x02
  | subscribe .. => 0x02
  | unsubscribe .. => 0x02
  | _ => 0

/-- What the encoder writes after the fixed header. -/
def body (version : ProtocolVersion) : Packet → Bytes
  | connect c => (connectBody c).buf
  | connAck sessionPresent code properties =>
    (connackBody version sessionPresent code properties).buf
  | publish p => (publishBody p version).buf
  | pubAck packetId reason properties
  | pubRec packetId reason properties
  | pubRel packetId reason properties
  | pubComp packetId reason properties => (simpleAckBody version packetId reason properties).buf
  | subscribe packetId topics properties => (subscribeBody version packetId topics properties).buf
  | subAck packetId codes v5Reasons properties =>
    (subackBody version packetId codes v5Reasons properties).buf
  | unsubscribe packetId topics properties =>
    (unsubscribeBody version packetId topics properties).buf
  | unsubAck packetId v5Reasons properties =>
    if version = .v5 then (unsubackBody packetId v5Reasons properties).buf
    else (Writer.new.u16 packetId).buf
  | pingReq => []
  | pingResp => []
  | disconnect reason properties =>
    if version = .v5 then (Writer.reasonTail .new reason properties).buf else []
  | auth reason properties => (Writer.reasonTail .new reason properties).buf

end Packet

variable (version : ProtocolVersion) (packet : Packet) {β : Type} {write : Writer → β → Writer}
  {Fits : β → Prop} {read : Reader β}

theorem encodePacket_eq_fixed (version : ProtocolVersion) (out : Bytes) :
    encodePacket packet version out = fixed packet.typ packet.flags (packet.body version) out := by
  cases packet <;> cases version <;> rfl

theorem publishFlags_bits (p : Publish) :
    (publishFlags p).toNat < 16 ∧ (publishFlags p &&& 0x08 != 0) = p.dup ∧
      QoS.fromU8 ((publishFlags p >>> 1) &&& 0x03) = some p.qos ∧
      (publishFlags p &&& 0x01 != 0) = p.retain := by
  dsimp only [publishFlags]
  generalize p.dup = dup
  generalize p.qos = qos
  generalize p.retain = retain
  cases dup <;> cases qos <;> cases retain <;> decide

/-- The flags of a CONNECT, one by one; the fields of an absent will are zero. -/
theorem connectFlags_bits (c : Connect) : (connectFlags c &&& 0x02 != 0) = c.cleanSession ∧
      (connectFlags c &&& 0x04 != 0) = c.will.isSome ∧
      (connectFlags c &&& 0x20 != 0) = c.will.elim false (·.retain) ∧
      QoS.fromU8 ((connectFlags c >>> 3) &&& 0x03) = some (c.will.elim .atMostOnce (·.qos)) ∧
      (connectFlags c &&& 0x80 != 0) = c.username.isSome ∧
      (connectFlags c &&& 0x40 != 0) = c.password.isSome := by
  dsimp only [connectFlags]
  generalize c.cleanSession = clean
  generalize c.username.isSome = username
  generalize c.password.isSome = password
  rcases c.will with _ | will
  · cases clean <;> cases username <;> cases password <;> decide
  · simp only [elim_some, isSome_some, reduceIte]
    generalize will.retain = retain
    generalize will.qos = qos
    cases clean <;> cases username <;> cases password <;> cases retain <;> cases qos <;> decide

theorem typ_lt : packet.typ.toNat < 16 := by cases packet <;> dsimp only [Packet.typ] <;> decide

theorem flags_lt : packet.flags.toNat < 16 := by
  cases packet with
  | publish p => exact (publishFlags_bits p).1
  | _ => dsimp only [Packet.flags]; decide

theorem halves {typ flags : UInt8} (htyp : typ.toNat < 16) (hflags : flags.toNat < 16) :
    ((typ <<< 4) ||| flags) >>> 4 = typ ∧ ((typ <<< 4) ||| flags) &&& 0x0F = flags := by
  have hall : ∀ t < 16, ∀ f < 16, ((UInt8.ofNat t <<< 4) ||| UInt8.ofNat f) >>> 4 = UInt8.ofNat t ∧
        ((UInt8.ofNat t <<< 4) ||| UInt8.ofNat f) &&& 0x0F = UInt8.ofNat f := by decide +kernel
  have h := hall typ.toNat htyp flags.toNat hflags
  rwa [UInt8.ofNat_toNat, UInt8.ofNat_toNat] at h

/-- A frame is decoded by decoding its body. -/
theorem decodePacket_fixed {typ flags : UInt8} (htyp : typ.toNat < 16) (hflags : flags.toNat < 16)
    {body : Bytes} (hlen : body.length ≤ 268435455) (version : ProtocolVersion) :
    decodePacket (fixed typ flags body []) version =
      decodeBody typ flags body version >>= fun packet ↦
        .ok (some (packet, (fixed typ flags body []).length)) := by
  obtain ⟨hhigh, hlow⟩ := halves htyp hflags
  set first := (typ <<< 4) ||| flags
  set len := UInt32.ofNat body.length
  set lenBytes := written Writer.varint len
  have hnat : len.toNat = body.length := UInt32.toNat_ofNat_of_lt (lt_of_le_of_lt hlen (by decide))
  have hfixed : fixed typ flags body [] = [first] ++ lenBytes ++ body := rfl
  have hrds : Reads 0 body fixedHeader ([first] ++ lenBytes) (first, len, lenBytes.length) := by
    apply (codes_u8.reads first trivial 0 _).bind
    exact (reads_varint (by omega) _ body).bind_nil (reads_pure _ _ _)
  have hhd := hrds (fixed typ flags body []) (Nat.zero_le _) hfixed
  have htot : (fixed typ flags body []).length = 1 + lenBytes.length + len.toNat := by
    rw [hfixed, length_append, length_append, hnat]
    rfl
  have hbody : ((fixed typ flags body []).take (1 + lenBytes.length + len.toNat)).drop
      (1 + lenBytes.length) = body := by
    rw [← htot, take_length, hfixed]
    exact drop_left' (by rw [length_append]; rfl)
  rw [decodePacket_of_header hhd, decodeFrame_of_le htot.ge, hbody, hhigh, hlow, htot]

/-! ## Parts of a body -/

theorem Codes.append_foldl (hcds : Codes read write Fits) (items : List β) (w : Writer) :
    (items.foldl write w).buf = w.buf ++ items.flatMap (written write) := by
  induction items generalizing w with
  | nil => exact (append_nil _).symm
  | cons i items ih =>
    rw [foldl_cons, ih, hcds.append, flatMap_cons, append_assoc]

/-- A list of items that ends the body is collected item by item. -/
theorem Codes.reads_collect (hcds : Codes read write Fits) {n : ℕ} (hn : 0 < n)
    (hlen : ∀ i, n ≤ (written write i).length) (items : List β) (hits : ∀ i ∈ items, Fits i)
    (pos : ℕ) : Reads pos [] (collect n read) (items.flatMap (written write)) items := by
  have hne : ∀ i ∈ items, written write i ≠ [] := by
    intro i _ hnil
    have := hlen i
    rw [hnil] at this
    exact absurd this (Nat.not_le.mpr hn)
  have hfold : items.foldl (fun acc i ↦ acc ++ [i]) [] = items := by
    rw [foldl_append_eq_append, ← flatMap_def, flatMap_singleton', nil_append]
  have hrds : Reads pos [] (collect n read) (items.flatMap (written write))
      (items.foldl (fun acc i ↦ acc ++ [i]) []) := by
    apply reads_whileDo items [] pos [] _ _ _ hne
    · intro i _ k tail _
      apply (reads_remaining _ _).nil_bind
      have hle : n ≤ ([] ++ (written write i ++ (tail ++ []))).length := by
        have := hlen i
        rw [nil_append, length_append]
        omega
      rw [decide_eq_true hle]
      exact reads_pure _ _ _
    · apply (reads_remaining _ _).nil_bind
      rw [decide_eq_false (by exact Nat.not_le.mpr hn)]
      exact reads_pure _ _ _
    · intro i hi acc k post
      exact (hcds.reads i (hits i hi) k post).bind_nil (reads_pure _ _ _)
  rwa [hfold] at hrds

theorem codes_propertiesFor : Codes (propertiesFor version) (Writer.propertiesFor version) fun o ↦
      BlockGiven version o ∧ (written (Writer.propertiesFor version) o).length ≤ 268435455 := by
  cases version with
  | v311 =>
    constructor
    · exact fun w _ ↦ (append_nil w.buf).symm
    · rintro _ ⟨rfl, -⟩ pos post
      exact reads_pure _ _ _
  | v5 =>
    constructor
    · exact fun w o ↦ codes_properties.append w (o.getD .default)
    · rintro _ ⟨⟨p, rfl, hp⟩, hlen⟩ pos post
      exact (codes_properties.reads p ⟨hp, hlen⟩ pos post).map some

theorem codes_connectWill (qos : QoS) (retain : Bool) :
    Codes (connectWill version qos retain) (Writer.connectWill version) fun will ↦
      will.Representable version ∧ will.qos = qos ∧ will.retain = retain ∧
        (written (Writer.connectWill version) will).length ≤ 268435455 := by
  have hbuf : ∀ w will, (Writer.connectWill version w will).buf =
      w.buf ++ (written (Writer.propertiesFor version) will.properties ++
        (written Writer.string will.topic ++ written Writer.binary will.payload)) := by
    intro w will
    rw [Writer.connectWill, codes_binary.append, codes_string.append,
      (codes_propertiesFor version).append, append_assoc, append_assoc]
  constructor
  · intro w will
    rw [written, hbuf, hbuf, Writer.new, nil_append]
  rintro will ⟨hfits, rfl, rfl, hlen⟩ pos post
  rw [written, hbuf, Writer.new, nil_append] at hlen ⊢
  rw [length_append] at hlen
  apply ((codes_propertiesFor version).reads will.properties
    ⟨hfits.properties, by omega⟩ pos _).bind
  apply (codes_string.reads will.topic hfits.topic _ _).bind
  exact (codes_binary.reads will.payload hfits.payload _ _).bind_nil (reads_pure _ _ _)

theorem codes_reasonCode : Codes reasonCode (fun w rc ↦ w.u8 rc.toU8) fun _ ↦ True where
  append _ _ := rfl
  reads rc _ pos post := by
    apply (codes_u8.reads rc.toU8 trivial pos post).bind_nil
    exact reads_ofExcept (ReasonCode.fromU8_toU8 rc)

theorem codes_subAckCode :
    Codes (SubAckCode.fromU8 <$> Reader.u8) (fun w c ↦ w.u8 c.toU8) fun _ ↦ True where
  append _ _ := rfl
  reads c _ pos post := by
    have h := (codes_u8.reads c.toU8 trivial pos post).map SubAckCode.fromU8
    rwa [SubAckCode.fromU8_toU8] at h

/-- The options byte of a topic filter, field by field. -/
theorem subscribeOptions_bits (t : SubscribeTopic) :
    QoS.fromU8 (subscribeOptions .v5 t &&& 0x03) = some t.qos ∧
      (subscribeOptions .v5 t &&& 0x04 != 0) = t.noLocal ∧
      (subscribeOptions .v5 t &&& 0x08 != 0) = t.retainAsPublished ∧
      RetainHandling.fromBits ((subscribeOptions .v5 t >>> 4) &&& 0x03) = .ok t.retainHandling := by
  dsimp only [subscribeOptions]
  generalize t.qos = qos
  generalize t.noLocal = noLocal
  generalize t.retainAsPublished = retainAsPublished
  generalize t.retainHandling = retainHandling
  cases qos <;> cases noLocal <;> cases retainAsPublished <;> cases retainHandling <;> decide

theorem fromU8_and_three (qos : QoS) : QoS.fromU8 (qos.toU8 &&& 0x03) = some qos := by
  cases qos <;> decide

theorem codes_subscribeTopic : Codes (subscribeTopic version)
      (fun w t ↦ (w.string t.filter).u8 (subscribeOptions version t))
      fun t ↦ t.Representable version where
  append w t := by
    change (w.string t.filter).buf ++ _ = _
    rw [codes_string.append, append_assoc]
    rfl
  reads t ht pos post := by
    apply (codes_string.reads t.filter ht.filter pos _).bind
    apply (codes_u8.reads (subscribeOptions version t) trivial _ post).bind_nil
    cases version with
    | v311 =>
      obtain ⟨filter, qos, noLocal, retainAsPublished, retainHandling⟩ := t
      obtain ⟨rfl, rfl, rfl⟩ : noLocal = false ∧ retainAsPublished = false ∧
        retainHandling = .sendAtSubscribe := ht.options rfl
      exact (reads_okOr _ (fromU8_and_three qos)).nil_bind (reads_pure _ _ _)
    | v5 =>
      obtain ⟨hqos, hlcl, hrtn, hhandling⟩ := subscribeOptions_bits t
      apply (reads_okOr _ hqos).nil_bind
      rw [if_pos rfl, hlcl, hrtn]
      exact (reads_ofExcept hhandling).nil_bind (reads_pure _ _ _)

/-- What `reasonTail` writes: nothing, or what the reader's method of that name reads back. -/
theorem reasonTail_cases (w : Writer) (reason : ReasonCode) {properties : Option Properties}
    (hgiv : BlockOptional .v5 properties) : ∃ tail,
      (w.reasonTail reason properties).buf = w.buf ++ tail ∧
      (tail = [] ∧ reason = .success ∧ properties = none ∨ tail ≠ [] ∧ (tail.length ≤ 268435455 →
          ∀ pos, Reads pos [] reasonTail tail (reason, properties))) := by
  rw [Writer.reasonTail]
  rcases properties with _ | p
  · by_cases hrea : reason = .success
    · exact ⟨[], by rw [if_pos ⟨hrea, rfl⟩, append_nil], .inl ⟨rfl, hrea, rfl⟩⟩
    refine ⟨[reason.toU8], by rw [if_neg fun h ↦ hrea h.1]; rfl, .inr ⟨cons_ne_nil _ _, ?_⟩⟩
    intro _ pos
    apply (codes_reasonCode.reads reason trivial pos []).bind_nil
    exact (reads_remaining _ _).nil_bind (reads_pure _ _ _)
  · obtain ⟨hp, hfits⟩ := hgiv p rfl
    have hprops : (some p).any (fun p ↦ !p.isEmpty) = true := by
      rw [any_some, Properties.isEmpty, beq_eq_false_iff_ne.mpr hp]
      rfl
    rw [hprops, if_neg fun h ↦ Bool.false_ne_true h.2, if_neg (by decide), codes_properties.append,
      getD_some]
    refine ⟨_, append_assoc _ _ _, .inr ⟨cons_ne_nil _ _, fun hlen pos ↦ ?_⟩⟩
    have hleft : (written Writer.properties p ++ []).length ≠ 0 := by
      have := length_pos_iff.mpr
        (written_varint_ne_nil (.ofNat (Writer.propertiesBody p).buf.length))
      rw [append_nil, written_properties, length_append]
      omega
    apply (codes_reasonCode.reads reason trivial pos _).bind
    apply (reads_remaining _ _).nil_bind
    rw [if_neg hleft]
    rw [length_append] at hlen
    exact (codes_properties.reads p ⟨hfits, by omega⟩ _ _).bind_nil (reads_pure _ _ _)

theorem two_le_length_string (s : String) : 2 ≤ (written Writer.string s).length := by
  have hbuf : written Writer.string s =
      beBytes 2 (UInt16.ofNat (asBytes s).length).toNat ++ asBytes s := rfl
  rw [hbuf, length_append, length_beBytes]
  exact Nat.le_add_right _ _

/-! ## Bodies -/

section Bodies

variable {version : ProtocolVersion} {packetId : UInt16} {properties : Option Properties}
  {reason : ReasonCode} {v5Reasons : Option (List ReasonCode)}

theorem parseId_u16 (packetId : UInt16) : parseId (Writer.new.u16 packetId).buf = .ok packetId := by
  have hread : UInt16.ofNat (beNat (beBytes 2 packetId.toNat)) = packetId := by
    rw [beNat_beBytes_of_lt packetId.toNat_lt, UInt16.ofNat_toNat]
  exact congrArg Except.ok hread

theorem decodeReasonProperties_body (hgiv : BlockOptional .v5 properties)
    (hlen : (Writer.reasonTail .new reason properties).buf.length ≤ 268435455) :
    decodeReasonProperties (Writer.reasonTail .new reason properties).buf =
      .ok (reason, properties) := by
  obtain ⟨tail, htail, ⟨rfl, rfl, rfl⟩ | ⟨hne, hrds⟩⟩ := reasonTail_cases .new reason hgiv
  · rw [htail]
    rfl
  · rw [htail, Writer.new, nil_append] at hlen ⊢
    rw [decodeReasonProperties, if_neg (by rwa [List.isEmpty_iff])]
    exact (hrds hlen 0).run

theorem decodeSimpleAck_body (hrea : version = .v311 → reason = .success)
    (hgiv : BlockOptional version properties)
    (hlen : (simpleAckBody version packetId reason properties).buf.length ≤ 268435455) :
    decodeSimpleAck (simpleAckBody version packetId reason properties).buf version =
      .ok (packetId, reason, properties) := by
  cases version with
  | v311 =>
    obtain rfl := hrea rfl
    obtain rfl : properties = none := hgiv
    change (parseId (Writer.new.u16 packetId).buf >>= fun id ↦ _) = _
    rw [parseId_u16]
    rfl
  | v5 =>
    change decodeSimpleAck ((Writer.new.u16 packetId).reasonTail reason properties).buf .v5 = _
    change ((Writer.new.u16 packetId).reasonTail reason properties).buf.length ≤ _ at hlen
    rw [decodeSimpleAck, if_neg (by decide)]
    obtain ⟨tail, htail, hcs⟩ := reasonTail_cases (Writer.new.u16 packetId) reason hgiv
    rw [htail] at hlen ⊢
    apply Reads.run
    apply (codes_u16.reads packetId trivial 0 _).bind
    apply (reads_remaining _ _).nil_bind
    rcases hcs with ⟨rfl, rfl, rfl⟩ | ⟨hne, hrds⟩
    · exact reads_pure _ _ _
    · rw [append_nil, if_neg (by rwa [List.length_eq_zero_iff])]
      rw [length_append] at hlen
      exact (hrds (by omega) _).bind_nil (reads_pure _ _ _)

theorem decodeConnack_body {sessionPresent : Bool} {code : UInt8}
    (hgiv : BlockGiven version properties)
    (hlen : (connackBody version sessionPresent code properties).buf.length ≤ 268435455) :
    decodeConnack (connackBody version sessionPresent code properties).buf version =
      .ok (.connAck sessionPresent code properties) := by
  have hbit : ((if sessionPresent then 0x01 else 0x00 : UInt8) &&& 0x01 != 0) =
      sessionPresent := by cases sessionPresent <;> decide
  cases version with
  | v311 =>
    obtain rfl : properties = none := hgiv
    change Except.ok (Packet.connAck (_ != 0) code none) = _
    rw [hbit]
  | v5 =>
    obtain ⟨p, rfl, hp⟩ := hgiv
    have hbuf : (connackBody .v5 sessionPresent code (some p)).buf =
        [if sessionPresent then 0x01 else 0x00] ++ [code] ++ written Writer.properties p :=
      codes_properties.append _ p
    rw [hbuf] at hlen ⊢
    rw [length_append] at hlen
    have hread : run (written Writer.properties p) Reader.properties = .ok p :=
      (codes_properties.reads p ⟨hp, by omega⟩ 0 []).run
    have hlong : ¬([if sessionPresent then 0x01 else 0x00] ++ [code] ++
        written Writer.properties p).length < 2 := by
      rw [length_append]
      exact Nat.not_lt.mpr (Nat.le_add_right 2 _)
    rw [decodeConnack, if_neg hlong, slice_of_le (Nat.le_of_not_lt hlong) le_rfl, take_length]
    change (run (written Writer.properties p) Reader.properties >>= fun properties ↦
      Except.ok (Packet.connAck (_ != 0) code (some properties))) = _
    rw [hread, hbit]
    rfl

theorem decodeConnect_body {c : Connect} (hc : c.Representable)
    (hlen : (connectBody c).buf.length ≤ 268435455) :
    decodeConnect (connectBody c).buf = .ok (.connect c) := by
  have hbuf : (connectBody c).buf = written Writer.string "MQTT" ++
      ([if c.protocol = .v5 then 5 else 4] ++ ([connectFlags c] ++
        (written Writer.u16 c.keepAlive ++
          (written (Writer.propertiesFor c.protocol) c.properties ++
            (written Writer.string c.clientId ++
              (c.will.elim [] (written (Writer.connectWill c.protocol)) ++
                (c.username.elim [] (written Writer.string) ++
                  c.password.elim [] (written Writer.binary)))))))) := by
    dsimp only [connectBody]
    rw [codes_binary.append_ifSome, codes_string.append_ifSome,
      (codes_connectWill c.protocol .atMostOnce false).append_ifSome, codes_string.append,
      (codes_propertiesFor c.protocol).append, codes_u16.append]
    dsimp only [Writer.u8]
    rw [codes_string.append]
    simp only [append_assoc]
    rfl
  have hlevel : protocolLevel (if c.protocol = .v5 then 5 else 4) = .ok c.protocol := by
    cases c.protocol <;> rfl
  obtain ⟨hcln, hwill, hrtn, hqos, husername, hpassword⟩ := connectFlags_bits c
  rw [hbuf] at hlen ⊢
  simp only [length_append] at hlen
  apply Reads.run
  apply (codes_string.reads "MQTT" (by decide) 0 _).bind
  apply (reads_rejectIf (fun h ↦ h rfl) _).nil_bind
  apply (codes_u8.reads _ trivial _ _).bind
  apply (reads_ofExcept hlevel).nil_bind
  apply (codes_u8.reads (connectFlags c) trivial _ _).bind
  apply (codes_u16.reads c.keepAlive trivial _ _).bind
  apply ((codes_propertiesFor c.protocol).reads c.properties ⟨hc.properties, by omega⟩ _ _).bind
  apply (codes_string.reads c.clientId hc.clientId _ _).bind
  apply (reads_okOr _ hqos).nil_bind
  refine (reads_optional (o := c.will) (by rw [hwill]) fun will hmem ↦ ?_).bind ?_
  · have hsome : c.will = some will := hmem
    rw [hsome] at hrtn hlen ⊢
    rw [elim_some] at hlen
    exact (codes_connectWill _ _ _).reads will ⟨hc.will will hmem, rfl, hrtn.symm, by omega⟩ _ _
  refine (reads_optional (o := c.username) (by rw [husername]) fun u hu ↦ ?_).bind ?_
  · exact codes_string.reads u (hc.username u hu) _ _
  refine (reads_optional (o := c.password) (by rw [hpassword]) fun p hp ↦ ?_).bind_nil ?_
  · exact codes_binary.reads p (hc.password p hp) _ _
  rw [hcln]
  exact reads_pure _ _ _

theorem decodePublish_body {p : Publish} (hp : p.Representable version)
    (hlen : (publishBody p version).buf.length ≤ 268435455) :
    decodePublish (publishBody p version).buf (publishFlags p) version = .ok (.publish p) := by
  have hbuf : (publishBody p version).buf =
      written Writer.string p.topic ++ (p.packetId.elim [] (written Writer.u16) ++
        (written (Writer.propertiesFor version) p.properties ++ p.payload)) := by
    dsimp only [publishBody, Writer.bytes]
    rw [(codes_propertiesFor version).append]
    rcases hid : p.packetId with _ | id
    · have hqos : ¬p.qos ≠ .atMostOnce := by
        rw [← hp.packetId, hid]
        exact Bool.false_ne_true
      rw [if_neg hqos, append_assoc]
      rfl
    · have hqos : p.qos ≠ .atMostOnce := by
        rw [← hp.packetId, hid]
        rfl
      rw [if_pos hqos, append_assoc]
      exact append_assoc _ _ _
  obtain ⟨-, hdup, hqos, hrtn⟩ := publishFlags_bits p
  rw [hbuf] at hlen ⊢
  rw [length_append, length_append, length_append] at hlen
  apply Reads.run
  rw [hdup, hrtn]
  apply (reads_okOr _ hqos).nil_bind
  apply (codes_string.reads p.topic hp.topic 0 _).bind
  apply (reads_optional hp.packetId.symm fun id _ ↦ codes_u16.reads id trivial _ _).bind
  apply ((codes_propertiesFor version).reads p.properties ⟨hp.properties, by omega⟩ _ _).bind
  apply Reads.nil_bind
  · apply reads_rejectIf
    rintro ⟨hv, hemp⟩
    exact hp.topic_ne hv (String.isEmpty_iff.mp hemp)
  apply (reads_remaining _ _).nil_bind
  rw [append_nil]
  exact ((Reader.takes_bytes _).reads _ [] rfl).bind_nil (reads_pure _ _ _)

/-- What the list packets share: a packet identifier, a property block, and items to the end of the
body. -/
theorem run_listBody {β δ γ : Type} {block : Reader δ} {writeBlock : Writer → δ → Writer}
    {Given : δ → Prop} (hblock : Codes block writeBlock Given) {item : Reader β}
    {writeItem : Writer → β → Writer} {Fits : β → Prop} (hitem : Codes item writeItem Fits)
    {n : ℕ} (hn : 0 < n) (hmin : ∀ i, n ≤ (written writeItem i).length) {d : δ} {items : List β}
    (hd : (written writeBlock d).length ≤ 268435455 → Given d) (hits : ∀ i ∈ items, Fits i)
    (hlen : (items.foldl writeItem (writeBlock (Writer.new.u16 packetId) d)).buf.length ≤ 268435455)
    {f : UInt16 → δ → List β → Reader γ} {c : γ}
    (hf : ∀ pos, Reads pos [] (f packetId d items) [] c) :
    run (items.foldl writeItem (writeBlock (Writer.new.u16 packetId) d)).buf
      (Reader.u16 >>= fun id ↦ block >>= fun d ↦ collect n item >>= f id d) = .ok c := by
  have hbuf : (items.foldl writeItem (writeBlock (Writer.new.u16 packetId) d)).buf =
      written Writer.u16 packetId ++
        (written writeBlock d ++ items.flatMap (written writeItem)) := by
    rw [hitem.append_foldl, hblock.append, append_assoc]
    rfl
  rw [hbuf] at hlen ⊢
  rw [length_append, length_append] at hlen
  apply Reads.run
  apply (codes_u16.reads packetId trivial 0 _).bind
  apply (hblock.reads d (hd (by omega)) _ _).bind
  exact (hitem.reads_collect hn hmin items hits _).bind_nil (hf _)

theorem decodeSubscribe_body {topics : List SubscribeTopic} (hne : topics ≠ [])
    (htops : ∀ t ∈ topics, t.Representable version) (hgiv : BlockGiven version properties)
    (hlen : (subscribeBody version packetId topics properties).buf.length ≤ 268435455) :
    decodeSubscribe (subscribeBody version packetId topics properties).buf version =
      .ok (.subscribe packetId topics properties) := by
  have hmin : ∀ t : SubscribeTopic, 3 ≤ (written (fun w t ↦
      (w.string t.filter).u8 (subscribeOptions version t)) t).length := by
    intro t
    change 3 ≤ (written Writer.string t.filter ++ [_]).length
    rw [length_append]
    exact Nat.add_le_add_right (two_le_length_string t.filter) 1
  apply run_listBody (codes_propertiesFor version) (codes_subscribeTopic version) (by decide) hmin
    (fun h ↦ ⟨hgiv, h⟩) htops hlen
  intro pos
  exact (reads_rejectIf (by rwa [List.isEmpty_iff]) _).nil_bind (reads_pure _ _ _)

theorem decodeUnsubscribe_body {topics : List String}
    (htops : ∀ t ∈ topics, (asBytes t).length ≤ 65535) (hgiv : BlockGiven version properties)
    (hlen : (unsubscribeBody version packetId topics properties).buf.length ≤ 268435455) :
    decodeUnsubscribe (unsubscribeBody version packetId topics properties).buf version =
      .ok (.unsubscribe packetId topics properties) := by
  apply run_listBody (codes_propertiesFor version) codes_string Nat.two_pos two_le_length_string
    (fun h ↦ ⟨hgiv, h⟩) htops hlen
  exact fun _ ↦ reads_pure _ _ _

theorem decodeSuback_body {codes : List SubAckCode}
    (hcds : ∀ reasons ∈ v5Reasons, codes = reasons.map ReasonCode.toSubacklike)
    (hreas : ReasonsGiven version v5Reasons) (hgiv : BlockGiven version properties)
    (hlen : (subackBody version packetId codes v5Reasons properties).buf.length ≤ 268435455) :
    decodeSuback (subackBody version packetId codes v5Reasons properties).buf version =
      .ok (.subAck packetId codes v5Reasons properties) := by
  cases version with
  | v311 =>
    obtain rfl : properties = none := hgiv
    obtain rfl : v5Reasons = none := hreas
    have hbuf : (subackBody .v311 packetId codes none none).buf =
        written Writer.u16 packetId ++ codes.flatMap (written fun w c ↦ w.u8 c.toU8) :=
      codes_subAckCode.append_foldl codes _
    have hcollect := codes_subAckCode.reads_collect Nat.one_pos (fun _ ↦ Nat.le_refl 1) codes
      fun _ _ ↦ trivial
    rw [hbuf]
    apply Reads.run
    apply (codes_u16.reads packetId trivial 0 _).bind
    exact (hcollect _).bind_nil (reads_pure _ _ _)
  | v5 =>
    obtain ⟨p, rfl, hp⟩ := hgiv
    obtain ⟨reasons, rfl⟩ := isSome_iff_exists.mp hreas
    obtain rfl := hcds reasons rfl
    apply run_listBody codes_properties codes_reasonCode Nat.one_pos (fun _ ↦ Nat.le_refl 1)
      (fun h ↦ ⟨hp, h⟩) (fun _ _ ↦ trivial) hlen
    exact fun _ ↦ reads_pure _ _ _

theorem decodeUnsuback_body (hreas : ReasonsGiven .v5 v5Reasons) (hgiv : BlockGiven .v5 properties)
    (hlen : (unsubackBody packetId v5Reasons properties).buf.length ≤ 268435455) :
    decodeUnsuback (unsubackBody packetId v5Reasons properties).buf .v5 =
      .ok (.unsubAck packetId v5Reasons properties) := by
  obtain ⟨p, rfl, hp⟩ := hgiv
  obtain ⟨reasons, rfl⟩ := isSome_iff_exists.mp hreas
  apply run_listBody codes_properties codes_reasonCode Nat.one_pos (fun _ ↦ Nat.le_refl 1)
    (fun h ↦ ⟨hp, h⟩) (fun _ _ ↦ trivial) hlen
  exact fun _ ↦ reads_pure _ _ _

theorem BlockOptional.v5 (h : BlockOptional version properties) : BlockOptional .v5 properties := by
  cases version with
  | v311 =>
    obtain rfl : properties = none := h
    exact fun _ hp ↦ absurd hp (not_mem_none _)
  | v5 => exact h

theorem decodeBody_body {packet : Packet} (hpkt : packet.Representable version)
    (hlen : (packet.body version).length ≤ 268435455) :
    decodeBody packet.typ packet.flags (packet.body version) version = .ok packet := by
  have hack {packetId : UInt16} {reason : ReasonCode} {properties : Option Properties}
      (h : (version = .v311 → reason = .success) ∧ BlockOptional version properties)
      (hlen : (simpleAckBody version packetId reason properties).buf.length ≤ 268435455)
      (f : UInt16 × ReasonCode × Option Properties → Packet) :
      (decodeSimpleAck (simpleAckBody version packetId reason properties).buf version >>=
        fun r ↦ (.ok (f r) : Result Packet)) = .ok (f (packetId, reason, properties)) := by
    rw [decodeSimpleAck_body h.1 h.2 hlen]
    rfl
  have hreasonTail {reason : ReasonCode} {properties : Option Properties}
      (h : BlockOptional .v5 properties)
      (hlen : (Writer.reasonTail .new reason properties).buf.length ≤ 268435455)
      (f : ReasonCode × Option Properties → Packet) :
      (decodeReasonProperties (Writer.reasonTail .new reason properties).buf >>=
        fun r ↦ (.ok (f r) : Result Packet)) = .ok (f (reason, properties)) := by
    rw [decodeReasonProperties_body h hlen]
    rfl
  cases packet with
  | connect c => exact decodeConnect_body hpkt hlen
  | connAck sessionPresent code properties => exact decodeConnack_body hpkt hlen
  | publish p => exact decodePublish_body hpkt hlen
  | pubAck packetId reason properties => exact hack hpkt hlen fun r ↦ .pubAck r.1 r.2.1 r.2.2
  | pubRec packetId reason properties => exact hack hpkt hlen fun r ↦ .pubRec r.1 r.2.1 r.2.2
  | pubRel packetId reason properties => exact hack hpkt hlen fun r ↦ .pubRel r.1 r.2.1 r.2.2
  | pubComp packetId reason properties =>
    exact hack hpkt hlen fun r ↦ .pubComp r.1 r.2.1 r.2.2
  | subscribe packetId topics properties =>
    obtain ⟨hne, htops, hgiv⟩ := hpkt
    exact decodeSubscribe_body hne htops hgiv hlen
  | subAck packetId codes v5Reasons properties =>
    obtain ⟨hcds, hreas, hgiv⟩ := hpkt
    exact decodeSuback_body hcds hreas hgiv hlen
  | unsubscribe packetId topics properties =>
    exact decodeUnsubscribe_body hpkt.1 hpkt.2 hlen
  | unsubAck packetId v5Reasons properties =>
    obtain ⟨hreas, hgiv⟩ := hpkt
    cases version with
    | v311 =>
      obtain rfl : v5Reasons = none := hreas
      obtain rfl : properties = none := hgiv
      change (parseId (Writer.new.u16 packetId).buf >>= fun id ↦ _) = _
      rw [parseId_u16]
      rfl
    | v5 => exact decodeUnsuback_body hreas hgiv hlen
  | pingReq => rfl
  | pingResp => rfl
  | disconnect reason properties =>
    obtain ⟨hrea, hgiv⟩ := hpkt
    cases version with
    | v311 =>
      obtain rfl := hrea rfl
      obtain rfl : properties = none := hgiv
      rfl
    | v5 => exact hreasonTail hgiv hlen fun r ↦ .disconnect r.1 r.2
  | auth reason properties => exact hreasonTail hpkt.v5 hlen fun r ↦ .auth r.1 r.2

end Bodies

/-- **Round trip.** A packet the wire can represent is decoded from its encoding, which it spans. -/
theorem decodePacket_encodePacket (packet : Packet) (version : ProtocolVersion)
    (hpacket : packet.Representable version)
    (hlen : (packet.body version).length ≤ 268435455) :
    decodePacket (encodePacket packet version []) version =
      .ok (some (packet, (encodePacket packet version []).length)) := by
  rw [encodePacket_eq_fixed, decodePacket_fixed (typ_lt packet) (flags_lt packet) hlen,
    decodeBody_body hpacket hlen]
  rfl

/-- A version 5 CONNECT with a will, a user name and a user property. -/
def greeting : Connect where
  protocol := .v5
  clientId := "c"
  keepAlive := 60
  cleanSession := true
  will := some ⟨"w", [1, 2], .atLeastOnce, true, some .default⟩
  username := some "u"
  password := none
  properties := some { receiveMaximum := some 10, userProperties := [("k", "v")] }

theorem decodePacket_encodePacket_greeting :
    decodePacket (encodePacket (.connect greeting) .v5 []) .v5 =
      .ok (some (.connect greeting, (encodePacket (.connect greeting) .v5 []).length)) := by
  apply decodePacket_encodePacket
  · constructor
    · decide
    · rintro _ ⟨⟩
      refine ⟨by decide, by decide, _, rfl, ?_⟩
      constructor <;> rintro _ ⟨⟩
    · decide
    · decide
    · refine ⟨_, rfl, ?_⟩
      constructor
      case userProperties => decide
      all_goals rintro _ ⟨⟩
  · decide +kernel

end Synapse.Mqtt
