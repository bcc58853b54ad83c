import Synapse.Lib.Bytes
import Synapse.Lib.Parse
import Synapse.Mqtt.Packet
import Synapse.Routing.Topic

/-!
# Reading MQTT fields

The `Reader` of the codec: a slice and a position, with methods that read one field and move on. A
method checks the bytes left before it indexes, and asks for more with `incomplete`, also where the
slice is the body of a complete packet.

Reading never goes wrong: no index is out of range, and every loop ends (`safe_properties`, for the
largest of them). The loop over a property block stops at the declared end of the block, but the
value readers know only the end of the slice; `safe_properties` needs no more than that.
-/

namespace Synapse.Mqtt

open ByteCode Parse Parse.Parser

abbrev Reader := Parser UInt8 ProtocolError

abbrev Result := Outcome ProtocolError

namespace Reader

/-- The check that begins a method: fewer than `n` bytes left are `incomplete`. -/
abbrev atLeast {β : Type} (n : ℕ) (p : Reader β) : Reader β := need .incomplete n p

def u8 : Reader UInt8 := atLeast 1 do
  let v ← peek 0
  advance 1
  return v

def u16 : Reader UInt16 := atLeast 2 do
  let b₀ ← peek 0
  let b₁ ← peek 1
  advance 2
  return .ofNat (beNat [b₀, b₁])

def u32 : Reader UInt32 := atLeast 4 do
  let b₀ ← peek 0
  let b₁ ← peek 1
  let b₂ ← peek 2
  let b₃ ← peek 3
  advance 4
  return .ofNat (beNat [b₀, b₁, b₂, b₃])

def bytes (n : ℕ) : Reader Bytes := atLeast n do
  let s ← window n
  advance n
  return s

def string : Reader String := do
  let len ← u16
  let raw ← bytes len.toNat
  okOr (fromUtf8 raw) (.malformed "invalid utf8 string")

def binary : Reader Bytes := do
  let len ← u16
  bytes len.toNat

/-- What the loop of `varint` carries from round to round. -/
structure VarintState where
  multiplier : ℕ
  value : ℕ
  consumed : ℕ

/-- One round of the loop of `varint`. The value stays below `128 ^ 4`, so that 32 bits hold it. -/
def varintRound (s : VarintState) : Reader (VarintState ⊕ (UInt32 × ℕ)) := do
  let b ← u8
  let consumed := s.consumed + 1
  let value := s.value + (b &&& 0x7F).toNat * s.multiplier
  if b &&& 0x80 = 0 then return .inr (.ofNat value, consumed)
  else
    let multiplier := s.multiplier * 128
    if 2 ^ 32 ≤ multiplier then fail (.malformed "varint overflow")
    else if 4 ≤ consumed then fail (.malformed "varint too long")
    else return .inl ⟨multiplier, value, consumed⟩

/-- Decode a variable-byte integer: the value and the bytes consumed. The fourth round is the last
one. -/
def varint : Reader (UInt32 × ℕ) := rounds varintRound 4 ⟨1, 0, 0⟩

/-- Read the value of one property into its field. -/
def propertyValue (props : Properties) : UInt8 → Reader Properties
  | PropId.payloadFormatIndicator =>
    (fun v ↦ { props with payloadFormatIndicator := some v }) <$> u8
  | PropId.messageExpiryInterval =>
    (fun v ↦ { props with messageExpiryInterval := some v }) <$> u32
  | PropId.contentType => (fun v ↦ { props with contentType := some v }) <$> string
  | PropId.responseTopic => (fun v ↦ { props with responseTopic := some v }) <$> string
  | PropId.correlationData => (fun v ↦ { props with correlationData := some v }) <$> binary
  | PropId.subscriptionIdentifier =>
    (fun v ↦ { props with subscriptionIdentifier := some v }) <$> (Prod.fst <$> varint)
  | PropId.sessionExpiryInterval =>
    (fun v ↦ { props with sessionExpiryInterval := some v }) <$> u32
  | PropId.assignedClientIdentifier =>
    (fun v ↦ { props with assignedClientIdentifier := some v }) <$> string
  | PropId.serverKeepAlive => (fun v ↦ { props with serverKeepAlive := some v }) <$> u16
  | PropId.authenticationMethod =>
    (fun v ↦ { props with authenticationMethod := some v }) <$> string
  | PropId.authenticationData => (fun v ↦ { props with authenticationData := some v }) <$> binary
  | PropId.requestProblemInformation =>
    (fun v ↦ { props with requestProblemInformation := some v }) <$> u8
  | PropId.willDelayInterval => (fun v ↦ { props with willDelayInterval := some v }) <$> u32
  | PropId.requestResponseInformation =>
    (fun v ↦ { props with requestResponseInformation := some v }) <$> u8
  | PropId.responseInformation =>
    (fun v ↦ { props with responseInformation := some v }) <$> string
  | PropId.serverReference => (fun v ↦ { props with serverReference := some v }) <$> string
  | PropId.reasonString => (fun v ↦ { props with reasonString := some v }) <$> string
  | PropId.receiveMaximum => (fun v ↦ { props with receiveMaximum := some v }) <$> u16
  | PropId.topicAliasMaximum => (fun v ↦ { props with topicAliasMaximum := some v }) <$> u16
  | PropId.topicAlias => (fun v ↦ { props with topicAlias := some v }) <$> u16
  | PropId.maximumQos => (fun v ↦ { props with maximumQos := some v }) <$> u8
  | PropId.retainAvailable => (fun v ↦ { props with retainAvailable := some v }) <$> u8
  | PropId.userProperty => do
    let k ← string
    let v ← string
    return { props with userProperties := props.userProperties ++ [(k, v)] }
  | PropId.maximumPacketSize => (fun v ↦ { props with maximumPacketSize := some v }) <$> u32
  | PropId.wildcardSubscriptionAvailable =>
    (fun v ↦ { props with wildcardSubscriptionAvailable := some v }) <$> u8
  | PropId.subscriptionIdentifierAvailable =>
    (fun v ↦ { props with subscriptionIdentifierAvailable := some v }) <$> u8
  | PropId.sharedSubscriptionAvailable =>
    (fun v ↦ { props with sharedSubscriptionAvailable := some v }) <$> u8
  | _ => fail (.malformed "unknown property id")

/-- One round of the loop over a property block. -/
def property (props : Properties) : Reader Properties := do
  let id ← u8
  propertyValue props id

/-- Decode a property block: its length, then identifiers and values up to the end. -/
def properties : Reader Properties := do
  let (len, _) ← varint
  atLeast len.toNat do
    let start ← position
    whileDo (do return (← position) < start + len.toNat) property Properties.default

/-! ## The methods take what they check for -/

theorem takes_u8 : Takes .incomplete 1 (fun xs ↦ xs.headD 0) u8 := by
  apply takes_need
  intro buf pos h
  have hdrop := List.drop_eq_getElem_cons (show pos < buf.length by omega)
  rw [bind_of_ok (peek_of_lt (i := 0) h), hdrop]
  rfl

theorem takes_u16 : Takes .incomplete 2 (fun xs ↦ .ofNat (beNat xs)) u16 := by
  apply takes_need
  intro buf pos h
  have h₀ := List.drop_eq_getElem_cons (show pos < buf.length by omega)
  have h₁ := List.drop_eq_getElem_cons (show pos + 1 < buf.length by omega)
  rw [bind_of_ok (peek_of_lt (i := 0) (by omega)), bind_of_ok (peek_of_lt (i := 1) h), h₀, h₁]
  rfl

theorem takes_u32 : Takes .incomplete 4 (fun xs ↦ .ofNat (beNat xs)) u32 := by
  apply takes_need
  intro buf pos h
  have h₀ := List.drop_eq_getElem_cons (show pos < buf.length by omega)
  have h₁ := List.drop_eq_getElem_cons (show pos + 1 < buf.length by omega)
  have h₂ := List.drop_eq_getElem_cons (show pos + 2 < buf.length by omega)
  have h₃ := List.drop_eq_getElem_cons (show pos + 3 < buf.length by omega)
  rw [bind_of_ok (peek_of_lt (i := 0) (by omega)), bind_of_ok (peek_of_lt (i := 1) (by omega)),
    bind_of_ok (peek_of_lt (i := 2) (by omega)), bind_of_ok (peek_of_lt (i := 3) h), h₀, h₁, h₂, h₃]
  rfl

theorem takes_bytes (n : ℕ) : Takes .incomplete n id (bytes n) := by
  apply takes_need
  intro buf pos h
  rw [bind_of_ok (window_of_le h)]
  rfl

/-! ## Reading does not go wrong -/

theorem advances_u8 : Advances u8 := takes_u8.advances (by decide)

theorem advances_string : Advances string := by
  apply (takes_u16.advances (by decide)).bind
  intro len
  exact (takes_bytes len.toNat).safe.bind fun _ ↦ safe_okOr _ _

theorem safe_string : Safe string := advances_string.safe

theorem safe_binary : Safe binary := by
  apply takes_u16.safe.bind
  intro len
  exact (takes_bytes len.toNat).safe

theorem ensures_varintRound (s : VarintState) (pos : ℕ) :
    Ensures pos (varintRound s) fun r pos' ↦ pos' = pos + 1 ∧
      r.elim (fun t ↦ t.consumed = s.consumed + 1 ∧ t.consumed < 4)
        (fun v ↦ v.2 = s.consumed + 1) := by
  apply (takes_u8.ensures pos).bind
  rintro b _ rfl
  dsimp only
  split_ifs with hlast hover hlong
  · apply (ensures_pure _ _).imp
    rintro _ _ ⟨rfl, rfl⟩
    exact ⟨rfl, rfl⟩
  · exact ensures_fail _ _
  · exact ensures_fail _ _
  · apply (ensures_pure _ _).imp
    rintro _ _ ⟨rfl, rfl⟩
    exact ⟨rfl, rfl, lt_of_not_ge hlong⟩

/-- In its fourth round the loop returns or fails, and it has consumed as many bytes as it says. -/
theorem ensures_rounds_varintRound (n : ℕ) (s : VarintState) (hn : s.consumed + n = 4)
    (hpos : s.consumed < 4) (pos : ℕ) :
    Ensures pos (rounds varintRound n s) fun r pos' ↦
      pos' + s.consumed = pos + r.2 ∧ pos < pos' := by
  -- rounds done and rounds to go add up to four, so the last one cannot ask for another
  induction n generalizing s pos with
  | zero => omega
  | succ n ih =>
    apply (ensures_varintRound s pos).bind
    rintro (t | v) _ ⟨rfl, hr⟩
    · obtain ⟨hconsumed, hlt⟩ := hr
      apply (ih t (by omega) hlt (pos + 1)).imp
      omega
    · apply (ensures_pure _ _).imp
      rintro _ _ ⟨rfl, rfl⟩
      rw [Sum.elim_inr] at hr
      omega

theorem ensures_varint (pos : ℕ) : Ensures pos varint fun r pos' ↦ pos' = pos + r.2 ∧ pos < pos' :=
  ensures_rounds_varintRound 4 _ rfl (by decide) pos

theorem safe_varint : Safe varint := .of_ensures ensures_varint

/-- The integer is read to its last byte, and no byte after that matters. -/
theorem streams_rounds_varintRound (n : ℕ) (s : VarintState) (hn : s.consumed + n = 4)
    (hpos : s.consumed < 4) : Streams .incomplete (rounds varintRound n s) := by
  induction n generalizing s with
  | zero => omega
  | succ n ih =>
    have hrd : Streams .incomplete (varintRound s) := by
      apply takes_u8.streams.bind (P := fun _ ↦ True) takes_u8.safe
      · intro b _
        dsimp only
        split_ifs
        · exact streams_pure _
        · exact streams_fail _
        · exact streams_fail _
        · exact streams_pure _
      · intro b _
        dsimp only
        split_ifs
        · exact safe_pure _
        · exact safe_fail _
        · exact safe_fail _
        · exact safe_pure _
    apply hrd.bind fun pos ↦ (ensures_varintRound s pos).imp fun _ _ h ↦ h.2
    · rintro (t | v) hr
      · exact ih t (by rw [hr.1]; omega) hr.2
      · exact streams_pure v
    · rintro (t | v) hr
      · exact .of_ensures (ensures_rounds_varintRound n t (by rw [hr.1]; omega) hr.2)
      · exact safe_pure v

theorem streams_varint : Streams .incomplete varint :=
  streams_rounds_varintRound 4 _ rfl (by decide)

theorem safe_propertyValue (props : Properties) (id : UInt8) : Safe (propertyValue props id) := by
  unfold propertyValue
  split
  -- the readers are told apart by name, without unfolding them
  all_goals first
    | with_reducible exact takes_u8.safe.map _
    | with_reducible exact takes_u16.safe.map _
    | with_reducible exact takes_u32.safe.map _
    | with_reducible exact safe_string.map _
    | with_reducible exact safe_binary.map _
    | with_reducible exact (safe_varint.map _).map _
    | with_reducible exact safe_fail _
    | exact safe_string.bind fun _ ↦ safe_string.bind fun _ ↦ safe_pure _

theorem safe_properties : Safe properties := by
  apply safe_varint.bind
  rintro ⟨len, _⟩
  apply Safe.need
  apply safe_position.bind
  intro start
  apply safe_whileDo
  · exact safe_position.bind fun _ ↦ safe_pure _
  · exact fun props ↦ advances_u8.bind (safe_propertyValue props)

end Reader

end Synapse.Mqtt
