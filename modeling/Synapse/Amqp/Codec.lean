import Synapse.Lib.Parse
import Synapse.Amqp.Broker

/-!
# The AMQP codec

Frames and the arguments of methods. A frame has a type, a channel, a payload preceded by its
length, and an end marker. `decodeFrame` looks at the front of a buffer: it returns one frame and
the bytes it takes, or asks for more, or rejects the buffer.

The lengths are what makes frames self-delimiting: a frame followed by anything is read back
(`decodeFrame_wire`), and a proper beginning of a frame asks for more (`decodeFrame_cut`). Both are
for payloads of at most 512 MiB; the decoder takes no others.

The `Reader` of arguments is a cursor with a byte of bits: booleans are packed, and any other read
drops the bits that are left. Strings are decoded with replacement characters and never fail.
-/

namespace Synapse.Amqp

open ByteCode Parse Parse.Parser List

def protocolHeader : Bytes := [0x41, 0x4D, 0x51, 0x50, 0, 0, 9, 1]

def frameMethod : UInt8 := 1

def frameHeader : UInt8 := 2

def frameBody : UInt8 := 3

def frameHeartbeat : UInt8 := 8

def frameEnd : UInt8 := 0xCE

def classBasic : UInt16 := 60

def methodBasicPublish : UInt16 := 40

/-- A decoded frame; arguments, properties and content stay raw. -/
inductive Frame
  | method (channel classId methodId : UInt16) (args : Bytes)
  | header (channel classId weight : UInt16) (bodySize : UInt64) (properties : Bytes)
  | body (channel : UInt16) (data : Bytes)
  | heartbeat
deriving DecidableEq, Repr

/-! ## Strings with replacement characters -/

/-- The length of the character a byte begins; zero if it begins none. -/
def utf8Width (b : UInt8) : ℕ :=
  if b < 0x80 then 1
  else if b < 0xC2 then 0
  else if b < 0xE0 then 2
  else if b < 0xF0 then 3
  else if b < 0xF5 then 4
  else 0

/-- Whether the second byte may follow the first. -/
def utf8Second (b c : UInt8) : Bool :=
  if b = 0xE0 then 0xA0 ≤ c && c ≤ 0xBF
  else if b = 0xED then 0x80 ≤ c && c ≤ 0x9F
  else if b = 0xF0 then 0x90 ≤ c && c ≤ 0xBF
  else if b = 0xF4 then 0x80 ≤ c && c ≤ 0x8F
  else 0x80 ≤ c && c ≤ 0xBF

def utf8Continues (c : UInt8) : Bool := 0x80 ≤ c && c ≤ 0xBF

/-- The bytes that continue a character, up to the first one that cannot. -/
def utf8Tail (b : UInt8) (width : ℕ) : Bytes → Bytes
  | [] => []
  | c :: rest =>
    if utf8Second b c then c :: (rest.take (width - 2)).takeWhile utf8Continues else []

def replacement : Char := Char.ofNat 0xFFFD

/-- The first character and the bytes it takes. What is not a character is replaced, as far as it
could have been the beginning of one. -/
def lossyChar (b : UInt8) (rest : Bytes) : Char × ℕ :=
  let width := utf8Width b
  if width = 1 then (Char.ofNat b.toNat, 1)
  else if width = 0 then (replacement, 1)
  else
    let tail := utf8Tail b width (rest.take (width - 1))
    if tail.length = width - 1 then
      let lead := b.toNat % 2 ^ (7 - width)
      (Char.ofNat (tail.foldl (fun n c ↦ n * 64 + c.toNat % 64) lead), width)
    else (replacement, 1 + tail.length)

def lossyChars : ℕ → Bytes → List Char
  | 0, _ => []
  | _ + 1, [] => []
  | fuel + 1, b :: rest =>
    let (c, taken) := lossyChar b rest
    c :: lossyChars fuel (rest.drop (taken - 1))

/-- `String::from_utf8_lossy`, which returns a valid string as it is. -/
def fromUtf8Lossy (bs : Bytes) : String :=
  match fromUtf8 bs with
  | some s => s
  | none => String.ofList (lossyChars bs.length bs)

/-! ## Arguments -/

/-- The byte the next bits come from, and how many are left in it. -/
structure Bits where
  bitByte : UInt8
  bitLeft : ℕ
deriving DecidableEq, Repr

abbrev Reader := StateT Bits (Parser UInt8 ProtocolError)

namespace Reader

def flushBits : Reader Unit := modify fun bits ↦ { bits with bitLeft := 0 }

def take (n : ℕ) : Reader Bytes :=
  StateT.lift (need .incomplete n do
    let raw ← window n
    advance n
    return raw)

def unsigned (n : ℕ) : Reader ℕ := do
  flushBits
  let raw ← take n
  return beNat raw

def u8 : Reader UInt8 := UInt8.ofNat <$> unsigned 1

def u16 : Reader UInt16 := UInt16.ofNat <$> unsigned 2

def u32 : Reader UInt32 := UInt32.ofNat <$> unsigned 4

def u64 : Reader UInt64 := UInt64.ofNat <$> unsigned 8

/-- Start a new byte of bits if none are left. -/
def refill : Reader Unit := do
  let bits ← get
  if bits.bitLeft = 0 then
    let b ← u8
    set (Bits.mk b 8)

/-- Read one packed boolean, the least significant bit first. -/
def bit : Reader Bool := do
  refill
  let bits ← get
  set (Bits.mk (bits.bitByte >>> 1) (bits.bitLeft - 1))
  return bits.bitByte &&& 1 = 1

def shortStr : Reader String := do
  flushBits
  let len ← u8
  let raw ← take len.toNat
  return fromUtf8Lossy raw

def longStr : Reader String := do
  flushBits
  let len ← u32
  let raw ← take len.toNat
  return fromUtf8Lossy raw

def parse {β : Type} (args : Bytes) (r : Reader β) : Outcome ProtocolError β :=
  run args (r.run' ⟨0, 0⟩)

end Reader

def parseBasicPublish (args : Bytes) : Outcome ProtocolError (String × String) :=
  Reader.parse args do
    -- reserved
    let _ ← Reader.u16
    let exchange ← Reader.longStr
    let routingKey ← Reader.longStr
    -- mandatory and immediate
    let _ ← Reader.bit
    let _ ← Reader.bit
    return (exchange, routingKey)

/-! ## Reading does not go wrong -/

namespace Reader

variable {β γ : Type} {r : Reader β} {f : β → Reader γ}

/-- The reader does not go wrong, whatever bits are left. -/
def Safe (r : Reader β) : Prop := ∀ bits, Parser.Safe (r.run bits)

theorem Safe.bind (hr : r.Safe) (hf : ∀ b, (f b).Safe) : Safe (r >>= f) :=
  fun bits ↦ (hr bits).bind fun p ↦ hf p.1 p.2

theorem Safe.map (hr : r.Safe) (g : β → γ) : Safe (g <$> r) :=
  fun bits ↦ (hr bits).bind fun p ↦ Parser.safe_pure (g p.1, p.2)

theorem safe_pure (b : β) : Safe (pure b : Reader β) := fun bits ↦ Parser.safe_pure (b, bits)

theorem safe_flushBits : Safe flushBits := fun _ ↦ Parser.safe_pure _

theorem takes_take (n : ℕ) (bits : Bits) :
    Takes .incomplete n (fun raw ↦ (raw, bits)) ((take n).run bits) := by
  refine Takes.map (takes_need (g := id) fun buf pos hpos ↦ ?_) fun raw ↦ (raw, bits)
  rw [bind_of_ok (window_of_le hpos)]
  rfl

theorem safe_take (n : ℕ) : Safe (take n) := fun bits ↦ (takes_take n bits).safe

theorem takes_unsigned (n : ℕ) (bits : Bits) : Takes .incomplete n
    (fun raw ↦ (beNat raw, { bits with bitLeft := 0 })) ((unsigned n).run bits) :=
  (takes_take n { bits with bitLeft := 0 }).map fun r ↦ (beNat r.1, r.2)

theorem safe_unsigned (n : ℕ) : Safe (unsigned n) := fun bits ↦ (takes_unsigned n bits).safe

theorem safe_shortStr : Safe shortStr :=
  safe_flushBits.bind fun _ ↦ ((safe_unsigned 1).map _).bind fun _ ↦
    (safe_take _).bind fun _ ↦ safe_pure _

theorem safe_longStr : Safe longStr :=
  safe_flushBits.bind fun _ ↦ ((safe_unsigned 4).map _).bind fun _ ↦
    (safe_take _).bind fun _ ↦ safe_pure _

end Reader

/-! ## Frames -/

def frame (frameType : UInt8) (channel : UInt16) (payload : Bytes) : Bytes :=
  [frameType] ++ beBytes 2 channel.toNat ++ beBytes 4 payload.length ++ payload ++ [frameEnd]

def encodeMethod (channel classId methodId : UInt16) (args : Bytes) : Bytes :=
  frame frameMethod channel (beBytes 2 classId.toNat ++ (beBytes 2 methodId.toNat ++ args))

/-- A header of weight zero, with no property flag set. -/
def encodeHeader (channel classId : UInt16) (bodySize : UInt64) : Bytes :=
  frame frameHeader channel
    (beBytes 2 classId.toNat ++ (beBytes 2 0 ++ (beBytes 8 bodySize.toNat ++ beBytes 2 0)))

def encodeBody (channel : UInt16) (data : Bytes) : Bytes := frame frameBody channel data

def encodeHeartbeat : Bytes := frame frameHeartbeat 0 []

def maxFrame : ℕ := 512 * 1024 * 1024

/-- The payload of a frame of a known type. -/
def decodePayload (frameType : UInt8) (channel : UInt16) (payload : Bytes) :
    Except ProtocolError Frame :=
  if frameType = frameHeartbeat then .ok .heartbeat
  else if frameType = frameMethod then
    if payload.length < 4 then .error (.malformed "short method frame")
    else .ok (.method channel (.ofNat (beNat (payload.take 2)))
      (.ofNat (beNat ((payload.drop 2).take 2))) (payload.drop 4))
  else if frameType = frameHeader then
    if payload.length < 14 then .error (.malformed "short header frame")
    else .ok (.header channel (.ofNat (beNat (payload.take 2)))
      (.ofNat (beNat ((payload.drop 2).take 2))) (.ofNat (beNat ((payload.drop 4).take 8)))
      (payload.drop 12))
  else if frameType = frameBody then .ok (.body channel payload)
  else .error (.malformed "unknown frame type")

/-- Parse one frame from the front of the buffer: the frame and the bytes it takes. -/
def decodeFrame (buf : Bytes) : Except ProtocolError (Option (Frame × ℕ)) :=
  if buf.length < 7 then .ok none
  else
    let frameType := buf.headD 0
    let channel := UInt16.ofNat (beNat ((buf.drop 1).take 2))
    let size := beNat ((buf.drop 3).take 4)
    if maxFrame < size then .error (.malformed "frame too large")
    else if buf.length < 7 + size + 1 then .ok none
    else if buf.getD (7 + size) 0 ≠ frameEnd then .error (.malformed "bad frame-end")
    else (decodePayload frameType channel ((buf.drop 7).take size)).map
      fun frame ↦ some (frame, 8 + size)

/-- Decode frames one after the other, at most so many, and return what is left of the buffer. -/
def decodeFrames : ℕ → Bytes → Except ProtocolError (List Frame × Bytes)
  | 0, buf => .ok ([], buf)
  | count + 1, buf =>
    match decodeFrame buf with
    | .error e => .error e
    | .ok none => .ok ([], buf)
    | .ok (some (f, consumed)) =>
      (decodeFrames count (buf.drop consumed)).map fun r ↦ (f :: r.1, r.2)

namespace Frame

def frameType : Frame → UInt8
  | method .. => frameMethod
  | header .. => frameHeader
  | body .. => frameBody
  | heartbeat => frameHeartbeat

def channel : Frame → UInt16
  | method channel .. => channel
  | header channel .. => channel
  | body channel _ => channel
  | heartbeat => 0

def payload : Frame → Bytes
  | method _ classId methodId args => beBytes 2 classId.toNat ++ (beBytes 2 methodId.toNat ++ args)
  | header _ classId weight bodySize properties =>
    beBytes 2 classId.toNat ++ (beBytes 2 weight.toNat ++ (beBytes 8 bodySize.toNat ++ properties))
  | body _ data => data
  | heartbeat => []

def wire (f : Frame) : Bytes := frame f.frameType f.channel f.payload

/-- The decoder takes the frame: it is not too large, and a header has its property flags. -/
def Fits (f : Frame) : Prop :=
  f.payload.length ≤ maxFrame ∧
    match f with
    | header _ _ _ _ properties => 2 ≤ properties.length
    | _ => True

/-- The frame as the encoder of its kind makes it. -/
def encode : Frame → Bytes
  | method channel classId methodId args => encodeMethod channel classId methodId args
  | header channel classId _ bodySize _ => encodeHeader channel classId bodySize
  | body channel data => encodeBody channel data
  | heartbeat => encodeHeartbeat

/-- A frame the encoders make, of a size the decoder takes. -/
def Sent (f : Frame) : Prop :=
  f.payload.length ≤ maxFrame ∧
    match f with
    | header _ _ weight _ properties => weight = 0 ∧ properties = [0, 0]
    | _ => True

theorem Sent.fits {f : Frame} (h : f.Sent) : f.Fits ∧ f.encode = f.wire := by
  obtain ⟨hlen, hkind⟩ := h
  cases f with
  | method => exact ⟨⟨hlen, hkind⟩, rfl⟩
  | header =>
    obtain ⟨rfl, rfl⟩ := hkind
    exact ⟨⟨hlen, le_rfl⟩, rfl⟩
  | body => exact ⟨⟨hlen, hkind⟩, rfl⟩
  | heartbeat => exact ⟨⟨hlen, hkind⟩, rfl⟩

instance : (f : Frame) → Decidable f.Fits
  | .header .. | .method .. | .body .. | .heartbeat => inferInstanceAs (Decidable (_ ∧ _))

@[simp] theorem length_wire (f : Frame) : f.wire.length = 8 + f.payload.length := by
  rw [wire, frame]
  simp only [length_append, length_cons, length_nil, length_beBytes]
  omega

end Frame

section Fields

variable {t : UInt8} {c : UInt16} {p rest : Bytes}

theorem frame_append (t : UInt8) (c : UInt16) (p rest : Bytes) : frame t c p ++ rest =
    t :: (beBytes 2 c.toNat ++ (beBytes 4 p.length ++ (p ++ (frameEnd :: rest)))) := by
  simp [frame]

theorem channel_frame : (((frame t c p ++ rest).drop 1).take 2) = beBytes 2 c.toNat := by
  rw [frame_append, drop_succ_cons, drop_zero, take_left' (length_beBytes 2 _)]

theorem size_frame : (((frame t c p ++ rest).drop 3).take 4) = beBytes 4 p.length := by
  rw [frame_append, drop_succ_cons, drop_left' (length_beBytes 2 _),
    take_left' (length_beBytes 4 _)]

theorem drop_frame : (frame t c p ++ rest).drop 7 = p ++ (frameEnd :: rest) := by
  have hlen : (beBytes 2 c.toNat ++ beBytes 4 p.length).length = 6 := by
    rw [length_append, length_beBytes, length_beBytes]
  rw [frame_append, drop_succ_cons, ← append_assoc, drop_left' hlen]

theorem getD_frame : (frame t c p ++ rest).getD (7 + p.length) 0 = frameEnd := by
  have hget : ((frame t c p ++ rest).drop 7).getD p.length 0 = frameEnd := by
    rw [drop_frame]
    simp
  simpa using hget

theorem size_of_le (hp : p.length ≤ maxFrame) : beNat (beBytes 4 p.length) = p.length :=
  beNat_beBytes_of_lt (lt_of_le_of_lt hp (by decide))

end Fields

theorem ofNat_channel (c : UInt16) : UInt16.ofNat (beNat (beBytes 2 c.toNat)) = c := by
  rw [beNat_beBytes_of_lt (Nat.lt_of_lt_of_eq c.toNat_lt (by decide)), UInt16.ofNat_toNat]

theorem ofNat_size (n : UInt64) : UInt64.ofNat (beNat (beBytes 8 n.toNat)) = n := by
  rw [beNat_beBytes_of_lt (Nat.lt_of_lt_of_eq n.toNat_lt (by decide)), UInt64.ofNat_toNat]

variable {f : Frame}

theorem decodePayload_payload (h : f.Fits) :
    decodePayload f.frameType f.channel f.payload = .ok f := by
  cases f with
  | method channel classId methodId args =>
    change decodePayload frameMethod channel
      (beBytes 2 classId.toNat ++ (beBytes 2 methodId.toNat ++ args)) = _
    rw [decodePayload, if_neg (by decide), if_pos rfl, if_neg, take_left' (length_beBytes 2 _),
      ofNat_channel, drop_left' (length_beBytes 2 _), take_left' (length_beBytes 2 _),
      ofNat_channel, ← append_assoc, drop_left' (by simp)]
    simp only [length_append, length_beBytes]
    omega
  | header channel classId weight bodySize properties =>
    have htwo : 2 ≤ properties.length := h.2
    have hfour : (beBytes 2 classId.toNat ++ beBytes 2 weight.toNat).length = 4 := by simp
    change decodePayload frameHeader channel (beBytes 2 classId.toNat ++
      (beBytes 2 weight.toNat ++ (beBytes 8 bodySize.toNat ++ properties))) = _
    rw [decodePayload, if_neg (by decide), if_neg (by decide), if_pos rfl, if_neg,
      take_left' (length_beBytes 2 _), ofNat_channel, drop_left' (length_beBytes 2 _),
      take_left' (length_beBytes 2 _), ofNat_channel, ← append_assoc (beBytes 2 _),
      drop_left' hfour, take_left' (length_beBytes 8 _), ofNat_size, ← append_assoc,
      drop_left' (by simp)]
    simp only [length_append, length_beBytes]
    omega
  | body channel data => rfl
  | heartbeat => rfl

/-- A frame is read back, whatever follows. -/
theorem decodeFrame_wire (h : f.Fits) (rest : Bytes) :
    decodeFrame (f.wire ++ rest) = .ok (some (f, f.wire.length)) := by
  have hlen : (f.wire ++ rest).length = 8 + f.payload.length + rest.length := by
    rw [length_append, Frame.length_wire]
  rw [decodeFrame, if_neg (by omega)]
  simp only [Frame.wire, size_frame, channel_frame, size_of_le h.1] at hlen ⊢
  rw [if_neg (by have := h.1; omega), if_neg (by omega), if_neg (not_not.mpr getD_frame),
    drop_frame, take_left, ofNat_channel, frame_append, headD_cons,
    decodePayload_payload h, ← Frame.wire, Frame.length_wire]
  rfl

/-- A proper beginning of a frame asks for more. -/
theorem decodeFrame_cut (h : f.Fits) {k : ℕ} (hk : k < f.wire.length) :
    decodeFrame (f.wire.take k) = .ok none := by
  have hlen : (f.wire.take k).length = k := length_take_of_le hk.le
  rw [Frame.length_wire] at hk
  rw [decodeFrame, hlen]
  split_ifs with hsrt
  · rfl
  have hsize : ((f.wire.take k).drop 3).take 4 = beBytes 4 f.payload.length := by
    rw [drop_take, take_take, Nat.min_eq_left (by omega), ← append_nil f.wire]
    exact size_frame
  simp only [hsize, size_of_le h.1]
  rw [if_neg (by have := h.1; omega), if_pos (by omega)]

/-- Encoded frames are decoded in their order and to the end, and a part of one asks for more. -/
theorem decodeFrames_encode {fs : List Frame} (hfs : ∀ f ∈ fs, f.Sent) :
    (∀ count, fs.length < count → decodeFrames count (fs.flatMap Frame.encode) = .ok (fs, [])) ∧
      ∀ f ∈ fs, ∀ k < f.encode.length, decodeFrame (f.encode.take k) = .ok none := by
  constructor
  · induction fs with
    | nil =>
      rintro (_ | count) hcount
      · cases hcount
      · rfl
    | cons f fs ih =>
      rintro (_ | count) hcount
      · cases hcount
      obtain ⟨hfits, henc⟩ := (hfs f mem_cons_self).fits
      have hrest := ih (fun g hg ↦ hfs g (mem_cons_of_mem f hg)) count
        (Nat.lt_of_succ_lt_succ hcount)
      rw [flatMap_cons, henc, decodeFrames, decodeFrame_wire hfits]
      dsimp only
      rw [drop_left, hrest]
      rfl
  · intro f hf k hk
    obtain ⟨hfits, henc⟩ := (hfs f hf).fits
    rw [henc] at hk ⊢
    exact decodeFrame_cut hfits hk

theorem decodeFrames_encode_three :
    let fs : List Frame := [.method 1 60 40 [7], .heartbeat, .header 1 60 0 0 [0, 0]]
    decodeFrames 4 (fs.flatMap Frame.encode) = .ok (fs, []) :=
  (decodeFrames_encode (by simp [Frame.Sent, Frame.payload, maxFrame])).1 4 (by decide)

end Synapse.Amqp
