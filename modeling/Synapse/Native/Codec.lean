import Mathlib.Data.Vector.Defs
import Mathlib.Logic.Function.Basic
import Synapse.Basic
import Synapse.Lib.Bytes

/-!
# The frame codec of the native protocol

A frame is a plaintext header and a sealed payload. The header holds the magic byte, the version,
the key epoch, a flag for the checksum, the opcode, the counter and the payload length, and, if the
flag is set, a CRC of these thirteen bytes. The payload is sealed by an AEAD under the key of the
epoch, with the header as associated data and the codec's salt and the frame's counter as nonce.

The cipher and the checksum are third-party code. `Cipher` is a pair of arbitrary functions;
`Cipher.Lawful` states what the AEAD promises, that opening undoes sealing and that the tag takes
sixteen bytes.

An index out of range, or the lookup of a missing key in `encode`, is a panic of the source; here
the function returns `none`.
-/

namespace Synapse.Native

open ByteCode Function Option
open List hiding Vector

def magic : UInt8 := 0x53

def version : UInt8 := 1

def tagLen : ℕ := 16

def hasCrc : UInt8 := 1

inductive Opcode
  | hello
  | rekey
  | pubSub
  | logTail
  | queue
  | kvGet
  | kvSet
  | ack
deriving DecidableEq, Repr

namespace Opcode

def toU8 : Opcode → UInt8
  | hello => 1
  | rekey => 2
  | pubSub => 3
  | logTail => 4
  | queue => 5
  | kvGet => 6
  | kvSet => 7
  | ack => 8

def fromU8 (v : UInt8) : Option Opcode :=
  [hello, rekey, pubSub, logTail, queue, kvGet, kvSet, ack].find? fun op ↦ op.toU8 == v

theorem fromU8_toU8 (op : Opcode) : fromU8 op.toU8 = some op := by cases op <;> decide

end Opcode

structure Frame where
  keyId : UInt8
  opcode : Opcode
  counter : UInt32
  payload : Bytes
deriving DecidableEq, Repr

inductive NativeError
  | badMagic
  | badVersion (v : UInt8)
  | unknownOpcode (v : UInt8)
  | crcMismatch
  | auth
  | replay (counter last : UInt32)
  | unknownKey (keyId : UInt8)
deriving DecidableEq, Repr

abbrev SessionKey := Vector UInt8 32

/-- A set of rotating session keys indexed by epoch. -/
structure KeyRing where
  keys : UInt8 → Option SessionKey

namespace KeyRing

def new : KeyRing := ⟨fun _ ↦ none⟩

def insert (ring : KeyRing) (keyId : UInt8) (key : SessionKey) : KeyRing :=
  ⟨Function.update ring.keys keyId (some key)⟩

theorem keys_insert_self (ring : KeyRing) (keyId : UInt8) (key : SessionKey) :
    (ring.insert keyId key).keys keyId = some key :=
  update_self _ _ _

end KeyRing

/-- An AEAD: sealing a message and opening a ciphertext under a key, a nonce and associated data. -/
structure Cipher where
  encrypt : SessionKey → Bytes → Bytes → Bytes → Bytes
  decrypt : SessionKey → Bytes → Bytes → Bytes → Option Bytes

structure Cipher.Lawful (cipher : Cipher) : Prop where
  decrypt_encrypt : ∀ key nonce aad msg,
    cipher.decrypt key nonce aad (cipher.encrypt key nonce aad msg) = some msg
  length_encrypt : ∀ key nonce aad msg,
    (cipher.encrypt key nonce aad msg).length = msg.length + tagLen

/-- A lawful cipher without secrecy: the message and a blank tag. -/
def Cipher.blank : Cipher where
  encrypt _ _ _ msg := msg ++ List.replicate tagLen 0
  decrypt _ _ _ ct := if tagLen ≤ ct.length then some (ct.take (ct.length - tagLen)) else none

theorem Cipher.blank_lawful : Cipher.blank.Lawful where
  decrypt_encrypt _ _ _ msg := by simp [blank]
  length_encrypt _ _ _ msg := by simp [blank]

/-- Stateful frame codec: the salt, the keys, and the highest counter accepted per epoch. -/
structure Codec where
  salt : Vector UInt8 4
  keyring : KeyRing
  lastCounter : UInt8 → Option UInt32
  useCrc : Bool

namespace Codec

def new (salt : Vector UInt8 4) (keyring : KeyRing) : Codec := ⟨salt, keyring, fun _ ↦ none, true⟩

def headerLen (codec : Codec) : ℕ := if codec.useCrc then 13 + 4 else 13

theorem le_headerLen (codec : Codec) : 13 ≤ codec.headerLen := by
  rw [headerLen]
  split_ifs <;> decide

def nonce (codec : Codec) (counter : UInt32) : Bytes :=
  codec.salt.toList ++ (List.replicate 4 0 ++ beBytes 4 counter.toNat)

variable {codec : Codec} {frame : Frame} {key : SessionKey} {bytes : Bytes}

theorem nonce_inj {counter counter' : UInt32} :
    codec.nonce counter = codec.nonce counter' ↔ counter = counter' := by
  refine ⟨fun h ↦ ?_, congrArg codec.nonce⟩
  have hread := congrArg beNat (append_cancel_left (append_cancel_left h))
  rw [beNat_beBytes_toNat, beNat_beBytes_toNat] at hread
  exact UInt32.toNat_inj.mp hread

/-! ## Encoding -/

/-- What one call of the cipher's `encrypt` is made with: key and nonce, for a frame. -/
structure Sealing where
  key : SessionKey
  nonce : Bytes
  frame : Frame
deriving DecidableEq

def fixedHeader (codec : Codec) (frame : Frame) : Bytes :=
  [magic, version, frame.keyId, if codec.useCrc then hasCrc else 0, frame.opcode.toU8] ++
    (beBytes 4 frame.counter.toNat ++ beBytes 4 frame.payload.length)

def header (crc32 : Bytes → UInt32) (codec : Codec) (frame : Frame) : Bytes :=
  codec.fixedHeader frame ++
    if codec.useCrc then beBytes 4 (crc32 (codec.fixedHeader frame)).toNat else []

/-- The key and nonce `encode` seals a frame with. -/
def sealing (codec : Codec) (frame : Frame) : Option Sealing :=
  (codec.keyring.keys frame.keyId).map fun key ↦ ⟨key, codec.nonce frame.counter, frame⟩

def encode (cipher : Cipher) (crc32 : Bytes → UInt32) (codec : Codec) (frame : Frame) :
    Option Bytes :=
  (codec.sealing frame).map fun s ↦
    let header := codec.header crc32 frame
    header ++ cipher.encrypt s.key s.nonce header s.frame.payload

/-! ## Decoding -/

structure Head where
  keyId : UInt8
  flags : UInt8
  opcode : Opcode
  counter : UInt32
  payloadLen : ℕ

def parseHead : Bytes → Option (Except NativeError Head)
  | m :: v :: keyId :: flags :: op :: c₀ :: c₁ :: c₂ :: c₃ :: l₀ :: l₁ :: l₂ :: l₃ :: _ =>
    some <|
      if m ≠ magic then .error .badMagic
      else if v ≠ version then .error (.badVersion v)
      else match Opcode.fromU8 op with
        | none => .error (.unknownOpcode op)
        | some opcode => .ok ⟨keyId, flags, opcode, .ofNat (beNat [c₀, c₁, c₂, c₃]),
            beNat [l₀, l₁, l₂, l₃]⟩
  | _ => none

/-- The header bytes to authenticate, after the checksum of a frame that carries one has been
checked; `none` when more bytes are needed. -/
def checkedHeader (crc32 : Bytes → UInt32) (head : Head) (buf : Bytes) :
    Except NativeError (Option Bytes) :=
  if head.flags &&& hasCrc ≠ 0 then
    if buf.length < 17 then .ok none
    else if (crc32 (buf.take 13)).toNat ≠ beNat ((buf.take 17).drop 13) then .error .crcMismatch
    else .ok (some (buf.take 17))
  else .ok (some (buf.take 13))

/-- Reject replays, then open the payload; the counter is accepted only if that succeeds. -/
def openFrame (cipher : Cipher) (codec : Codec) (head : Head) (header ct : Bytes) :
    Except NativeError (Option Frame) × Codec :=
  let last := (codec.lastCounter head.keyId).getD 0
  if head.counter ≤ last then (.error (.replay head.counter last), codec)
  else
    match codec.keyring.keys head.keyId with
    | none => (.error (.unknownKey head.keyId), codec)
    | some key =>
      match cipher.decrypt key (codec.nonce head.counter) header ct with
      | none => (.error .auth, codec)
      | some pt =>
        (.ok (some ⟨head.keyId, head.opcode, head.counter, pt⟩),
          { codec with
            lastCounter := Function.update codec.lastCounter head.keyId (some head.counter) })

/-- Decode the next frame from a buffer that may hold a partial one. What is left of the buffer is
returned also when the frame is rejected. -/
def decode (cipher : Cipher) (crc32 : Bytes → UInt32) (codec : Codec) (buf : Bytes) :
    Option (Except NativeError (Option Frame) × Codec × Bytes) :=
  if buf.length < codec.headerLen then some (.ok none, codec, buf)
  else
    (parseHead buf).map fun
      | .error e => (.error e, codec, buf)
      | .ok head =>
        match checkedHeader crc32 head buf with
        | .error e => (.error e, codec, buf)
        | .ok none => (.ok none, codec, buf)
        | .ok (some header) =>
          let total := codec.headerLen + head.payloadLen + tagLen
          if buf.length < total then (.ok none, codec, buf)
          else
            let ct := (buf.take total).drop codec.headerLen
            let (r, codec) := codec.openFrame cipher head header ct
            (r, codec, buf.drop total)

abbrev accept (codec : Codec) (frame : Frame) : Codec :=
  { codec with lastCounter := update codec.lastCounter frame.keyId (some frame.counter) }

theorem openFrame_cases (cipher : Cipher) (codec : Codec) (head : Head) (header ct : Bytes) :
    (∃ key pt, (codec.lastCounter head.keyId).getD 0 < head.counter ∧
      codec.keyring.keys head.keyId = some key ∧
      cipher.decrypt key (codec.nonce head.counter) header ct = some pt ∧
      codec.openFrame cipher head header ct =
        (.ok (some ⟨head.keyId, head.opcode, head.counter, pt⟩),
          codec.accept ⟨head.keyId, head.opcode, head.counter, pt⟩)) ∨
      ∃ e, codec.openFrame cipher head header ct = (.error e, codec) := by
  rw [openFrame]
  by_cases hrpl : head.counter ≤ (codec.lastCounter head.keyId).getD 0
  · exact .inr ⟨_, if_pos hrpl⟩
  rw [if_neg hrpl]
  cases codec.keyring.keys head.keyId with
  | none => exact .inr ⟨_, rfl⟩
  | some key =>
    simp only
    cases hopen : cipher.decrypt key (codec.nonce head.counter) header ct with
    | none => exact .inr ⟨_, rfl⟩
    | some pt => exact .inl ⟨key, pt, UInt32.not_le.mp hrpl, rfl, hopen, rfl⟩

/-- Every check a frame at the front of the buffer passes to be accepted. -/
def Accepts (cipher : Cipher) (crc32 : Bytes → UInt32) (codec : Codec) (buf : Bytes) (frame : Frame)
    (buf' : Bytes) : Prop :=
  ∃ head header key, parseHead buf = some (.ok head) ∧
    checkedHeader crc32 head buf = .ok (some header) ∧
    codec.headerLen + head.payloadLen + tagLen ≤ buf.length ∧
    (codec.lastCounter head.keyId).getD 0 < head.counter ∧
    codec.keyring.keys head.keyId = some key ∧
    cipher.decrypt key (codec.nonce head.counter) header
      ((buf.take (codec.headerLen + head.payloadLen + tagLen)).drop codec.headerLen) =
        some frame.payload ∧
    frame = ⟨head.keyId, head.opcode, head.counter, frame.payload⟩ ∧
    buf' = buf.drop (codec.headerLen + head.payloadLen + tagLen)

variable {codec' codec'' : Codec} {buf buf' : Bytes} {r : Except NativeError (Option Frame)}
  {crc32 : Bytes → UInt32} {cipher : Cipher}

section

variable (h : codec.decode cipher crc32 buf = some (r, codec', buf'))

include h

/-- **What a call does.** It accepts a frame with a counter above the last one of its epoch, and
takes its bytes; or the codec stays as it is. -/
theorem decode_outcome :
    (∃ frame, r = .ok (some frame) ∧ (codec.lastCounter frame.keyId).getD 0 < frame.counter ∧
      codec' = codec.accept frame ∧ buf'.length < buf.length ∧
      codec.Accepts cipher crc32 buf frame buf') ∨
      (∀ frame, r ≠ .ok (some frame)) ∧ codec' = codec := by
  have hsame : ∀ {r₀ buf₀}, (∀ frame, r₀ ≠ .ok (some frame)) →
      (r₀, codec, buf₀) = (r, codec', buf') → (∀ frame, r ≠ .ok (some frame)) ∧ codec' = codec := by
    rintro r₀ buf₀ hne ⟨⟩
    exact ⟨hne, rfl⟩
  rw [decode] at h
  split_ifs at h
  · exact .inr (hsame (by simp) (some.inj h))
  obtain ⟨parsed, hparsed, h⟩ := map_eq_some_iff.mp h
  rcases parsed with e | head
  · exact .inr (hsame (by simp) h)
  simp only at h
  generalize hchd : checkedHeader crc32 head buf = checked at h
  rcases checked with e | _ | header
  · exact .inr (hsame (by simp) h)
  · exact .inr (hsame (by simp) h)
  simp only at h
  split_ifs at h with htot
  · exact .inr (hsame (by simp) h)
  rcases openFrame_cases cipher codec head header
    ((buf.take (codec.headerLen + head.payloadLen + tagLen)).drop codec.headerLen) with
    ⟨key, pt, hfr, hkey, hdecrypt, hopen⟩ | ⟨e, hopen⟩
  · rw [hopen] at h
    cases h
    refine .inl ⟨_, rfl, hfr, rfl, ?_, head, header, key, hparsed, hchd, Nat.not_lt.mp htot, hfr,
      hkey, hdecrypt, rfl, rfl⟩
    simp only [length_drop, tagLen] at htot ⊢
    omega
  · rw [hopen] at h
    exact .inr (hsame (by simp) h)

theorem decode_codec : ∃ lastCounter, codec' = { codec with lastCounter := lastCounter } := by
  rcases decode_outcome h with ⟨_, -, -, heq, -⟩ | ⟨-, rfl⟩
  · exact ⟨_, heq⟩
  · exact ⟨codec'.lastCounter, rfl⟩

end

/-! ## Round trip -/

variable {cipher : Cipher} {crc32 : Bytes → UInt32}

@[simp] theorem length_fixedHeader (codec : Codec) (frame : Frame) :
    (codec.fixedHeader frame).length = 13 := by
  simp [fixedHeader]

@[simp] theorem length_header (codec : Codec) (frame : Frame) :
    (codec.header crc32 frame).length = codec.headerLen := by
  rw [header, headerLen]
  split_ifs <;> simp

/-- The length field of a header holds the payload's length modulo `2 ^ 32`. -/
theorem parseHead_fixedHeader (codec : Codec) (frame : Frame) (tail : Bytes) :
    parseHead (codec.fixedHeader frame ++ tail) = some (.ok ⟨frame.keyId,
      if codec.useCrc then hasCrc else 0, frame.opcode, frame.counter,
      frame.payload.length % 256 ^ 4⟩) := by
  have hctr := beNat_beBytes_toNat frame.counter
  have hpay := beNat_beBytes 4 frame.payload.length
  simp only [fixedHeader, beBytes, leBytes, reverse_cons, reverse_nil, nil_append,
    cons_append, parseHead] at hctr hpay ⊢
  rw [hctr, hpay, Opcode.fromU8_toU8]
  simp

theorem checkedHeader_header (codec : Codec) (frame : Frame) (head : Head)
    (hflags : head.flags = if codec.useCrc then hasCrc else 0) (tail : Bytes) :
    checkedHeader crc32 head (codec.header crc32 frame ++ tail) =
      .ok (some (codec.header crc32 frame)) := by
  rw [checkedHeader, hflags]
  cases hcrc : codec.useCrc with
  | false =>
    have htake : (codec.header crc32 frame ++ tail).take 13 = codec.header crc32 frame :=
      take_left' (by rw [length_header, headerLen, hcrc]; rfl)
    rw [if_neg (by decide), htake]
  | true =>
    have htake : (codec.header crc32 frame ++ tail).take 17 = codec.header crc32 frame :=
      take_left' (by rw [length_header, headerLen, hcrc]; rfl)
    have hfixed : (codec.header crc32 frame ++ tail).take 13 = codec.fixedHeader frame := by
      rw [header, append_assoc]
      exact take_left' (length_fixedHeader ..)
    have hcheck : (codec.header crc32 frame).drop 13 =
        beBytes 4 (crc32 (codec.fixedHeader frame)).toNat := by
      rw [header, hcrc]
      exact drop_left' (length_fixedHeader ..)
    have hlen : ¬(codec.header crc32 frame ++ tail).length < 17 := by
      rw [length_append, length_header, headerLen, hcrc]
      simp
    rw [if_pos (by decide), if_neg hlen, htake, hfixed, hcheck,
      beNat_beBytes_toNat, if_neg (by simp)]

theorem length_encode (hlaw : cipher.Lawful) (h : codec.encode cipher crc32 frame = some bytes) :
    bytes.length = codec.headerLen + frame.payload.length + tagLen := by
  obtain ⟨s, hs, rfl⟩ := map_eq_some_iff.mp h
  obtain ⟨key, -, rfl⟩ := map_eq_some_iff.mp hs
  simp only [length_append, length_header, hlaw.length_encrypt, add_assoc]

/-- Decoding what begins with the header of a frame: wait for the rest, or open the payload. -/
theorem decode_of_header (cipher : Cipher) (crc32 : Bytes → UInt32) (codec : Codec)
    (hlen : frame.payload.length < 2 ^ 32) (tail : Bytes) :
    codec.decode cipher crc32 (codec.header crc32 frame ++ tail) = some (
      if tail.length < frame.payload.length + tagLen then
        (.ok none, codec, codec.header crc32 frame ++ tail)
      else
        let r := codec.openFrame cipher ⟨frame.keyId, if codec.useCrc then hasCrc else 0,
          frame.opcode, frame.counter, frame.payload.length⟩ (codec.header crc32 frame)
          (tail.take (frame.payload.length + tagLen))
        (r.1, r.2, tail.drop (frame.payload.length + tagLen))) := by
  set hd := codec.header crc32 frame with hhd
  have hbuf : hd ++ tail = codec.fixedHeader frame ++
      ((if codec.useCrc then beBytes 4 (crc32 (codec.fixedHeader frame)).toNat else []) ++
        tail) := by
    rw [hhd, header, append_assoc]
  have hmod : frame.payload.length % 256 ^ 4 = frame.payload.length :=
    Nat.mod_eq_of_lt (Nat.lt_of_lt_of_eq hlen (by decide))
  have hhead := parseHead_fixedHeader codec frame
    ((if codec.useCrc then beBytes 4 (crc32 (codec.fixedHeader frame)).toNat else []) ++ tail)
  rw [← hbuf, hmod] at hhead
  have hchd := @checkedHeader_header crc32 codec frame ⟨frame.keyId,
    if codec.useCrc then hasCrc else 0, frame.opcode, frame.counter, frame.payload.length⟩ rfl tail
  rw [← hhd] at hchd
  have hleng : hd.length = codec.headerLen := length_header ..
  have htot : (hd ++ tail).length < codec.headerLen + frame.payload.length + tagLen ↔
      tail.length < frame.payload.length + tagLen := by
    rw [length_append, hleng]
    omega
  have hct : ((hd ++ tail).take (codec.headerLen + frame.payload.length + tagLen)).drop
      codec.headerLen = tail.take (frame.payload.length + tagLen) := by
    rw [← hleng, drop_take, drop_left]
    congr 1
    omega
  have hdrop : (hd ++ tail).drop (codec.headerLen + frame.payload.length + tagLen) =
      tail.drop (frame.payload.length + tagLen) := by
    rw [← hleng, add_assoc, ← drop_drop, drop_left]
  rw [decode, if_neg (by rw [length_append, hleng]; omega), hhead]
  simp only [map_some, hchd, hct, hdrop, htot]

/-- A frame whose payload the cipher opens and whose counter is fresh is accepted, and exactly its
bytes are consumed. -/
theorem decode_of_decrypt (frame : Frame) {ct : Bytes}
    (hkey : codec.keyring.keys frame.keyId = some key) (hlen : frame.payload.length < 2 ^ 32)
    (hfr : (codec.lastCounter frame.keyId).getD 0 < frame.counter)
    (hopen : cipher.decrypt key (codec.nonce frame.counter) (codec.header crc32 frame) ct =
      some frame.payload) (hct : ct.length = frame.payload.length + tagLen) (rest : Bytes) :
    codec.decode cipher crc32 (codec.header crc32 frame ++ ct ++ rest) =
      some (.ok (some frame), codec.accept frame, rest) := by
  have hlong : ¬(ct ++ rest).length < ct.length := by
    rw [length_append]
    omega
  rw [append_assoc, decode_of_header cipher crc32 codec hlen, ← hct, if_neg hlong,
    take_left, drop_left, openFrame]
  simp only [if_neg (UInt32.not_le.mpr hfr), hkey, hopen]

theorem encode_eq (hkey : codec.keyring.keys frame.keyId = some key) :
    codec.encode cipher crc32 frame = some (codec.header crc32 frame ++
      cipher.encrypt key (codec.nonce frame.counter) (codec.header crc32 frame) frame.payload) := by
  rw [encode, sealing, hkey]
  rfl

/-- **Round trip.** A codec with the same salt, keys and checksum setting decodes a frame with a
fresh counter, and its bytes only. -/
theorem decode_encode (hlaw : cipher.Lawful) (crc32 : Bytes → UInt32)
    (hsalt : codec'.salt = codec.salt) (hring : codec'.keyring = codec.keyring)
    (hcrc : codec'.useCrc = codec.useCrc) (frame : Frame)
    (hkey : codec.keyring.keys frame.keyId = some key) (hlen : frame.payload.length < 2 ^ 32)
    (hfr : (codec'.lastCounter frame.keyId).getD 0 < frame.counter) :
    ∃ bytes, codec.encode cipher crc32 frame = some bytes ∧
      ∀ rest, codec'.decode cipher crc32 (bytes ++ rest) =
        some (.ok (some frame), codec'.accept frame, rest) := by
  have hnonce : codec'.nonce frame.counter = codec.nonce frame.counter := by
    rw [nonce, nonce, hsalt]
  have hhd : codec'.header crc32 frame = codec.header crc32 frame := by
    rw [header, header, fixedHeader, fixedHeader, hcrc]
  refine ⟨_, encode_eq hkey, fun rest ↦ ?_⟩
  rw [← hnonce, ← hhd]
  exact decode_of_decrypt frame (hring ▸ hkey) hlen hfr (hlaw.decrypt_encrypt ..)
    (hlaw.length_encrypt ..) rest

/-! ## Streams -/

theorem decode_nil (cipher : Cipher) (crc32 : Bytes → UInt32) (codec : Codec) :
    codec.decode cipher crc32 [] = some (.ok none, codec, []) := by
  exact if_pos (Nat.lt_of_lt_of_le (by decide) codec.le_headerLen)

theorem decode_of_short (hlaw : cipher.Lawful) (henc : codec.encode cipher crc32 frame = some bytes)
    (hlen : frame.payload.length < 2 ^ 32) {more : Bytes} (hbs : bytes = buf ++ more)
    (hmore : more ≠ []) :
    codec.decode cipher crc32 buf = some (.ok none, codec, buf) := by
  by_cases hhead : buf.length < codec.headerLen
  · rw [decode, if_pos hhead]
  have hleng := length_encode hlaw henc
  obtain ⟨s, -, heq⟩ := map_eq_some_iff.mp henc
  have hbuf : buf = codec.header crc32 frame ++ buf.drop codec.headerLen := by
    have htake : buf.take codec.headerLen = codec.header crc32 frame := by
      have h := congrArg (List.take codec.headerLen) (heq.trans hbs)
      rwa [take_left' (length_header ..), take_append_of_le_length
        (Nat.not_lt.mp hhead), eq_comm] at h
    rw [← htake, take_append_drop]
  have hsrt : (buf.drop codec.headerLen).length < frame.payload.length + tagLen := by
    rw [hbs, length_append] at hleng
    rw [length_drop]
    have := length_pos_iff.mpr hmore
    omega
  rw [hbuf, decode_of_header cipher crc32 codec hlen, if_pos hsrt]

/-- **The front of a stream.** A reader with the beginning of a frame and what follows takes the
frame, or waits for bytes still to come. -/
theorem decode_front (hlaw : cipher.Lawful) (henc : codec.encode cipher crc32 frame = some bytes)
    (hkey : codec.keyring.keys frame.keyId = some key) (hlen : frame.payload.length < 2 ^ 32)
    (hfr : (codec.lastCounter frame.keyId).getD 0 < frame.counter) {wire rest : Bytes}
    (hstr : buf ++ wire = bytes ++ rest) :
    (∃ buf', buf' ++ wire = rest ∧
        codec.decode cipher crc32 buf = some (.ok (some frame), codec.accept frame, buf')) ∨
      codec.decode cipher crc32 buf = some (.ok none, codec, buf) ∧ wire ≠ [] := by
  obtain ⟨bytes', henc', hdec⟩ :=
    decode_encode hlaw crc32 (rfl : codec.salt = codec.salt) rfl rfl frame hkey hlen hfr
  obtain rfl : bytes = bytes' := some.inj (henc.symm.trans henc')
  rcases append_eq_append_iff.mp hstr with ⟨more, hbs, rfl⟩ | ⟨buf', rfl, rfl⟩
  · by_cases hmore : more = []
    · subst hmore
      rw [append_nil] at hbs
      exact .inl ⟨[], rfl, by simpa [hbs] using hdec []⟩
    · exact .inr ⟨decode_of_short hlaw henc hlen hbs hmore, by simp [hmore]⟩
  · exact .inl ⟨buf', rfl, hdec buf'⟩

/-! ## What is accepted -/

theorem take_of_checkedHeader {head : Head} {header : Bytes} (hlen : 13 ≤ buf.length)
    (h : checkedHeader crc32 head buf = .ok (some header)) : buf.take header.length = header := by
  have htake {n : ℕ} (hn : n ≤ buf.length) (heq : buf.take n = header) :
      buf.take header.length = header := by
    rw [← heq, length_take, Nat.min_eq_left hn]
  rw [checkedHeader] at h
  split_ifs at h with hflags hsrt
  · simp at h
  · exact htake (Nat.not_lt.mp hsrt) (some.inj (Except.ok.inj h))
  · exact htake hlen (some.inj (Except.ok.inj h))

theorem accepts_of_decode
    (h : codec.decode cipher crc32 buf = some (.ok (some frame), codec', buf')) :
    codec.Accepts cipher crc32 buf frame buf' := by
  rcases decode_outcome h with ⟨_, hr, -, -, -, hacc⟩ | ⟨hne, -⟩
  · cases hr
    exact hacc
  · exact absurd rfl (hne frame)

/-! ## Settings of the checksum -/

/-- A codec takes the whole encoding of a frame only if its header is as long as the sender's and
the length field holds the payload's length. -/
theorem eq_of_decode_whole (hlaw : cipher.Lawful)
    (henc : codec.encode cipher crc32 frame = some bytes)
    (hdec : codec'.decode cipher crc32 bytes = some (.ok (some frame), codec'', [])) :
    codec'.useCrc = codec.useCrc ∧ frame.payload.length < 2 ^ 32 := by
  obtain ⟨head, -, -, hparse, -, hle, -, -, -, -, hdrop⟩ := accepts_of_decode hdec
  have hlen := length_encode hlaw henc
  obtain ⟨s, -, rfl⟩ := map_eq_some_iff.mp henc
  rw [header, append_assoc, parseHead_fixedHeader] at hparse
  cases hparse
  have hge := drop_eq_nil_iff.mp hdrop.symm
  have hmod := Nat.mod_lt frame.payload.length (by decide : 0 < 256 ^ 4)
  have hdiv := Nat.div_add_mod frame.payload.length (256 ^ 4)
  rw [hlen] at hle hge
  simp only [headerLen] at hle hge
  cases hcrc : codec.useCrc <;> cases hcrc' : codec'.useCrc <;> simp [hcrc, hcrc'] at hle hge ⊢ <;>
    omega

/-- **Checksum settings.** A codec with the same salt and keys decodes the complete encoding of a
frame with a known key and a fresh counter, if and only if it has the same setting and the length
fits its field. -/
theorem decode_whole_iff (hlaw : cipher.Lawful) (crc32 : Bytes → UInt32) (sender receiver : Codec)
    (hsalt : receiver.salt = sender.salt) (hring : receiver.keyring = sender.keyring)
    (frame : Frame) (hkey : (sender.keyring.keys frame.keyId).isSome)
    (hfr : (receiver.lastCounter frame.keyId).getD 0 < frame.counter) :
    (∃ bytes receiver', sender.encode cipher crc32 frame = some bytes ∧
      receiver.decode cipher crc32 bytes = some (.ok (some frame), receiver', [])) ↔
      receiver.useCrc = sender.useCrc ∧ frame.payload.length < 2 ^ 32 := by
  constructor
  · rintro ⟨bytes, receiver', henc, hdec⟩
    exact eq_of_decode_whole hlaw henc hdec
  · rintro ⟨hcrc, hlen⟩
    obtain ⟨key, hkey⟩ := isSome_iff_exists.mp hkey
    obtain ⟨bytes, henc, hdec⟩ := decode_encode hlaw crc32 hsalt hring hcrc frame hkey hlen hfr
    exact ⟨bytes, _, henc, by simpa using hdec []⟩

def demo (useCrc : Bool) : Codec :=
  { new (.replicate 4 0) (.insert .new 1 (.replicate 32 0)) with useCrc }

theorem decode_whole_hello : ∃ bytes receiver',
    (demo false).encode .blank (fun _ ↦ 7) ⟨1, .hello, 1, [5]⟩ = some bytes ∧
      (demo false).decode .blank (fun _ ↦ 7) bytes =
        some (.ok (some ⟨1, .hello, 1, [5]⟩), receiver', []) :=
  (decode_whole_iff Cipher.blank_lawful _ _ _ rfl rfl _ (by decide) (by decide)).mpr
    ⟨rfl, by decide⟩

/-- **Mixed settings.** A receiver that expects the checksum waits for four more bytes; one that
does not takes the checksum for ciphertext and leaves the last four bytes of the frame. -/
theorem decode_whole_mixed :
    (∃ bytes, (demo false).encode .blank (fun _ ↦ 7) ⟨1, .hello, 1, [5]⟩ = some bytes ∧
      (demo true).decode .blank (fun _ ↦ 7) bytes = some (.ok none, demo true, bytes)) ∧
    ∃ bytes receiver', (demo true).encode .blank (fun _ ↦ 7) ⟨1, .hello, 1, [5]⟩ = some bytes ∧
      (demo false).decode .blank (fun _ ↦ 7) bytes =
        some (.ok (some ⟨1, .hello, 1, [0]⟩), receiver', [0, 0, 0, 0]) :=
  ⟨⟨_, rfl, rfl⟩, _, _, rfl, rfl⟩

end Codec

end Synapse.Native
