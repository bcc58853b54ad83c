import Synapse.Native.Codec

/-!
# Frames over a byte stream

One direction of a connection. The sender has encoded a list of frames; the receiver has accepted
the first `count` of them and holds some of the bytes of the others in its buffer, and the rest are
still on the wire. `Reading` says this, and its lemmas say that it stays so: when a frame is sent,
when bytes are moved from the wire to the buffer, and when the buffer is decoded, which yields the
next frame of the list or, if that has not arrived as a whole, nothing.
-/

namespace Synapse.Native

open List Option

variable (cipher : Cipher) (crc32 : Bytes → UInt32)

/-- The frames of a sender that counts from one under epoch 0, as long as nothing wraps. -/
structure Sendable (frames : List Frame) : Prop where
  numbered : ∀ k frame, frames[k]? = some frame →
    frame.keyId = 0 ∧ frame.counter = UInt32.ofNat (k + 1)
  length_lt : frames.length < 2 ^ 32
  payload_lt : ∀ frame ∈ frames, frame.payload.length < 2 ^ 32

def bytesOf (codec : Codec) (frames : List Frame) : Bytes :=
  frames.flatMap fun frame ↦ (codec.encode cipher crc32 frame).getD []

/-- The receiver has accepted the first `count` frames. -/
structure Reading (base : Codec) (frames : List Frame) (count : ℕ) (codec : Codec)
    (buf wire : Bytes) : Prop where
  codec_eq : ∃ last, codec = { base with lastCounter := last }
  last_eq : (codec.lastCounter 0).getD 0 = UInt32.ofNat count
  stream : buf ++ wire = bytesOf cipher crc32 base (frames.drop count)

namespace Reading

variable {cipher crc32} {base codec : Codec} {frames : List Frame} {count : ℕ} {buf wire : Bytes}

theorem start (hlast : base.lastCounter 0 = none) : Reading cipher crc32 base [] 0 base [] [] :=
  ⟨⟨base.lastCounter, rfl⟩, by rw [hlast]; rfl, rfl⟩

section

variable (h : Reading cipher crc32 base frames count codec buf wire)

include h

theorem bytesOf_eq : bytesOf cipher crc32 codec = bytesOf cipher crc32 base := by
  obtain ⟨last, rfl⟩ := h.codec_eq
  rfl

theorem write (hct : count ≤ frames.length) (fresh : List Frame) :
    Reading cipher crc32 base (frames ++ fresh) count codec buf
      (wire ++ bytesOf cipher crc32 base fresh) := by
  refine ⟨h.codec_eq, h.last_eq, ?_⟩
  rw [← append_assoc, h.stream, drop_append_of_le_length hct]
  exact flatMap_append.symm

theorem read (n : ℕ) :
    Reading cipher crc32 base frames count codec (buf ++ wire.take n) (wire.drop n) := by
  refine ⟨h.codec_eq, h.last_eq, ?_⟩
  rw [append_assoc, take_append_drop, h.stream]

end

variable (hlaw : cipher.Lawful) {key : SessionKey} (hkey : base.keyring.keys 0 = some key)
  (hsend : Sendable frames)

include hlaw hkey hsend

variable (h : Reading cipher crc32 base frames count codec buf wire) {frame : Frame}
  {codec' : Codec} {buf' : Bytes}

include h

/-- The next frame is decoded, or there are bytes to wait for. -/
theorem decode_next (hfrm : frames[count]? = some frame) :
    (∃ codec' buf', codec.decode cipher crc32 buf = some (.ok (some frame), codec', buf') ∧
        Reading cipher crc32 base frames (count + 1) codec' buf' wire) ∨
      codec.decode cipher crc32 buf = some (.ok none, codec, buf) ∧ wire ≠ [] := by
  obtain ⟨last, rfl⟩ := h.codec_eq
  obtain ⟨hid, hctr⟩ := hsend.numbered count frame hfrm
  obtain ⟨hlt, heq⟩ := List.getElem?_eq_some_iff.mp hfrm
  have hlen := hsend.payload_lt frame (mem_of_getElem? hfrm)
  have hkey' : base.keyring.keys frame.keyId = some key := by rw [hid, hkey]
  -- the counter of the next frame is one more than the last one accepted
  have hfr : (last frame.keyId).getD 0 < frame.counter := by
    have hlast : (last 0).getD 0 = UInt32.ofNat count := h.last_eq
    have hleng := hsend.length_lt
    rw [hid, hlast, hctr, UInt32.lt_iff_toNat_lt, UInt32.toNat_ofNat', UInt32.toNat_ofNat']
    omega
  have henc : base.encode cipher crc32 frame = some _ := Codec.encode_eq hkey'
  have hstr : buf ++ wire = (base.encode cipher crc32 frame).getD [] ++
      bytesOf cipher crc32 base (frames.drop (count + 1)) := by
    rw [h.stream, drop_eq_getElem_cons hlt, heq]
    rfl
  rw [henc, getD_some] at hstr
  have henc' : Codec.encode cipher crc32 { base with lastCounter := last } frame = _ := henc
  rcases Codec.decode_front hlaw henc' hkey' hlen hfr hstr with
    ⟨buf', hrest, hdec⟩ | hwait
  · refine .inl ⟨_, buf', hdec, ⟨_, rfl⟩, ?_, hrest⟩
    change (Function.update last frame.keyId (some frame.counter) 0).getD 0 = _
    rw [hid, Function.update_self, getD_some, hctr]
  · exact .inr hwait

/-- **Decoding.** What comes out is the next frame, or nothing yet; never an error. -/
theorem decode_cases {r : Except NativeError (Option Frame)}
    (hdec : codec.decode cipher crc32 buf = some (r, codec', buf')) :
    (∃ frame, r = .ok (some frame) ∧ frames[count]? = some frame ∧
        Reading cipher crc32 base frames (count + 1) codec' buf' wire) ∨
      r = .ok none ∧ codec' = codec ∧ buf' = buf := by
  cases hfrm : frames[count]? with
  | none =>
    have hstr := h.stream
    rw [drop_of_length_le (List.getElem?_eq_none_iff.mp hfrm)] at hstr
    obtain ⟨rfl, rfl⟩ := append_eq_nil_iff.mp hstr
    cases (codec.decode_nil cipher crc32).symm.trans hdec
    exact .inr ⟨rfl, rfl, rfl⟩
  | some frame =>
    rcases h.decode_next hlaw hkey hsend hfrm with ⟨codec₁, buf₁, hfull, hnext⟩ | ⟨hwait, -⟩
    · cases hfull.symm.trans hdec
      exact .inl ⟨frame, rfl, rfl, hnext⟩
    · cases hwait.symm.trans hdec
      exact .inr ⟨rfl, rfl, rfl⟩

end Reading

end Synapse.Native
