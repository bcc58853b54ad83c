import Synapse.Lib.Run
import Synapse.Native.Stream

/-!
# The receiving side of a connection

Bytes arrive in chunks of any size and are appended to a buffer; `decode` is called on the buffer
until it asks for more.

*Against any sender.* `decodeChecked` is `decode` with each index and each slice of the source
checked against the length of the buffer; it never fails (`decodeChecked_eq`), and along any
sequence of calls the frames accepted under one key have increasing counters, so that none is
accepted twice (`replay_protection`).

*With an honest sender.* If the cipher is lawful and the counters increase under each key, then the
frames come out as they were sent, however the bytes were cut into chunks (`receive_chunks`).
-/

namespace Synapse.Native

open ByteCode Transition Function Option
open List hiding Vector

/-! ## Indices in range -/

/-- `buf[start..stop]`, which panics out of range. -/
def slice (buf : Bytes) (start stop : ℕ) : Option Bytes :=
  if start ≤ stop ∧ stop ≤ buf.length then some ((buf.take stop).drop start) else none

/-- Four bytes in big-endian order, each of them read by its index. -/
def readU32 (buf : Bytes) (i : ℕ) : Option ℕ := do
  let b₀ ← buf[i]?
  let b₁ ← buf[i + 1]?
  let b₂ ← buf[i + 2]?
  let b₃ ← buf[i + 3]?
  return beNat [b₀, b₁, b₂, b₃]

theorem slice_eq {buf : Bytes} {start stop : ℕ} (h : start ≤ stop) (hstop : stop ≤ buf.length) :
    slice buf start stop = some ((buf.take stop).drop start) :=
  if_pos ⟨h, hstop⟩

theorem readU32_eq {buf : Bytes} {i : ℕ} (h : i + 4 ≤ buf.length) :
    readU32 buf i = some (beNat ((buf.take (i + 4)).drop i)) := by
  have hlen : 4 ≤ (buf.drop i).length := by
    rw [length_drop]
    omega
  have hget (k : ℕ) : buf[i + k]? = (buf.drop i)[k]? := getElem?_drop.symm
  have hfirst : buf[i]? = (buf.drop i)[0]? := hget 0
  rw [readU32, hfirst, hget, hget, hget, drop_take, Nat.add_sub_cancel_left]
  match buf.drop i, hlen with
  | b₀ :: b₁ :: b₂ :: b₃ :: rest, _ => rfl

namespace Codec

/-- `parseHead`, byte by byte. -/
def parseHeadChecked (buf : Bytes) : Option (Except NativeError Head) := do
  let m ← buf[0]?
  if m ≠ magic then return .error .badMagic
  let v ← buf[1]?
  if v ≠ version then return .error (.badVersion v)
  let keyId ← buf[2]?
  let flags ← buf[3]?
  let op ← buf[4]?
  match Opcode.fromU8 op with
  | none => return .error (.unknownOpcode op)
  | some opcode =>
    let counter ← readU32 buf 5
    let payloadLen ← readU32 buf 9
    return .ok ⟨keyId, flags, opcode, .ofNat counter, payloadLen⟩

/-- `checkedHeader`, with its slices checked. -/
def checkedHeaderChecked (crc32 : Bytes → UInt32) (head : Head) (buf : Bytes) :
    Option (Except NativeError (Option Bytes)) :=
  if head.flags &&& hasCrc ≠ 0 then
    if buf.length < 17 then some (.ok none)
    else do
      let fixed ← slice buf 0 13
      let got ← readU32 buf 13
      if (crc32 fixed).toNat ≠ got then return .error .crcMismatch
      let header ← slice buf 0 17
      return .ok (some header)
  else do
    let header ← slice buf 0 13
    return .ok (some header)

/-- `decode`, with every access to the buffer checked. -/
def decodeChecked (cipher : Cipher) (crc32 : Bytes → UInt32) (codec : Codec) (buf : Bytes) :
    Option (Except NativeError (Option Frame) × Codec × Bytes) :=
  if buf.length < codec.headerLen then some (.ok none, codec, buf)
  else do
    match ← parseHeadChecked buf with
    | .error e => return (.error e, codec, buf)
    | .ok head =>
      match ← checkedHeaderChecked crc32 head buf with
      | .error e => return (.error e, codec, buf)
      | .ok none => return (.ok none, codec, buf)
      | .ok (some header) =>
        let total := codec.headerLen + head.payloadLen + tagLen
        if buf.length < total then return (.ok none, codec, buf)
        let ct ← slice buf codec.headerLen total
        let rest ← slice buf total buf.length
        let (r, codec) := codec.openFrame cipher head header ct
        return (r, codec, rest)

variable {buf : Bytes}

theorem parseHeadChecked_eq (h : 13 ≤ buf.length) :
    ∃ parsed, parseHead buf = some parsed ∧ parseHeadChecked buf = some parsed := by
  match buf, h with
  | m :: v :: keyId :: flags :: op :: c₀ :: c₁ :: c₂ :: c₃ :: l₀ :: l₁ :: l₂ :: l₃ :: rest, _ =>
    refine ⟨_, rfl, ?_⟩
    rw [parseHeadChecked]
    by_cases hm : m = magic
    · by_cases hv : v = version
      · cases hop : Opcode.fromU8 op <;> simp [hm, hv, hop, readU32]
      · simp [hm, hv]
    · simp [hm]

theorem checkedHeaderChecked_eq (crc32 : Bytes → UInt32) (head : Head) (h : 13 ≤ buf.length) :
    checkedHeaderChecked crc32 head buf = some (checkedHeader crc32 head buf) := by
  rw [checkedHeaderChecked, checkedHeader, slice_eq (Nat.zero_le 13) h, drop_zero]
  by_cases hflag : head.flags &&& hasCrc ≠ 0
  · rw [if_pos hflag, if_pos hflag]
    by_cases hsrt : buf.length < 17
    · rw [if_pos hsrt, if_pos hsrt]
    have hlong : 17 ≤ buf.length := Nat.not_lt.mp hsrt
    rw [if_neg hsrt, if_neg hsrt, readU32_eq hlong, slice_eq (Nat.zero_le 17) hlong, drop_zero]
    simp only [bind_eq_bind, bind_some]
    split_ifs <;> rfl
  · rw [if_neg hflag, if_neg hflag]
    rfl

/-- **Decoding never indexes outside the buffer**: the checked decoder does not fail, and it
computes what `decode` does. -/
theorem decodeChecked_eq (cipher : Cipher) (crc32 : Bytes → UInt32) (codec : Codec) (buf : Bytes) :
    codec.decodeChecked cipher crc32 buf = codec.decode cipher crc32 buf ∧
      (codec.decode cipher crc32 buf).isSome := by
  rw [decodeChecked, decode]
  by_cases hsrt : buf.length < codec.headerLen
  · rw [if_pos hsrt, if_pos hsrt]
    exact ⟨rfl, rfl⟩
  have hlen : 13 ≤ buf.length := Nat.le_trans codec.le_headerLen (Nat.not_lt.mp hsrt)
  obtain ⟨parsed, hpar, hpar'⟩ := parseHeadChecked_eq hlen
  rw [if_neg hsrt, if_neg hsrt, hpar, hpar']
  refine ⟨?_, rfl⟩
  rcases parsed with e | head
  · rfl
  simp only [bind_eq_bind, bind_some, map_some, checkedHeaderChecked_eq crc32 head hlen]
  generalize checkedHeader crc32 head buf = checked
  rcases checked with e | _ | header
  · rfl
  · rfl
  simp only
  by_cases htot : buf.length < codec.headerLen + head.payloadLen + tagLen
  · rw [if_pos htot, if_pos htot]
    rfl
  · have hle := Nat.not_lt.mp htot
    rw [if_neg htot, if_neg htot, slice_eq (by omega) hle, slice_eq hle (Nat.le_refl _),
      take_length]
    rfl

end Codec

/-! ## Any bytes, any calls -/

/-- The receiving side: the codec, the buffer and the frames accepted so far. -/
structure Inbound where
  codec : Codec
  buf : Bytes
  accepted : List Frame

inductive InboundOp
  | feed (chunk : Bytes)
  | decode

namespace Inbound

def start (codec : Codec) : Inbound where
  codec := codec
  buf := []
  accepted := []

def frameOf : Except NativeError (Option Frame) → List Frame
  | .ok (some frame) => [frame]
  | _ => []

variable (cipher : Cipher) (crc32 : Bytes → UInt32)

def step (s : Inbound) : InboundOp → Option Inbound
  | .feed chunk => some { s with buf := s.buf ++ chunk }
  | .decode => (s.codec.decodeChecked cipher crc32 s.buf).map fun (r, codec, buf) ↦
      ⟨codec, buf, s.accepted ++ frameOf r⟩

/-- The counters of the accepted frames increase under each key, and the codec remembers a counter
that is at least as high. -/
structure Ordered (s : Inbound) : Prop where
  increasing : s.accepted.Pairwise fun f g ↦ f.keyId = g.keyId → f.counter < g.counter
  le_last : ∀ f ∈ s.accepted, f.counter ≤ (s.codec.lastCounter f.keyId).getD 0

variable {cipher crc32} {s s' : Inbound}

theorem Ordered.accept (h : Ordered s) {frame : Frame}
    (hfr : (s.codec.lastCounter frame.keyId).getD 0 < frame.counter) (buf : Bytes) :
    Ordered ⟨s.codec.accept frame, buf, s.accepted ++ [frame]⟩ := by
  have hlt : ∀ f ∈ s.accepted, f.keyId = frame.keyId → f.counter < frame.counter := by
    intro f hf heq
    refine UInt32.lt_of_le_of_lt (h.le_last f hf) ?_
    rwa [heq]
  refine ⟨pairwise_append.mpr ⟨h.increasing, pairwise_singleton _ _, ?_⟩,
    forall_mem_append.mpr ⟨fun f hf ↦ ?_, forall_mem_singleton.mpr ?_⟩⟩
  · exact fun f hf ↦ forall_mem_singleton.mpr (hlt f hf)
  · rcases eq_or_ne f.keyId frame.keyId with heq | hne
    · simp only [heq, update_self, getD_some]
      exact UInt32.le_of_lt (hlt f hf heq)
    · simp only [update_of_ne hne]
      exact h.le_last f hf
  · simp only [update_self, getD_some]
    exact UInt32.le_refl _

theorem Ordered.step (h : Ordered s) (op : InboundOp) :
    ∃ s', s.step cipher crc32 op = some s' ∧ Ordered s' := by
  cases op with
  | feed chunk => exact ⟨_, rfl, h.increasing, h.le_last⟩
  | decode =>
    obtain ⟨heq, hsome⟩ := s.codec.decodeChecked_eq cipher crc32 s.buf
    obtain ⟨⟨r, codec, buf⟩, hdec⟩ := isSome_iff_exists.mp hsome
    refine ⟨⟨codec, buf, s.accepted ++ frameOf r⟩, by rw [Inbound.step, heq, hdec]; rfl, ?_⟩
    rcases Codec.decode_outcome hdec with ⟨frame, rfl, hfr, rfl, -⟩ | ⟨hnone, rfl⟩
    · exact h.accept hfr buf
    have hemp : frameOf r = [] := by
      rcases r with e | _ | frame
      · rfl
      · rfl
      · exact absurd rfl (hnone frame)
    rw [hemp, append_nil]
    exact ⟨h.increasing, h.le_last⟩

theorem Ordered.exists_steps (cipher : Cipher) (crc32 : Bytes → UInt32) (h : Ordered s)
    (ops : List InboundOp) :
    ∃ s', Steps (Inbound.step cipher crc32) (fun _ _ ↦ True) s ops s' ∧ Ordered s' := by
  induction ops generalizing s with
  | nil => exact ⟨s, .nil s, h⟩
  | cons op ops ih =>
    obtain ⟨s₁, hstep, h₁⟩ := h.step op
    obtain ⟨s', hrun, h'⟩ := ih h₁
    exact ⟨s', .cons trivial hstep hrun, h'⟩

/-- **Replay protection.** For any cipher, any bytes and any calls, no call indexes outside the
buffer, the frames accepted under one key have increasing counters, and a further call that accepts
nothing leaves the counters as they are. -/
theorem replay_protection (cipher : Cipher) (crc32 : Bytes → UInt32) (codec : Codec)
    (ops : List InboundOp) :
    ∃ s, Steps (step cipher crc32) (fun _ _ ↦ True) (start codec) ops s ∧
      s.accepted.Pairwise (fun f g ↦ f.keyId = g.keyId → f.counter < g.counter) ∧
      s.accepted.Nodup ∧
      ∃ r codec' buf', s.codec.decodeChecked cipher crc32 s.buf = some (r, codec', buf') ∧
        ((∀ frame, r ≠ .ok (some frame)) →
          ∀ keyId, codec'.lastCounter keyId = s.codec.lastCounter keyId) := by
  have hstart : Ordered (start codec) := ⟨.nil, nofun⟩
  obtain ⟨s, hrun, hordered⟩ := hstart.exists_steps cipher crc32 ops
  refine ⟨s, hrun, hordered.increasing, hordered.increasing.imp ?_, ?_⟩
  · rintro f g hlt rfl
    exact UInt32.lt_irrefl _ (hlt rfl)
  obtain ⟨heq, hsome⟩ := s.codec.decodeChecked_eq cipher crc32 s.buf
  obtain ⟨⟨r, codec', buf'⟩, hdecode⟩ := isSome_iff_exists.mp hsome
  refine ⟨r, codec', buf', heq.trans hdecode, fun hnone keyId ↦ ?_⟩
  rcases Codec.decode_outcome hdecode with ⟨frame, hr, -⟩ | ⟨-, rfl⟩
  · exact absurd hr (hnone frame)
  · rfl

end Inbound

/-! ## The receive loop -/

namespace Inbound

variable (cipher : Cipher) (crc32 : Bytes → UInt32)

/-- Call the decoder until it asks for more bytes or reports an error; `none` if the calls allowed
by the first argument do not suffice. -/
def drain : ℕ → Inbound → Option (Option NativeError × Inbound)
  | 0, _ => none
  | fuel + 1, s =>
    match s.codec.decode cipher crc32 s.buf with
    | none => none
    | some (.error e, codec, buf) => some (some e, { s with codec := codec, buf := buf })
    | some (.ok none, codec, buf) => some (none, { s with codec := codec, buf := buf })
    | some (.ok (some frame), codec, buf) => drain fuel ⟨codec, buf, s.accepted ++ [frame]⟩

/-- Append a chunk and drain the buffer, unless there was an error before. A frame has at least one
byte, so the buffer's length bounds the calls. -/
def receive (s : Option NativeError × Inbound) (chunk : Bytes) :
    Option (Option NativeError × Inbound) :=
  match s.1 with
  | some _ => some s
  | none => drain cipher crc32 ((s.2.buf ++ chunk).length + 1) { s.2 with buf := s.2.buf ++ chunk }

def receiveAll (s : Option NativeError × Inbound) (chunks : List Bytes) :
    Option (Option NativeError × Inbound) :=
  chunks.foldlM (receive cipher crc32) s

/-- Draining ends, whoever has sent the bytes. -/
theorem drain_isSome (fuel : ℕ) (s : Inbound) (h : s.buf.length < fuel) :
    (drain cipher crc32 fuel s).isSome := by
  induction fuel generalizing s with
  | zero => exact absurd h (Nat.not_lt_zero _)
  | succ fuel ih =>
    rw [drain]
    obtain ⟨⟨r, codec, buf⟩, hdec⟩ :=
      isSome_iff_exists.mp (s.codec.decodeChecked_eq cipher crc32 s.buf).2
    rw [hdec]
    rcases r with e | _ | frame
    · rfl
    · rfl
    · rcases Codec.decode_outcome hdec with ⟨_, -, -, -, hlt, -⟩ | ⟨hnone, -⟩
      · exact ih ⟨codec, buf, s.accepted ++ [frame]⟩ (by dsimp only; omega)
      · exact absurd rfl (hnone frame)

/-- **Decoding ends.** However the bytes are cut into chunks, each chunk is taken in without a panic
and without end. -/
theorem receiveAll_isSome (s : Option NativeError × Inbound) (chunks : List Bytes) :
    (receiveAll cipher crc32 s chunks).isSome := by
  induction chunks generalizing s with
  | nil => rfl
  | cons chunk chunks ih =>
    have hone : (receive cipher crc32 s chunk).isSome := by
      rw [receive]
      split
      · rfl
      · exact drain_isSome cipher crc32 _ _ (Nat.lt_succ_self _)
    obtain ⟨s', hs'⟩ := isSome_iff_exists.mp hone
    rw [receiveAll, foldlM_cons, hs']
    exact ih s'

end Inbound

/-! ## An honest sender -/

/-- What may have been sent to a codec: known keys, payloads that fit, and counters that increase
under each key, above those the codec has accepted. -/
structure Expected (codec : Codec) (frames : List Frame) : Prop where
  known : ∀ frame ∈ frames, (codec.keyring.keys frame.keyId).isSome
  payload_lt : ∀ frame ∈ frames, frame.payload.length < 2 ^ 32
  fresh : ∀ frame ∈ frames, (codec.lastCounter frame.keyId).getD 0 < frame.counter
  increasing : frames.Pairwise fun f g ↦ f.keyId = g.keyId → f.counter < g.counter

theorem Expected.tail {codec : Codec} {frame : Frame} {frames : List Frame}
    (h : Expected codec (frame :: frames)) : Expected (codec.accept frame) frames where
  known f hf := h.known f (mem_cons_of_mem _ hf)
  payload_lt f hf := h.payload_lt f (mem_cons_of_mem _ hf)
  fresh f hf := by
    rcases eq_or_ne f.keyId frame.keyId with heq | hne
    · simp only [heq, update_self, getD_some]
      exact rel_of_pairwise_cons h.increasing hf heq.symm
    · simp only [update_of_ne hne]
      exact h.fresh f (mem_cons_of_mem _ hf)
  increasing := h.increasing.of_cons

section Honest

variable {cipher : Cipher} {crc32 : Bytes → UInt32}

variable {frames : List Frame} {codec : Codec} {frame : Frame} {wire : Bytes} {s : Inbound}

/-- The front of the stream of expected frames: the first one is decoded, or there are bytes to wait
for. -/
theorem Expected.decode_front (hlaw : cipher.Lawful) (h : Expected codec (frame :: frames))
    {buf : Bytes} (hstr : buf ++ wire = bytesOf cipher crc32 codec (frame :: frames)) :
    (∃ buf', buf'.length < buf.length ∧ buf' ++ wire = bytesOf cipher crc32 codec frames ∧
      codec.decode cipher crc32 buf = some (.ok (some frame), codec.accept frame, buf')) ∨
      codec.decode cipher crc32 buf = some (.ok none, codec, buf) ∧ wire ≠ [] := by
  obtain ⟨key, hkey⟩ := isSome_iff_exists.mp (h.known frame mem_cons_self)
  have henc : codec.encode cipher crc32 frame = some _ := Codec.encode_eq hkey
  rw [bytesOf, flatMap_cons, henc, getD_some, ← bytesOf] at hstr
  rcases Codec.decode_front hlaw henc hkey (h.payload_lt frame mem_cons_self)
    (h.fresh frame mem_cons_self) hstr with ⟨buf', hrest, hdec⟩ | hwait
  · rcases Codec.decode_outcome hdec with ⟨_, -, -, -, hlt, -⟩ | ⟨hnone, -⟩
    · exact .inl ⟨buf', hlt, hrest, hdec⟩
    · exact absurd rfl (hnone frame)
  · exact .inr hwait

/-- Draining a buffer with the beginning of the expected frames yields some of them, and all of
them if nothing is missing. -/
theorem Expected.drain (hlaw : cipher.Lawful) (fuel : ℕ) (h : Expected s.codec frames)
    (hstr : s.buf ++ wire = bytesOf cipher crc32 s.codec frames) (hfuel : s.buf.length < fuel) :
    ∃ done todo s', frames = done ++ todo ∧ s.drain cipher crc32 fuel = some (none, s') ∧
      s'.accepted = s.accepted ++ done ∧ Expected s'.codec todo ∧
      s'.buf ++ wire = bytesOf cipher crc32 s'.codec todo ∧ (wire = [] → todo = []) := by
  induction fuel generalizing s frames with
  | zero => exact absurd hfuel (Nat.not_lt_zero _)
  | succ fuel ih =>
    rw [Inbound.drain]
    cases frames with
    | nil =>
      have hnil : s.buf = [] := (append_eq_nil_iff.mp hstr).1
      refine ⟨[], [], s, rfl, ?_, (append_nil _).symm, h, hstr, fun _ ↦ rfl⟩
      rw [hnil, Codec.decode_nil, ← hnil]
    | cons frame frames =>
      rcases h.decode_front hlaw hstr with ⟨buf', hlt, hrest, hdec⟩ | ⟨hdec, hwire⟩
      · rw [hdec]
        -- the loop goes on behind the frame
        obtain ⟨done, todo, s', rfl, hdrn, hacc, hexp, hstr', hend⟩ :=
          ih (s := ⟨_, buf', s.accepted ++ [frame]⟩) h.tail hrest (by dsimp only; omega)
        refine ⟨frame :: done, todo, s', rfl, hdrn, ?_, hexp, hstr', hend⟩
        rw [hacc, append_assoc, singleton_append]
      · rw [hdec]
        exact ⟨[], frame :: frames, s, rfl, rfl, (append_nil _).symm, h, hstr,
          fun hnil ↦ absurd hnil hwire⟩

theorem Expected.receiveAll (hlaw : cipher.Lawful) (chunks : List Bytes)
    (h : Expected s.codec frames)
    (hstr : s.buf ++ chunks.flatten = bytesOf cipher crc32 s.codec frames)
    (hend : chunks = [] → frames = []) :
    ∃ s', Inbound.receiveAll cipher crc32 (none, s) chunks = some (none, s') ∧
      s'.accepted = s.accepted ++ frames ∧ s'.buf = [] := by
  induction chunks generalizing s frames with
  | nil =>
    obtain rfl := hend rfl
    exact ⟨s, rfl, (append_nil _).symm, (append_eq_nil_iff.mp hstr).1⟩
  | cons chunk chunks ih =>
    rw [flatten_cons, ← append_assoc] at hstr
    obtain ⟨done, todo, s₁, rfl, hdrn, hacc, hexp, hstr₁, hdone⟩ :=
      Expected.drain (s := { s with buf := s.buf ++ chunk }) hlaw _ h hstr (Nat.lt_succ_self _)
    obtain ⟨s', hrun, hacc', hbuf⟩ := ih hexp hstr₁ fun hnil ↦ hdone (by rw [hnil]; rfl)
    refine ⟨s', ?_, ?_, hbuf⟩
    · rwa [Inbound.receiveAll, foldlM_cons, Inbound.receive, hdrn]
    · rw [hacc', hacc, append_assoc]

/-- Frames with known keys are all encoded. -/
theorem mapM_encode (cipher : Cipher) (crc32 : Bytes → UInt32)
    (h : ∀ frame ∈ frames, (codec.keyring.keys frame.keyId).isSome) :
    ∃ encodings, frames.mapM (codec.encode cipher crc32) = some encodings ∧
      encodings.flatten = bytesOf cipher crc32 codec frames := by
  induction frames with
  | nil => exact ⟨[], rfl, rfl⟩
  | cons frame frames ih =>
    obtain ⟨key, hkey⟩ := isSome_iff_exists.mp (h frame mem_cons_self)
    obtain ⟨encodings, hmap, hflat⟩ := ih fun f hf ↦ h f (mem_cons_of_mem _ hf)
    have henc : codec.encode cipher crc32 frame = some _ := Codec.encode_eq hkey
    refine ⟨_ :: encodings, by rw [mapM_cons, henc, hmap]; rfl, ?_⟩
    rw [flatten_cons, hflat, bytesOf, bytesOf, flatMap_cons, henc, getD_some]

theorem bytesOf_ne_nil (h : (codec.keyring.keys frame.keyId).isSome) :
    bytesOf cipher crc32 codec (frame :: frames) ≠ [] := by
  obtain ⟨key, hkey⟩ := isSome_iff_exists.mp h
  have henc : codec.encode cipher crc32 frame = some _ := Codec.encode_eq hkey
  rw [bytesOf, flatMap_cons, henc, getD_some, Codec.header, Codec.fixedHeader]
  simp

/-- **Stream decoding.** Let two codecs have the same salt, keys and checksum setting, and let the
receiver's be fresh. Frames with known keys, payloads that fit and counters that increase under each
key come out of the receive loop in order, without an error, however their encodings are cut into
chunks. -/
theorem receive_chunks (hlaw : cipher.Lawful) (crc32 : Bytes → UInt32) (sender receiver : Codec)
    (hsalt : receiver.salt = sender.salt) (hring : receiver.keyring = sender.keyring)
    (hcrc : receiver.useCrc = sender.useCrc) (hfresh : receiver.lastCounter = fun _ ↦ none)
    (frames : List Frame)
    (hknown : ∀ frame ∈ frames, (sender.keyring.keys frame.keyId).isSome)
    (hlen : ∀ frame ∈ frames, frame.payload.length < 2 ^ 32)
    (hpos : ∀ frame ∈ frames, 1 ≤ frame.counter)
    (hincreasing : frames.Pairwise fun f g ↦ f.keyId = g.keyId → f.counter < g.counter) :
    ∃ encodings, frames.mapM (sender.encode cipher crc32) = some encodings ∧
      ∀ chunks : List Bytes, chunks.flatten = encodings.flatten →
        ∃ s, Inbound.receiveAll cipher crc32 (none, .start receiver) chunks = some (none, s) ∧
          s.accepted = frames ∧ s.buf = [] := by
  obtain ⟨encodings, hmap, hflatten⟩ := mapM_encode cipher crc32 hknown
  refine ⟨encodings, hmap, fun chunks hchunks ↦ ?_⟩
  have hreceiver : receiver = { sender with lastCounter := receiver.lastCounter } := by
    rw [← hsalt, ← hring, ← hcrc]
  have hexpected : Expected receiver frames := by
    refine ⟨hring ▸ hknown, hlen, fun frame hframe ↦ ?_, hincreasing⟩
    rw [hfresh]
    exact UInt32.lt_of_lt_of_le (b := 1) (by change (0 : UInt32) < 1; decide) (hpos frame hframe)
  have hbytes : bytesOf cipher crc32 receiver = bytesOf cipher crc32 sender := by
    rw [hreceiver]
    rfl
  have hstream : [] ++ chunks.flatten = bytesOf cipher crc32 receiver frames := by
    rw [hbytes, ← hflatten, ← hchunks, nil_append]
  have hend : chunks = [] → frames = [] := by
    rintro rfl
    cases frames with
    | nil => rfl
    | cons frame frames =>
      rw [hflatten] at hchunks
      exact absurd hchunks.symm (bytesOf_ne_nil (hknown frame mem_cons_self))
  obtain ⟨s, hrun, haccepted, hbuf⟩ :=
    Expected.receiveAll (s := .start receiver) hlaw chunks hexpected hstream hend
  exact ⟨s, hrun, haccepted, hbuf⟩

end Honest

def twoKeys : KeyRing :=
  (KeyRing.new.insert 0 (Vector.replicate 32 1)).insert 3 (Vector.replicate 32 2)

/-- Frames under two keys, received byte by byte. -/
theorem receive_chunks_two_keys :
    let codec := Codec.new (Vector.replicate 4 9) twoKeys
    let frames := [Frame.mk 0 .kvSet 1 [5, 6], .mk 3 .ack 1 [], .mk 0 .kvGet 4 [7]]
    ∃ encodings, frames.mapM (codec.encode .blank fun _ ↦ 0) = some encodings ∧
      ∃ s, Inbound.receiveAll .blank (fun _ ↦ 0) (none, .start codec)
          (encodings.flatten.map fun byte ↦ [byte]) = some (none, s) ∧
        s.accepted = frames ∧ s.buf = [] := by
  intro codec frames
  obtain ⟨encodings, hmap, hreceive⟩ := receive_chunks Cipher.blank_lawful (fun _ ↦ 0) codec codec
    rfl rfl rfl rfl frames (by decide) (by decide) (by decide) (by decide)
  exact ⟨encodings, hmap, hreceive _ (by rw [← flatMap_def, flatMap_singleton'])⟩

end Synapse.Native
