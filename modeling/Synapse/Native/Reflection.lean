import Synapse.Lib.Run
import Synapse.Native.Codec

/-!
# Frames sent back to their sender

One client and one session of `serve` share a salt and a key ring, and an adversary between them
decides what each side reads: it may hand a side any bytes at all. The cipher is ideal: under a key,
a nonce and associated data it opens only what one of the two sides has sealed with exactly these.

Nothing that is sealed names the direction of a frame. Both sides use the same keys, derive the
nonce from the same salt and count their own frames from one, so a side accepts a frame of its own
that comes back, as long as its counter is above the last one accepted (`hello_reflected`).

`guarded_iff_directed` says when this does not happen. A run in which every accepted frame was
encoded by the other side is one in which a side never decodes while its buffer begins with a frame
that only it has encoded, with a counter above the last one it has accepted. Each side sends any
message at any time, which covers requests, responses and deliveries.
-/

namespace Synapse.Native

open ByteCode Transition Option
open List hiding Vector

/-! ## The ideal cipher -/

/-- The arguments and the result of one call of `encrypt`, without the message. -/
structure Sealed where
  key : SessionKey
  nonce : Bytes
  aad : Bytes
  ct : Bytes
deriving DecidableEq

/-- The cipher that opens only what has been produced with the same key, nonce and associated
data. -/
def Cipher.ideal (cipher : Cipher) (produced : List Sealed) : Cipher where
  encrypt := cipher.encrypt
  decrypt key nonce aad ct :=
    if ⟨key, nonce, aad, ct⟩ ∈ produced then cipher.decrypt key nonce aad ct else none

theorem Cipher.ideal_decrypt_eq_some {cipher : Cipher} {produced : List Sealed} {key : SessionKey}
    {nonce aad ct msg : Bytes} :
    (cipher.ideal produced).decrypt key nonce aad ct = some msg ↔
      ⟨key, nonce, aad, ct⟩ ∈ produced ∧ cipher.decrypt key nonce aad ct = some msg := by
  rw [ideal]
  exact ite_none_right_eq_some

namespace Codec

variable {cipher : Cipher} {crc32 : Bytes → UInt32}

variable (cipher crc32) in
def sealed (codec : Codec) (frame : Frame) : Option Sealed :=
  (codec.sealing frame).map fun s ↦
    let header := codec.header crc32 frame
    ⟨s.key, s.nonce, header, cipher.encrypt s.key s.nonce header s.frame.payload⟩

theorem sealed_eq_some {codec : Codec} {frame : Frame} {x : Sealed} :
    codec.sealed cipher crc32 frame = some x ↔ ∃ key, codec.keyring.keys frame.keyId = some key ∧
      x = ⟨key, codec.nonce frame.counter, codec.header crc32 frame,
        cipher.encrypt key (codec.nonce frame.counter) (codec.header crc32 frame)
          frame.payload⟩ := by
  rw [sealed, sealing, Option.map_map, map_eq_some_iff]
  exact exists_congr fun key ↦ and_congr_right fun _ ↦ eq_comm

/-- The header of an accepted frame is that of a sealed one, so it is that frame, and the buffer
begins with its encoding. -/
theorem decode_ideal_inv (hlaw : cipher.Lawful) {codec codec' : Codec} {frames : List Frame}
    {buf buf' : Bytes} {frame : Frame}
    (h : codec.decode (cipher.ideal (frames.filterMap (codec.sealed cipher crc32))) crc32 buf =
      some (.ok (some frame), codec', buf')) :
    frame ∈ frames ∧ frame.payload.length < 2 ^ 32 ∧
      (codec.lastCounter frame.keyId).getD 0 < frame.counter ∧
      ∃ bytes ∈ codec.encode cipher crc32 frame, bytes <+: buf := by
  obtain ⟨head, header, key, hpar, hchd, htot, hfr, hkey, hdecrypt, hfrm, -⟩ := accepts_of_decode h
  obtain ⟨hmem, hopen⟩ := Cipher.ideal_decrypt_eq_some.mp hdecrypt
  obtain ⟨sent, hsent, hseal⟩ := mem_filterMap.mp hmem
  obtain ⟨key', hkey', hx⟩ := sealed_eq_some.mp hseal
  obtain ⟨rfl, -, rfl, hct⟩ := Sealed.mk.inj hx
  -- The buffer begins with the header of `sent`, so the fields read are those of `sent`.
  have hprefix : codec.header crc32 sent <+: buf := by
    have hle := codec.le_headerLen
    rw [← take_of_checkedHeader (by omega) hchd]
    exact take_prefix _ _
  obtain ⟨tail, rfl⟩ := hprefix
  rw [header, append_assoc, parseHead_fixedHeader, some.injEq, Except.ok.injEq] at hpar
  subst hpar
  -- The rest of what is taken is the ciphertext, whose length bounds that of the payload.
  have htake : ((codec.header crc32 sent ++ tail).take
      (codec.headerLen + sent.payload.length % 256 ^ 4 + tagLen)).drop codec.headerLen =
        tail.take (sent.payload.length % 256 ^ 4 + tagLen) := by
    rw [← @length_header crc32 codec sent, add_assoc, take_length_add_append, drop_left]
  rw [htake] at hct hopen
  have hleng := congrArg List.length hct
  rw [hlaw.length_encrypt, length_take, Nat.min_eq_left (by
    rw [length_append, length_header] at htot
    omega)] at hleng
  have hpay : frame.payload = sent.payload := by
    rw [hct, hlaw.decrypt_encrypt] at hopen
    exact (some.inj hopen).symm
  obtain rfl : frame = sent := by rw [hfrm, hpay]
  have hmod : frame.payload.length % 256 ^ 4 < 256 ^ 4 := Nat.mod_lt _ (by decide)
  refine ⟨hsent, ?_, hfr, _, encode_eq hkey, ?_⟩
  · rw [Nat.add_right_cancel hleng] at hmod
    exact Nat.lt_of_lt_of_eq hmod (by decide)
  · rw [← hct]
    exact (prefix_append_right_inj _).mpr ( take_prefix _ _)

/-- **What an ideal cipher lets through.** Decoding accepts exactly the frames that have been
sealed, that the buffer begins with, and whose counter is fresh. -/
theorem decode_ideal_iff (hlaw : cipher.Lawful) {codec : Codec} {frames : List Frame} {buf : Bytes}
    {frame : Frame} :
    (∃ codec' buf',
      codec.decode (cipher.ideal (frames.filterMap (codec.sealed cipher crc32))) crc32 buf =
        some (.ok (some frame), codec', buf')) ↔
      frame ∈ frames ∧ frame.payload.length < 2 ^ 32 ∧
      (codec.lastCounter frame.keyId).getD 0 < frame.counter ∧
      ∃ bytes ∈ codec.encode cipher crc32 frame, bytes <+: buf := by
  constructor
  · rintro ⟨codec', buf', h⟩
    exact decode_ideal_inv hlaw h
  rintro ⟨hmem, hlen, hfr, bytes, henc, rest, rfl⟩
  obtain ⟨s, hs, rfl⟩ := map_eq_some_iff.mp henc
  obtain ⟨key, hkey, rfl⟩ := map_eq_some_iff.mp hs
  refine ⟨_, _, decode_of_decrypt frame hkey hlen hfr ?_ (hlaw.length_encrypt ..) rest⟩
  rw [Cipher.ideal_decrypt_eq_some]
  exact ⟨mem_filterMap.mpr ⟨frame, hmem, sealed_eq_some.mpr ⟨key, hkey, rfl⟩⟩,
    hlaw.decrypt_encrypt ..⟩

end Codec

/-! ## Two sides and an adversary -/

inductive Side
  | client
  | server
deriving DecidableEq, Repr

def Side.other : Side → Side
  | client => server
  | server => client

structure Party where
  codec : Codec
  keyId : UInt8
  counter : UInt32
  encoded : List Frame
  /-- What it has read and not decoded. -/
  buf : Bytes
  /-- The frames its `decode` has returned. -/
  accepted : List Frame

structure Link where
  party : Side → Party

inductive LinkOp
  | send (side : Side) (opcode : Opcode) (payload : Bytes)
  /-- The adversary lets a side read some bytes. -/
  | deliver (side : Side) (bytes : Bytes)
  | decode (side : Side)
deriving DecidableEq, Repr

namespace Link

variable (cipher : Cipher) (crc32 : Bytes → UInt32) {frame : Frame} {payload : Bytes}
  {salt : Vector UInt8 4}

/-- The client encodes under epoch 0, the server under the one it was given. -/
def start (salt : Vector UInt8 4) (keyring : KeyRing) (keyId : UInt8) : Link where
  party
    | .client => ⟨.new salt keyring, 0, 0, [], [], []⟩
    | .server => ⟨.new salt keyring, keyId, 0, [], [], []⟩

/-- Everything the two sides have sealed. -/
def produced (s : Link) : List Sealed :=
  [Side.client, .server].flatMap fun side ↦
    (s.party side).encoded.filterMap ((s.party side).codec.sealed cipher crc32)

def set (s : Link) (side : Side) (p : Party) : Link := ⟨Function.update s.party side p⟩

def returned : Except NativeError (Option Frame) → List Frame
  | .ok (some frame) => [frame]
  | _ => []

def step (s : Link) : LinkOp → Option Link
  | .send side opcode payload => do
    let p := s.party side
    let frame : Frame := ⟨p.keyId, opcode, p.counter + 1, payload⟩
    let _ ← p.codec.encode cipher crc32 frame
    some (s.set side { p with counter := p.counter + 1, encoded := p.encoded ++ [frame] })
  | .deliver side bytes =>
    let p := s.party side
    some (s.set side { p with buf := p.buf ++ bytes })
  | .decode side => do
    let p := s.party side
    let (r, codec, buf) ← p.codec.decode (cipher.ideal (s.produced cipher crc32)) crc32 p.buf
    some (s.set side { p with codec := codec, buf := buf, accepted := p.accepted ++ returned r })

/-- Every frame a side has accepted was encoded by the other side. -/
def Directed (s : Link) : Prop :=
  ∀ side, ∀ frame ∈ (s.party side).accepted, frame ∈ (s.party side.other).encoded

/-- A side does not decode a frame that only it has encoded and whose counter is above the last it
has accepted. -/
def Guarded (s : Link) : LinkOp → Prop
  | .decode side => ∀ frame ∈ (s.party side).encoded, frame ∉ (s.party side.other).encoded →
      frame.payload.length < 2 ^ 32 →
      (∃ bytes ∈ (s.party side).codec.encode cipher crc32 frame, bytes <+: (s.party side).buf) →
      frame.counter ≤ ((s.party side).codec.lastCounter frame.keyId).getD 0
  | _ => True

instance (s : Link) (op : LinkOp) : Decidable (s.Guarded cipher crc32 op) := by
  cases op <;> dsimp only [Guarded] <;> infer_instance

variable {cipher crc32}

/-- Both sides keep the salt and the keys, and the checksum switched on. -/
def Shares (salt : Vector UInt8 4) (keyring : KeyRing) (s : Link) : Prop :=
  ∀ side, ∃ lastCounter,
    (s.party side).codec = { Codec.new salt keyring with lastCounter := lastCounter }

theorem party_set (s : Link) (side : Side) (p : Party) (side' : Side) :
    (s.set side p).party side' = if side' = side then p else s.party side' :=
  Function.update_apply ..

section Shares

variable {salt : Vector UInt8 4} {keyring : KeyRing} {s s' : Link}

theorem Shares.set (h : s.Shares salt keyring) {side : Side} {p : Party}
    (hp : ∃ lastCounter, p.codec = { Codec.new salt keyring with lastCounter := lastCounter }) :
    (s.set side p).Shares salt keyring := by
  intro side'
  rw [party_set]
  split_ifs
  · exact hp
  · exact h side'

theorem Shares.step (h : s.Shares salt keyring) {op : LinkOp}
    (hstep : s.step cipher crc32 op = some s') : s'.Shares salt keyring := by
  cases op with
  | send side opcode payload =>
    obtain ⟨bytes, -, hstep⟩ := bind_eq_some_iff.mp hstep
    exact some.inj hstep ▸ h.set (h side)
  | deliver side bytes => exact some.inj hstep ▸ h.set (h side)
  | decode side =>
    obtain ⟨⟨r, codec, buf⟩, hdec, hstep⟩ := bind_eq_some_iff.mp hstep
    obtain ⟨lastCounter, hcod⟩ := Codec.decode_codec hdec
    obtain ⟨last, hlast⟩ := h side
    rw [hlast] at hcod
    exact some.inj hstep ▸ h.set ⟨lastCounter, hcod⟩

/-- Either side's codec computes what both have sealed. -/
theorem Shares.produced_eq (h : s.Shares salt keyring) (side : Side) : s.produced cipher crc32 =
      ((s.party .client).encoded ++ (s.party .server).encoded).filterMap
        ((s.party side).codec.sealed cipher crc32) := by
  have hseal (side') : (s.party side').codec.sealed cipher crc32 =
      (Codec.new salt keyring).sealed cipher crc32 := by
    obtain ⟨last, hlast⟩ := h side'
    rw [hlast]
    rfl
  rw [produced, filterMap_append, hseal side]
  simp only [flatMap_cons, flatMap_nil, append_nil, hseal]

end Shares

theorem mem_encoded {s : Link} (side : Side) :
    frame ∈ (s.party .client).encoded ++ (s.party .server).encoded ↔
      frame ∈ (s.party side).encoded ∨ frame ∈ (s.party side.other).encoded := by
  rw [mem_append]
  cases side
  · exact Iff.rfl
  · exact or_comm

theorem mem_returned {r : Except NativeError (Option Frame)} :
    frame ∈ returned r ↔ r = .ok (some frame) := by
  rcases r with e | _ | frame'
  · simp [returned]
  · simp [returned]
  · simp [returned, eq_comm]

/-! ## When every accepted frame comes from the other side -/

variable {s s' : Link}

variable {side : Side} {keyring : KeyRing}

/-- A step that accepts nothing and forgets nothing keeps the direction of what was accepted. -/
theorem Directed.set (h : s.Directed) {p : Party} (hacc : p.accepted = (s.party side).accepted)
    (hencd : (s.party side).encoded ⊆ p.encoded) : (s.set side p).Directed := by
  intro side' frame hfrm
  have hold : frame ∈ (s.party side').accepted := by
    rw [party_set] at hfrm
    split_ifs at hfrm with hside
    · rwa [hside, ← hacc]
    · exact hfrm
  rw [party_set]
  split_ifs with hside
  · exact hencd (hside ▸ h side' frame hold)
  · exact h side' frame hold

theorem other_ne (side : Side) : side.other ≠ side := by cases side <;> decide

theorem Directed.decode_iff (h : s.Directed) {codec : Codec} {buf : Bytes} {frames : List Frame} :
    (s.set side { s.party side with
      codec := codec, buf := buf, accepted := (s.party side).accepted ++ frames }).Directed ↔
      ∀ frame ∈ frames, frame ∈ (s.party side.other).encoded := by
  constructor
  · intro hdir frame hfrm
    have hmem := hdir side frame (by
      rw [party_set, if_pos rfl]
      exact mem_append_right _ hfrm)
    rwa [party_set, if_neg (other_ne side)] at hmem
  · intro hfrs side' frame hfrm
    have hencd : frame ∈ (s.party side'.other).encoded := by
      rw [party_set] at hfrm
      split_ifs at hfrm with hside
      · subst hside
        exact forall_mem_append.mpr ⟨h side', hfrs⟩ frame hfrm
      · exact h side' frame hfrm
    rw [party_set]
    split_ifs with hside
    · exact hside ▸ hencd
    · exact hencd

/-- **One decoding.** From a state in which every accepted frame came from the other side, decoding
keeps this exactly when the step is guarded. -/
theorem Directed.decode_iff_guarded (hlaw : cipher.Lawful) (hshs : s.Shares salt keyring)
    (h : s.Directed) (hstep : s.step cipher crc32 (.decode side) = some s') :
    s'.Directed ↔ s.Guarded cipher crc32 (.decode side) := by
  obtain ⟨⟨r, codec, buf⟩, hdec, hstep⟩ := bind_eq_some_iff.mp hstep
  rw [hshs.produced_eq side] at hdec
  rw [← some.inj hstep, h.decode_iff]
  constructor
  · intro hret frame hown hoth hlen hbs
    by_contra hfr
    obtain ⟨codec', buf', haccept⟩ := (Codec.decode_ideal_iff hlaw).mpr
      ⟨(mem_encoded side).mpr (.inl hown), hlen, UInt32.not_le.mp hfr, hbs⟩
    have hr := (Prod.mk.inj (some.inj (hdec.symm.trans haccept))).1
    exact hoth (hret frame (mem_returned.mpr hr))
  · intro hguarded frame hfrm
    rw [mem_returned.mp hfrm] at hdec
    obtain ⟨hmem, hlen, hfr, hbs⟩ := Codec.decode_ideal_inv hlaw hdec
    by_contra hoth
    have hown := ((mem_encoded side).mp hmem).resolve_right hoth
    exact absurd (hguarded frame hown hoth hlen hbs) (UInt32.not_le.mpr hfr)

theorem Directed.step_iff_guarded (hlaw : cipher.Lawful) (hshs : s.Shares salt keyring)
    (h : s.Directed) {op : LinkOp} (hstep : s.step cipher crc32 op = some s') :
    s'.Directed ↔ s.Guarded cipher crc32 op := by
  cases op with
  | send side opcode payload =>
    obtain ⟨bytes, -, hstep⟩ := bind_eq_some_iff.mp hstep
    exact iff_of_true (some.inj hstep ▸ h.set rfl (subset_append_left _ _)) trivial
  | deliver side bytes =>
    exact iff_of_true (some.inj hstep ▸ h.set rfl (List.Subset.refl _)) trivial
  | decode side => exact h.decode_iff_guarded hlaw hshs hstep

theorem shares_start (salt : Vector UInt8 4) (keyring : KeyRing) (keyId : UInt8) :
    (start salt keyring keyId).Shares salt keyring := by
  intro side
  cases side <;> exact ⟨_, rfl⟩

/-- **When frames are not reflected.** A run has only guarded steps if and only if, after each step,
every frame a side has accepted was encoded by the other. -/
theorem guarded_iff_directed (hlaw : cipher.Lawful) (crc32 : Bytes → UInt32)
    (salt : Vector UInt8 4) (keyring : KeyRing) (keyId : UInt8) (ops : List LinkOp) (s : Link) :
    Steps (step cipher crc32) (Guarded cipher crc32) (start salt keyring keyId) ops s ↔
      Steps (step cipher crc32) (fun s op ↦ ∀ s', s.step cipher crc32 op = some s' → s'.Directed)
        (start salt keyring keyId) ops s := by
  have hdirected : (start salt keyring keyId).Directed := by
    intro side frame hfrm
    cases side <;> cases hfrm
  refine (steps_good_iff (Shares salt keyring) Directed (fun s op s' hshares hdirected hstep ↦ ?_)
    (shares_start salt keyring keyId) hdirected).symm
  exact ⟨hshares.step hstep, hdirected.step_iff_guarded hlaw hshares hstep⟩

/-- A request and its answer, each delivered to the other side. -/
theorem guarded_iff_directed_hello : ∃ s, Steps (step .blank fun _ ↦ 0) (fun s op ↦
          ∀ s', s.step .blank (fun _ ↦ 0) op = some s' → s'.Directed)
        (start (.replicate 4 7) (KeyRing.new.insert 0 (.replicate 32 9)) 0)
        [.send .client .hello [1],
          .deliver .server ([83, 1, 0, 1, 1, 0, 0, 0, 1, 0, 0, 0, 1, 0, 0, 0, 0, 1] ++
            .replicate 16 0),
          .decode .server, .send .server .hello [0],
          .deliver .client ([83, 1, 0, 1, 1, 0, 0, 0, 1, 0, 0, 0, 1, 0, 0, 0, 0, 0] ++
            .replicate 16 0),
          .decode .client] s ∧
      (s.party .client).accepted = [⟨0, .hello, 1, [0]⟩] ∧
      (s.party .server).accepted = [⟨0, .hello, 1, [1]⟩] := by
  refine ⟨_, (guarded_iff_directed Cipher.blank_lawful _ _ _ _ _ _).mp
    (steps_exec (by decide +kernel)), by decide +kernel, by decide +kernel⟩

/-- The greeting of a client is redirected to the client, which accepts it although the server has
encoded nothing. -/
theorem hello_reflected : ∃ bytes s, Steps (step .blank fun _ ↦ 0) (fun _ _ ↦ True)
        (start (.replicate 4 7) (KeyRing.new.insert 0 (.replicate 32 9)) 0)
        [.send .client .hello [1], .deliver .client bytes, .decode .client] s ∧ ¬s.Directed := by
  refine ⟨[83, 1, 0, 1, 1, 0, 0, 0, 1, 0, 0, 0, 1, 0, 0, 0, 0, 1] ++ .replicate 16 0,
    exists_steps_of_isSome (by decide +kernel) fun _ hdirected ↦ ?_⟩
  exact absurd (hdirected .client ⟨0, .hello, 1, [1]⟩ (by decide +kernel)) (by decide +kernel)

end Link

end Synapse.Native
