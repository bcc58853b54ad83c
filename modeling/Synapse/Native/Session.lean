import Synapse.Lib.Run
import Synapse.Native.Codec

/-!
# Connections of one boot and their nonces

At boot the broker draws one salt and fixes one key, and gives every accepted connection a codec
with both; the client of a connection is provisioned with the same. On a connection both sides count
their own frames from one, so the first request, its first response, and the first frames of every
other connection are all sealed under the same key and nonce (`hello_reuses_nonce`).

`nonceUnique_iff_sameAtSamePosition` says exactly when no nonce is reused for different frames in a
run. What a client receives does not influence what it sends, and is left out. The handlers of the
data primitives are a parameter `prims` over the state of the whole broker.
-/

namespace Synapse.Native

open ByteCode Transition Option
open List hiding Vector

/-- A response or delivery: the opcode to frame it under and its payload. -/
abbrev Out := Opcode × Bytes

/-- The sending half of one side of a connection, with the calls of `encrypt` it has made. -/
structure Endpoint where
  codec : Codec
  counter : UInt32
  sealings : List Codec.Sealing

variable (cipher : Cipher) (crc32 : Bytes → UInt32) {bytes : Bytes} {key : SessionKey}

namespace Endpoint

def new (codec : Codec) : Endpoint := ⟨codec, 0, []⟩

/-- Count up and encode one frame under epoch 0; the counter wraps. -/
def send (e : Endpoint) (msg : Out) : Option (Bytes × Endpoint) := do
  let frame : Frame := ⟨0, msg.1, e.counter + 1, msg.2⟩
  let s ← e.codec.sealing frame
  let bytes ← e.codec.encode cipher crc32 frame
  some (bytes, { e with counter := e.counter + 1, sealings := e.sealings ++ [s] })

def sendAll (e : Endpoint) : List Out → Option Endpoint
  | [] => some e
  | msg :: rest => do
    let (_, e) ← e.send cipher crc32 msg
    sendAll e rest

def sent (e : Endpoint) : List Out := e.sealings.map fun s ↦ (s.frame.opcode, s.frame.payload)

end Endpoint

/-- The state of `serve` on one connection. -/
structure Server where
  endpoint : Endpoint
  /-- Pub/sub deliveries waiting to be sent. -/
  deliveries : List Out
  buf : Bytes
  running : Bool

/-- A connection with the bytes its client has sent and the server has not read. -/
structure Connection where
  client : Endpoint
  server : Server
  wire : Bytes

section Serve

variable {γ : Type} (prims : ℕ → Opcode → γ → Bytes → Option (List Out × List Out × γ))

/-- Dispatch a decoded frame: the responses, the deliveries to this connection, and the broker's
state afterwards. -/
def handle (conn : ℕ) (world : γ) (frame : Frame) : Option (List Out × List Out × γ) :=
  match frame.opcode with
  | .hello | .rekey => some ([(frame.opcode, [0])], [], world)
  | opcode => prims conn opcode world frame.payload

/-- One iteration of the loop of `serve`: send the deliveries, then handle the next frame or, if
there is none, read `n` bytes; zero bytes are the end of the stream. `none` when the read would
block or the task panics. -/
def Connection.serve (conn : ℕ) (c : Connection) (world : γ) (n : ℕ) :
    Option (Connection × γ) := do
  if c.server.running = false then none
  else
    let endpoint ← c.server.endpoint.sendAll cipher crc32 c.server.deliveries
    let (r, codec, buf) ← endpoint.codec.decode cipher crc32 c.server.buf
    let endpoint := { endpoint with codec := codec }
    match r with
    | .error _ => some ({ c with server := ⟨endpoint, [], buf, false⟩ }, world)
    | .ok (some frame) =>
      let (responses, deliveries, world) ← handle prims conn world frame
      let endpoint ← endpoint.sendAll cipher crc32 responses
      some ({ c with server := ⟨endpoint, deliveries, buf, true⟩ }, world)
    | .ok none =>
      if n = 0 then some ({ c with server := ⟨endpoint, [], buf, false⟩ }, world)
      else if n ≤ c.wire.length ∧ n ≤ 8192 then
        some ({ c with
          server := ⟨endpoint, [], buf ++ c.wire.take n, true⟩, wire := c.wire.drop n }, world)
      else none

end Serve

/-! ## One boot of the broker -/

structure Boot (γ : Type) where
  salt : Vector UInt8 4
  key : SessionKey
  connections : List Connection
  world : γ

inductive BootOp
  | accept
  | exchange (conn : ℕ) (opcode : Opcode) (payload : Bytes)
  /-- One iteration of the server loop of a connection. -/
  | serve (conn n : ℕ)
deriving DecidableEq, Repr

namespace Boot

variable {γ : Type} (prims : ℕ → Opcode → γ → Bytes → Option (List Out × List Out × γ))

def start (salt : Vector UInt8 4) (key : SessionKey) (world : γ) : Boot γ := ⟨salt, key, [], world⟩

def codec (s : Boot γ) : Codec := .new s.salt (KeyRing.new.insert 0 s.key)

def step (s : Boot γ) : BootOp → Option (Boot γ)
  | .accept =>
    some { s with connections := s.connections ++
      [⟨.new s.codec, ⟨.new s.codec, [], [], true⟩, []⟩] }
  | .exchange conn opcode payload => do
    let c ← s.connections[conn]?
    let (bytes, client) ← c.client.send cipher crc32 (opcode, payload)
    some { s with
      connections := s.connections.set conn { c with client := client, wire := c.wire ++ bytes } }
  | .serve conn n => do
    let c ← s.connections[conn]?
    let (c, world) ← c.serve cipher crc32 prims conn s.world n
    some { s with connections := s.connections.set conn c, world := world }

def endpoints (s : Boot γ) : List Endpoint :=
  s.connections.flatMap fun c ↦ [c.client, c.server.endpoint]

/-- No two calls of `encrypt` under the same key use the same nonce for different frames. -/
def NonceUnique (s : Boot γ) : Prop :=
  ∀ e ∈ s.endpoints, ∀ e' ∈ s.endpoints, ∀ a ∈ e.sealings, ∀ b ∈ e'.sealings,
    a.key = b.key → a.nonce = b.nonce → a.frame = b.frame

/-- Any two endpoints sent the same message as their `k`-th, for positions counted modulo
`2 ^ 32`. -/
def SameAtSamePosition (s : Boot γ) : Prop :=
  ∀ e ∈ s.endpoints, ∀ e' ∈ s.endpoints, ∀ k k', k % 2 ^ 32 = k' % 2 ^ 32 →
    ∀ msg ∈ e.sent[k]?, ∀ msg' ∈ e'.sent[k']?, msg = msg'

end Boot

/-! ## Every endpoint counts its own frames -/

/-- The endpoint holds the salt and key of the boot, and sealed its `k`-th frame with counter
`k + 1`, which wraps. -/
structure Endpoint.Counts (salt : Vector UInt8 4) (key : SessionKey) (e : Endpoint) : Prop where
  salt_eq : e.codec.salt = salt
  key_eq : e.codec.keyring.keys 0 = some key
  counter_eq : e.counter = UInt32.ofNat e.sealings.length
  sealed_eq : ∀ ⦃k a⦄, e.sealings[k]? = some a → a.key = key ∧
    a.nonce = (Codec.new salt .new).nonce a.frame.counter ∧ a.frame.keyId = 0 ∧
    a.frame.counter = UInt32.ofNat (k + 1)

namespace Endpoint.Counts

variable {cipher} {crc32} {salt : Vector UInt8 4} {key : SessionKey} {e e' : Endpoint}

theorem send (h : e.Counts salt key) {msg : Out}
    (hsend : e.send cipher crc32 msg = some (bytes, e')) : e'.Counts salt key := by
  obtain ⟨a, ha, hsend⟩ := bind_eq_some_iff.mp hsend
  obtain ⟨bytes', -, hsend⟩ := bind_eq_some_iff.mp hsend
  obtain ⟨-, rfl⟩ := hsend
  have hctr : e.counter + 1 = UInt32.ofNat (e.sealings.length + 1) := by
    rw [h.counter_eq, UInt32.ofNat_add]
    rfl
  rw [Codec.sealing, h.key_eq, map_some, some.injEq] at ha
  refine ⟨h.salt_eq, h.key_eq, by rw [length_append]; exact hctr, fun k b hb ↦ ?_⟩
  rw [List.getElem?_append] at hb
  split_ifs at hb with hk
  · exact h.sealed_eq hb
  obtain ⟨hk', rfl⟩ : k = e.sealings.length ∧ a = b := by
    rw [List.getElem?_singleton] at hb
    split_ifs at hb with hzero
    exact ⟨by omega, some.inj hb⟩
  rw [← ha, hk']
  exact ⟨rfl, by rw [Codec.nonce, Codec.nonce, h.salt_eq]; rfl, rfl, hctr⟩

theorem sendAll (h : e.Counts salt key) {msgs : List Out}
    (hsend : e.sendAll cipher crc32 msgs = some e') : e'.Counts salt key := by
  induction msgs generalizing e with
  | nil => exact some.inj hsend ▸ h
  | cons msg rest ih =>
    obtain ⟨⟨bytes, e₁⟩, hfst, hsend⟩ := bind_eq_some_iff.mp hsend
    exact ih (h.send hfst) hsend

theorem decode (h : e.Counts salt key) {buf buf' : Bytes} {codec : Codec}
    {r : Except NativeError (Option Frame)}
    (hdec : e.codec.decode cipher crc32 buf = some (r, codec, buf')) :
    Counts salt key { e with codec := codec } := by
  obtain ⟨lastCounter, rfl⟩ := Codec.decode_codec hdec
  exact ⟨h.salt_eq, h.key_eq, h.counter_eq, h.sealed_eq⟩

end Endpoint.Counts

def Connection.Counts (salt : Vector UInt8 4) (key : SessionKey) (c : Connection) : Prop :=
  c.client.Counts salt key ∧ c.server.endpoint.Counts salt key

section Serve

variable {cipher crc32} {γ : Type}
  {prims : ℕ → Opcode → γ → Bytes → Option (List Out × List Out × γ)} {conn n : ℕ}
  {c c' : Connection} {world world' : γ}

/-- An iteration sends the deliveries and decodes, and then stops, reads, or handles a frame and
sends the responses. -/
theorem Connection.serve_cases (h : c.serve cipher crc32 prims conn world n = some (c', world')) :
    ∃ e r codec buf, c.server.endpoint.sendAll cipher crc32 c.server.deliveries = some e ∧
      e.codec.decode cipher crc32 c.server.buf = some (r, codec, buf) ∧
      ((((∃ err, r = .error err) ∨ r = .ok none ∧ n = 0) ∧
          c' = { c with server := ⟨{ e with codec := codec }, [], buf, false⟩ } ∧
          world' = world) ∨
        ((r = .ok none ∧ n ≠ 0 ∧ n ≤ c.wire.length) ∧ c' = { c with
            server := ⟨{ e with codec := codec }, [], buf ++ c.wire.take n, true⟩
            wire := c.wire.drop n } ∧
          world' = world) ∨
        ∃ frame responses deliveries e', r = .ok (some frame) ∧
          handle prims conn world frame = some (responses, deliveries, world') ∧
          Endpoint.sendAll cipher crc32 { e with codec := codec } responses = some e' ∧
          c' = { c with server := ⟨e', deliveries, buf, true⟩ }) := by
  rw [Connection.serve] at h
  by_cases hstop : c.server.running = false
  · rw [if_pos hstop] at h
    nomatch h
  rw [if_neg hstop] at h
  obtain ⟨e, hdrn, h⟩ := bind_eq_some_iff.mp h
  obtain ⟨⟨r, codec, buf⟩, hdec, h⟩ := bind_eq_some_iff.mp h
  refine ⟨e, r, codec, buf, hdrn, hdec, ?_⟩
  rcases r with err | _ | frame
  · obtain ⟨rfl, rfl⟩ := h
    exact .inl ⟨.inl ⟨err, rfl⟩, rfl, rfl⟩
  · simp only at h
    split_ifs at h with hzero hroom
    · obtain ⟨rfl, rfl⟩ := h
      exact .inl ⟨.inr ⟨rfl, hzero⟩, rfl, rfl⟩
    · obtain ⟨rfl, rfl⟩ := h
      exact .inr (.inl ⟨⟨rfl, hzero, hroom.1⟩, rfl, rfl⟩)
  · obtain ⟨⟨responses, deliveries, world₁⟩, hhandle, h⟩ := bind_eq_some_iff.mp h
    obtain ⟨e', hrsp, h⟩ := bind_eq_some_iff.mp h
    obtain ⟨rfl, rfl⟩ := h
    exact .inr (.inr ⟨frame, responses, deliveries, e', rfl, hhandle, hrsp, rfl⟩)

theorem Connection.Counts.serve {salt : Vector UInt8 4} (h : c.Counts salt key)
    (hsv : c.serve cipher crc32 prims conn world n = some (c', world')) : c'.Counts salt key := by
  obtain ⟨e, r, codec, buf, hdrn, hdec, hcs⟩ := Connection.serve_cases hsv
  have hend := (h.2.sendAll hdrn).decode hdec
  rcases hcs with ⟨-, rfl, -⟩ | ⟨-, rfl, -⟩ | ⟨frame, responses, deliveries, e', -, -, hrsp, rfl⟩
  · exact ⟨h.1, hend⟩
  · exact ⟨h.1, hend⟩
  · exact ⟨h.1, hend.sendAll hrsp⟩

end Serve

namespace Boot

variable {cipher} {crc32} {γ : Type}
  {prims : ℕ → Opcode → γ → Bytes → Option (List Out × List Out × γ)} {codec : Codec}

def Inv (s : Boot γ) : Prop := ∀ c ∈ s.connections, c.Counts s.salt s.key

theorem counts_new (s : Boot γ) : (Endpoint.new s.codec).Counts s.salt s.key :=
  ⟨rfl, KeyRing.keys_insert_self _ _ _, rfl, fun _ _ ha ↦ nomatch ha⟩

theorem Inv.step {s s' : Boot γ} {op : BootOp} (h : s.Inv)
    (hstep : s.step cipher crc32 prims op = some s') : s'.Inv := by
  have hset {conn : ℕ} {c : Connection} (hc : c.Counts s.salt s.key) :
      ∀ c' ∈ s.connections.set conn c, c'.Counts s.salt s.key := fun c' hc' ↦
    (mem_or_eq_of_mem_set hc').elim (h c') fun heq ↦ heq ▸ hc
  cases op with
  | accept =>
    cases hstep
    exact forall_mem_append.mpr ⟨h, forall_mem_singleton.mpr ⟨s.counts_new, s.counts_new⟩⟩
  | exchange conn opcode payload =>
    obtain ⟨c, hc, hstep⟩ := bind_eq_some_iff.mp hstep
    obtain ⟨⟨bytes, client⟩, hsend, hstep⟩ := bind_eq_some_iff.mp hstep
    cases hstep
    have hcts := h c (mem_of_getElem? hc)
    exact hset ⟨hcts.1.send hsend, hcts.2⟩
  | serve conn n =>
    obtain ⟨c, hc, hstep⟩ := bind_eq_some_iff.mp hstep
    obtain ⟨⟨c', world⟩, hsv, hstep⟩ := bind_eq_some_iff.mp hstep
    cases hstep
    exact hset ((h c (mem_of_getElem? hc)).serve hsv)

theorem counter_eq_iff (k k' : ℕ) :
    UInt32.ofNat (k + 1) = UInt32.ofNat (k' + 1) ↔ k % 2 ^ 32 = k' % 2 ^ 32 := by
  rw [← UInt32.toNat_inj, UInt32.toNat_ofNat', UInt32.toNat_ofNat']
  omega

theorem Inv.nonceUnique_iff {s : Boot γ} (h : s.Inv) : s.NonceUnique ↔ s.SameAtSamePosition := by
  have hcts : ∀ e ∈ s.endpoints, e.Counts s.salt s.key := by
    intro e he
    obtain ⟨c, hc, he⟩ := mem_flatMap.mp he
    rcases mem_pair.mp he with rfl | rfl
    · exact (h c hc).1
    · exact (h c hc).2
  constructor
  · intro hunique e he e' he' k k' hk msg hmsg msg' hmsg'
    rw [Endpoint.sent, List.getElem?_map] at hmsg hmsg'
    obtain ⟨a, ha, rfl⟩ := map_eq_some_iff.mp hmsg
    obtain ⟨b, hb, rfl⟩ := map_eq_some_iff.mp hmsg'
    obtain ⟨hakey, hanonce, -, hacounter⟩ := (hcts e he).sealed_eq ha
    obtain ⟨hbkey, hbnonce, -, hbcounter⟩ := (hcts e' he').sealed_eq hb
    have hctr : a.frame.counter = b.frame.counter := by
      rwa [hacounter, hbcounter, counter_eq_iff]
    rw [hunique e he e' he' a (mem_of_getElem? ha) b (mem_of_getElem? hb)
      (hakey.trans hbkey.symm) (by rw [hanonce, hbnonce, hctr])]
  · intro hsame e he e' he' a ha b hb hkey hnonce
    obtain ⟨k, hk⟩ := List.getElem?_of_mem ha
    obtain ⟨k', hk'⟩ := List.getElem?_of_mem hb
    obtain ⟨-, hanonce, haid, hacounter⟩ := (hcts e he).sealed_eq hk
    obtain ⟨-, hbnonce, hbid, hbcounter⟩ := (hcts e' he').sealed_eq hk'
    have hctr : a.frame.counter = b.frame.counter := by
      rwa [hanonce, hbnonce, Codec.nonce_inj] at hnonce
    have hmsg := hsame e he e' he' k k'
      ((counter_eq_iff k k').mp (hacounter.symm.trans (hctr.trans hbcounter)))
      (a.frame.opcode, a.frame.payload) (by rw [Endpoint.sent, List.getElem?_map, hk]; rfl)
      (b.frame.opcode, b.frame.payload) (by rw [Endpoint.sent, List.getElem?_map, hk']; rfl)
    obtain ⟨hopc, hpay⟩ := Prod.mk.inj hmsg
    rw [show a.frame = ⟨a.frame.keyId, a.frame.opcode, a.frame.counter, a.frame.payload⟩ from rfl,
      haid, hopc, hctr, hpay, ← hbid]

/-- **When nonces are unique.** After every run of any number of connections of one boot, no nonce
has been used for different frames if and only if endpoints that sent frames at congruent positions
sent the same messages there. -/
theorem nonceUnique_iff_sameAtSamePosition {salt : Vector UInt8 4} {key : SessionKey} {world : γ}
    {ops : List BootOp} {s : Boot γ}
    (hrun : Steps (step cipher crc32 prims) (fun _ _ ↦ True) (start salt key world) ops s) :
    s.NonceUnique ↔ s.SameAtSamePosition :=
  (hrun.invariant Inv (fun _ _ _ h _ hstep ↦ h.step hstep) fun _ hc ↦ nomatch hc).nonceUnique_iff

/-- A client that sends two requests and gets no answer uses two nonces. -/
theorem nonceUnique_two_requests :
    ∃ s, Steps (step .blank (fun _ ↦ 0) fun _ _ _ _ ↦ none) (fun _ _ ↦ True)
        (start (.replicate 4 7) (.replicate 32 9) ())
        [.accept, .exchange 0 .kvGet [1], .exchange 0 .kvGet [2]] s ∧
      s.endpoints.map Endpoint.sent = [[(.kvGet, [1]), (.kvGet, [2])], []] ∧ s.NonceUnique := by
  refine exists_steps_of_isSome (by decide +kernel) fun hrun ↦ ⟨by decide +kernel, ?_⟩
  refine (nonceUnique_iff_sameAtSamePosition hrun).mpr ?_
  have hmem : ∀ sent ∈ [[(Opcode.kvGet, ([1] : Bytes)), (.kvGet, [2])], []], ∀ k, ∀ msg ∈ sent[k]?,
      k < 2 ∧ msg ∈ [(Opcode.kvGet, ([1] : Bytes)), (.kvGet, [2])][k]? := by
    intro sent hsent k msg hmsg
    rcases mem_pair.mp hsent with rfl | rfl
    · exact ⟨(List.getElem?_eq_some_iff.mp hmsg).1, hmsg⟩
    · simp at hmsg
  intro e he e' he' k k' hk msg hmsg msg' hmsg'
  obtain ⟨hlt, hmsg⟩ := hmem _ (mem_map_of_mem he) k msg hmsg
  obtain ⟨hlt', hmsg'⟩ := hmem _ (mem_map_of_mem he') k' msg' hmsg'
  obtain rfl : k = k' := by omega
  exact some.inj (hmsg.symm.trans hmsg')

/-- The client greets with payload `[1]`, the server answers with `[0]`, and both frames are sealed
under one key with one nonce. -/
theorem hello_reuses_nonce :
    ∃ n s, Steps (step .blank (fun _ ↦ 0) fun _ _ _ _ ↦ none) (fun _ _ ↦ True)
        (start (.replicate 4 7) (.replicate 32 9) ())
        [.accept, .exchange 0 .hello [1], .serve 0 n, .serve 0 0] s ∧ ¬s.NonceUnique := by
  refine ⟨34, exists_steps_of_isSome (by decide +kernel) fun _ ↦ ?_⟩
  rw [NonceUnique]
  decide +kernel

end Boot

end Synapse.Native
