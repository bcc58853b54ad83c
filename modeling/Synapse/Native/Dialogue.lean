import Synapse.Lib.Chronicle
import Synapse.Native.Broker
import Synapse.Native.Stream

/-!
# Requests and responses of one client

A client of the library and the server of its connection. The client sends a request and takes the
next frame that arrives for the answer; the server writes the pub/sub deliveries it owes, handles a
frame, and writes the response. There is nothing in a frame that says which of the two it is, or
which request it belongs to. `Dialogue` is the connection with the bytes in both directions, cut
into reads in any way, while other connections change the core.

`InOrder` says that frames arrive in the order they were sent, that the server writes each response
followed by its deliveries, and that the client takes one frame for each request. Every step in
which no counter wraps keeps it.
-/

namespace Synapse.Native

open ByteCode Transition Option
open List hiding Vector

def Frame.out (frame : Frame) : Out := (frame.opcode, frame.payload)

def Endpoint.frames (e : Endpoint) : List Frame := e.sealings.map Codec.Sealing.frame

namespace Endpoint

variable {cipher : Cipher} {crc32 : Bytes → UInt32} {e e' : Endpoint} {key : SessionKey}

theorem send_eq_some {msg : Out} {bytes : Bytes} (h : e.send cipher crc32 msg = some (bytes, e')) :
    ∃ frame : Frame, e'.codec = e.codec ∧ e'.frames = e.frames ++ [frame] ∧ frame.out = msg ∧
      bytes = bytesOf cipher crc32 e.codec [frame] := by
  obtain ⟨s, hs, h⟩ := bind_eq_some_iff.mp h
  obtain ⟨bytes', henc, h⟩ := bind_eq_some_iff.mp h
  obtain ⟨rfl, rfl⟩ := h
  obtain ⟨key, -, rfl⟩ := map_eq_some_iff.mp hs
  refine ⟨⟨0, msg.1, e.counter + 1, msg.2⟩, rfl, by simp [frames], rfl, ?_⟩
  rw [bytesOf, flatMap_singleton, henc, getD_some]

theorem sendAll_eq_some {msgs : List Out} (h : e.sendAll cipher crc32 msgs = some e') :
    e'.codec = e.codec ∧ ∃ fresh, e'.frames = e.frames ++ fresh ∧ fresh.map Frame.out = msgs := by
  induction msgs generalizing e with
  | nil =>
    cases h
    exact ⟨rfl, [], by simp⟩
  | cons msg rest ih =>
    obtain ⟨⟨bytes, e₁⟩, hfst, h⟩ := bind_eq_some_iff.mp h
    obtain ⟨frame, hcod, hfrs, hout, -⟩ := send_eq_some hfst
    obtain ⟨hcod', fresh, hfrs', hfr⟩ := ih h
    refine ⟨hcod'.trans hcod, frame :: fresh, ?_, ?_⟩
    · rw [hfrs', hfrs, append_assoc, singleton_append]
    · rw [map_cons, hout, hfr]

theorem exists_sendAll (cipher : Cipher) (crc32 : Bytes → UInt32)
    (hkey : e.codec.keyring.keys 0 = some key) (msgs : List Out) :
    ∃ e', e.sendAll cipher crc32 msgs = some e' := by
  induction msgs generalizing e with
  | nil => exact ⟨e, rfl⟩
  | cons msg rest ih =>
    obtain ⟨⟨bytes, e₁⟩, hfst⟩ : ∃ r, e.send cipher crc32 msg = some r := by
      simp [send, Codec.sealing, Codec.encode, hkey]
    obtain ⟨frame, hcod, -⟩ := send_eq_some hfst
    obtain ⟨e₂, hrest⟩ := ih (by rw [hcod, hkey])
    exact ⟨e₂, by rw [sendAll, hfst]; exact hrest⟩

theorem Counts.numbered {salt : Vector UInt8 4} (h : e.Counts salt key) {k : ℕ} {frame : Frame}
    (hfrm : e.frames[k]? = some frame) :
    frame.keyId = 0 ∧ frame.counter = UInt32.ofNat (k + 1) := by
  rw [frames, List.getElem?_map] at hfrm
  obtain ⟨a, ha, rfl⟩ := map_eq_some_iff.mp hfrm
  exact (h.sealed_eq ha).2.2

end Endpoint

inductive ClientError
  /-- The server has closed the connection. -/
  | io
  | protocol (e : NativeError)
deriving DecidableEq, Repr

structure Dialogue where
  conn : Connection
  /-- What the client has read and not decoded. -/
  buf : Bytes
  /-- What the server has written and the client has not read. -/
  down : Bytes
  world : World
  /-- The client is inside `exchange`. -/
  waiting : Bool
  /-- The response to each request that has been handled, and the deliveries that go with it. -/
  handled : List (Frame × List Out)
  /-- What each exchange returned. -/
  returned : List (Except ClientError Frame)

inductive DialogueOp
  | exchange (req : Out)
  | serve (n : ℕ)
  | recv (n : ℕ)
  /-- Other connections have used the core. -/
  | others (core : SynapseCore) (now : ℕ)

/-- A step that the client and the server take by themselves. -/
def DialogueOp.IsInternal : DialogueOp → Prop
  | .serve _ => True
  | .recv _ => True
  | _ => False

namespace Dialogue

variable (cipher : Cipher) (crc32 : Bytes → UInt32)

def codec (salt : Vector UInt8 4) (key : SessionKey) : Codec := .new salt (KeyRing.new.insert 0 key)

def start (salt : Vector UInt8 4) (key : SessionKey) (object : ObjectStore) : Dialogue where
  conn := ⟨.new (codec salt key), ⟨.new (codec salt key), [], [], true⟩, []⟩
  buf := []
  down := []
  world := .start object
  waiting := false
  handled := []
  returned := []

/-- The frames the server has written since the state `old`. -/
def written (old new : Server) : List Frame :=
  new.endpoint.frames.drop old.endpoint.frames.length

def step (s : Dialogue) : DialogueOp → Option Dialogue
  | .exchange req => do
    if s.waiting then none
    else
      let (bytes, client) ← s.conn.client.send cipher crc32 req
      some { s with
        conn := { s.conn with client := client, wire := s.conn.wire ++ bytes }, waiting := true }
  | .serve n => do
    -- the client does not close the connection
    if n = 0 then none
    else
      let (conn, world) ← s.conn.serve cipher crc32 World.prims 0 s.world n
      let frames := written s.conn.server conn.server
      -- the deliveries come first
      let responses := frames.drop s.conn.server.deliveries.length
      some { s with
        conn := conn, world := world
        down := s.down ++ bytesOf cipher crc32 conn.server.endpoint.codec frames
        handled := s.handled ++ responses.map (·, conn.server.deliveries) }
  | .recv n => do
    if s.waiting = false then none
    else
      let (r, codec, buf) ← s.conn.client.codec.decode cipher crc32 s.buf
      let s := { s with
        conn := { s.conn with client := { s.conn.client with codec := codec } }, buf := buf }
      match r with
      | .error e =>
        some { s with waiting := false, returned := s.returned ++ [.error (.protocol e)] }
      | .ok (some frame) =>
        some { s with waiting := false, returned := s.returned ++ [.ok frame] }
      | .ok none =>
        if n = 0 then
          if s.conn.server.running = false ∧ s.down = [] then
            some { s with waiting := false, returned := s.returned ++ [.error .io] }
          else none
        else if n ≤ s.down.length ∧ n ≤ 8192 then
          some { s with buf := s.buf ++ s.down.take n, down := s.down.drop n }
        else none
  | .others core now => some { s with world := { s.world with core := core, now := now } }

def requests (s : Dialogue) : List Out := s.conn.client.sent

/-- No counter has wrapped, and every payload fits its length field. -/
def Small (s : Dialogue) : Prop :=
  ∀ e ∈ [s.conn.client, s.conn.server.endpoint], e.frames.length < 2 ^ 32 ∧
    ∀ frame ∈ e.frames, frame.payload.length < 2 ^ 32

/-! ## The order of the frames -/

/-- What the server owes for the requests it has handled: each response, then its deliveries. -/
def stream (handled : List (Frame × List Out)) : List Out :=
  handled.flatMap fun p ↦ p.1.out :: p.2

/-- The position of a response in that order is its counter. -/
def Placed (past : List (Frame × List Out)) (p : Frame × List Out) : Prop :=
  p.1.keyId = 0 ∧ p.1.counter = UInt32.ofNat ((stream past).length + 1)

/-- Both directions are read in order, the client takes one frame for each request, and the server
writes what it owes in order. -/
structure InOrder (salt : Vector UInt8 4) (key : SessionKey) (s : Dialogue) : Prop where
  client : s.conn.client.Counts salt key
  server : s.conn.server.endpoint.Counts salt key
  running : s.conn.server.running = true
  up : Reading cipher crc32 (codec salt key) s.conn.client.frames s.handled.length
    s.conn.server.endpoint.codec s.conn.server.buf s.conn.wire
  down : Reading cipher crc32 (codec salt key) s.conn.server.endpoint.frames s.returned.length
    s.conn.client.codec s.buf s.down
  handled_le : s.handled.length ≤ s.conn.client.frames.length
  answered : ∀ k < s.handled.length,
    (stream (s.handled.take k)).length < s.conn.server.endpoint.frames.length
  returned_eq : s.returned =
    (s.conn.server.endpoint.frames.take s.returned.length).map Except.ok
  turn : s.conn.client.frames.length = s.returned.length + s.waiting.toNat
  stream_eq : s.conn.server.endpoint.frames.map Frame.out ++ s.conn.server.deliveries =
    stream s.handled
  placed : Chronicle Placed s.handled

/-- What an iteration of the server loop does: it writes the deliveries, and then either reads or
handles the next request and writes the response. -/
structure Iterates (salt : Vector UInt8 4) (key : SessionKey) (s s' : Dialogue) : Prop where
  client_eq : s'.conn.client = s.conn.client
  buf_eq : s'.buf = s.buf
  waiting_eq : s'.waiting = s.waiting
  returned_eq : s'.returned = s.returned
  server : s'.conn.server.endpoint.Counts salt key
  running : s'.conn.server.running = true
  up : Reading cipher crc32 (codec salt key) s.conn.client.frames s'.handled.length
    s'.conn.server.endpoint.codec s'.conn.server.buf s'.conn.wire
  writes : ∃ (fresh : List Frame) (last : List (Frame × List Out)),
    fresh.map Frame.out = s.conn.server.deliveries ∧
    s'.conn.server.endpoint.frames =
      s.conn.server.endpoint.frames ++ (fresh ++ last.map Prod.fst) ∧
    s'.down = s.down ++ bytesOf cipher crc32 (codec salt key) (fresh ++ last.map Prod.fst) ∧
    s'.conn.server.deliveries = last.flatMap Prod.snd ∧ s'.handled = s.handled ++ last ∧
    (last = [] ∧ s'.world = s.world ∧ s'.conn.wire.length < s.conn.wire.length ∨
      ∃ req response ds, last = [(response, ds)] ∧
        s.conn.client.frames[s.handled.length]? = some req ∧
        handle World.prims 0 s.world req = some ([response.out], ds, s'.world) ∧
        s'.conn.wire = s.conn.wire)

variable {cipher crc32} {salt : Vector UInt8 4} {key : SessionKey} {s s' : Dialogue}

theorem codec_key (salt : Vector UInt8 4) (key : SessionKey) :
    (codec salt key).keyring.keys 0 = some key :=
  KeyRing.keys_insert_self _ _ _

/-! ## What a step can do -/

variable {req : Out} {n : ℕ} {op : DialogueOp}

theorem exchange_eq_some (hstep : s.step cipher crc32 (.exchange req) = some s') :
    s.waiting = false ∧ ∃ bytes client, s.conn.client.send cipher crc32 req = some (bytes, client) ∧
      s' = { s with
        conn := { s.conn with client := client, wire := s.conn.wire ++ bytes }
        waiting := true } := by
  rw [step] at hstep
  split_ifs at hstep with hwait
  obtain ⟨⟨bytes, client⟩, hsend, hstep⟩ := bind_eq_some_iff.mp hstep
  exact ⟨Bool.eq_false_of_not_eq_true hwait, bytes, client, hsend, (some.inj hstep).symm⟩

theorem serve_eq_some (hstep : s.step cipher crc32 (.serve n) = some s') :
    n ≠ 0 ∧ ∃ conn world, s.conn.serve cipher crc32 World.prims 0 s.world n = some (conn, world) ∧
      ∀ fresh, conn.server.endpoint.frames = s.conn.server.endpoint.frames ++ fresh → s' = { s with
          conn := conn, world := world
          down := s.down ++ bytesOf cipher crc32 conn.server.endpoint.codec fresh
          handled := s.handled ++ (fresh.drop s.conn.server.deliveries.length).map
            (·, conn.server.deliveries) } := by
  rw [step] at hstep
  by_cases hn : n = 0
  · rw [if_pos hn] at hstep
    cases hstep
  rw [if_neg hn] at hstep
  obtain ⟨⟨conn, world⟩, hsv, hstep⟩ := bind_eq_some_iff.mp hstep
  refine ⟨hn, conn, world, hsv, fun fresh hfr ↦ ?_⟩
  have hwritten : written s.conn.server conn.server = fresh := by rw [written, hfr, drop_left]
  rw [← hwritten]
  exact (some.inj hstep).symm

/-- The client takes a frame or an error for the answer, or reads. -/
theorem recv_cases (hstep : s.step cipher crc32 (.recv n) = some s') :
    s.waiting = true ∧ ∃ r codec buf,
      s.conn.client.codec.decode cipher crc32 s.buf = some (r, codec, buf) ∧
      ((∃ result, (∀ frame, r = .ok (some frame) → result = .ok frame) ∧
          (r = .ok none → s.conn.server.running = false) ∧
          s' = { s with
            conn := { s.conn with client := { s.conn.client with codec := codec } }, buf := buf
            waiting := false, returned := s.returned ++ [result] }) ∨
        r = .ok none ∧ n ≠ 0 ∧ n ≤ s.down.length ∧ s' = { s with
            conn := { s.conn with client := { s.conn.client with codec := codec } }
            buf := buf ++ s.down.take n, down := s.down.drop n }) := by
  rw [step] at hstep
  by_cases hwait : s.waiting = false
  · rw [if_pos hwait] at hstep
    cases hstep
  rw [if_neg hwait] at hstep
  obtain ⟨⟨r, codec', buf⟩, hdec, hstep⟩ := bind_eq_some_iff.mp hstep
  refine ⟨Bool.eq_true_of_not_eq_false hwait, r, codec', buf, hdec, ?_⟩
  rcases r with e | _ | frame
  · exact .inl ⟨.error (.protocol e), by simp, by simp, (some.inj hstep).symm⟩
  · dsimp only at hstep
    split_ifs at hstep with hzero hcls hroom
    · exact .inl ⟨.error .io, by simp, fun _ ↦ hcls.1, (some.inj hstep).symm⟩
    · exact .inr ⟨rfl, hzero, hroom.1, (some.inj hstep).symm⟩
  · exact .inl ⟨.ok frame, by simp, by simp, (some.inj hstep).symm⟩

/-! ## The frames stay in order -/

theorem recv_frame (hstep : s.step cipher crc32 (.recv n) = some s') :
    s'.conn.client.frames = s.conn.client.frames ∧ s'.conn.server = s.conn.server ∧
      s'.world = s.world ∧ s'.handled = s.handled ∧ s'.conn.wire = s.conn.wire ∧
      (s'.waiting = true → s'.down.length < s.down.length) := by
  obtain ⟨-, r, codec', buf, -, ⟨result, -, -, rfl⟩ | ⟨-, hpos, hroom, rfl⟩⟩ := recv_cases hstep
  · exact ⟨rfl, rfl, rfl, rfl, rfl, nofun⟩
  · refine ⟨rfl, rfl, rfl, rfl, rfl, fun _ ↦ ?_⟩
    rw [length_drop]
    omega

section

variable (h : InOrder cipher crc32 salt key s)

include h

theorem InOrder.sendable (hsm : s.Small) :
    Sendable s.conn.client.frames ∧ Sendable s.conn.server.endpoint.frames := by
  obtain ⟨hlen, hpay⟩ := hsm s.conn.client (by simp)
  obtain ⟨hlen', hpay'⟩ := hsm s.conn.server.endpoint (by simp)
  exact ⟨⟨fun _ _ ↦ h.client.numbered, hlen, hpay⟩, ⟨fun _ _ ↦ h.server.numbered, hlen', hpay'⟩⟩

theorem InOrder.returned_le : s.returned.length ≤ s.conn.server.endpoint.frames.length := by
  have hlen := congrArg List.length h.returned_eq
  rw [length_map, length_take] at hlen
  omega

theorem InOrder.exchange (hstep : s.step cipher crc32 (.exchange req) = some s') :
    InOrder cipher crc32 salt key s' := by
  obtain ⟨hwait, bytes, client, hsend, rfl⟩ := exchange_eq_some hstep
  obtain ⟨frame, hcod, hfrs, -, hbs⟩ := Endpoint.send_eq_some hsend
  rw [h.down.bytesOf_eq] at hbs
  refine { h with
    client := h.client.send hsend, up := ?_, down := ?_, handled_le := ?_, turn := ?_ }
  · rw [hfrs, hbs]
    exact h.up.write h.handled_le [frame]
  · rw [hcod]
    exact h.down
  · rw [hfrs, length_append]
    exact Nat.le_add_right_of_le h.handled_le
  · have hturn := h.turn
    rw [hwait] at hturn
    rw [hfrs, length_append, hturn]
    rfl

variable (hlaw : cipher.Lawful)

include hlaw

theorem InOrder.iterates (hsend : Sendable s.conn.client.frames)
    (hstep : s.step cipher crc32 (.serve n) = some s') :
    Iterates cipher crc32 salt key s s' := by
  obtain ⟨hn, conn, world, hsv, hs'⟩ := serve_eq_some hstep
  have hcts := Connection.Counts.serve ⟨h.client, h.server⟩ hsv
  obtain ⟨e, r, codec', buf, hdrn, hdec, hcs⟩ := Connection.serve_cases hsv
  obtain ⟨hcod, fresh, hfrs, hfr⟩ := Endpoint.sendAll_eq_some hdrn
  have hlen : s.conn.server.deliveries.length = fresh.length := by rw [← hfr, length_map]
  rw [hcod] at hdec
  rw [hlen] at hs'
  rcases h.up.decode_cases hlaw (codec_key salt key) hsend hdec with
    ⟨req, rfl, hreq, hnext⟩ | ⟨rfl, rfl, rfl⟩
  · obtain ⟨hstop, -⟩ | ⟨⟨⟨⟩, -⟩, -⟩ | ⟨_, responses, ds, e', ⟨⟩, hhandle, hrsp, rfl⟩ := hcs
    · simp at hstop
    obtain ⟨out, rfl⟩ := (World.handle_cases hhandle).1
    obtain ⟨hcod', last, hfrs', hlast⟩ := Endpoint.sendAll_eq_some hrsp
    obtain ⟨response, rfl, rfl⟩ := map_eq_singleton_iff.mp hlast
    have hall : e'.frames = s.conn.server.endpoint.frames ++ (fresh ++ [response]) := by
      rw [hfrs', ← append_assoc, ← hfrs]
      rfl
    have hbs : bytesOf cipher crc32 e'.codec = bytesOf cipher crc32 (codec salt key) := by
      rw [hcod', hnext.bytesOf_eq]
    obtain rfl := hs' (fresh ++ [response]) hall
    simp only [drop_left, map_singleton]
    refine ⟨rfl, rfl, rfl, rfl, hcts.2, rfl, ?_, fresh, [(response, ds)], hfr, hall,
      congrArg (s.down ++ · (fresh ++ [response])) hbs, (flatMap_singleton ..).symm, rfl,
      .inr ⟨req, response, ds, rfl, hreq, hhandle, rfl⟩⟩
    rwa [length_append, hcod']
  · obtain ⟨hstop, -⟩ | ⟨⟨-, -, hroom⟩, rfl, rfl⟩ | ⟨_, _, _, _, ⟨⟩, -⟩ := hcs
    · -- the client does not close the connection
      simp [hn] at hstop
    have hall : e.frames = s.conn.server.endpoint.frames ++
        (fresh ++ map Prod.fst ([] : List (Frame × List Out))) := by
      rw [hfrs, map_nil, append_nil]
    have hread := h.up.read n
    rw [← append_nil s.handled] at hread
    obtain rfl := hs' _ hall
    simp only [drop_left, map_nil]
    refine ⟨rfl, rfl, rfl, rfl, hcts.2, rfl, hread, fresh, [], hfr, hall,
      congrArg (s.down ++ · (fresh ++ [])) h.up.bytesOf_eq, rfl, rfl, .inl ⟨rfl, rfl, ?_⟩⟩
    rw [length_drop]
    omega

theorem InOrder.serve (hsm : s.Small) (hstep : s.step cipher crc32 (.serve n) = some s') :
    InOrder cipher crc32 salt key s' := by
  have hit := h.iterates hlaw (h.sendable hsm).1 hstep
  obtain ⟨fresh, last, hfr, hfrs, hdown, hds, hhan, hcs⟩ := hit.writes
  have hstr : stream s.handled = (s.conn.server.endpoint.frames ++ fresh).map Frame.out := by
    rw [map_append, hfr, h.stream_eq]
  have hlen : (stream s.handled).length = (s.conn.server.endpoint.frames ++ fresh).length := by
    rw [hstr, length_map]
  have hup := hit.up
  rw [← hit.client_eq] at hup
  refine ⟨hit.client_eq ▸ h.client, hit.server, hit.running, hup, ?_, ?_, ?_, ?_, ?_, ?_, ?_⟩
  · rw [hit.client_eq, hit.buf_eq, hit.returned_eq, hfrs, hdown]
    exact h.down.write h.returned_le _
  · rw [hhan, hit.client_eq, length_append]
    rcases hcs with ⟨rfl, -⟩ | ⟨req, response, ds, rfl, hreq, -⟩
    · exact h.handled_le
    · exact (List.getElem?_eq_some_iff.mp hreq).1
  · intro k hk
    rw [hhan, length_append] at hk
    rw [hhan, hfrs, ← append_assoc, length_append]
    rcases Nat.lt_or_ge k s.handled.length with hlt | hge
    · rw [take_append_of_le_length hlt.le, length_append, add_assoc]
      exact Nat.lt_add_right _ (h.answered k hlt)
    -- the response to the last request has just been written
    rcases hcs with ⟨rfl, -⟩ | ⟨_, _, _, rfl, -⟩
    · exact absurd hk (Nat.not_lt.mpr hge)
    · obtain rfl : k = s.handled.length := le_antisymm (Nat.lt_succ_iff.mp hk) hge
      rw [take_left, hlen]
      exact Nat.lt_succ_self _
  · rw [hit.returned_eq, hfrs, take_append_of_le_length h.returned_le]
    exact h.returned_eq
  · rw [hit.client_eq, hit.returned_eq, hit.waiting_eq]
    exact h.turn
  · rw [hfrs, hds, hhan, ← append_assoc, map_append, ← hstr]
    rcases hcs with ⟨rfl, -⟩ | ⟨_, response, ds, rfl, -⟩
    · simp
    · simp [stream]
  · rw [hhan]
    rcases hcs with ⟨rfl, -⟩ | ⟨_, response, ds, rfl, -⟩
    · rw [append_nil]
      exact h.placed
    · refine h.placed.concat (hit.server.numbered ?_)
      rw [hfrs, hlen, ← append_assoc]
      simp

theorem InOrder.recv (hsm : s.Small) (hstep : s.step cipher crc32 (.recv n) = some s') :
    InOrder cipher crc32 salt key s' := by
  obtain ⟨hwait, r, codec', buf, hdec, hcs⟩ := recv_cases hstep
  have hcts := h.client.decode hdec
  rcases h.down.decode_cases hlaw (codec_key salt key) (h.sendable hsm).2 hdec with
    ⟨frame, rfl, hfrm, hnext⟩ | ⟨rfl, rfl, rfl⟩
  · obtain ⟨result, hres, -, rfl⟩ | ⟨⟨⟩, -⟩ := hcs
    obtain rfl := hres frame rfl
    refine { h with client := hcts, down := ?_, returned_eq := ?_, turn := ?_ }
    · rwa [length_append]
    · rw [length_append, length_singleton, take_add_one, hfrm, map_append, ← h.returned_eq]
      rfl
    · have hturn := h.turn
      rw [hwait] at hturn
      rwa [length_append]
  · obtain ⟨result, -, hcls, rfl⟩ | ⟨-, -, -, rfl⟩ := hcs
    · -- the server has not closed the connection
      cases h.running.symm.trans (hcls rfl)
    · exact { h with client := hcts, down := h.down.read n }

/-- **One step.** Frames stay in order as long as nothing wraps. -/
theorem InOrder.step (hsm : s.Small) (hstep : s.step cipher crc32 op = some s') :
    InOrder cipher crc32 salt key s' := by
  cases op with
  | exchange req => exact h.exchange hstep
  | serve n => exact h.serve hlaw hsm hstep
  | recv n => exact h.recv hlaw hsm hstep
  | others core now =>
    cases hstep
    exact { h with }

end

end Dialogue

end Synapse.Native
