import Mathlib.Data.Prod.Lex
import Synapse.Native.Client
import Synapse.Native.Dialogue

/-!
# Which frame an exchange returns

`Delivers` says which requests have deliveries: the publishes to a topic that the same client has
subscribed to. With the frames in order, `exchange_answered_iff` follows.
-/

namespace Synapse.Native.Dialogue

open ByteCode Transition Option
open List hiding Vector

variable {cipher : Cipher} {crc32 : Bytes → UInt32} {salt : Vector UInt8 4} {key : SessionKey}
  {s s' : Dialogue} {req : Out} {op : DialogueOp} {past : List Out} {frame : Frame}

/-! ## What the client's own requests bring about -/

/-- The name in a pub/sub request with this action. -/
def named (action : UInt8) (req : Out) : Option String :=
  if req.1 = .pubSub ∧ req.2[0]? = some action then (takeStr req.2 1).map Prod.fst else none

def subscription (req : Out) : Option String := named 1 req

def publication (req : Out) : Option String := named 0 req

/-- A subscription receives a topic if the router finds it and its filter, looked at once more,
matches. -/
def Receives (filter topic : String) : Prop :=
  (compile filter slash).matchesLevels (splitLevels (asBytes topic) slash) = true ∧
    topicMatches filter topic = true

/-- A request publishes to a topic that an earlier one of the same client has subscribed to. -/
def Echoes (past : List Out) (req : Out) : Prop :=
  ∃ topic ∈ publication req, ∃ earlier ∈ past, ∃ filter ∈ subscription earlier,
    Receives filter topic

/-- The router holds what the requests have subscribed to. -/
structure Subscribed (past : List Out) (b : NativeBroker) : Prop where
  connId_eq : b.connId = 1
  mem_iff : ∀ id c, (id, c) ∈ b.router.subs ↔ ∃ earlier ∈ past, ∃ filter ∈ subscription earlier,
    id = b.subId filter ∧ c = compile filter slash

namespace Subscribed

variable {past : List Out} {b b' : NativeBroker}

variable (h : Subscribed past b)

include h

theorem nul_not_mem : NativeBroker.nul ∉ (toString b.connId).toList := by
  rw [h.connId_eq]
  decide

theorem hit_subId (topic filter : String) :
    NativeBroker.hit topic (b.subId filter) = topicMatches filter topic := by
  rw [NativeBroker.hit, NativeBroker.subId, Text.splitOnce_join h.nul_not_mem]

/-- A publish makes a delivery if and only if a subscription receives it. -/
theorem deliveriesTo_eq_nil_iff (topic : String) (payload : Bytes) :
    b.deliveriesTo topic payload = [] ↔
      ∀ earlier ∈ past, ∀ filter ∈ subscription earlier, ¬Receives filter topic := by
  rw [NativeBroker.deliveriesTo, map_eq_nil_iff, filter_eq_nil_iff]
  constructor
  · intro hnone earlier hear filter hfil hreceives
    have hmem : (b.subId filter, compile filter slash) ∈ b.router.subs :=
      (h.mem_iff _ _).mpr ⟨earlier, hear, filter, hfil, rfl, rfl⟩
    refine hnone (b.subId filter) ?_ ?_
    · exact mem_map.mpr ⟨_, mem_filter.mpr ⟨hmem, hreceives.1⟩, rfl⟩
    · rw [h.hit_subId]
      exact hreceives.2
  · intro hnone id hid hhit
    obtain ⟨⟨id, c⟩, hmem, rfl⟩ := mem_map.mp hid
    obtain ⟨hmem, hmat⟩ := mem_filter.mp hmem
    obtain ⟨earlier, hear, filter, hfil, rfl, rfl⟩ := (h.mem_iff id c).mp hmem
    rw [h.hit_subId] at hhit
    exact hnone earlier hear filter hfil ⟨hmat, hhit⟩

theorem skip (hreq : subscription req = none)
    (hrtr : b'.router = b.router) (hconn : b'.connId = b.connId) :
    Subscribed (past ++ [req]) b' := by
  have hsubId : b'.subId = b.subId := by
    funext filter
    rw [NativeBroker.subId, NativeBroker.subId, hconn]
  refine ⟨hconn.trans h.connId_eq, fun id c ↦ ?_⟩
  rw [hrtr, hsubId, h.mem_iff]
  simp [hreq]

theorem subscribe {filter : String} (hreq : subscription req = some filter) :
    Subscribed (past ++ [req]) { b with router := b.router.subscribe (b.subId filter) filter } := by
  refine ⟨h.connId_eq, fun id c ↦ ?_⟩
  change (id, c) ∈ (b.router.subscribe (b.subId filter) filter).subs ↔
    ∃ earlier ∈ past ++ [req], ∃ f ∈ subscription earlier, id = b.subId f ∧ c = compile f slash
  rw [TopicRouter.mem_subscribe]
  by_cases hid : id = b.subId filter
  · rw [if_pos hid]
    constructor
    · rintro rfl
      exact ⟨req, by simp, filter, hreq, hid, rfl⟩
    · rintro ⟨earlier, -, f, -, hf, rfl⟩
      rw [(Text.join_inj h.nul_not_mem h.nul_not_mem (hid.symm.trans hf)).2]
  · rw [if_neg hid, h.mem_iff]
    constructor
    · rintro ⟨earlier, hear, rest⟩
      exact ⟨earlier, mem_append_left _ hear, rest⟩
    rintro ⟨earlier, hear, f, hf, hid', hc⟩
    rcases mem_append.mp hear with hpast | hnew
    · exact ⟨earlier, hpast, f, hf, hid', hc⟩
    · obtain rfl := mem_singleton.mp hnew
      obtain rfl : filter = f := some.inj (hreq.symm.trans hf)
      exact absurd hid' hid

end Subscribed

theorem named_eq_none {action : UInt8} (h : req.1 ≠ .pubSub) : named action req = none :=
  if_neg fun hreq ↦ h hreq.1

theorem not_echoes (h : publication req = none) : ¬Echoes past req := by
  rintro ⟨topic, htop, -⟩
  rw [h] at htop
  cases htop

/-- Handling a request enters what it subscribes to, and makes deliveries if and only if it echoes
an earlier subscription. -/
theorem Subscribed.handle {w w' : World} {responses ds : List Out}
    (h : Subscribed past (w.brokers 0))
    (hhandle : Native.handle World.prims 0 w frame = some (responses, ds, w')) :
    Subscribed (past ++ [frame.out]) (w'.brokers 0) ∧ (ds = [] ↔ ¬Echoes past frame.out) := by
  by_cases hop : frame.opcode = .pubSub
  · rw [Native.handle, hop] at hhandle
    obtain ⟨⟨out, ds', b⟩, hps, heq⟩ := map_eq_some_iff.mp hhandle
    cases heq
    rw [World.brokers_setBroker]
    obtain ⟨action, haction, hps⟩ := bind_eq_some_iff.mp hps
    obtain ⟨⟨topic, rest⟩, htop, hps⟩ := bind_eq_some_iff.mp hps
    have hnam (a : UInt8) : named a frame.out = if action = a then some topic else none := by
      simp [named, Frame.out, hop, haction, htop]
    have hsub : subscription frame.out = if action = 1 then some topic else none := hnam 1
    have hpub : publication frame.out = if action = 0 then some topic else none := hnam 0
    split_ifs at hps with hzero hone <;> cases hps
    · -- a publish
      rw [if_neg (by rw [hzero]; decide)] at hsub
      rw [if_pos hzero] at hpub
      refine ⟨h.skip hsub rfl rfl, ?_⟩
      rw [h.deliveriesTo_eq_nil_iff, Echoes, hpub]
      simp
    · -- a subscribe
      rw [if_pos hone] at hsub
      rw [if_neg hzero] at hpub
      exact ⟨h.subscribe hsub, iff_of_true rfl (not_echoes hpub)⟩
    · rw [if_neg hone] at hsub
      rw [if_neg hzero] at hpub
      exact ⟨h.skip hsub rfl rfl, iff_of_true rfl (not_echoes hpub)⟩
  · have hsub : subscription frame.out = none := named_eq_none hop
    have hpub : publication frame.out = none := named_eq_none hop
    obtain ⟨rfl, hrtr, hconn⟩ := (World.handle_cases hhandle).2 hop
    exact ⟨h.skip hsub hrtr hconn, iff_of_true rfl (not_echoes hpub)⟩

/-- The broker holds the client's subscriptions, and has made deliveries for the requests that echo
one of them. -/
structure Delivers (s : Dialogue) : Prop where
  subscribed : Subscribed (s.requests.take s.handled.length) (s.world.brokers 0)
  delivers : ∀ k p, s.handled[k]? = some p → ∀ req, s.requests[k]? = some req →
    (p.2 = [] ↔ ¬Echoes (s.requests.take k) req)

theorem requests_eq (s : Dialogue) : s.requests = s.conn.client.frames.map Frame.out := by
  rw [Endpoint.frames, List.map_map]
  rfl

theorem Delivers.more (h : s.Delivers) (hworld : s'.world.brokers = s.world.brokers)
    (hhan : s'.handled = s.handled) (hle : s.handled.length ≤ s.requests.length)
    (more : List Out) (hreqs : s'.requests = s.requests ++ more) : s'.Delivers := by
  have htake {k : ℕ} (hk : k ≤ s.handled.length) : s'.requests.take k = s.requests.take k := by
    rw [hreqs, take_append_of_le_length (hk.trans hle)]
  refine ⟨?_, fun k p hp req hreq ↦ ?_⟩
  · rw [hhan, htake le_rfl, hworld]
    exact h.subscribed
  rw [hhan] at hp
  have hk := (List.getElem?_eq_some_iff.mp hp).1
  rw [htake hk.le]
  rw [hreqs, List.getElem?_append_left (hk.trans_le hle)] at hreq
  exact h.delivers k p hp req hreq

theorem Delivers.step (hlaw : cipher.Lawful) (hord : InOrder cipher crc32 salt key s)
    (hsm : s.Small) (h : s.Delivers) (hstep : s.step cipher crc32 op = some s') :
    s'.Delivers := by
  have hle : s.handled.length ≤ s.requests.length := by
    rw [requests_eq, length_map]
    exact hord.handled_le
  cases op with
  | exchange req =>
    obtain ⟨-, bytes, client, hsend, rfl⟩ := exchange_eq_some hstep
    obtain ⟨frame, -, hfrs, -⟩ := Endpoint.send_eq_some hsend
    refine h.more rfl rfl hle [frame.out] ?_
    rw [requests_eq, requests_eq]
    exact (congrArg (List.map Frame.out) hfrs).trans map_append
  | serve n =>
    have hit := hord.iterates hlaw (hord.sendable hsm).1 hstep
    have hreqs : s'.requests = s.requests := by rw [requests_eq, requests_eq, hit.client_eq]
    obtain ⟨fresh, last, -, -, -, -, hhan, ⟨rfl, hworld, -⟩ |
      ⟨req, response, ds, rfl, hreq, hhandle, -⟩⟩ := hit.writes
    · rw [append_nil] at hhan
      exact h.more (by rw [hworld]) hhan hle [] (hreqs.trans (append_nil _).symm)
    have hout : s.requests[s.handled.length]? = some req.out := by
      rw [requests_eq, List.getElem?_map, hreq, map_some]
    obtain ⟨hsub, hds⟩ := h.subscribed.handle hhandle
    refine ⟨?_, fun k p hp out hk ↦ ?_⟩
    · rwa [hreqs, hhan, length_append, length_singleton, take_add_one, hout]
    rw [hreqs] at hk ⊢
    rw [hhan, List.getElem?_append] at hp
    split_ifs at hp with hlt
    · exact h.delivers k p hp out hk
    rw [List.getElem?_singleton] at hp
    split_ifs at hp with hzero
    obtain rfl : k = s.handled.length := by omega
    cases hp
    cases hout.symm.trans hk
    exact hds
  | recv n =>
    obtain ⟨hfrs, -, hworld, hhan, -⟩ := recv_frame hstep
    refine h.more (by rw [hworld]) hhan hle [] ?_
    rw [requests_eq, requests_eq, hfrs, append_nil]
  | others core now =>
    cases hstep
    exact h.more rfl rfl hle [] (append_nil _).symm

/-! ## Which frame an exchange returns -/

theorem length_le_stream (handled : List (Frame × List Out)) :
    handled.length ≤ (stream handled).length := by
  induction handled with
  | nil => exact Nat.le_refl 0
  | cons p rest ih =>
    rw [stream, flatMap_cons, length_append, length_cons, length_cons]
    rw [stream] at ih
    omega

/-- The next request makes the broker panic. -/
def Panics (s : Dialogue) : Prop :=
  ∃ req, s.conn.client.frames[s.handled.length]? = some req ∧
    handle World.prims 0 s.world req = none

/-- The bytes still to be handled by the server, those on the wire twice, and those the client has
not read. -/
def todo (s : Dialogue) : ℕ ×ₗ ℕ :=
  toLex (2 * s.conn.wire.length + s.conn.server.buf.length, s.down.length)

section

variable (h : InOrder cipher crc32 salt key s) (hlaw : cipher.Lawful)

include h hlaw

/-- The server can go on with the next request, if it does not panic. -/
theorem InOrder.exists_serve (hsend : Sendable s.conn.client.frames) {req : Frame}
    (hreq : s.conn.client.frames[s.handled.length]? = some req)
    (hhandle : handle World.prims 0 s.world req ≠ none) :
    ∃ r, s.conn.serve cipher crc32 World.prims 0 s.world 1 = some r := by
  obtain ⟨e₁, hdrn⟩ := Endpoint.exists_sendAll _ _ h.server.key_eq s.conn.server.deliveries
  have hcod := (Endpoint.sendAll_eq_some hdrn).1
  rw [Connection.serve, if_neg (by simp [h.running]), hdrn]
  rcases h.up.decode_next hlaw (codec_key salt key) hsend hreq with
    ⟨codec', buf', hdec, hnext⟩ | ⟨hdec, hne⟩
  · obtain ⟨⟨responses, ds, world⟩, hhandle⟩ := ne_none_iff_exists'.mp hhandle
    obtain ⟨last, hbase⟩ := hnext.codec_eq
    obtain ⟨e₂, hrsp⟩ := Endpoint.exists_sendAll (e := { e₁ with codec := codec' }) cipher crc32
      (by rw [hbase]; exact codec_key salt key) responses
    rw [← hcod] at hdec
    simp [hdec, hhandle, hrsp]
  · have hpos : 1 ≤ s.conn.wire.length := length_pos_iff.mpr hne
    rw [← hcod] at hdec
    simp [hdec, hpos]

/-- While the client waits there is something to do. -/
theorem InOrder.exists_step (hsm : s.Small) (hwait : s.waiting = true) (hpanics : ¬s.Panics) :
    ∃ op s', op.IsInternal ∧ s.step cipher crc32 op = some s' := by
  obtain ⟨hup, hdown⟩ := h.sendable hsm
  cases hfrm : s.conn.server.endpoint.frames[s.returned.length]? with
  | some frame =>
    -- the client has not taken everything that was sent
    rcases h.down.decode_next hlaw (codec_key salt key) hdown hfrm with
      ⟨codec', buf', hdec, -⟩ | ⟨hdec, hne⟩
    · refine ⟨.recv 0, ?_⟩
      simp [DialogueOp.IsInternal, Dialogue.step, hwait, hdec]
    · have hpos : 1 ≤ s.down.length := length_pos_iff.mpr hne
      refine ⟨.recv 1, ?_⟩
      simp [DialogueOp.IsInternal, Dialogue.step, hwait, hdec, hpos]
  | none =>
    -- the server has not handled everything that was asked
    have hlt : s.handled.length < s.conn.client.frames.length := by
      have hle := List.getElem?_eq_none_iff.mp hfrm
      have hans : s.handled.length ≤ s.conn.server.endpoint.frames.length := by
        by_contra hgt
        have hlast := h.answered (s.handled.length - 1) (by omega)
        have hstr := length_le_stream (s.handled.take (s.handled.length - 1))
        rw [length_take] at hstr
        omega
      have hturn := h.turn
      rw [hwait, Bool.toNat_true] at hturn
      omega
    obtain ⟨req, hreq⟩ : ∃ req, s.conn.client.frames[s.handled.length]? = some req :=
      ⟨_, getElem?_eq_getElem hlt⟩
    obtain ⟨⟨conn, world⟩, hsv⟩ := h.exists_serve hlaw hup hreq fun hnone ↦
      hpanics ⟨req, hreq, hnone⟩
    refine ⟨.serve 1, ?_⟩
    simp [DialogueOp.IsInternal, Dialogue.step, hsv]

end

end Synapse.Native.Dialogue
