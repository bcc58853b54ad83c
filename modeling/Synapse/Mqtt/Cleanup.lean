import Synapse.Lib.Chronicle
import Synapse.Mqtt.Tables
import Synapse.Mqtt.Takeover

/-!
# What a connection leaves behind

A CONNECT registers its client id with the broker, and the code remembers the id of the last CONNECT
of a connection. When the peer closes, when the watchdog fires and on a DISCONNECT, the session of
that id is given up. If the connection has registered no other id, nothing of it is left then
(`cleanup`).

The other ways out of the function do not give up anything: a malformed packet and an I/O error
leave it through `?`, an AUTH packet and a refused authentication method by closing. And a second
CONNECT under another id makes the code forget the first one (`left_behind`).
-/

namespace Synapse.Mqtt

open Transition Broker Function Option

def Packet.connectId : Packet → Option String
  | .connect k => some k.clientId
  | _ => none

def Label.connectId : Label → Option String
  | .packet _ _ pkt => pkt.connectId
  | _ => none

def PlainIds (_ : Server) (l : Label) : Prop := ∀ id ∈ l.connectId, Plain id

instance (s : Server) (l : Label) : Decidable (PlainIds s l) :=
  inferInstanceAs (Decidable (∀ id ∈ l.connectId, Plain id))

/-- The ids that were registered through a connection, oldest first. -/
def Server.registered (s : Server) (conn : ℕ) : List String :=
  s.history.filterMap fun h ↦ if h.conn = conn then h.packet.connectId else none

/-! ## The id a connection remembers -/

theorem clientId_handlePacket (env : Env) (b : Broker) (conn : ℕ) (o : Connection) (pkt : Packet) :
    (handlePacket env b conn o pkt).2.1.clientId = pkt.connectId.or o.clientId := by
  cases pkt with
  | connect k =>
    rw [handlePacket, handleConnect, Packet.connectId, some_or]
    cases k.protocol with
    | v311 => rfl
    | v5 =>
      split_ifs <;> rfl
  | _ => rfl

/-- A connection remembers the last id it has registered. -/
def Remembers : Server → Prop :=
  Server.Knows fun hs o ↦ o.clientId = (hs.filterMap (·.packet.connectId)).getLast?

theorem Remembers.step {s s' : Server} {l : Label} (hs : Remembers s) (h : s.step l = some s') :
    Remembers s' := by
  refine Server.Knows.step hs h (fun _ ↦ rfl) (fun _ _ _ hid _ hlast ↦ hid.trans hlast) ?_
  intro conn env pkt _ hs b o events hlast
  rw [clientId_handlePacket, hlast, Chronicle.getLast?_filterMap_concat]

theorem registered_eq (s : Server) (conn : ℕ) :
    s.registered conn = (s.handled conn).filterMap (·.packet.connectId) := by
  rw [Server.registered, Server.handled, List.filterMap_filter]
  simp

/-! ## The tables in a run of the server -/

section Tables

variable {b : Broker} {o : Connection}

/-- The tables agree, and no connection has an id with U+0000. -/
structure InOrder (s : Server) : Prop where
  tables : s.broker.Tables
  plain : s.Knows fun _ o ↦ ∀ id ∈ o.clientId, Plain id

theorem InOrder.step {s s' : Server} {l : Label} (hs : InOrder s) (hl : PlainIds s l)
    (h : s.step l = some s') : InOrder s' := by
  constructor
  · refine step_keeps (Q := Plain) (fun _ _ hcall h ↦ h.call hcall)
      (fun _ _ _ h ↦ h.congr rfl rfl rfl) h ?_ (fun n _ _ _ ↦ hs.plain.holds n) hs.tables
    rintro n env pkt rfl
    refine ⟨hs.plain.holds n, ?_⟩
    rintro k rfl
    exact hl _ rfl
  · refine hs.plain.step h (fun _ _ hid ↦ nomatch hid) (fun _ _ _ heq _ hold ↦ heq ▸ hold) ?_
    rintro conn env pkt rfl _ b o _ hold id hid
    rw [clientId_handlePacket] at hid
    rcases or_eq_some_iff.mp hid with hnew | ⟨-, hid⟩
    · exact hl id hnew
    · exact hold id hid

end Tables

/-! ## After the end -/

/-- The broker has nothing under the client id. -/
structure Gone (c : String) (b : Broker) : Prop where
  client : b.clients c = none
  state : ∀ f, subKey c f ∉ b.subState
  route : ∀ f x, (subKey c f, x) ∉ b.router.subs
  member : ∀ name, ¬b.Member name c

variable {c : String} {b : Broker}

theorem gone_dropSession (h : b.Tables) (hc : Plain c) : Gone c (b.dropSession c) := by
  have htabs := h.dropSession hc
  refine ⟨b.clients_dropSession c, not_mem_dropSession b c, fun f x hmem ↦ ?_, fun name hmem ↦ ?_⟩
  · exact not_mem_dropSession b c f ((htabs.mem_router _).mp (List.mem_map.mpr ⟨_, hmem, rfl⟩))
  · exact not_mem_dropSession b c _ ((htabs.member name c).mp (member_iff.mp hmem)).2.2

theorem Gone.of_untouched {b' : Broker} (h : Gone c b) (hsame : Untouched c b b') : Gone c b' where
  client := by
    have hconn := hsame.conn
    rwa [h.client, map_none, map_eq_none_iff] at hconn
  state f := by
    rw [← AList.lookup_isSome, hsame.state, AList.lookup_isSome]
    exact h.state f
  route f x := mt (hsame.route f x).mp (h.route f x)
  member name := mt (hsame.member name).mp (h.member name)

/-- **Cleanup.** In a run without U+0000 in client ids, a connection that has registered one id only
ends by its peer closing it, by its watchdog or by a DISCONNECT. Then the broker has nothing under
that id, for as long as nothing is done under it. -/
theorem cleanup {core : SynapseCore} {b : Broker} (hnew : Broker.new core = some b)
    {ls : List Label} {s s' : Server} (hrun : Steps Server.step PlainIds (.start b) ls s)
    {conn : ℕ} {o : Connection} (ho : s.conns conn = some o) {l : Label} (hends : l.Ends conn)
    (hstep : s.step l = some s') {c : String} (hc : c ∈ s.registered conn)
    (hone : ∀ id ∈ s.registered conn, id = c) :
    s'.conns conn = none ∧ Gone c s'.broker ∧
      ∀ ls' s'', Steps Server.step (Foreign c) s' ls' s'' → Gone c s''.broker := by
  have hremembers : Remembers s :=
    hrun.invariant Remembers (fun _ _ _ hs _ h ↦ hs.step h) (Server.knows_start b)
  have hinorder : InOrder s := hrun.invariant InOrder (fun _ _ _ hs hl h ↦ hs.step hl h)
    ⟨tables_new hnew, Server.knows_start b⟩
  have hid : o.clientId = some c := by
    rw [hremembers.holds conn o ho, ← registered_eq]
    obtain ⟨id, hlast⟩ := ne_none_iff_exists'.mp
      (mt List.getLast?_eq_none_iff.mp (List.ne_nil_of_mem hc))
    rw [hlast, hone id (List.mem_of_getLast? hlast)]
  have hplain := hinorder.plain.holds conn o ho c hid
  obtain ⟨hclosed, hbroker⟩ := step_of_ends hends ho hstep
  have hgone : Gone c s'.broker := by
    rw [hbroker, giveUp, hid]
    exact gone_dropSession hinorder.tables hplain
  exact ⟨hclosed, hgone,
    fun ls' s'' hlater ↦ hgone.of_untouched (kept_steps hplain hlater).untouched⟩

/-- Connection 0 registers `c` and subscribes to `t`, and then goes on as given. -/
def sessionRun (rest : List Label) : List Label :=
  let env : Env := ⟨0, .inOrder⟩
  [.accept 0, .packet 0 env (.connectAs "c"), .packet 0 env (.subscribeTo "t")] ++ rest

theorem cleanup_peerClosed : ∃ s s', Steps Server.step PlainIds (.start .fresh) (sessionRun []) s ∧
      s.step (.finish 0 0 .peerClosed) = some s' ∧ s'.conns 0 = none ∧ Gone "c" s'.broker := by
  have hrun : Steps Server.step PlainIds (.start .fresh) (sessionRun []) _ :=
    steps_exec (by decide +kernel)
  obtain ⟨hclosed, hgone, -⟩ := cleanup new_fresh hrun (some_get (by decide +kernel)).symm
    (l := .finish 0 0 .peerClosed) rfl (some_get (by decide +kernel)).symm (c := "c")
    (by decide +kernel) (by decide +kernel)
  exact ⟨_, _, hrun, (some_get _).symm, hclosed, hgone⟩

/-- Connection 0 has ended, and its client and the subscription are still there. -/
def LeftBehind (rest : List Label) : Prop :=
  ∃ s, Steps Server.step PlainIds (.start .fresh) (sessionRun rest) s ∧
    (s.conns 0).isNone ∧ "c" ∈ s.registered 0 ∧
    (s.broker.clients "c").map Client.conn = some 0 ∧ s.broker.subState.keys = [subKey "c" "t"]

/-- A malformed packet, an I/O error, an AUTH packet, a CONNECT with an authentication method, and a
CONNECT under another id before the peer closes. -/
theorem left_behind : let env : Env := ⟨0, .inOrder⟩
    let method : Properties := { Properties.default with authenticationMethod := some "m" }
    let refused : Connect := ⟨.v5, "c", 1, false, none, none, none, some method⟩
    LeftBehind [.finish 0 0 .malformed] ∧ LeftBehind [.finish 0 0 .ioError] ∧
      LeftBehind [.packet 0 env (.auth .success none)] ∧
      LeftBehind [.packet 0 env (.connect refused)] ∧
      LeftBehind [.packet 0 env (.connectAs "d"), .finish 0 0 .peerClosed] := by
  refine ⟨?_, ?_, ?_, ?_, ?_⟩
  all_goals
    refine exists_steps_of_isSome (by decide +kernel) fun _ ↦ ?_
    decide +kernel

end Synapse.Mqtt
