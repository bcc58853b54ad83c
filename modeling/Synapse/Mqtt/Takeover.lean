import Synapse.Mqtt.Frame
import Synapse.Mqtt.Server

/-!
# Taking over a session

A client that lost its connection comes back on a new one and registers the same client id, while
the server still has the old connection. The old one ends later, and what it gives up is found by
the client id alone: if its last CONNECT was for this id, the registration and the subscriptions of
the new connection go with it (`takeover`). They stay only if the old connection has meanwhile
registered another id.

In that case nothing that is done for other ids matters either, for as long as one likes, and the
publishes that match still arrive. This is a run of steps that are all `Foreign` to the client.
-/

namespace Synapse.Mqtt

open Transition Broker Option

/-- The action ends the connection: its peer closes it, its watchdog fires, or it sends a
DISCONNECT. -/
def Label.Ends (conn : ℕ) : Label → Prop
  | .finish n _ .peerClosed | .finish n _ .keepAliveExpired => n = conn
  | .packet n _ (.disconnect _ _) => n = conn
  | _ => False

def Other (c id : String) : Prop := id ≠ c ∧ Plain id

instance (c id : String) : Decidable (Other c id) := inferInstanceAs (Decidable (_ ∧ _))

def Connection.IsOther (c : String) (o : Connection) : Prop := ∀ id ∈ o.clientId, Other c id

instance (c : String) (o : Connection) : Decidable (o.IsOther c) :=
  inferInstanceAs (Decidable (∀ id ∈ o.clientId, Other c id))

/-- The packet is no CONNECT for the client. -/
def Packet.IsOther (c : String) : Packet → Prop
  | .connect k => Other c k.clientId
  | _ => True

instance (c : String) (pkt : Packet) : Decidable (pkt.IsOther c) := by
  cases pkt <;> dsimp only [Packet.IsOther] <;> infer_instance

/-- The action is done for other clients. -/
def Foreign (c : String) (s : Server) : Label → Prop
  | .packet conn _ pkt => (∀ o ∈ s.conns conn, o.IsOther c) ∧ pkt.IsOther c
  | .finish conn _ _ => ∀ o ∈ s.conns conn, o.IsOther c
  | .accept _ | .read _ _ | .write _ => True

instance (c : String) (s : Server) (l : Label) : Decidable (Foreign c s l) := by
  cases l <;> dsimp only [Foreign] <;> infer_instance

/-! ## What a step keeps -/

section Keeps

variable {P : Broker → Prop} {Q : String → Prop} {b : Broker} {o : Connection}
  (hcall : ∀ b call, (∀ id ∈ call.clientId, Q id) → P b → P (b.call call))

include hcall

theorem giveUp_keeps (ho : ∀ id ∈ o.clientId, Q id) (h : P b) : P (giveUp b o) := by
  rw [giveUp]
  cases hid : o.clientId with
  | none => exact h
  | some id => exact hcall b (.disconnect id) (fun _ heq ↦ ho _ (hid.trans heq)) h

variable (hsend : ∀ b conn answer, P b → P (b.send conn answer))

include hsend

/-- Handling a packet answers on the connection's channel and calls the broker, under the ids of the
packet and of the connection. -/
theorem handlePacket_keeps (ho : ∀ id ∈ o.clientId, Q id) (env : Env) (conn : ℕ) {pkt : Packet}
    (hpkt : ∀ k, pkt = .connect k → Q k.clientId) (h : P b) :
    P (handlePacket env b conn o pkt).2.2 := by
  have hpublish b publisher p (h : P b) : P (b.publish env publisher p) :=
    hcall b (.publish env publisher p) (fun _ hid ↦ by cases hid) h
  cases pkt with
  | connect k =>
    have hconn : P (b.connect k.clientId k.cleanSession conn) :=
      hcall b (.connect ..) (fun _ heq ↦ by cases heq; exact hpkt k rfl) h
    have hwill : P (k.will.elim (b.connect k.clientId k.cleanSession conn) fun will ↦
        (b.connect k.clientId k.cleanSession conn).publish env (o.register k).clientId
          will.publish) := by
      cases k.will with
      | none => exact hconn
      | some will => exact hpublish _ _ _ hconn
    rw [handlePacket, handleConnect]
    cases k.protocol with
    | v311 => exact hsend _ _ _ hwill
    | v5 => split_ifs <;> exact hsend _ _ _ hwill
  | publish p =>
    rw [handlePacket, handlePublish]
    dsimp only
    cases acknowledgement (resolveAlias o.aliases p).1 with
    | none => exact hpublish _ _ _ h
    | some answer => exact hsend _ _ _ (hpublish _ _ _ h)
  | subscribe packetId topics properties =>
    rw [handlePacket, handleSubscribe]
    cases hid : o.clientId with
    | none => exact h
    | some id =>
      exact hsend _ _ _ (hcall b (.subscribe env id topics _) (fun _ heq ↦ ho _ (hid.trans heq)) h)
  | unsubscribe packetId topics properties =>
    rw [handlePacket, handleUnsubscribe]
    cases hid : o.clientId with
    | none => exact hsend _ _ _ h
    | some id =>
      exact hsend _ _ _ (hcall b (.unsubscribe id topics) (fun _ heq ↦ ho _ (hid.trans heq)) h)
  | disconnect reason properties => exact giveUp_keeps hcall ho h
  | pubRel | pubRec | pingReq | auth => exact hsend _ _ _ h
  | connAck | pubAck | pubComp | subAck | unsubAck | pingResp => exact h

theorem step_keeps {s s' : Server} {l : Label} (hstep : s.step l = some s')
    (hpkt : ∀ conn env pkt, l = .packet conn env pkt →
      (∀ o ∈ s.conns conn, ∀ id ∈ o.clientId, Q id) ∧ ∀ k, pkt = .connect k → Q k.clientId)
    (hfin : ∀ conn now how, l = .finish conn now how →
      ∀ o ∈ s.conns conn, ∀ id ∈ o.clientId, Q id) (h : P s.broker) : P s'.broker := by
  rcases Server.step_cases hstep with ⟨_, -, -, -, heq, -⟩ | ⟨conn, o, _, ho, -, -, ⟨heq, -⟩ |
    ⟨env, pkt, hl, heq, -⟩ | ⟨now, how, hl, heq, -⟩⟩
  · rwa [heq]
  · rwa [heq]
  · rw [heq]
    exact handlePacket_keeps hcall hsend ((hpkt _ _ _ hl).1 o ho) env conn (hpkt _ _ _ hl).2 h
  · rw [heq]
    exact giveUp_keeps hcall (hfin _ _ _ hl o ho) h

end Keeps

/-! ## Steps for other clients -/

section Foreign

variable {c : String} {b : Broker} {o : Connection}

/-- A step for other clients leaves the client's session alone. -/
theorem kept_step (hc : Plain c) {s s' : Server} {l : Label} (hl : Foreign c s l)
    (h : s.step l = some s') : Broker.Kept c s.broker s'.broker := by
  refine step_keeps (Q := Other c) (fun b _ hcall h ↦ h.trans (kept_call hc hcall b))
    (fun _ _ _ h ↦ h.trans ⟨rfl, fun _ ↦ Iff.rfl⟩) h ?_ ?_ (.refl c _)
  · rintro conn env pkt rfl
    refine ⟨hl.1, ?_⟩
    rintro k rfl
    exact hl.2
  · rintro conn now how rfl
    exact hl

theorem kept_steps (hc : Plain c) {s s' : Server} {ls : List Label}
    (hrun : Steps Server.step (Foreign c) s ls s') : Broker.Kept c s.broker s'.broker :=
  hrun.invariant (fun s' ↦ Broker.Kept c s.broker s'.broker)
    (fun _ _ _ h hl hstep ↦ h.trans (kept_step hc hl hstep)) (.refl c _)

theorem Broker.Untouched.asks {b' : Broker} {topic : String} (h : Untouched c b b')
    (hasks : b.Asks c topic) : b'.Asks c topic := by
  obtain ⟨filter, hsh, hrou⟩ := hasks
  obtain ⟨⟨key, x⟩, hmem, hkey⟩ := List.mem_map.mp hrou
  obtain rfl : key = subKey c filter := hkey
  obtain ⟨hent, hmat⟩ := List.mem_filter.mp hmem
  refine ⟨filter, hsh, List.mem_map.mpr ⟨_, List.mem_filter.mpr ⟨?_, hmat⟩, rfl⟩⟩
  exact (h.route filter x).mpr hent

end Foreign

/-! ## The end of the old connection -/

/-- A connection that ends is closed, and gives up the session of its client id. -/
theorem step_of_ends {s s' : Server} {l : Label} {conn : ℕ} {o : Connection} (hl : l.Ends conn)
    (ho : s.conns conn = some o) (h : s.step l = some s') :
    s'.conns conn = none ∧ s'.broker = giveUp s.broker o := by
  have hfin : ∀ now how, s.step (.finish conn now how) = some s' →
      s'.conns conn = none ∧ s'.broker = how.teardown s.broker o := by
    intro now how h
    rw [Server.step, ho, bind_some] at h
    split_ifs at h
    cases h
    exact ⟨Function.update_self .., rfl⟩
  rw [Label.Ends.eq_def] at hl
  split at hl
  · obtain rfl := hl
    exact hfin _ .peerClosed h
  · obtain rfl := hl
    exact hfin _ .keepAliveExpired h
  · obtain rfl := hl
    rw [Server.step, ho] at h
    cases h
    exact ⟨Function.update_self .., Server.broker_onPacket ..⟩
  · exact hl.elim

/-- **Session takeover.** When a connection ends that a client is not registered with, the
registration stays if and only if the connection's last CONNECT was for another id. Then the
subscriptions stay as well, and publishes that match arrive. -/
theorem takeover {s s' : Server} {l : Label} {old new : ℕ} {o : Connection} {c : String}
    (hold : s.conns old = some o) (hends : l.Ends old) (hstep : s.step l = some s')
    (hnew : (s.broker.clients c).map Client.conn = some new) (hc : Plain c)
    (hplain : ∀ id ∈ o.clientId, Plain id) :
    ((s'.broker.clients c).map Client.conn = some new ↔ o.clientId ≠ some c) ∧
      (o.clientId ≠ some c → Untouched c s.broker s'.broker ∧
        ∀ ls s'', Steps Server.step (Foreign c) s' ls s'' →
          ∀ env publisher p, s.broker.Asks c p.topic → s.broker.Open publisher c →
            ∃ es d, (s''.broker.publish env publisher p).trace = s''.broker.trace ++ es ∧
              .sent new (.publish d) ∈ es ∧ d.topic = p.topic ∧ d.payload = p.payload) := by
  have hbroker := (step_of_ends hends hold hstep).2
  have hkept : o.clientId ≠ some c → Broker.Kept c s.broker s'.broker := by
    intro hne
    rw [hbroker]
    refine giveUp_keeps (fun b _ hcall h ↦ h.trans (kept_call hc hcall b))
      (fun id hid ↦ ⟨?_, hplain id hid⟩) (.refl c _)
    rintro rfl
    exact hne hid
  refine ⟨⟨fun hconn heq ↦ ?_, fun hne ↦ (hkept hne).untouched.conn.trans hnew⟩,
    fun hne ↦ ⟨(hkept hne).untouched, ?_⟩⟩
  · -- the old connection still has the id, and `disconnect` removes whatever is registered for it
    rw [hbroker, giveUp, heq] at hconn
    have hgone := s.broker.clients_dropSession c
    change ((s.broker.dropSession c).clients c).map Client.conn = some new at hconn
    rw [hgone] at hconn
    cases hconn
  · intro ls s'' hlater env publisher p hasks hopen
    have hsame := ((hkept hne).trans (kept_steps hc hlater)).untouched
    exact publish_reaches hc (hsame.conn.trans hnew) (hsame.asks hasks)
      ((hsame.open_iff publisher).mpr hopen)

/-- Connection 0 registers the ids given, and then connection 1 registers `c` and subscribes to the
topic `t`. -/
def takeoverRun (ids : List String) : List Label :=
  let env : Env := ⟨0, .inOrder⟩
  .accept 0 :: ids.map (fun id ↦ .packet 0 env (.connectAs id)) ++
    [.accept 0, .packet 1 env (.connectAs "c"), .packet 1 env (.subscribeTo "t")]

/-- The old connection has registered another id in the meantime. -/
theorem takeover_other_id :
    ∃ s s', Steps Server.step Server.Any (.start .fresh) (takeoverRun ["c", "d"]) s ∧
      s.step (.finish 0 0 .peerClosed) = some s' ∧ Untouched "c" s.broker s'.broker ∧
      ∀ env p, p.topic = "t" → ∃ es d,
        (s'.broker.publish env none p).trace = s'.broker.trace ++ es ∧
          .sent 1 (.publish d) ∈ es ∧ d.topic = p.topic ∧ d.payload = p.payload := by
  obtain ⟨s, hrun, o, ho, hid, hnew, s', hs', hroute⟩ :
      ∃ s, Steps Server.step Server.Any (.start .fresh) (takeoverRun ["c", "d"]) s ∧
        ∃ o, s.conns 0 = some o ∧ o.clientId = some "d" ∧
          (s.broker.clients "c").map Client.conn = some 1 ∧
          ∃ s', s.step (.finish 0 0 .peerClosed) = some s' ∧
            s.broker.router.route "t" = [subKey "c" "t"] :=
    exists_steps_of_isSome (by decide +kernel) fun _ ↦ ⟨_, (some_get (by decide +kernel)).symm,
      by decide +kernel, by decide +kernel, _, (some_get (by decide +kernel)).symm,
      by decide +kernel⟩
  obtain ⟨hsame, hlater⟩ := (takeover ho (l := .finish 0 0 .peerClosed) rfl hs' hnew (by decide)
    (fun id h ↦ by rw [hid] at h; cases h; decide)).2 (by rw [hid]; decide)
  refine ⟨s, s', hrun, hs', hsame, fun env p hp ↦ hlater [] s' (.nil s') env none p ?_ ?_⟩
  · exact ⟨"t", by decide +kernel, by rw [hp, hroute]; exact List.mem_singleton_self _⟩
  · exact .inl (by simp)

/-- The connection `c` is registered with, the subscriptions there are, and the number of messages
put on the channel of connection 1. -/
def Server.session (s : Server) : Option ℕ × List String × ℕ :=
  ((s.broker.clients "c").map Client.conn, s.broker.subState.keys,
    (s.channel 1).countP Packet.isMessage)

/-- An end of connection 0, and then a publish to `t` by another client. -/
def endRun (last : Label) : List Label :=
  [last, .accept 0, .packet 2 ⟨0, .inOrder⟩ (.connectAs "p"),
    .packet 2 ⟨0, .inOrder⟩ (.publish ⟨false, .atMostOnce, false, "t", none, [1], none⟩)]

/-- The session that connection 1 has taken over is gone after the end of connection 0, and the
publish does not arrive. -/
def Lost (last : Label) : Prop :=
  last.Ends 0 ∧ ∃ s s', Steps Server.step Server.Any (.start .fresh) (takeoverRun ["c"]) s ∧
    s.session = (some 1, [subKey "c" "t"], 0) ∧
    Steps Server.step Server.Any s (endRun last) s' ∧ s'.session = (none, [], 0)

/-- The three ends of a connection that still has the client id. -/
theorem takeover_lost : Lost (.finish 0 0 .peerClosed) ∧ Lost (.finish 0 1500 .keepAliveExpired) ∧
      Lost (.packet 0 ⟨0, .inOrder⟩ (.disconnect .success none)) := by
  refine ⟨⟨rfl, ?_⟩, ⟨rfl, ?_⟩, ⟨rfl, ?_⟩⟩
  all_goals exact ⟨_, _, steps_exec (by decide +kernel), by decide +kernel,
    steps_exec (by decide +kernel), by decide +kernel⟩

end Synapse.Mqtt
