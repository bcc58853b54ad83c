import Synapse.Mqtt.Decode
import Synapse.Mqtt.Retained

/-!
# Clients do not touch each other's subscriptions

What the broker keeps for one client is its `view`: the connection it is registered with, the
options of its subscriptions, and its entries of the router in their order. A call under another id
leaves the view as it is, and a call under the client's own id changes it in a way that depends on
nothing but the view. So the calls under one id can be left out of a run, and no other client
notices: it has the same subscriptions, and gets the same messages through those of them that are
not shared (`noninterference`).

All of this needs ids without U+0000. The decoder admits the character, and then the keys of two
clients can coincide (`interference`).
-/

namespace Synapse

open List Function Option

namespace Mqtt.Broker

namespace View

def add (v : View) (c : String) (subId : Option UInt32) (t : SubscribeTopic) : View :=
  { v with
    state := Function.update v.state t.filter
      (some ⟨QoS.ofU8 (granted t), t.noLocal, t.retainAsPublished, subId⟩)
    subs := TopicRouter.subscribed v.subs (subKey c t.filter) (realFilter t.filter) }

def remove (v : View) (c f : String) : View :=
  { v with
    state := Function.update v.state f none
    subs := v.subs.filter fun entry ↦ entry.1 ≠ subKey c f }

end View

variable {b b' : Broker} {a c f : String} {call : BrokerCall}

theorem subKey_filter_inj (c : String) {g : String} : subKey c f = subKey c g ↔ f = g := by
  constructor
  · intro h
    have hlist := congrArg String.toList h
    rw [subKey, subKey, Text.toList_join, Text.toList_join] at hlist
    exact String.toList_inj.mp (cons_inj_right _ |>.mp (append_cancel_left hlist))
  · rintro rfl
    rfl

theorem view_addKey (c : String) (b : Broker) (subId : Option UInt32) (t : SubscribeTopic) :
    (b.addKey c subId t).view c = (b.view c).add c subId t := by
  refine View.ext_of ?_ (fun f ↦ ?_) ?_
  · obtain ⟨shared, heq⟩ := b.addKey_eq c subId t
    rw [heq]
    rfl
  · rw [view, subState_addKey, View.add]
    dsimp only
    by_cases hf : f = t.filter
    · rw [hf, update_self, AList.lookup_insert]
    · rw [update_of_ne hf, AList.lookup_insert_ne (mt (subKey_filter_inj c).mp hf)]
      rfl
  · rw [view, router_addKey]
    refine (TopicRouter.filter_subscribed (ownKey c) _ _ _).trans ?_
    rw [if_pos (ownKey_iff.mpr ⟨_, rfl⟩)]
    rfl

theorem view_subscribeTopic (c : String) (subId : Option UInt32)
    (found : List (String × Bytes × QoS)) (b : Broker) (t : SubscribeTopic) :
    (subscribeTopic c subId found b t).view c = (b.view c).add c subId t :=
  ((sends_subscribeTopic ..).kept c).view.trans (view_addKey ..)

theorem view_unsubscribeFilter (b : Broker) (c f : String) :
    (unsubscribeFilter c b f).view c = (b.view c).remove c f := by
  refine View.ext_of ?_ (fun g ↦ ?_) ?_
  · obtain ⟨shared, heq⟩ := b.removeKey_eq c (subKey c f) (parseShared f)
    rw [unsubscribeFilter, heq]
    rfl
  · rw [view, unsubscribeFilter, subState_removeKey, View.remove]
    dsimp only
    by_cases hg : g = f
    · rw [hg, update_self, AList.lookup_erase]
    · rw [update_of_ne hg, AList.lookup_erase_ne (mt (subKey_filter_inj c).mp hg)]
      rfl
  · rw [view, unsubscribeFilter, router_removeKey]
    exact filter_comm ..

/-- A dropped session is gone as a whole. -/
theorem view_dropSession (h : b.Tables) (hc : Plain c) :
    (b.dropSession c).view c = ⟨none, fun _ ↦ none, []⟩ := by
  refine View.ext_of ?_ (fun f ↦ AList.lookup_eq_none.mpr (not_mem_dropSession b c f)) ?_
  · rw [view, clients_dropSession]
    rfl
  refine filter_eq_nil_iff.mpr fun entry hent hown ↦ ?_
  obtain ⟨f, hf⟩ := ownKey_iff.mp hown
  have hkey := ((h.dropSession hc).mem_router entry.1).mp (mem_map_of_mem hent)
  rw [hf] at hkey
  exact not_mem_dropSession b c f hkey

theorem view_connect (h : b.Tables) (hc : Plain c) (clean : Bool) (conn : ℕ) :
    (b.connect c clean conn).view c =
      if clean then ⟨some conn, fun _ ↦ none, []⟩ else { b.view c with conn := some conn } := by
  have hreg : ∀ b : Broker, view { b with clients := update b.clients c (some ⟨conn, 1⟩) } c =
        { b.view c with conn := some conn } := by
    intro b
    refine View.ext_of ?_ (fun _ ↦ rfl) rfl
    exact congrArg (Option.map Client.conn) (update_self c (some ⟨conn, 1⟩) b.clients)
  rw [connect]
  refine (hreg _).trans ?_
  cases clean with
  | true =>
    rw [if_pos rfl, if_pos rfl, view_dropSession h hc]
  | false => rfl

theorem view_foldl_congr {α : Type} {act act' : Broker → α → Broker} (change : View → α → View)
    (hact : ∀ b x, (act b x).view c = change (b.view c) x)
    (hact' : ∀ b x, (act' b x).view c = change (b.view c) x) (xs : List α)
    (hview : b.view c = b'.view c) : (xs.foldl act b).view c = (xs.foldl act' b').view c := by
  induction xs generalizing b b' with
  | nil => exact hview
  | cons x xs ih => exact ih (by rw [hact, hact', hview])

/-- **Congruence.** A call changes the view of a client in a way that depends on the view only. -/
theorem view_call_congr (h : b.Tables) (h' : b'.Tables) (hc : Plain c) (hcall : call.IsPlain)
    (hview : b.view c = b'.view c) : (b.call call).view c = (b'.call call).view c := by
  by_cases hoth : ∀ a ∈ call.clientId, a ≠ c
  · have hkept b : Kept c b (b.call call) := kept_call hc (fun a ha ↦ ⟨hoth a ha, hcall a ha⟩) b
    rw [(hkept b).view, (hkept b').view, hview]
  obtain ⟨a, hown, rfl⟩ : ∃ a ∈ call.clientId, a = c := by simpa using hoth
  cases call with
  | connect id clean conn =>
    cases hown
    refine (view_connect h hc clean conn).trans (Eq.trans ?_ (view_connect h' hc clean conn).symm)
    rw [hview]
  | subscribe env id topics subId =>
    cases hown
    exact view_foldl_congr (fun v t ↦ v.add a subId t) (view_subscribeTopic a subId _)
      (view_subscribeTopic a subId _) topics hview
  | unsubscribe id topics =>
    cases hown
    have hact b f := view_unsubscribeFilter b a f
    exact view_foldl_congr (fun v f ↦ v.remove a f) hact hact topics hview
  | disconnect id =>
    cases hown
    exact (view_dropSession h hc).trans (view_dropSession h' hc).symm
  | publish env publisher p => cases hown

/-! ## Retained messages -/

theorem retained_dropSession (b : Broker) (a : String) :
    (b.dropSession a).retained = b.retained := by
  obtain ⟨_, _, _, heq⟩ := b.dropSession_eq a
  rw [heq]

theorem retained_publish (b : Broker) (env : Env) (publisher : Option String) (p : Publish) :
    (b.publish env publisher p).retained = (b.retain p env.now).retained := by
  obtain ⟨names, heq⟩ := publish_eq b env publisher p
  obtain ⟨shared, hselect⟩ := selectMembers_eq names (b.prepared env publisher p)
  obtain ⟨core, hprep⟩ := b.prepared_eq env publisher p
  rw [heq, (sends_foldl (sends_deliver publisher p) _ _).retained, hselect, hprep]

/-- Only a publish changes the retained messages, -/
theorem retained_call (hcall : call.clientId.isSome) (b : Broker) :
    (b.call call).retained = b.retained := by
  cases call with
  | connect id clean conn =>
    rw [call.eq_def]
    dsimp only
    rw [connect]
    split_ifs
    · exact retained_dropSession b id
    · rfl
  | subscribe env id topics subId =>
    refine List.foldlRecOn (motive := fun b' : Broker ↦ b'.retained = b.retained) topics _ rfl ?_
    intro b' h t _
    obtain ⟨shared, heq⟩ := b'.addKey_eq id subId t
    rw [(sends_subscribeTopic id subId _ b' t).retained, heq, h]
  | unsubscribe id topics =>
    obtain ⟨_, _, _, heq⟩ := b.unsubscribe_eq id topics
    exact (congrArg Broker.retained heq : (b.unsubscribe id topics).retained = _)
  | disconnect id => exact retained_dropSession b id
  | publish env publisher p => cases hcall

/-- and it does so in a way that depends on nothing else. -/
theorem retained_call_congr (call : BrokerCall) (h : b.retained = b'.retained) :
    (b.call call).retained = (b'.call call).retained := by
  cases call with
  | publish env publisher p =>
    refine (retained_publish ..).trans (Eq.trans ?_ (retained_publish ..).symm)
    rw [retain, retain, h]
    split_ifs
    · rfl
    · rfl
    · exact h
  | _ => rw [retained_call rfl, retained_call rfl, h]

/-! ## What a client gets -/

/-- The messages a client gets by a call through its subscriptions that are not shared, in order and
without packet identifiers. -/
def received (c : String) (b : Broker) : BrokerCall → List Delivery
  | .publish env publisher p =>
    ((b.deliveries env publisher p).filter fun d ↦ directTo c d.key).map Delivery.bare
  | .subscribe env id topics subId =>
    if id = c then (b.subscribeDeliveries env id topics subId).map Delivery.bare else []
  | .connect .. | .unsubscribe .. | .disconnect .. => []

theorem find?_route (b : Broker) (c topic : String) : (b.router.route topic).find? (directTo c) =
      ((((b.view c).subs.filter fun entry ↦
        entry.2.matchesLevels (splitLevels (asBytes topic) slash)).map Prod.fst).find?
          (directTo c)) := by
  have hown : ∀ key, directTo c key = true → ownKey c key = true := by
    intro key hkey
    obtain ⟨-, f, rfl, -⟩ := directTo_iff.mp hkey
    exact ownKey_iff.mpr ⟨f, rfl⟩
  rw [TopicRouter.route, List.find?_map, List.find?_map, List.find?_filter, List.find?_filter]
  change _ = Option.map Prod.fst ((b.router.subs.filter fun entry ↦ ownKey c entry.1).find? _)
  rw [List.find?_filter]
  congr 2
  funext entry
  cases hdrt : directTo c entry.1 with
  | false => simp [hdrt]
  | true => simp [hdrt, hown _ hdrt]

section

variable (hview : b.view c = b'.view c)

include hview

theorem bareCopy_congr_view {key : String} (hkey : directTo c key = true)
    (publisher : Option String) (p : Publish) :
    bareCopy publisher p b key = bareCopy publisher p b' key := by
  obtain ⟨hc, f, rfl, -⟩ := directTo_iff.mp hkey
  refine bareCopy_congr (congrFun (congrArg View.state hview) f) fun c' f' hsp ↦ ?_
  rw [subKey, Text.splitOnce_join hc] at hsp
  obtain ⟨rfl, -⟩ := hsp
  exact congrArg View.conn hview

theorem bare_retainedBatch_congr (subId : Option UInt32) (found : List (String × Bytes × QoS))
    (t : SubscribeTopic) : (retainedBatch c subId found b t).map Delivery.bare =
      (retainedBatch c subId found b' t).map Delivery.bare := by
  have hqt : b.quiet c t = b'.quiet c t := by
    have hstate := congrFun (congrArg View.state hview) t.filter
    change b.subState.lookup (subKey c t.filter) = b'.subState.lookup (subKey c t.filter) at hstate
    rw [quiet, quiet, hstate]
  have hconn : (b.clients c).map Client.conn = (b'.clients c).map Client.conn :=
    congrArg View.conn hview
  rw [bare_retainedBatch, bare_retainedBatch, hqt, hconn]

theorem bare_emitted_congr (subId : Option UInt32) (found : List (String × Bytes × QoS))
    (topics : List SubscribeTopic) :
    (emitted (retainedBatch c subId found) (subscribeTopic c subId found) topics b).map
        Delivery.bare =
      (emitted (retainedBatch c subId found) (subscribeTopic c subId found) topics b').map
        Delivery.bare := by
  induction topics generalizing b b' with
  | nil => rfl
  | cons t topics ih =>
    rw [emitted, emitted, map_append, map_append, bare_retainedBatch_congr hview, ih]
    rw [view_subscribeTopic, view_subscribeTopic, hview]

end

theorem received_publish_congr (h : b.Tables) (h' : b'.Tables) (hview : b.view c = b'.view c)
    (env : Env) (publisher : Option String) (p : Publish) :
    received c b (.publish env publisher p) = received c b' (.publish env publisher p) := by
  rw [received, received, h.bare_direct, h'.bare_direct, find?_route, find?_route, hview]
  cases hkey : List.find? (directTo c) _ with
  | none => rfl
  | some key =>
    rw [bind_some, bind_some, bareCopy_congr_view hview (List.find?_some hkey)]

theorem received_congr (h : b.Tables) (h' : b'.Tables) (hview : b.view c = b'.view c)
    (hrtd : b.retained = b'.retained) (call : BrokerCall) :
    received c b call = received c b' call := by
  cases call with
  | publish env publisher p => exact received_publish_congr h h' hview env publisher p
  | subscribe env id topics subId =>
    rw [received, received]
    by_cases hid : id = c
    · subst hid
      have hfnd : b.retainedMatches env = b'.retainedMatches env := by
        funext t
        rw [retainedMatches, retainedMatches, hrtd]
      rw [if_pos rfl, if_pos rfl, subscribeDeliveries, subscribeDeliveries, hfnd,
        bare_emitted_congr hview]
    · rw [if_neg hid, if_neg hid]
  | connect | unsubscribe | disconnect => rfl

/-! ## Leaving out the calls of one client -/

/-- The client has the same subscriptions, and gets the same messages of any publish through those
of them that are not shared. -/
structure SameFor (c : String) (b b' : Broker) : Prop where
  state : ∀ f, b'.subState.lookup (subKey c f) = b.subState.lookup (subKey c f)
  route : (b'.router.subs.filter fun entry ↦ ownKey c entry.1) =
    b.router.subs.filter fun entry ↦ ownKey c entry.1
  member : ∀ name, b'.Member name c ↔ b.Member name c
  received : ∀ env publisher p,
    received c b' (.publish env publisher p) = received c b (.publish env publisher p)

/-- The memberships are seen in the options, since the tables agree. -/
theorem sameFor_of_view (h : b.Tables) (h' : b'.Tables) (hview : b'.view c = b.view c) :
    SameFor c b b' where
  state := congrFun (congrArg View.state hview)
  route := congrArg View.subs hview
  member name := by
    have hstate := congrFun (congrArg View.state hview) (sharedFilter name)
    change b'.subState.lookup _ = b.subState.lookup _ at hstate
    rw [member_iff, member_iff, h'.member, h.member, ← AList.lookup_isSome, ← AList.lookup_isSome,
      hstate]
  received := received_publish_congr h' h hview

/-- A run with the calls under `a`, and the same run without them. -/
theorem view_run_filter (ha : Plain a) (hc : Plain c) (hne : a ≠ c) {calls : List BrokerCall}
    (hcl : ∀ call ∈ calls, call.IsPlain) (h : b.Tables) (h' : b'.Tables)
    (hview : b'.view c = b.view c) (hrtd : b'.retained = b.retained) :
    (b'.run calls).view c = (b.run (calls.filter fun call ↦ call.clientId ≠ some a)).view c ∧
      emitted (received c) Broker.call calls b' =
        emitted (received c) Broker.call (calls.filter fun call ↦ call.clientId ≠ some a) b := by
  induction calls generalizing b b' with
  | nil => exact ⟨hview, rfl⟩
  | cons call calls ih =>
    obtain ⟨hcall, hcl⟩ := forall_mem_cons.mp hcl
    by_cases hid : call.clientId = some a
    · have hoth : ∀ a' ∈ call.clientId, a' ≠ c ∧ Plain a' := by
        rintro a' ha'
        cases hid.symm.trans ha'
        exact ⟨hne, ha⟩
      -- the call is left out: the client's view stays, and it gets nothing
      have hsil : received c b' call = [] := by
        cases call with
        | subscribe env id topics subId =>
          cases hid
          exact if_neg hne
        | publish env publisher p => cases hid
        | connect | unsubscribe | disconnect => rfl
      have hrtd' : (b'.call call).retained = b'.retained := retained_call (by rw [hid]; rfl) b'
      obtain ⟨hview', hsame⟩ := ih hcl h (h'.call hcall)
        ((kept_call hc hoth b').view.trans hview) (hrtd'.trans hrtd)
      rw [filter_cons, if_neg (by simp [hid]), emitted, hsil, nil_append]
      exact ⟨hview', hsame⟩
    · obtain ⟨hview', hsame⟩ := ih hcl (h.call hcall) (h'.call hcall)
        (view_call_congr h' h hc hcall hview) (retained_call_congr call hrtd)
      rw [filter_cons, if_pos (by simp [hid]), emitted, emitted, hsame,
        received_congr h' h hview hrtd]
      exact ⟨hview', rfl⟩

/-- **Noninterference.** In any run of calls under ids without U+0000, a call under `a` changes no
subscription of another client `c` and none of the messages `c` gets through subscriptions that are
not shared. Nor does leaving out all of them. -/
theorem noninterference {core : SynapseCore} {b : Broker} (hnew : Broker.new core = some b)
    {a c : String} (ha : Plain a) (hc : Plain c) (hne : a ≠ c) (calls : List BrokerCall)
    (hcalls : ∀ call ∈ calls, call.IsPlain) :
    (∀ call : BrokerCall, call.clientId = some a →
        SameFor c (b.run calls) ((b.run calls).call call)) ∧
      SameFor c (b.run (calls.filter fun call ↦ call.clientId ≠ some a)) (b.run calls) ∧
      emitted (received c) Broker.call calls b =
        emitted (received c) Broker.call (calls.filter fun call ↦ call.clientId ≠ some a) b := by
  have hrun := tables_run hnew hcalls
  have hrest : (b.run (calls.filter fun call ↦ call.clientId ≠ some a)).Tables :=
    tables_run hnew fun call hcall ↦ hcalls call (mem_of_mem_filter hcall)
  obtain ⟨hview, hsame⟩ :=
    view_run_filter ha hc hne hcalls (tables_new hnew) (tables_new hnew) rfl rfl
  refine ⟨fun call hid ↦ ?_, sameFor_of_view hrest hrun hview, hsame⟩
  have hoth : ∀ id ∈ call.clientId, id ≠ c ∧ Plain id := by
    intro id hmem
    cases hid.symm.trans hmem
    exact ⟨hne, ha⟩
  exact sameFor_of_view hrun (hrun.call fun id hmem ↦ (hoth id hmem).2) (kept_call hc hoth _).view

/-- Client `b` leaves the shared group. -/
theorem noninterference_tableRun :
    SameFor "a" (fresh.run tableRun.dropLast)
        ((fresh.run tableRun.dropLast).call (.disconnect "b")) ∧
      emitted (received "a") Broker.call tableRun.dropLast fresh =
        emitted (received "a") Broker.call
          (tableRun.dropLast.filter fun call ↦ call.clientId ≠ some "b") fresh := by
  obtain ⟨hcall, -, hsame⟩ := noninterference new_fresh (a := "b") (c := "a") (by decide)
    (by decide) (by decide) tableRun.dropLast (by decide)
  exact ⟨hcall (.disconnect "b") rfl, hsame⟩

/-- The id `a`, U+0000, `b`. -/
def joinedId : String := Text.join nul "a" "b"

/-- The clients `a` and `joinedId` are connected, and the latter has subscribed to `t`. -/
def joinedRun : List BrokerCall :=
  [.connect "a" true 0, .connect joinedId true 1,
    .subscribe ⟨0, .inOrder⟩ joinedId [filterAt "t" .exactlyOnce] none]

/-- Both ids and the filter are decoded from the wire. When `a` disconnects, or unsubscribes from
the filter, the other client's subscription is gone. -/
theorem interference : let unsubscribe : Packet := .unsubscribe 1 [Text.join nul "b" "t"] none
    let sub := subKey joinedId "t"
    let b := fresh.run joinedRun
    ((∀ pkt ∈ [Packet.connectAs "a", .connectAs joinedId, unsubscribe],
        decodePacket (encodePacket pkt .v311 []) .v311 =
          .ok (some (pkt, (encodePacket pkt .v311 []).length)))) ∧
      (b.subState.lookup sub).isSome ∧ sub ∈ b.router.subs.map Prod.fst ∧
      ((b.deliveries ⟨0, .inOrder⟩ none ⟨false, .atMostOnce, false, "t", none, [1], none⟩).map
        Delivery.conn = [0]) ∧
      ∀ call ∈ [BrokerCall.disconnect "a", .unsubscribe "a" [Text.join nul "b" "t"]],
        call.clientId = some "a" ∧ ((b.call call).subState.lookup sub).isNone ∧
          sub ∉ (b.call call).router.subs.map Prod.fst := by
  decide +kernel

end Mqtt.Broker

end Synapse
