import Synapse.Mqtt.Broker

/-!
# What a call of the broker leaves alone

Two facts about every call, from which the results on runs are assembled. First, what it adds to
the trace: a call of `publish` and of `subscribe` puts messages on channels and nothing else
(`Delivers`), and the other calls put nothing on them. Second, what it does to the tables of a
client that it is not for (`Kept`): nothing, except that packet identifiers are used up. Both are
read off the fields a call writes.

The second fact is where the joined keys matter. A call for `a` touches the keys that start with
`a` and U+0000, and these are no keys of `c` as long as neither id holds that character (`Plain`).
-/

namespace Synapse.Mqtt

open List Function Option

/-- An id that can be read off the keys made with it. -/
def Plain (id : String) : Prop := nul ∉ id.toList

instance (id : String) : Decidable (Plain id) := inferInstanceAs (Decidable (_ ∉ _))

theorem subKey_ne {a c f g : String} (ha : Plain a) (hc : Plain c) (hne : a ≠ c) :
    subKey a f ≠ subKey c g :=
  fun h ↦ hne (Text.join_inj ha hc h).1

namespace Broker

/-! ## The fields a call writes -/

section

variable (b : Broker) (id : String) (env : Env) (publisher : Option String) (p : Publish)

theorem packetIdFor_eq (qos : QoS) :
    ∃ clients, (b.packetIdFor id qos).2 = { b with clients := clients } ∧
      ∀ x, (clients x).map Client.conn = (b.clients x).map Client.conn := by
  rw [packetIdFor, nextId]
  split_ifs
  · exact ⟨_, rfl, fun _ ↦ rfl⟩
  cases hcli : b.clients id with
  | none => exact ⟨_, rfl, fun _ ↦ rfl⟩
  | some client =>
    refine ⟨_, rfl, fun x ↦ ?_⟩
    by_cases hx : x = id
    · subst hx
      rw [update_self, hcli]
      rfl
    · rw [update_of_ne hx]

theorem trace_packetIdFor (qos : QoS) : (b.packetIdFor id qos).2.trace = b.trace := by
  obtain ⟨clients, heq, -⟩ := b.packetIdFor_eq id qos
  rw [heq]

theorem selectMember_eq (name : GroupName) :
    ∃ shared, (b.selectMember name).2 = { b with sharedMembers := shared } := by
  rw [selectMember]
  rcases b.sharedMembers name with _ | ⟨members, cursor⟩
  · exact ⟨_, rfl⟩
  · dsimp only
    cases b.candidate members cursor <;> exact ⟨_, rfl⟩

theorem selectMembers_eq (names : List GroupName) (b : Broker) :
    ∃ shared, (selectMembers names b).2 = { b with sharedMembers := shared } := by
  induction names generalizing b with
  | nil => exact ⟨_, rfl⟩
  | cons name names ih =>
    obtain ⟨shared, heq⟩ := b.selectMember_eq name
    obtain ⟨shared', heq'⟩ := ih (b.selectMember name).2
    exact ⟨shared', heq'.trans (by rw [heq])⟩

/-- The broker as the messages of a publish are delivered: the call is recorded, the message stored,
and the members of the shared groups are chosen. -/
def prepared (b : Broker) (env : Env) (publisher : Option String) (p : Publish) : Broker :=
  ((b.record (.published publisher p)).persistPublish p env.now).retain p env.now

theorem prepared_eq : ∃ core, b.prepared env publisher p = { b with
      trace := b.trace ++ [.published publisher p]
      core := core
      retained := (b.retain p env.now).retained } := by
  rw [prepared, retain, retain, persistPublish]
  split_ifs <;> exact ⟨_, rfl⟩

theorem removeSharedMember_eq (name : GroupName) :
    ∃ shared, b.removeSharedMember name id = { b with sharedMembers := shared } := by
  rw [removeSharedMember]
  rcases b.sharedMembers name with _ | ⟨members, cursor⟩
  · exact ⟨_, rfl⟩
  · dsimp only
    split_ifs <;> exact ⟨_, rfl⟩

theorem removeKey_eq (key : String) (group : Option GroupName) :
    ∃ shared, b.removeKey key id group = { b with
      subState := b.subState.erase key
      router := b.router.unsubscribe key
      sharedMembers := shared } := by
  cases group with
  | none => exact ⟨_, rfl⟩
  | some name => exact removeSharedMember_eq _ id name

theorem foldl_removeKey_eq {α : Type} (key : α → String) (id : String)
    (group : α → Option GroupName) (xs : List α) (b : Broker) :
    ∃ state router shared, xs.foldl (fun b x ↦ b.removeKey (key x) id (group x)) b =
      { b with subState := state, router := router, sharedMembers := shared } := by
  refine List.foldlRecOn (motive := fun b' : Broker ↦ ∃ state router shared, b' =
    { b with subState := state, router := router, sharedMembers := shared }) xs _ ⟨_, _, _, rfl⟩ ?_
  rintro _ ⟨state, router, shared, rfl⟩ x _
  obtain ⟨shared', heq⟩ := removeKey_eq
    { b with subState := state, router := router, sharedMembers := shared } id (key x) (group x)
  exact ⟨_, _, shared', heq⟩

theorem dropSession_eq : ∃ state router shared, b.dropSession id = { b with
      clients := update b.clients id none
      subState := state
      router := router
      sharedMembers := shared } :=
  foldl_removeKey_eq (fun key ↦ key) id
    (fun key ↦ (Text.stripPrefix (keyFront id) key).bind parseShared) _
    { b with clients := update b.clients id none }

theorem unsubscribe_eq (topics : List String) : ∃ state router shared, b.unsubscribe id topics =
      { b with subState := state, router := router, sharedMembers := shared } :=
  foldl_removeKey_eq (subKey id) id parseShared topics b

theorem addKey_eq (subId : Option UInt32) (t : SubscribeTopic) :
    ∃ shared, b.addKey id subId t = { b with
      router := b.router.subscribe (subKey id t.filter) (realFilter t.filter)
      subState := b.subState.insert (subKey id t.filter)
        ⟨QoS.ofU8 (granted t), t.noLocal, t.retainAsPublished, subId⟩
      sharedMembers := shared } := by
  rw [addKey]
  cases parseShared t.filter <;> exact ⟨_, rfl⟩

theorem publish_eq :
    ∃ names, b.publish env publisher p = ((partition (b.router.route p.topic)).direct ++
        (selectMembers names (b.prepared env publisher p)).1).foldl (deliver publisher p)
      (selectMembers names (b.prepared env publisher p)).2 := by
  refine ⟨env.order.groups (partition (b.router.route p.topic)).groups, ?_⟩
  obtain ⟨core, heq⟩ := b.prepared_eq env publisher p
  have hrtr : (b.prepared env publisher p).router = b.router := by rw [heq]
  rw [← hrtr]
  rfl

theorem trace_dropSession : (b.dropSession id).trace = b.trace := by
  obtain ⟨_, _, _, heq⟩ := b.dropSession_eq id
  rw [heq]

theorem trace_connect (clean : Bool) (conn : ℕ) : (b.connect id clean conn).trace = b.trace := by
  rw [connect]
  split_ifs
  · exact trace_dropSession b id
  · rfl

theorem clients_dropSession : (b.dropSession id).clients id = none := by
  obtain ⟨_, _, _, heq⟩ := b.dropSession_eq id
  rw [heq]
  exact update_self ..

end

/-! ## Messages on channels -/

variable {b b' b'' : Broker} {α : Type} {members : List String} {name : GroupName} {cursor : ℕ}
  {f : Broker → α → Broker}

/-- The call has put messages on channels and nothing else. -/
def Delivers (b b' : Broker) : Prop :=
  ∃ es, b'.trace = b.trace ++ es ∧ ∀ e ∈ es, ∃ conn d, e = .sent conn (.publish d)

theorem Delivers.of_eq (h : b'.trace = b.trace) : Delivers b b' := ⟨[], by simpa using h, by simp⟩

theorem Delivers.refl (b : Broker) : Delivers b b := .of_eq rfl

theorem Delivers.trans (h : Delivers b b') (h' : Delivers b' b'') : Delivers b b'' := by
  obtain ⟨es, htrc, hes⟩ := h
  obtain ⟨es', htrc', hes'⟩ := h'
  exact ⟨es ++ es', by rw [htrc', htrc, append_assoc], forall_mem_append.mpr ⟨hes, hes'⟩⟩

/-- The tables are the same, up to packet identifiers. -/
structure SameTables (b b' : Broker) : Prop where
  state : b'.subState = b.subState
  router : b'.router = b.router
  shared : b'.sharedMembers = b.sharedMembers
  conn : ∀ x, (b'.clients x).map Client.conn = (b.clients x).map Client.conn

theorem SameTables.isSome (h : SameTables b b') (x : String) :
    (b'.clients x).isSome = (b.clients x).isSome := by
  rw [← isSome_map (f := Client.conn), h.conn, isSome_map]

/-- Packet identifiers are used up and messages put on channels; nothing else changes. -/
structure Sends (b b' : Broker) : Prop extends SameTables b b' where
  retained : b'.retained = b.retained
  delivers : Delivers b b'

theorem Sends.refl (b : Broker) : Sends b b := ⟨⟨rfl, rfl, rfl, fun _ ↦ rfl⟩, rfl, .refl b⟩

theorem Sends.trans (h : Sends b b') (h' : Sends b' b'') : Sends b b'' where
  state := h'.state.trans h.state
  router := h'.router.trans h.router
  shared := h'.shared.trans h.shared
  conn x := (h'.conn x).trans (h.conn x)
  retained := h'.retained.trans h.retained
  delivers := h.delivers.trans h'.delivers

theorem sends_foldl (hf : ∀ b x, Sends b (f b x)) (xs : List α) (b : Broker) :
    Sends b (xs.foldl f b) :=
  List.foldlRecOn xs f (.refl b) fun b' h x _ ↦ h.trans (hf b' x)

section

variable (b : Broker) (id : String) (env : Env) (publisher : Option String) (p : Publish)

theorem sends_packetIdFor (qos : QoS) : Sends b (b.packetIdFor id qos).2 := by
  obtain ⟨clients, heq, hconn⟩ := b.packetIdFor_eq id qos
  rw [heq]
  exact ⟨⟨rfl, rfl, rfl, hconn⟩, rfl, .of_eq rfl⟩

theorem sends_sendTo : Sends b (b.sendTo id p) := by
  rw [sendTo]
  cases b.clients id with
  | none => exact .refl b
  | some client => exact ⟨⟨rfl, rfl, rfl, fun _ ↦ rfl⟩, rfl, [_], rfl, by simp⟩

theorem sends_deliver (b : Broker) (key : String) : Sends b (deliver publisher p b key) := by
  rw [deliver]
  cases Text.splitOnce nul key with
  | none => exact .refl b
  | some parts =>
    dsimp only
    split_ifs
    · exact .refl b
    · exact (sends_packetIdFor ..).trans (sends_sendTo ..)

theorem sends_deliverRetained (b : Broker) (m : String × Bytes × QoS) :
    Sends b (deliverRetained id b m) := (sends_packetIdFor ..).trans (sends_sendTo ..)

theorem sends_subscribeTopic (subId : Option UInt32) (found : List (String × Bytes × QoS))
    (b : Broker) (t : SubscribeTopic) :
    Sends (b.addKey id subId t) (subscribeTopic id subId found b t) := by
  rw [subscribeTopic]
  split_ifs
  · exact .refl _
  · exact sends_foldl (sends_deliverRetained id) _ _

theorem sameTables_prepared : SameTables b (b.prepared env publisher p) := by
  obtain ⟨core, heq⟩ := b.prepared_eq env publisher p
  rw [heq]
  exact ⟨rfl, rfl, rfl, fun _ ↦ rfl⟩

theorem trace_selectMembers_prepared (names : List GroupName) :
    (selectMembers names (b.prepared env publisher p)).2.trace =
      b.trace ++ [.published publisher p] := by
  obtain ⟨shared, heq⟩ := selectMembers_eq names (b.prepared env publisher p)
  obtain ⟨core, heq'⟩ := b.prepared_eq env publisher p
  rw [heq, heq']

theorem delivers_publish :
    Delivers (b.record (.published publisher p)) (b.publish env publisher p) := by
  obtain ⟨names, heq⟩ := publish_eq b env publisher p
  rw [heq]
  exact (Delivers.of_eq (trace_selectMembers_prepared ..)).trans
    (sends_foldl (sends_deliver publisher p) _ _).delivers

theorem delivers_subscribe (topics : List SubscribeTopic) (subId : Option UInt32) :
    Delivers b (b.subscribe env id topics subId).2 := by
  refine List.foldlRecOn (motive := Delivers b) topics _ (.refl b) fun b' h t _ ↦ ?_
  obtain ⟨shared, heq⟩ := b'.addKey_eq id subId t
  have hadd : Delivers b' (b'.addKey id subId t) := .of_eq (by rw [heq])
  exact (h.trans hadd).trans (sends_subscribeTopic ..).delivers

end

/-! ## The tables of another client -/

/-- The key starts as those of the client do. -/
def ownKey (c key : String) : Bool := (Text.stripPrefix (keyFront c) key).isSome

theorem ownKey_iff {c key : String} : ownKey c key = true ↔ ∃ f, key = subKey c f := by
  rw [ownKey, isSome_iff_exists]
  simp only [Text.stripPrefix_eq_some]
  rfl

theorem ownKey_subKey_of_ne {a c f : String} (ha : Plain a) (hc : Plain c) (hne : a ≠ c) :
    ownKey c (subKey a f) = false := by
  refine Bool.eq_false_iff.mpr fun h ↦ ?_
  obtain ⟨g, hg⟩ := ownKey_iff.mp h
  exact subKey_ne ha hc hne hg

/-- Connection, options and router entries of one client. -/
structure View where
  conn : Option ℕ
  state : String → Option SubState
  subs : List (String × CompiledFilter)

def view (b : Broker) (c : String) : View where
  conn := (b.clients c).map Client.conn
  state f := b.subState.lookup (subKey c f)
  subs := b.router.subs.filter fun entry ↦ ownKey c entry.1

/-- The client is a member of the shared group. -/
def Member (b : Broker) (name : GroupName) (id : String) : Prop :=
  ∃ members cursor, b.sharedMembers name = some (members, cursor) ∧ id ∈ members

/-- The client is registered with the same connection, and has the same subscriptions. -/
structure Untouched (c : String) (b b' : Broker) : Prop where
  conn : (b'.clients c).map Client.conn = (b.clients c).map Client.conn
  state : ∀ f, b'.subState.lookup (subKey c f) = b.subState.lookup (subKey c f)
  route : ∀ f x, (subKey c f, x) ∈ b'.router.subs ↔ (subKey c f, x) ∈ b.router.subs
  member : ∀ name, b'.Member name c ↔ b.Member name c

variable {a c : String}

theorem View.ext_of {v v' : View} (hconn : v.conn = v'.conn) (hstate : ∀ f, v.state f = v'.state f)
    (hsubs : v.subs = v'.subs) : v = v' := by
  cases v
  cases v'
  obtain rfl := hconn
  obtain rfl := funext hstate
  obtain rfl := hsubs
  rfl

/-- The client is left alone: its view and its memberships are the same. -/
structure Kept (c : String) (b b' : Broker) : Prop where
  view : b'.view c = b.view c
  member : ∀ name, b'.Member name c ↔ b.Member name c

theorem Kept.refl (c : String) (b : Broker) : Kept c b b := ⟨rfl, fun _ ↦ Iff.rfl⟩

theorem Kept.trans (h : Kept c b b') (h' : Kept c b' b'') : Kept c b b'' :=
  ⟨h'.view.trans h.view, fun name ↦ (h'.member name).trans (h.member name)⟩

theorem kept_foldl (xs : List α) (b : Broker) (hf : ∀ b, ∀ x ∈ xs, Kept c b (f b x)) :
    Kept c b (xs.foldl f b) :=
  List.foldlRecOn xs f (.refl c b) fun b' h x hx ↦ h.trans (hf b' x hx)

theorem Kept.untouched (h : Kept c b b') : Untouched c b b' where
  conn := congrArg View.conn h.view
  state := congrFun (congrArg View.state h.view)
  route f x := by
    have hsubs := congrArg (fun v ↦ (subKey c f, x) ∈ v.subs) h.view
    have hown : ownKey c (subKey c f) = true := ownKey_iff.mpr ⟨f, rfl⟩
    simp only [Broker.view, mem_filter, hown, and_true, eq_iff_iff] at hsubs
    exact hsubs
  member := h.member

theorem SameTables.kept (h : SameTables b b') (c : String) : Kept c b b' := by
  refine ⟨View.ext_of (h.conn c) (fun _ ↦ ?_) ?_, fun _ ↦ by rw [Member, Member, h.shared]⟩
  · rw [Broker.view, h.state]
    rfl
  · rw [Broker.view, h.router]
    rfl

/-- A change of the entry of one group that does not concern the client. -/
theorem member_update (h : c ∈ members ↔ b.Member name c) (name' : GroupName) :
    Member { b with sharedMembers := update b.sharedMembers name (some (members, cursor)) }
      name' c ↔ b.Member name' c := by
  by_cases hname : name' = name
  · subst hname
    rw [← h]
    constructor
    · rintro ⟨ms, cur, heq, hmem⟩
      dsimp only at heq
      rw [update_self] at heq
      obtain ⟨rfl, -⟩ := heq
      exact hmem
    · intro hmem
      exact ⟨members, cursor, update_self .., hmem⟩
  · simp only [Member, update_of_ne hname]

theorem member_iff_of_eq (h : b.sharedMembers name = some (members, cursor)) :
    b.Member name c ↔ c ∈ members := by
  constructor
  · rintro ⟨ms, cur, heq, hmem⟩
    obtain ⟨rfl, -⟩ := Prod.mk.inj (some.inj (h.symm.trans heq))
    exact hmem
  · exact fun hmem ↦ ⟨members, cursor, h, hmem⟩

theorem kept_removeSharedMember (hne : a ≠ c) (b : Broker) (name : GroupName) :
    Kept c b (b.removeSharedMember name a) := by
  rw [removeSharedMember]
  rcases hgr : b.sharedMembers name with _ | ⟨members, cursor⟩
  · exact .refl c b
  by_cases hmem : a ∈ members
  · simp only [if_pos hmem]
    refine ⟨rfl, member_update ?_⟩
    rw [member_iff_of_eq hgr, mem_erase_of_ne hne.symm]
  · simp only [if_neg hmem]
    exact .refl c b

theorem kept_joinShared (hne : a ≠ c) (b : Broker) (name : GroupName) :
    Kept c b (b.joinShared name a) := by
  rw [joinShared]
  refine ⟨rfl, member_update ?_⟩
  have hkeep : ∀ members : List String,
      c ∈ (if a ∈ members then members else members ++ [a]) ↔ c ∈ members := by
    intro members
    split_ifs <;> simp [hne.symm]
  rw [hkeep]
  rcases hgr : b.sharedMembers name with _ | ⟨members, cursor⟩
  · simp [Member, hgr]
  · exact (member_iff_of_eq hgr).symm

theorem dropKey_eq {key f : String} (h : Text.stripPrefix (keyFront a) key = some f) (b : Broker) :
    dropKey a b key = unsubscribeFilter a b f := by
  obtain rfl := Text.stripPrefix_eq_some.mp h
  rw [dropKey, h]
  rfl

theorem kept_update (hne : a ≠ c) (b : Broker) (entry : Option Client) :
    Kept c b { b with clients := update b.clients a entry } :=
  ⟨View.ext_of (congrArg (Option.map Client.conn) (update_of_ne hne.symm ..))
    (fun _ ↦ rfl) rfl, fun _ ↦ Iff.rfl⟩

section Other

variable (ha : Plain a) (hc : Plain c) (hne : a ≠ c)
include ha hc hne

theorem kept_unsubscribeFilter (b : Broker) (f : String) : Kept c b (unsubscribeFilter a b f) := by
  have htabs : Kept c b { b with
      subState := b.subState.erase (subKey a f)
      router := b.router.unsubscribe (subKey a f) } := by
    refine ⟨View.ext_of rfl (fun _ ↦ ?_) ?_, fun _ ↦ Iff.rfl⟩
    · exact AList.lookup_erase_ne (subKey_ne hc ha hne.symm)
    · exact TopicRouter.filter_unsubscribe (ownKey_subKey_of_ne ha hc hne) b.router
  rw [unsubscribeFilter, removeKey.eq_def]
  cases parseShared f with
  | none => exact htabs
  | some name => exact htabs.trans (kept_removeSharedMember hne _ name)

theorem kept_addKey (b : Broker) (subId : Option UInt32) (t : SubscribeTopic) :
    Kept c b (b.addKey a subId t) := by
  have htabs : Kept c b { b with
      router := b.router.subscribe (subKey a t.filter) (realFilter t.filter)
      subState := b.subState.insert (subKey a t.filter)
        ⟨QoS.ofU8 (granted t), t.noLocal, t.retainAsPublished, subId⟩ } := by
    refine ⟨View.ext_of rfl (fun _ ↦ ?_) ?_, fun _ ↦ Iff.rfl⟩
    · exact AList.lookup_insert_ne (subKey_ne hc ha hne.symm)
    · refine (TopicRouter.filter_subscribed (ownKey c) ..).trans ?_
      rw [ownKey_subKey_of_ne ha hc hne, if_neg Bool.false_ne_true]
      rfl
  rw [addKey]
  cases parseShared t.filter with
  | none => exact htabs
  | some name => exact htabs.trans (kept_joinShared hne _ name)

theorem kept_dropSession (b : Broker) : Kept c b (b.dropSession a) := by
  have hclis : Kept c b { b with clients := update b.clients a none } := kept_update hne b none
  refine hclis.trans (kept_foldl _ _ fun b' key hkey ↦ ?_)
  obtain ⟨f, hf⟩ := isSome_iff_exists.mp (mem_filter.mp hkey).2
  rw [dropKey_eq hf]
  exact kept_unsubscribeFilter ha hc hne b' f

theorem kept_connect (b : Broker) (clean : Bool) (conn : ℕ) :
    Kept c b (b.connect a clean conn) := by
  have hdrop : Kept c b (if clean then b.dropSession a else b) := by
    split_ifs
    · exact kept_dropSession ha hc hne b
    · exact .refl c b
  exact hdrop.trans (kept_update hne _ _)

end Other

section

variable (c : String) (b : Broker) (env : Env) (publisher : Option String) (p : Publish)

theorem kept_selectMember (name : GroupName) : Kept c b (b.selectMember name).2 := by
  rw [selectMember]
  rcases hgr : b.sharedMembers name with _ | ⟨members, cursor⟩
  · exact .refl c b
  · dsimp only
    cases b.candidate members cursor with
    | none => exact .refl c b
    | some found => exact ⟨rfl, member_update (member_iff_of_eq hgr).symm⟩

theorem kept_selectMembers (names : List GroupName) : Kept c b (selectMembers names b).2 := by
  induction names generalizing b with
  | nil => exact .refl c b
  | cons name names ih => exact (kept_selectMember c b name).trans (ih _)

theorem kept_selectMembers_prepared (names : List GroupName) :
    Kept c b (selectMembers names (b.prepared env publisher p)).2 :=
  ((sameTables_prepared b env publisher p).kept c).trans (kept_selectMembers c _ names)

theorem kept_publish : Kept c b (b.publish env publisher p) := by
  obtain ⟨names, heq⟩ := publish_eq b env publisher p
  rw [heq]
  exact (kept_selectMembers_prepared c b env publisher p names).trans
    ((sends_foldl (sends_deliver publisher p) _ _).kept c)

end

/-! ## Calls -/

end Broker

/-- A call of the broker. -/
inductive BrokerCall
  | connect (id : String) (cleanSession : Bool) (conn : ℕ)
  | subscribe (env : Env) (id : String) (topics : List SubscribeTopic)
      (subscriptionIdentifier : Option UInt32)
  | unsubscribe (id : String) (topics : List String)
  | disconnect (id : String)
  | publish (env : Env) (publisher : Option String) (p : Publish)

/-- The client id a call is performed under; a publish is performed under none. -/
def BrokerCall.clientId : BrokerCall → Option String
  | .connect id _ _ | .subscribe _ id _ _ | .unsubscribe id _ | .disconnect id => some id
  | .publish .. => none

/-- The call is performed under an id without U+0000. -/
def BrokerCall.IsPlain (call : BrokerCall) : Prop := ∀ id ∈ call.clientId, Plain id

instance (call : BrokerCall) : Decidable call.IsPlain :=
  inferInstanceAs (Decidable (∀ id ∈ call.clientId, Plain id))

namespace Broker

def call (b : Broker) : BrokerCall → Broker
  | .connect id cleanSession conn => b.connect id cleanSession conn
  | .subscribe env id topics subId => (b.subscribe env id topics subId).2
  | .unsubscribe id topics => b.unsubscribe id topics
  | .disconnect id => b.disconnect id
  | .publish env publisher p => b.publish env publisher p

def run (b : Broker) (calls : List BrokerCall) : Broker := calls.foldl call b

variable {b b' : Broker} {c filter key : String} {keys : List String}

/-- **Frame.** A call under other ids, or under none, leaves a client alone. -/
theorem kept_call (hc : Plain c) {call : BrokerCall}
    (hcall : ∀ a ∈ call.clientId, a ≠ c ∧ Plain a) (b : Broker) : Kept c b (b.call call) := by
  cases call with
  | connect id clean conn => exact kept_connect (hcall id rfl).2 hc (hcall id rfl).1 ..
  | subscribe env id topics subId =>
    refine kept_foldl _ _ fun b t _ ↦ ?_
    exact (kept_addKey (hcall id rfl).2 hc (hcall id rfl).1 b subId t).trans
      ((sends_subscribeTopic ..).kept c)
  | unsubscribe id topics =>
    exact kept_foldl _ _ fun b f _ ↦ kept_unsubscribeFilter (hcall id rfl).2 hc (hcall id rfl).1 b f
  | disconnect id => exact kept_dropSession (hcall id rfl).2 hc (hcall id rfl).1 b
  | publish env publisher p => exact kept_publish ..

/-! ## A matching publish reaches the client -/

namespace Partition

/-- The clients that were seen have a key. -/
def Sound (q : Partition) : Prop :=
  ∀ x ∈ q.seen, ∃ key ∈ q.direct, ∃ f, Text.splitOnce nul key = some (x, f)

variable {q : Partition} {key filter : String}

theorem Sound.add (h : q.Sound) (key : String) : (q.add key).Sound := by
  rw [Partition.add]
  rcases hkey : Text.splitOnce nul key with _ | ⟨id, f⟩
  · exact h
  dsimp only
  cases parseShared f with
  | some name => exact h
  | none =>
    split_ifs
    · exact h
    intro x hx
    rcases mem_append.mp hx with hx | hx
    · obtain ⟨k, hk, hf⟩ := h x hx
      exact ⟨k, mem_append_left _ hk, hf⟩
    · obtain rfl := mem_singleton.mp hx
      exact ⟨key, mem_append_right _ (mem_singleton_self key), f, hkey⟩

theorem seen_subset_add (q : Partition) (key : String) : q.seen ⊆ (q.add key).seen := by
  rw [Partition.add]
  rcases Text.splitOnce nul key with _ | ⟨id, f⟩
  · exact List.Subset.refl _
  dsimp only
  cases parseShared f with
  | some name => exact List.Subset.refl _
  | none =>
    split_ifs
    · exact List.Subset.refl _
    · exact subset_append_left ..

theorem mem_seen_foldl (hsp : Text.splitOnce nul key = some (c, filter))
    (hsh : parseShared filter = none) (keys : List String) (q : Partition)
    (h : c ∈ q.seen ∨ key ∈ keys) : c ∈ (keys.foldl Partition.add q).seen := by
  induction keys generalizing q with
  | nil => exact h.resolve_right (by simp)
  | cons k keys ih =>
    refine ih (q.add k) ?_
    rcases h with h | h
    · exact .inl (seen_subset_add q k h)
    rcases mem_cons.mp h with rfl | h
    · simp only [Partition.add, hsp, hsh]
      split_ifs with hc
      · exact .inl hc
      · exact .inl (mem_append_right _ (mem_singleton_self c))
    · exact .inr h

end Partition

theorem exists_mem_direct (hmem : key ∈ keys) (hsp : Text.splitOnce nul key = some (c, filter))
    (hsh : parseShared filter = none) :
    ∃ k ∈ (partition keys).direct, ∃ f, Text.splitOnce nul k = some (c, f) := by
  have hsnd : (partition keys).Sound :=
    List.foldlRecOn keys Partition.add (by simp [Partition.Sound]) fun _ h k _ ↦ h.add k
  exact hsnd c (Partition.mem_seen_foldl hsp hsh keys _ (.inr hmem))

variable {conn : ℕ} {publisher : Option String} {p : Publish}

theorem trace_sendTo (hconn : (b.clients c).map Client.conn = some conn) (p : Publish) :
    (b.sendTo c p).trace = b.trace ++ [.sent conn (.publish p)] := by
  obtain ⟨client, hcli, rfl⟩ := map_eq_some_iff.mp hconn
  simp only [sendTo, hcli, send, record]

theorem trace_deliver (hsp : Text.splitOnce nul key = some (c, filter))
    (hconn : (b.clients c).map Client.conn = some conn)
    (hsupp : suppressed publisher c (b.subState.lookup key) = false) :
    ∃ d, (deliver publisher p b key).trace = b.trace ++ [.sent conn (.publish d)] ∧
      d.topic = p.topic ∧ d.payload = p.payload := by
  simp only [deliver, hsp, hsupp, Bool.false_eq_true, if_false]
  generalize QoS.ofU8 _ = eff
  have hconn' := ((sends_packetIdFor b c eff).conn c).trans hconn
  refine ⟨_, by rw [trace_sendTo hconn', trace_packetIdFor], ?_⟩
  cases b.subState.lookup key <;> exact ⟨rfl, rfl⟩

/-- The client has asked for the topic by a filter of its own, not one of a shared group. -/
def Asks (b : Broker) (c topic : String) : Prop :=
  ∃ filter, parseShared filter = none ∧ subKey c filter ∈ b.router.route topic

/-- Nothing keeps the client from getting messages of this publisher. -/
def Open (b : Broker) (publisher : Option String) (c : String) : Prop :=
  publisher ≠ some c ∨
    ∀ filter state, b.subState.lookup (subKey c filter) = some state → state.noLocal = false

theorem Open.not_suppressed (h : b.Open publisher c)
    (hsp : Text.splitOnce nul key = some (c, filter)) :
    suppressed publisher c (b.subState.lookup key) = false := by
  rw [suppressed]
  rcases h with h | h
  · rw [beq_false_of_ne h, Bool.false_and]
  · rw [(Text.splitOnce_eq_some.mp hsp).2]
    cases hstate : b.subState.lookup (Text.join nul c filter) with
    | none => simp
    | some state => simp [h filter state hstate]

theorem Untouched.open_iff (h : Untouched c b b') (publisher : Option String) :
    b'.Open publisher c ↔ b.Open publisher c := by
  simp only [Open, h.state]

theorem foldl_deliver_reaches (hkey : key ∈ keys) (hsp : Text.splitOnce nul key = some (c, filter))
    (hconn : (b.clients c).map Client.conn = some conn) (hopen : b.Open publisher c) :
    ∃ es d, (keys.foldl (deliver publisher p) b).trace = b.trace ++ es ∧
      .sent conn (.publish d) ∈ es ∧ d.topic = p.topic ∧ d.payload = p.payload := by
  obtain ⟨before, after, rfl⟩ := append_of_mem hkey
  have hsends := sends_foldl (sends_deliver publisher p) before b
  have hsame := (hsends.kept c).untouched
  obtain ⟨es, hes, -⟩ := hsends.delivers
  obtain ⟨d, hd, hmsg⟩ := trace_deliver (p := p) hsp (hsame.conn.trans hconn)
    (((hsame.open_iff publisher).mpr hopen).not_suppressed hsp)
  obtain ⟨es', hes', -⟩ := (sends_foldl (sends_deliver publisher p) after
    (deliver publisher p (before.foldl (deliver publisher p) b) key)).delivers
  refine ⟨es ++ .sent conn (.publish d) :: es', d, ?_, by simp, hmsg⟩
  rw [foldl_append, foldl_cons, hes', hd, hes]
  simp

/-- **Delivery.** A publish reaches the connection a client is registered with if the client has
asked for the topic. -/
theorem publish_reaches {env : Env} (hc : Plain c)
    (hconn : (b.clients c).map Client.conn = some conn) (hasks : b.Asks c p.topic)
    (hopen : b.Open publisher c) :
    ∃ es d, (b.publish env publisher p).trace = b.trace ++ es ∧
      .sent conn (.publish d) ∈ es ∧ d.topic = p.topic ∧ d.payload = p.payload := by
  obtain ⟨filter, hsh, hrou⟩ := hasks
  obtain ⟨key, hkey, f, hsp⟩ := exists_mem_direct hrou (Text.splitOnce_join hc) hsh
  obtain ⟨names, heq⟩ := publish_eq b env publisher p
  have hsame := (kept_selectMembers_prepared c b env publisher p names).untouched
  obtain ⟨es, d, htrc, hmem, hmsg⟩ := foldl_deliver_reaches (p := p)
    (mem_append_left (selectMembers names (b.prepared env publisher p)).1 hkey) hsp
    (hsame.conn.trans hconn) ((hsame.open_iff publisher).mpr hopen)
  refine ⟨.published publisher p :: es, d, ?_, mem_cons_of_mem _ hmem, hmsg⟩
  rw [heq, htrc, trace_selectMembers_prepared, append_assoc, singleton_append]

end Broker

end Synapse.Mqtt
