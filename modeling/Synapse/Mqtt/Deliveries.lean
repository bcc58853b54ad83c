import Synapse.Mqtt.Tables

/-!
# The messages of a publish

A publish goes through the subscriptions one after the other, and each of them may put a message on
a channel and use up a packet identifier. `deliveries` lists these messages with the subscription
each of them goes through, and `trace_publish` says that they are what the call adds to the trace.

Packet identifiers are the only thing one delivery changes for the next. Without them (`bare`) the
deliveries are a function of the keys the router finds, one key at a time (`bare_deliveries`): the
direct ones, of which there is at most one for a client, and the keys of the members chosen for the
shared groups. `publish_fanOut` puts the two together.
-/

namespace Synapse.Mqtt

open Option hiding or_assoc
open List hiding beq_eq_decide

/-- A message on a channel, with the subscription it goes through. -/
structure Delivery where
  key : String
  conn : ℕ
  message : Publish
deriving DecidableEq, Repr

namespace Delivery

def event (d : Delivery) : Event := .sent d.conn (.publish d.message)

/-- The delivery without its packet identifier. -/
def bare (d : Delivery) : Delivery := { d with message := { d.message with packetId := none } }

end Delivery

/-- The key is one of the client's, for a filter that is not shared. -/
def directTo (c key : String) : Bool :=
  (Text.splitOnce nul key).any fun parts ↦ parts.1 = c ∧ parseShared parts.2 = none

def groupOf (key : String) : Option GroupName :=
  (Text.splitOnce nul key).bind fun parts ↦ parseShared parts.2

variable {c : String}

theorem directTo_iff {key : String} :
    directTo c key = true ↔ Plain c ∧ ∃ f, key = subKey c f ∧ parseShared f = none := by
  rw [directTo, Option.any_eq_true]
  constructor
  · rintro ⟨⟨c', f⟩, hsp, h⟩
    obtain ⟨rfl, hf⟩ := of_decide_eq_true h
    obtain ⟨hc, rfl⟩ := Text.splitOnce_eq_some.mp hsp
    exact ⟨hc, f, rfl, hf⟩
  · rintro ⟨hc, f, rfl, hf⟩
    exact ⟨(c, f), Text.splitOnce_join hc, decide_eq_true ⟨rfl, hf⟩⟩

theorem groupOf_subKey {f : String} (hc : Plain c) : groupOf (subKey c f) = parseShared f := by
  rw [groupOf, subKey, Text.splitOnce_join hc, bind_some]

namespace Broker

/-! ## One delivery -/

section Copy

variable (publisher : Option String) (p : Publish)

/-- The QoS a message is delivered at. -/
def effective (state : Option SubState) : QoS :=
  QoS.ofU8 (min p.qos.toU8 ((state.map SubState.qos).getD .atMostOnce).toU8)

def copy (b : Broker) (key : String) : Option Delivery :=
  (Text.splitOnce nul key).bind fun parts ↦
    let state := b.subState.lookup key
    if suppressed publisher parts.1 state then none
    else
      (b.clients parts.1).map fun client ↦
        let eff := effective p state
        ⟨key, client.conn, deliveryOf p state (b.packetIdFor parts.1 eff).1 eff⟩

/-- The same without a packet identifier. -/
def bareCopy (b : Broker) (key : String) : Option Delivery :=
  (Text.splitOnce nul key).bind fun parts ↦
    let state := b.subState.lookup key
    if suppressed publisher parts.1 state then none
    else
      ((b.clients parts.1).map Client.conn).map fun conn ↦
        ⟨key, conn, deliveryOf p state none (effective p state)⟩

theorem map_bare_copy (b : Broker) (key : String) :
    (copy publisher p b key).map Delivery.bare = bareCopy publisher p b key := by
  rw [copy, bareCopy]
  rcases Text.splitOnce nul key with _ | ⟨c, f⟩
  · rfl
  simp only [bind_some]
  cases suppressed publisher c (b.subState.lookup key) with
  | true => rfl
  | false =>
    cases b.clients c with
    | none => rfl
    | some client => cases b.subState.lookup key <;> rfl

/-- A message that is given a packet identifier and sent is on record if the client is there. -/
theorem trace_sendTo_packetIdFor (b : Broker) (key c : String) (qos : QoS) (pub : Publish) :
    (sendTo (b.packetIdFor c qos).2 c pub).trace = b.trace ++
      ((b.clients c).map fun client ↦ (⟨key, client.conn, pub⟩ : Delivery)).toList.map
        Delivery.event := by
  have hconn := (sends_packetIdFor b c qos).conn c
  rcases hcli : b.clients c with _ | client
  · have hnone : (b.packetIdFor c qos).2.clients c = none := by
      rwa [hcli, map_none, map_eq_none_iff] at hconn
    rw [sendTo, hnone]
    simp [trace_packetIdFor]
  · rw [hcli, map_some] at hconn
    rw [trace_sendTo hconn, trace_packetIdFor]
    rfl

theorem trace_deliver_eq (b : Broker) (key : String) : (deliver publisher p b key).trace =
      b.trace ++ (copy publisher p b key).toList.map Delivery.event := by
  rw [deliver, copy]
  rcases Text.splitOnce nul key with _ | ⟨c, f⟩
  · simp
  simp only [bind_some]
  cases suppressed publisher c (b.subState.lookup key) with
  | true => simp
  | false => exact trace_sendTo_packetIdFor ..

end Copy

/-! ## What a delivery depends on -/

variable {b b' : Broker}

theorem bareCopy_congr {publisher : Option String} {p : Publish} {key : String}
    (hstate : b'.subState.lookup key = b.subState.lookup key)
    (hconn : ∀ c f, Text.splitOnce nul key = some (c, f) →
      (b'.clients c).map Client.conn = (b.clients c).map Client.conn) :
    bareCopy publisher p b' key = bareCopy publisher p b key := by
  rw [bareCopy, bareCopy, hstate]
  rcases hsp : Text.splitOnce nul key with _ | ⟨c, f⟩
  · rfl
  · simp only [bind_some, hconn c f hsp]

theorem SameTables.bareCopy (h : SameTables b b') (publisher : Option String) (p : Publish) :
    Broker.bareCopy publisher p b' = Broker.bareCopy publisher p b :=
  funext fun _ ↦ bareCopy_congr (by rw [h.state]) fun c _ _ ↦ h.conn c

/-! ## All deliveries -/

section Emitted

variable {α β : Type} {act : Broker → α → Broker} {emit : Broker → α → List Delivery}

/-- What a sequence of actions emits, each in the state the ones before it leave. -/
def emitted (emit : Broker → α → List β) (act : Broker → α → Broker) :
    List α → Broker → List β
  | [], _ => []
  | x :: xs, b => emit b x ++ emitted emit act xs (act b x)

theorem trace_foldl_emitted (h : ∀ b x, (act b x).trace = b.trace ++ (emit b x).map Delivery.event)
    (xs : List α) (b : Broker) :
    (xs.foldl act b).trace = b.trace ++ (emitted emit act xs b).map Delivery.event := by
  induction xs generalizing b with
  | nil => simp [emitted]
  | cons x xs ih => rw [foldl_cons, ih, h, emitted, map_append, append_assoc]

theorem emitted_append (emit : Broker → α → List β) (xs ys : List α) (b : Broker) :
    emitted emit act (xs ++ ys) b =
      emitted emit act xs b ++ emitted emit act ys (xs.foldl act b) := by
  induction xs generalizing b with
  | nil => rfl
  | cons x xs ih => rw [cons_append, emitted, emitted, ih, append_assoc, foldl_cons]

theorem map_bare_emitted (plain : Broker → α → List Delivery)
    (hpln : ∀ b x, (emit b x).map Delivery.bare = plain b x)
    (hact : ∀ b x, plain (act b x) = plain b) (xs : List α) (b : Broker) :
    (emitted emit act xs b).map Delivery.bare = xs.flatMap (plain b) := by
  induction xs generalizing b with
  | nil => rfl
  | cons x xs ih => rw [emitted, map_append, hpln, ih, hact, flatMap_cons]

end Emitted

/-- The deliveries through the subscriptions given, in this order. -/
def copies (publisher : Option String) (p : Publish) (keys : List String) (b : Broker) :
    List Delivery :=
  emitted (fun b key ↦ (copy publisher p b key).toList) (deliver publisher p) keys b

def deliveries (b : Broker) (env : Env) (publisher : Option String) (p : Publish) :
    List Delivery :=
  let b := b.prepared env publisher p
  let found := partition (b.router.route p.topic)
  let (shared, b) := selectMembers (env.order.groups found.groups) b
  copies publisher p (found.direct ++ shared) b

/-- **The trace of a publish**: the call is on record, and then the deliveries follow. -/
theorem trace_publish (b : Broker) (env : Env) (publisher : Option String) (p : Publish) :
    (b.publish env publisher p).trace =
      b.trace ++ .published publisher p :: (b.deliveries env publisher p).map Delivery.event := by
  have hpub : b.publish env publisher p =
      ((partition ((b.prepared env publisher p).router.route p.topic)).direct ++
        (selectMembers (env.order.groups
          (partition ((b.prepared env publisher p).router.route p.topic)).groups)
            (b.prepared env publisher p)).1).foldl (deliver publisher p)
        (selectMembers (env.order.groups
          (partition ((b.prepared env publisher p).router.route p.topic)).groups)
            (b.prepared env publisher p)).2 := rfl
  rw [hpub, trace_foldl_emitted (trace_deliver_eq publisher p), trace_selectMembers_prepared,
    append_assoc, singleton_append]
  rfl

theorem map_bare_copies (publisher : Option String) (p : Publish) (keys : List String)
    (b : Broker) :
    (copies publisher p keys b).map Delivery.bare = keys.filterMap (bareCopy publisher p b) := by
  rw [filterMap_eq_flatMap_toList]
  refine map_bare_emitted (fun b key ↦ (bareCopy publisher p b key).toList)
    (fun b key ↦ ?_) (fun b key ↦ ?_) keys b
  · rw [← map_bare_copy, toList_map]
  · rw [(sends_deliver publisher p b key).bareCopy]

theorem filter_filterMap_of_kind {α β : Type} {f : α → Option β} {kind : α → Bool}
    {kind' : β → Bool} (hkind : ∀ x y, f x = some y → kind' y = kind x) (xs : List α) :
    (xs.filterMap f).filter kind' = (xs.filter kind).filterMap f := by
  rw [filter_filterMap, filterMap_filter]
  refine filterMap_congr fun x _ ↦ ?_
  cases hx : f x with
  | none => simp
  | some y => simp [Option.filter, hkind x y hx]

/-! ## Members chosen -/

theorem candidate_congr (hconn : ∀ x, (b'.clients x).isSome = (b.clients x).isSome)
    (members : List String) (cursor : ℕ) :
    b'.candidate members cursor = b.candidate members cursor := by
  simp only [candidate, hconn]

variable {name : GroupName}

theorem selectMember_fst_congr (hsh : b'.sharedMembers name = b.sharedMembers name)
    (hconn : ∀ x, (b'.clients x).isSome = (b.clients x).isSome) :
    (b'.selectMember name).1 = (b.selectMember name).1 := by
  rw [selectMember, selectMember, hsh]
  rcases b.sharedMembers name with _ | ⟨members, cursor⟩
  · rfl
  · dsimp only
    rw [candidate_congr hconn]
    cases b.candidate members cursor <;> rfl

theorem sharedMembers_selectMember_of_ne {name' : GroupName} (hne : name' ≠ name) (b : Broker) :
    (b.selectMember name).2.sharedMembers name' = b.sharedMembers name' := by
  rcases selectMember_cases b name with heq | ⟨idx, -, heq⟩
  · rw [heq]
  · rw [heq]
    exact Function.update_of_ne hne ..

/-- The member chosen is connected. -/
theorem selectMember_fst_eq_some {key : String} (h : (b.selectMember name).1 = some key) :
    ∃ m ∈ b.membersOf name, key = subKey m (sharedFilter name) ∧ (b.clients m).isSome := by
  rw [selectMember] at h
  rcases hgr : b.sharedMembers name with _ | ⟨members, cursor⟩
  · rw [hgr] at h
    cases h
  rw [hgr] at h
  dsimp only at h
  rcases hcand : b.candidate members cursor with _ | ⟨idx, m⟩
  · rw [hcand] at h
    cases h
  rw [hcand] at h
  obtain ⟨-, hm, hconn⟩ := candidate_eq_some hcand
  refine ⟨m, ?_, (some.inj h).symm, hconn⟩
  rw [membersOf_eq hgr]
  exact mem_of_getElem? hm

/-- Each group chooses its member on its own. -/
theorem selectMembers_fst {names : List GroupName} (hnd : names.Nodup) (b : Broker) :
    (selectMembers names b).1 = names.filterMap fun name ↦ (b.selectMember name).1 := by
  induction names generalizing b with
  | nil => rfl
  | cons name names ih =>
    obtain ⟨hname, hnd⟩ := nodup_cons.mp hnd
    have hrest : names.filterMap (fun name' ↦ ((b.selectMember name).2.selectMember name').1) =
        names.filterMap fun name' ↦ (b.selectMember name').1 := by
      refine filterMap_congr fun name' hname' ↦ selectMember_fst_congr ?_ fun x ↦ ?_
      · refine sharedMembers_selectMember_of_ne ?_ b
        rintro rfl
        exact hname hname'
      · obtain ⟨shared, heq⟩ := b.selectMember_eq name
        rw [heq]
    rw [selectMembers, filterMap_cons]
    change (b.selectMember name).1.toList ++ (selectMembers names (b.selectMember name).2).1 = _
    rw [ih hnd, hrest]
    cases (b.selectMember name).1 <;> rfl

/-! ## The keys found -/

theorem groups_add (q : Partition) (key : String) : (q.add key).groups = match groupOf key with
      | some name => if name ∈ q.groups then q.groups else q.groups ++ [name]
      | none => q.groups := by
  rw [Partition.add, groupOf]
  rcases Text.splitOnce nul key with _ | ⟨c, f⟩
  · rfl
  simp only [bind_some]
  cases parseShared f with
  | some name => rfl
  | none =>
    split_ifs <;> rfl

theorem nodup_groups_partition (keys : List String) : (partition keys).groups.Nodup := by
  refine List.foldlRecOn (motive := fun q : Partition ↦ q.groups.Nodup) keys _ nodup_nil ?_
  intro q hq key _
  rw [groups_add]
  cases groupOf key with
  | none => exact hq
  | some name =>
    dsimp only
    split_ifs with hname
    · exact hq
    · rw [← concat_eq_append]
      exact hq.concat hname

theorem mem_groups_foldl (keys : List String) (q : Partition) :
    name ∈ (keys.foldl Partition.add q).groups ↔
      name ∈ q.groups ∨ ∃ key ∈ keys, groupOf key = some name := by
  induction keys generalizing q with
  | nil => simp
  | cons key keys ih =>
    have hadd : name ∈ (q.add key).groups ↔ name ∈ q.groups ∨ groupOf key = some name := by
      rw [groups_add]
      cases groupOf key with
      | none => simp
      | some group =>
        dsimp only
        split_ifs with hmem
        · refine ⟨.inl, fun h ↦ h.elim id fun h ↦ ?_⟩
          rwa [← some.inj h]
        · rw [mem_append, mem_singleton, some.injEq, eq_comm]
    rw [foldl_cons, ih, hadd, or_assoc]
    simp only [mem_cons, exists_eq_or_imp]

theorem mem_seen_add_iff (c key : String) (q : Partition) :
    c ∈ (q.add key).seen ↔ c ∈ q.seen ∨ directTo c key = true := by
  rw [Partition.add, directTo]
  rcases Text.splitOnce nul key with _ | ⟨c', f⟩
  · simp
  cases hf : parseShared f with
  | some name => simp [hf]
  | none =>
    simp only [any_some, hf, and_true, decide_eq_true_eq]
    by_cases hc' : c' ∈ q.seen
    · rw [if_pos hc']
      exact ⟨.inl, fun h ↦ h.elim id fun h ↦ h ▸ hc'⟩
    · rw [if_neg hc', mem_append, mem_singleton, eq_comm (a := c)]

theorem filter_direct_add (c key : String) (q : Partition) :
    (q.add key).direct.filter (directTo c) =
      q.direct.filter (directTo c) ++ if directTo c key ∧ c ∉ q.seen then [key] else [] := by
  rw [Partition.add]
  rcases hsp : Text.splitOnce nul key with _ | ⟨c', f⟩
  · simp [directTo, hsp]
  dsimp only
  cases hf : parseShared f with
  | some name => simp [directTo, hsp, hf]
  | none =>
    by_cases hc : c' = c
    · subst hc
      have hkey : directTo c' key = true := by simp [directTo, hsp, hf]
      by_cases hseen : c' ∈ q.seen <;> simp [hkey, hseen]
    · have hkey : directTo c key = false := by simp [directTo, hsp, hc]
      by_cases hseen : c' ∈ q.seen <;> simp [hkey, hseen]

/-- Of the direct keys of a client the first is kept. -/
theorem filter_direct_foldl (c : String) (keys : List String) (q : Partition) :
    (keys.foldl Partition.add q).direct.filter (directTo c) = q.direct.filter (directTo c) ++
        if c ∈ q.seen then [] else (keys.find? (directTo c)).toList := by
  induction keys generalizing q with
  | nil => simp
  | cons key keys ih =>
    rw [foldl_cons, ih, filter_direct_add, append_assoc, List.find?_cons]
    simp only [mem_seen_add_iff]
    cases hkey : directTo c key with
    | true => by_cases hseen : c ∈ q.seen <;> simp [hseen]
    | false => simp

theorem filter_direct_partition (c : String) (keys : List String) :
    (partition keys).direct.filter (directTo c) = (keys.find? (directTo c)).toList := by
  rw [partition, filter_direct_foldl]
  simp

theorem groupOf_direct {keys : List String} {key : String} (h : key ∈ (partition keys).direct) :
    groupOf key = none := by
  have hall : ∀ k ∈ (partition keys).direct, groupOf k = none := by
    refine List.foldlRecOn (motive := fun q : Partition ↦ ∀ k ∈ q.direct, groupOf k = none) keys _
      (by simp) ?_
    intro q hq k _
    rw [Partition.add]
    rcases hsp : Text.splitOnce nul k with _ | ⟨c, f⟩
    · exact hq
    dsimp only
    cases hf : parseShared f with
    | some name => exact hq
    | none =>
      split_ifs
      · exact hq
      · refine forall_mem_append.mpr ⟨hq, forall_mem_singleton.mpr ?_⟩
        rw [groupOf, hsp, bind_some, hf]
  exact hall key h

/-! ## The deliveries key by key -/

section

variable (b : Broker) (env : Env) (publisher : Option String) (p : Publish)

/-- **The deliveries without packet identifiers**, as a function of the keys found. -/
theorem bare_deliveries : (b.deliveries env publisher p).map Delivery.bare =
      ((partition (b.router.route p.topic)).direct ++
        (env.order.groups (partition (b.router.route p.topic)).groups).filterMap
          fun name ↦ (b.selectMember name).1).filterMap (bareCopy publisher p b) := by
  have hprep := sameTables_prepared b env publisher p
  set groups := env.order.groups (partition (b.router.route p.topic)).groups with hgroups
  have hnd : groups.Nodup := (env.order.groups_perm _).nodup_iff.mpr (nodup_groups_partition _)
  have hchosen : (selectMembers groups (b.prepared env publisher p)).1 =
      groups.filterMap fun name ↦ (b.selectMember name).1 := by
    rw [selectMembers_fst hnd]
    exact filterMap_congr fun name _ ↦ selectMember_fst_congr (by rw [hprep.shared]) hprep.isSome
  obtain ⟨shared, heq⟩ := selectMembers_eq groups (b.prepared env publisher p)
  rw [deliveries, hprep.router, ← hgroups]
  rw [map_bare_copies, hchosen, heq, ← hprep.bareCopy]
  rfl

/-- The deliveries through keys of some kind. -/
theorem bare_deliveries_filter (kind : String → Bool) :
    ((b.deliveries env publisher p).filter fun d ↦ kind d.key).map Delivery.bare =
      ((partition (b.router.route p.topic)).direct.filter kind ++
        ((env.order.groups (partition (b.router.route p.topic)).groups).filterMap
          fun name ↦ (b.selectMember name).1).filter kind).filterMap (bareCopy publisher p b) := by
  have hbare : ((b.deliveries env publisher p).filter fun d ↦ kind d.key).map Delivery.bare =
      ((b.deliveries env publisher p).map Delivery.bare).filter fun d ↦ kind d.key := by
    rw [List.filter_map]
    rfl
  have hkind : ∀ key d, bareCopy publisher p b key = some d → kind d.key = kind key := by
    intro key d h
    obtain ⟨parts, -, h⟩ := bind_eq_some_iff.mp h
    dsimp only at h
    split_ifs at h
    obtain ⟨conn, -, rfl⟩ := map_eq_some_iff.mp h
    rfl
  rw [hbare, bare_deliveries, filter_filterMap_of_kind hkind, filter_append]

end

theorem Tables.groupOf_chosen (h : b.Tables) {key : String}
    (hkey : (b.selectMember name).1 = some key) : groupOf key = some name := by
  obtain ⟨m, hm, rfl, -⟩ := selectMember_fst_eq_some hkey
  obtain ⟨hname, hpln, -⟩ := (h.member name m).mp hm
  rwa [groupOf_subKey hpln]

/-- **A client's own deliveries**: there is one at most, through the first of its filters that the
router finds. -/
theorem Tables.bare_direct (h : b.Tables) (env : Env) (publisher : Option String) (p : Publish)
    (c : String) :
    ((b.deliveries env publisher p).filter fun d ↦ directTo c d.key).map Delivery.bare =
      (((b.router.route p.topic).find? (directTo c)).bind
        (Broker.bareCopy publisher p b)).toList := by
  have hsh : ((env.order.groups (partition (b.router.route p.topic)).groups).filterMap
      fun name ↦ (b.selectMember name).1).filter (directTo c) = [] := by
    refine filter_eq_nil_iff.mpr fun key hkey hdrt ↦ ?_
    obtain ⟨name, -, hchosen⟩ := mem_filterMap.mp hkey
    have hgr := h.groupOf_chosen hchosen
    obtain ⟨hc, f, rfl, hf⟩ := directTo_iff.mp hdrt
    rw [groupOf_subKey hc, hf] at hgr
    cases hgr
  rw [bare_deliveries_filter, hsh, append_nil, filter_direct_partition]
  cases (b.router.route p.topic).find? (directTo c) with
  | none => rfl
  | some key =>
    rw [bind_some, toList_some, filterMap_cons]
    cases Broker.bareCopy publisher p b key <;> rfl

/-- The topic matches a subscription of the shared group. -/
def Served (b : Broker) (name : GroupName) (topic : String) : Prop :=
  ∃ key ∈ b.router.route topic, groupOf key = some name

instance (b : Broker) (name : GroupName) (topic : String) : Decidable (b.Served name topic) :=
  inferInstanceAs (Decidable (∃ key ∈ _, _))

theorem mem_groups_iff_served {topic : String} :
    name ∈ (partition (b.router.route topic)).groups ↔ b.Served name topic := by
  rw [partition, mem_groups_foldl]
  simp [Served]

/-- **The deliveries of a shared group**: if one of its keys is found, the one to the member chosen,
and none otherwise. -/
theorem Tables.bare_group (h : b.Tables) (env : Env) (publisher : Option String) (p : Publish)
    (name : GroupName) :
    ((b.deliveries env publisher p).filter fun d ↦ groupOf d.key = some name).map Delivery.bare =
      if b.Served name p.topic then
        ((b.selectMember name).1.bind (Broker.bareCopy publisher p b)).toList
      else [] := by
  have hdrt : (partition (b.router.route p.topic)).direct.filter
      (fun key ↦ groupOf key = some name) = [] := by
    refine filter_eq_nil_iff.mpr fun key hkey hgr ↦ ?_
    have hname := of_decide_eq_true hgr
    rw [groupOf_direct hkey] at hname
    cases hname
  have hkind : ∀ name' key, (b.selectMember name').1 = some key →
      decide (groupOf key = some name) = (name' == name) := by
    intro name' key hkey
    simp only [h.groupOf_chosen hkey, some.injEq, beq_eq_decide]
  have hnms := env.order.groups_perm (partition (b.router.route p.topic)).groups
  rw [bare_deliveries_filter b env publisher p fun key ↦ groupOf key = some name, hdrt,
    nil_append, filter_filterMap_of_kind hkind, filter_beq, hnms.count_eq,
    (nodup_groups_partition _).count]
  simp only [mem_groups_iff_served]
  split_ifs
  · rw [replicate_one, filterMap_cons]
    cases (b.selectMember name).1 with
    | none => rfl
    | some key =>
      rw [bind_some, filterMap_nil, filterMap_cons]
      cases Broker.bareCopy publisher p b key <;> rfl
  · rfl

/-- Every delivery goes through a subscription of a client, of its own or in a shared group. -/
theorem direct_or_group {env : Env} {publisher : Option String} {p : Publish} {d : Delivery}
    (hd : d ∈ b.deliveries env publisher p) :
    (∃ c, directTo c d.key = true) ∨ ∃ name, groupOf d.key = some name := by
  have hbare := mem_map_of_mem (f := Delivery.bare) hd
  rw [bare_deliveries] at hbare
  obtain ⟨key, -, hcopy⟩ := mem_filterMap.mp hbare
  obtain ⟨⟨c, f⟩, hsplit, hcopy⟩ := bind_eq_some_iff.mp hcopy
  dsimp only at hcopy
  split_ifs at hcopy
  obtain ⟨conn, -, heq⟩ := map_eq_some_iff.mp hcopy
  obtain rfl : key = d.key := congrArg Delivery.key heq
  cases hf : parseShared f with
  | none => exact .inl ⟨c, by rw [directTo, hsplit, any_some, hf]; simp⟩
  | some name => exact .inr ⟨name, by rw [groupOf, hsplit, bind_some, hf]⟩

/-- **Fan-out.** Under ids without U+0000, a publish leaves on record the call and then its
deliveries, which all go through subscriptions. A client gets the copy through the first of its own
keys that the router finds, and a shared group of which it finds a key the one for the member
chosen; nobody gets more. -/
theorem publish_fanOut {core : SynapseCore} {b : Broker} (hnew : Broker.new core = some b)
    (calls : List BrokerCall) (hcalls : ∀ call ∈ calls, call.IsPlain) (env : Env)
    (publisher : Option String) (p : Publish) :
    ∃ ds : List Delivery, ((b.run calls).publish env publisher p).trace =
        (b.run calls).trace ++ .published publisher p :: ds.map Delivery.event ∧
      (∀ d ∈ ds, (∃ c, directTo c d.key = true) ∨ ∃ name, groupOf d.key = some name) ∧
      (∀ c, (ds.filter fun d ↦ directTo c d.key).map Delivery.bare =
        ((((b.run calls).router.route p.topic).find? (directTo c)).bind
          (bareCopy publisher p (b.run calls))).toList) ∧
      ∀ name, (ds.filter fun d ↦ groupOf d.key = some name).map Delivery.bare =
        if (b.run calls).Served name p.topic then
          (((b.run calls).selectMember name).1.bind (bareCopy publisher p (b.run calls))).toList
        else [] := by
  have htables := tables_run hnew hcalls
  exact ⟨_, trace_publish .., fun _ ↦ direct_or_group, htables.bare_direct env publisher p,
    htables.bare_group env publisher p⟩

/-- Client `c` subscribes to `t` twice over, and `a` and `b` share a subscription to it. -/
def fanOutRun : List BrokerCall :=
  let topic (filter : String) : SubscribeTopic :=
    ⟨filter, .exactlyOnce, false, false, .sendAtSubscribe⟩
  [.connect "a" true 0, .connect "b" true 1, .connect "c" true 2,
    .subscribe ⟨0, .inOrder⟩ "a" [topic "$share/g/t"] none,
    .subscribe ⟨0, .inOrder⟩ "b" [topic "$share/g/t"] none,
    .subscribe ⟨0, .inOrder⟩ "c" [topic "t", topic "#"] none]

/-- A message to `t` goes to `c` once, and to `a` for the group. -/
theorem publish_fanOut_fanOutRun :
    let b := fresh.run fanOutRun
    let p : Publish := ⟨false, .atMostOnce, false, "t", none, [1], none⟩
    ∃ ds : List Delivery,
      (b.publish ⟨0, .inOrder⟩ none p).trace =
        b.trace ++ .published none p :: ds.map Delivery.event ∧
      ((ds.filter fun d ↦ directTo "c" d.key).map Delivery.bare).map Delivery.conn = [2] ∧
      ((ds.filter fun d ↦ groupOf d.key = some ("g", "t")).map Delivery.bare).map Delivery.conn =
        [0] := by
  obtain ⟨ds, htrace, -, hdirect, hgroup⟩ :=
    publish_fanOut new_fresh fanOutRun (by decide) ⟨0, .inOrder⟩ none _
  refine ⟨ds, htrace, ?_, ?_⟩
  · rw [hdirect]
    decide +kernel
  · rw [hgroup]
    decide +kernel

end Broker

end Synapse.Mqtt
