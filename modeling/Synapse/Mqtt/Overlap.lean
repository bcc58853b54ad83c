import Synapse.Mqtt.Noninterference

/-!
# Overlapping subscriptions

A client gets a message once through its filters that are not shared, even if several of them match.
The broker takes the first of these filters in the order of the router, which is the order in which
they were subscribed, and its options alone decide whether the client gets the message and at which
QoS (`received_subscribeEach`). The others are not looked at, so the result depends on the order as
soon as two matching filters would decide differently, and in no other case (`overlap_iff`).
-/

namespace Synapse.Mqtt

open List Option

namespace Broker

/-- The filter matches the topic, as the router finds it. -/
def hits (topic : String) (t : SubscribeTopic) : Bool :=
  (compile t.filter slash).matchesLevels (splitLevels (asBytes topic) slash)

/-- The subscription keeps the message from the client, by No Local. -/
def mutes (publisher : Option String) (c : String) (t : SubscribeTopic) : Bool :=
  publisher == some c && t.noLocal

/-- What one subscription alone gives the client: the QoS of the message, or nothing. -/
def outcome (publisher : Option String) (p : Publish) (c : String) (t : SubscribeTopic) :
    List QoS :=
  if mutes publisher c t then [] else [QoS.ofU8 (min p.qos.toU8 (granted t))]

/-- What all subscriptions together should give it: the message at the lesser of its QoS and the
greatest QoS granted to a matching subscription that does not mute it. -/
def claimed (publisher : Option String) (p : Publish) (c : String) (ts : List SubscribeTopic) :
    List QoS :=
  let speaking := ts.filter fun t ↦ hits p.topic t && !mutes publisher c t
  if speaking = [] then []
  else [QoS.ofU8 (min p.qos.toU8 ((speaking.map granted).foldr max 0))]

/-- The QoS at which a client gets a message through its filters that are not shared. -/
def receivedQos (b : Broker) (env : Env) (publisher : Option String) (p : Publish) (c : String) :
    List QoS :=
  (received c b (.publish env publisher p)).map fun d ↦ d.message.qos

/-- One SUBSCRIBE for each of the filters, in this order. -/
def subscribeEach (env : Env) (c : String) (subId : String → Option UInt32)
    (ts : List SubscribeTopic) : List BrokerCall :=
  ts.map fun t ↦ .subscribe env c [t] (subId t.filter)

/-! ## The order of the router -/

section Order

variable {b : Broker} {c : String} {ts : List SubscribeTopic}
  {subs : List (String × CompiledFilter)} {publisher : Option String} {p : Publish}

theorem view_run_subscribeEach (env : Env) (c : String) (subId : String → Option UInt32)
    (ts : List SubscribeTopic) (b : Broker) :
    (b.run (subscribeEach env c subId ts)).view c =
      ts.foldl (fun v t ↦ v.add c (subId t.filter) t) (b.view c) := by
  induction ts generalizing b with
  | nil => rfl
  | cons t ts ih =>
    refine (ih _).trans ?_
    have hview : (b.call (.subscribe env c [t] (subId t.filter))).view c =
        (b.view c).add c (subId t.filter) t := view_subscribeTopic ..
    rw [foldl_cons, ← hview]

theorem subscribed_of_not_mem {id filter : String} (h : id ∉ subs.map Prod.fst) :
    TopicRouter.subscribed subs id filter = subs ++ [(id, compile filter slash)] := by
  rw [TopicRouter.subscribed, TopicRouter.replaceSlot_eq_none.mpr h]

/-- New filters come last in the router, in the order in which they were subscribed. -/
theorem foldl_add {v : View} (subId : String → Option UInt32)
    (hts : (ts.map SubscribeTopic.filter).Nodup)
    (hnew : ∀ t ∈ ts, subKey c t.filter ∉ v.subs.map Prod.fst) :
    (ts.foldl (fun v t ↦ v.add c (subId t.filter) t) v).conn = v.conn ∧
      (ts.foldl (fun v t ↦ v.add c (subId t.filter) t) v).subs =
        v.subs ++ ts.map (fun t ↦ (subKey c t.filter, compile (realFilter t.filter) slash)) ∧
      (∀ f ∉ ts.map SubscribeTopic.filter,
        (ts.foldl (fun v t ↦ v.add c (subId t.filter) t) v).state f = v.state f) ∧
      ∀ t ∈ ts, (ts.foldl (fun v t ↦ v.add c (subId t.filter) t) v).state t.filter =
        some ⟨QoS.ofU8 (granted t), t.noLocal, t.retainAsPublished, subId t.filter⟩ := by
  induction ts generalizing v with
  | nil => exact ⟨rfl, by simp, fun _ _ ↦ rfl, by simp⟩
  | cons t ts ih =>
    rw [map_cons, nodup_cons] at hts
    obtain ⟨hnew_t, hnew⟩ := forall_mem_cons.mp hnew
    have hsubs : (v.add c (subId t.filter) t).subs =
        v.subs ++ [(subKey c t.filter, compile (realFilter t.filter) slash)] :=
      subscribed_of_not_mem hnew_t
    obtain ⟨hconn, hsubs', hoth, hstate⟩ := ih (v := v.add c (subId t.filter) t) hts.2 (by
      intro t' ht'
      rw [hsubs, map_append, mem_append, map_singleton, mem_singleton, subKey_filter_inj]
      rintro (h | h)
      · exact hnew t' ht' h
      · exact hts.1 (h ▸ mem_map_of_mem ht'))
    rw [foldl_cons]
    refine ⟨hconn, ?_, fun f hf ↦ ?_, forall_mem_cons.mpr ⟨?_, hstate⟩⟩
    · rw [hsubs', hsubs, append_assoc, map_cons]
      rfl
    · rw [map_cons, mem_cons, not_or] at hf
      rw [hoth f hf.2]
      exact Function.update_of_ne hf.1 ..
    · rw [hoth _ hts.1]
      exact Function.update_self ..

/-- The client has no filter that is not shared. -/
def NoDirect (b : Broker) (c : String) : Prop :=
  ∀ f, parseShared f = none → subKey c f ∉ b.subState

theorem directTo_of_noDirect (h : b.Tables) (hnone : b.NoDirect c) {key : String}
    (hkey : key ∈ (b.view c).subs.map Prod.fst) : directTo c key = false := by
  refine Bool.eq_false_iff.mpr fun hdrt ↦ ?_
  obtain ⟨-, f, rfl, hf⟩ := directTo_iff.mp hdrt
  obtain ⟨entry, hent, heq⟩ := mem_map.mp hkey
  have hrtr : subKey c f ∈ b.router.subs.map Prod.fst :=
    mem_map.mpr ⟨entry, mem_of_mem_filter hent, heq⟩
  exact hnone f hf ((h.mem_router _).mp hrtr)

/-- The key found for the client is that of its first filter that matches. -/
theorem find?_directTo (hc : Plain c) (hsh : ∀ t ∈ ts, parseShared t.filter = none)
    (hsubs : ∀ key ∈ subs.map Prod.fst, directTo c key = false) (topic : String) :
    (((subs ++ ts.map (fun t ↦ (subKey c t.filter, compile (realFilter t.filter) slash))).filter
        fun entry ↦ entry.2.matchesLevels (splitLevels (asBytes topic) slash)).map Prod.fst).find?
          (directTo c) =
      (ts.find? (hits topic)).map fun t ↦ subKey c t.filter := by
  have hfst : (((subs.filter fun entry ↦
      entry.2.matchesLevels (splitLevels (asBytes topic) slash)).map Prod.fst).find?
        (directTo c)) = none := by
    refine List.find?_eq_none.mpr fun key hkey ↦ ?_
    obtain ⟨entry, hent, rfl⟩ := mem_map.mp hkey
    rw [hsubs _ (mem_map_of_mem (mem_of_mem_filter hent))]
    exact Bool.false_ne_true
  rw [filter_append, map_append, List.find?_append, hfst, none_or]
  induction ts with
  | nil => rfl
  | cons t ts ih =>
    obtain ⟨ht, hsh⟩ := forall_mem_cons.mp hsh
    have hreal : realFilter t.filter = t.filter := by rw [realFilter, ht]; rfl
    have hdrt : directTo c (subKey c t.filter) = true := directTo_iff.mpr ⟨hc, t.filter, rfl, ht⟩
    rw [map_cons, filter_cons, List.find?_cons, hits, hreal]
    cases (compile t.filter slash).matchesLevels (splitLevels (asBytes topic) slash) with
    | true => simp [hdrt]
    | false => simpa using ih hsh

theorem toU8_ofU8_granted (t : SubscribeTopic) : (QoS.ofU8 (granted t)).toU8 = granted t := by
  rw [granted]
  cases t.qos <;> rfl

/-- **The first matching filter decides.** -/
theorem received_subscribeEach (h : b.Tables) (hc : Plain c) {conn : ℕ}
    (hconn : (b.clients c).map Client.conn = some conn) (hnone : b.NoDirect c)
    (hts : (ts.map SubscribeTopic.filter).Nodup)
    (hsh : ∀ t ∈ ts, parseShared t.filter = none) (env : Env)
    (subId : String → Option UInt32) (env' : Env) (publisher : Option String) (p : Publish) :
    (b.run (subscribeEach env c subId ts)).receivedQos env' publisher p c =
      ((ts.find? (hits p.topic)).map (outcome publisher p c)).getD [] := by
  have hnew : ∀ t ∈ ts, subKey c t.filter ∉ (b.view c).subs.map Prod.fst := by
    intro t ht hmem
    have hfalse := directTo_of_noDirect h hnone hmem
    rw [directTo_iff.mpr ⟨hc, t.filter, rfl, hsh t ht⟩] at hfalse
    cases hfalse
  have hcl : ∀ call ∈ subscribeEach env c subId ts, call.IsPlain := by
    intro call hcall
    obtain ⟨t, -, rfl⟩ := mem_map.mp hcall
    exact fun id hid ↦ some.inj hid ▸ hc
  have htabs : (b.run (subscribeEach env c subId ts)).Tables :=
    h.foldl fun _ h' call hcall ↦ h'.call (hcl call hcall)
  have hview := view_run_subscribeEach env c subId ts b
  obtain ⟨hconn', hsubs, -, hstate⟩ := foldl_add subId hts hnew
  rw [← hview] at hconn' hsubs hstate
  rw [receivedQos, received, htabs.bare_direct, find?_route, hsubs,
    find?_directTo hc hsh fun key ↦ directTo_of_noDirect h hnone]
  cases hfind : ts.find? (hits p.topic) with
  | none => rfl
  | some t =>
    have ht := hstate t (mem_of_find?_eq_some hfind)
    change (b.run (subscribeEach env c subId ts)).subState.lookup (subKey c t.filter) = _ at ht
    replace hconn' : ((b.run (subscribeEach env c subId ts)).clients c).map Client.conn =
        some conn := hconn'.trans hconn
    rw [map_some, bind_some, map_some, getD_some, bareCopy, ht, subKey,
      Text.splitOnce_join hc, bind_some, outcome, mutes]
    dsimp only
    rw [suppressed, any_some, hconn']
    split_ifs
    · rfl
    · rw [map_some, toList_some, map_singleton, effective, map_some, getD_some, toU8_ofU8_granted]
      rfl

/-! ## All orders -/

theorem max_eq_or (x y : UInt8) : max x y = x ∨ max x y = y := by
  change (if x ≤ y then y else x) = x ∨ (if x ≤ y then y else x) = y
  split_ifs
  · exact .inr rfl
  · exact .inl rfl

theorem max_zero_right (x : UInt8) : max x 0 = x := by
  change (if x ≤ 0 then 0 else x) = x
  split_ifs with h
  · rw [UInt8.le_iff_toNat_le] at h
    exact UInt8.toNat_inj.mp (Nat.le_zero.mp h).symm
  · rfl

/-- The greatest of some levels is one of them. -/
theorem foldr_max_mem {levels : List UInt8} (h : levels ≠ []) : levels.foldr max 0 ∈ levels := by
  induction levels with
  | nil => exact absurd rfl h
  | cons level levels ih =>
    rw [foldr_cons]
    cases levels with
    | nil => exact mem_singleton.mpr (max_zero_right level)
    | cons next levels =>
      rcases max_eq_or level ((next :: levels).foldr max 0) with hmax | hmax
      · rw [hmax]
        exact mem_cons_self
      · rw [hmax]
        exact mem_cons_of_mem _ (ih (cons_ne_nil _ _))

/-- If all matching filters decide alike, their decision is the one all of them should give. -/
theorem claimed_eq_outcome {t : SubscribeTopic} (ht : t ∈ ts) (hhits : hits p.topic t = true)
    (hagr : ∀ t' ∈ ts, hits p.topic t' = true →
      outcome publisher p c t' = outcome publisher p c t) :
    claimed publisher p c ts = outcome publisher p c t := by
  rw [claimed]
  split_ifs with hnone
  · -- all of them are silent
    have hmutes : mutes publisher c t = true := by
      have hnot := filter_eq_nil_iff.mp hnone t ht
      simpa [hhits] using hnot
    rw [outcome, if_pos hmutes]
  · obtain ⟨t', ht', hmax⟩ := mem_map.mp (foldr_max_mem (mt map_eq_nil_iff.mp hnone))
    obtain ⟨hmem, hspeaks⟩ := mem_filter.mp ht'
    obtain ⟨hhits', hmutes'⟩ := Bool.and_eq_true_iff.mp hspeaks
    rw [← hmax, ← hagr t' hmem hhits', outcome, if_neg (by simpa using hmutes')]

theorem claimed_eq_nil (h : ∀ t ∈ ts, hits p.topic t = false) : claimed publisher p c ts = [] := by
  rw [claimed, if_pos (filter_eq_nil_iff.mpr fun t ht ↦ by simp [h t ht])]

/-- **Overlapping subscriptions.** A client without filters of its own subscribes to some, not
shared and all different. In whichever order it does so, it gets a message as all matching filters
together should give it, if and only if all of them would decide alike on their own. -/
theorem overlap_iff {core : SynapseCore} {b : Broker} (hnew : Broker.new core = some b)
    (calls : List BrokerCall) (hcalls : ∀ call ∈ calls, call.IsPlain) (c : String) (hc : Plain c)
    (hconn : ((b.run calls).clients c).isSome) (hnone : (b.run calls).NoDirect c)
    (ts : List SubscribeTopic) (hts : (ts.map SubscribeTopic.filter).Nodup)
    (hshared : ∀ t ∈ ts, parseShared t.filter = none) (env : Env)
    (subId : String → Option UInt32) (env' : Env) (publisher : Option String) (p : Publish) :
    (∀ ts', ts'.Perm ts →
        ((b.run calls).run (subscribeEach env c subId ts')).receivedQos env' publisher p c =
          claimed publisher p c ts) ↔
      ∀ t ∈ ts, ∀ t' ∈ ts, hits p.topic t = true → hits p.topic t' = true →
        outcome publisher p c t = outcome publisher p c t' := by
  have htables := tables_run hnew hcalls
  obtain ⟨client, hclient⟩ := isSome_iff_exists.mp hconn
  have hfirst : ∀ ts', ts'.Perm ts →
      ((b.run calls).run (subscribeEach env c subId ts')).receivedQos env' publisher p c =
        ((ts'.find? (hits p.topic)).map (outcome publisher p c)).getD [] := fun ts' hperm ↦
    received_subscribeEach htables hc (by rw [hclient]; rfl) hnone
      ((hperm.map _).nodup_iff.mpr hts) (fun t ht ↦ hshared t (hperm.mem_iff.mp ht)) env subId env'
      publisher p
  constructor
  · -- each matching filter comes first in some order
    intro hall
    have hone : ∀ t ∈ ts, hits p.topic t = true →
        outcome publisher p c t = claimed publisher p c ts := by
      intro t ht hhits
      obtain ⟨before, after, heq⟩ := append_of_mem ht
      have hperm : (t :: (before ++ after)).Perm ts := heq ▸ perm_middle.symm
      rw [← hall _ hperm, hfirst _ hperm, List.find?_cons, hhits]
      rfl
    intro t ht t' ht' hhits hhits'
    rw [hone t ht hhits, hone t' ht' hhits']
  · intro hagree ts' hperm
    rw [hfirst ts' hperm]
    cases hfind : ts'.find? (hits p.topic) with
    | none =>
      refine (claimed_eq_nil fun t ht ↦ ?_).symm
      exact Bool.eq_false_iff.mpr (List.find?_eq_none.mp hfind t (hperm.mem_iff.mpr ht))
    | some t =>
      have ht := hperm.mem_iff.mp (mem_of_find?_eq_some hfind)
      have hhits := List.find?_some hfind
      exact (claimed_eq_outcome ht hhits fun t' ht' hhits' ↦ hagree t' ht' t ht hhits' hhits).symm

end Order

def connectedRun : List BrokerCall := [.connect "c" true 0]

/-- A message to `t` at QoS 2, published by another client. -/
def messageToT : Publish := ⟨false, .exactlyOnce, false, "t", none, [1], none⟩

/-- Two filters that match `t`, both granted QoS 2, in the other order. -/
theorem overlap_same_qos :
    ((fresh.run connectedRun).run (subscribeEach ⟨0, .inOrder⟩ "c" (fun _ ↦ none)
      [filterAt "#" .exactlyOnce, filterAt "t" .exactlyOnce])).receivedQos ⟨0, .inOrder⟩ (some "p")
        messageToT "c" = [.exactlyOnce] := by
  have hnone : (fresh.run connectedRun).NoDirect "c" := by
    intro f _ hmem
    have hempty : (fresh.run connectedRun).subState.keys = [] := by decide +kernel
    rw [AList.mem_keys, hempty] at hmem
    cases hmem
  have hiff := overlap_iff new_fresh connectedRun (by decide) "c" (by decide)
    (by decide +kernel) hnone [filterAt "t" .exactlyOnce, filterAt "#" .exactlyOnce]
    (by decide) (by decide +kernel) ⟨0, .inOrder⟩ (fun _ ↦ none) ⟨0, .inOrder⟩ (some "p") messageToT
  refine (hiff.mpr (by decide +kernel) _ (List.Perm.swap ..)).trans ?_
  decide +kernel

/-- The filters `t` at QoS 0 and `#` at QoS 2: the message comes at QoS 0 or 2, depending on the
order. And with No Local on one of two, a client gets its own message or not. -/
theorem overlap_order_matters :
    let received (publisher : String) (ts : List SubscribeTopic) : List QoS :=
      ((fresh.run connectedRun).run (subscribeEach ⟨0, .inOrder⟩ "c" (fun _ ↦ none) ts)).receivedQos
        ⟨0, .inOrder⟩ (some publisher) messageToT "c"
    let low := filterAt "t" .atMostOnce
    let high := filterAt "#" .exactlyOnce
    let silent : SubscribeTopic := ⟨"t", .exactlyOnce, true, false, .sendAtSubscribe⟩
    (received "p" [low, high] = [.atMostOnce] ∧ received "p" [high, low] = [.exactlyOnce] ∧
        claimed (some "p") messageToT "c" [low, high] = [.exactlyOnce]) ∧
      received "c" [silent, high] = [] ∧ received "c" [high, silent] = [.exactlyOnce] ∧
        claimed (some "c") messageToT "c" [silent, high] = [.exactlyOnce] := by
  decide +kernel

end Broker

end Synapse.Mqtt
