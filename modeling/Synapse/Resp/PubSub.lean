import Mathlib.Data.Finset.Card
import Synapse.Lib.Run
import Synapse.Resp.Broker

/-!
# Who receives a published message

A client expects to be subscribed to the set of channels it has named in `SUBSCRIBE` and not
removed since. The broker keeps one entry per connection in the topic router, so `SUBSCRIBE`
replaces the channel before it, also one named in the same command, and any `UNSUBSCRIBE` removes
the entry.

Both views are carried along a run: `current`, the channel in the router, and `members`, the set
the client expects. A message always goes to the open connections whose current channel is the
published one (`mem_receivers`). The two views agree for as long as no connection is subscribed to
two channels, and no one unsubscribes from some other channel than its own.
-/

namespace Synapse.Resp

open List Function Option

/-! ## Names without wildcards -/

/-- A channel name without separator and wildcards. -/
def Simple (s : String) : Prop := '/' ∉ s.toList ∧ '+' ∉ s.toList ∧ '#' ∉ s.toList

instance (s : String) : Decidable (Simple s) := inferInstanceAs (Decidable (_ ∧ _ ∧ _))

theorem Simple.slash_not_mem {s : String} (h : Simple s) : slash ∉ asBytes s := by
  intro hmem
  obtain ⟨c, hc, hb⟩ := mem_flatMap.mp hmem
  refine not_mem_utf8EncodeChar (by decide) ?_ hb
  rintro rfl
  exact h.1 hc

theorem Simple.segment {s : String} (h : Simple s) : segment (asBytes s) = .exact (asBytes s) := by
  have hhash : asBytes s ≠ asBytes "#" := fun heq ↦ by
    obtain rfl := asBytes_injective heq
    exact absurd h.2.2 (by decide)
  have hplus : asBytes s ≠ asBytes "+" := fun heq ↦ by
    obtain rfl := asBytes_injective heq
    exact absurd h.2.1 (by decide)
  rw [Synapse.segment, if_neg hhash, if_neg hplus]

/-- A name matches itself only, and the empty one not even itself. -/
theorem Simple.matchesLevels_iff {filter topic : String} (hf : Simple filter) (ht : Simple topic) :
    (compile filter slash).matchesLevels (splitLevels (asBytes topic) slash) = true ↔
      filter = topic ∧ topic ≠ "" := by
  by_cases hne : topic = ""
  · subst hne
    have hlen : ¬16 < (Wildcard.levels slash (asBytes "")).length := by decide
    rw [matchesLevels_compile, if_neg hlen, splitOn_eq_singleton hf.slash_not_mem,
      map_singleton, hf.segment]
    exact iff_of_false (by rintro ⟨⟩) fun h ↦ h.2 rfl
  · have hbs : asBytes topic ≠ [] := fun h ↦ hne (asBytes_injective h)
    have hlen : ¬16 < (Wildcard.levels slash (asBytes topic)).length := by
      rw [Wildcard.levels_of_not_mem ht.slash_not_mem hbs, length_singleton]
      omega
    rw [matchesLevels_compile, if_neg hlen, splitOn_eq_singleton hf.slash_not_mem,
      map_singleton, hf.segment, Wildcard.marked_of_not_mem ht.slash_not_mem hbs,
      Wildcard.accepts, Wildcard.accepts, isEmpty_nil, Bool.and_true, decide_eq_true_iff,
      and_iff_left hne, eq_comm]
    exact asBytes_injective.eq_iff

/-! ## Runs -/

/-- What happens to the registrations: commands of a connection, its regular end, and its end by
malformed input, which the broker is not told about. -/
inductive PubSubOp
  | subscribe (connId : String) (channels : List Value)
  | unsubscribe (connId : String) (channels : List Value)
  | close (connId : String)
  | abort (connId : String)

def PubSubOp.connId : PubSubOp → String
  | subscribe connId _ => connId
  | unsubscribe connId _ => connId
  | close connId => connId
  | abort connId => connId

/-- The broker and the open channels of connections, with the channel that the router has for a
connection and the set that its client expects. -/
structure PubSub where
  broker : RespBroker
  isOpen : String → Bool
  current : String → Option String
  members : String → Finset String

def names (channels : List Value) : List String := channels.filterMap Value.asStr

def PubSubOp.named : PubSubOp → List String
  | subscribe _ channels => names channels
  | unsubscribe _ channels => names channels
  | close _ => []
  | abort _ => []

namespace PubSub

def start (core : SynapseCore) (isOpen : String → Bool) : PubSub :=
  ⟨.new core, isOpen, fun _ ↦ none, fun _ ↦ ∅⟩

/-- What one command of a connection, or its end, does. -/
def perform (s : PubSub) : PubSubOp → PubSub
  | .subscribe connId channels =>
    { s with
      broker := (s.broker.subscribe connId channels).2
      current := (names channels).foldl
        (fun current name ↦ Function.update current connId (some name)) s.current
      members := Function.update s.members connId
        (s.members connId ∪ (names channels).toFinset) }
  | .unsubscribe connId channels =>
    { s with
      broker := (s.broker.unsubscribe connId channels).2
      current := if channels.isEmpty ∨ names channels ≠ [] then
        Function.update s.current connId none else s.current
      members := Function.update s.members connId
        (if channels.isEmpty then ∅ else s.members connId \ (names channels).toFinset) }
  | .close connId =>
    { broker := s.broker.disconnect connId
      isOpen := Function.update s.isOpen connId false
      current := Function.update s.current connId none
      members := Function.update s.members connId ∅ }
  | .abort connId =>
    { s with
      isOpen := Function.update s.isOpen connId false
      members := Function.update s.members connId ∅ }

/-- Only an open connection takes a step. -/
def step (s : PubSub) (op : PubSubOp) : Option PubSub :=
  if s.isOpen op.connId then some (s.perform op) else none

/-- The connections that a message published to the channel is sent to. -/
def receivers (s : PubSub) (channel : String) (payload : Bytes) : List String :=
  (s.broker.publish s.isOpen channel payload).map Push.connId

/-! ## The channel in the router -/

/-- The router holds the current channels, of registered connections only. -/
structure Inv (s : PubSub) : Prop where
  holds : s.broker.router.Holds s.current
  simple : ∀ ⦃x name⦄, s.current x = some name → Simple name ∧ x ∈ s.broker.clients

theorem confirmAll_router (kind : String) (act : TopicRouter → String → TopicRouter)
    (channels : List String) (router : TopicRouter) :
    (RespBroker.confirmAll kind act channels router).2 = channels.foldl act router := by
  induction channels generalizing router with
  | nil => rfl
  | cons channel rest ih => exact ih (act router channel)

variable {table : String → Option String} {channels : List Value} {x : String} {s : PubSub}
  {r : TopicRouter} {op : PubSubOp}

theorem holds_unsubscribe (h : r.Holds table) (connId : String) (removed : List String) :
    (removed.foldl (fun r _ ↦ r.unsubscribe connId) r).Holds
      (if removed = [] then table else update table connId none) := by
  induction removed generalizing r table with
  | nil => exact h
  | cons channel rest ih =>
    have hnext := ih (h.perform (.unsubscribe connId))
    rwa [TopicRouter.record, update_idem, ite_self] at hnext

variable {connId : String}

/-- What `UNSUBSCRIBE` goes through is empty only if there is nothing to remove or no name. -/
theorem toRemove_eq_nil {b : RespBroker} (h : b.router.Holds table) (hemp : channels.isEmpty)
    : b.toRemove connId channels = [] ↔ table connId = none := by
  rw [RespBroker.toRemove, if_pos hemp, filter_eq_nil_iff]
  constructor
  · intro hnone
    cases htab : table connId with
    | none => rfl
    | some filter =>
      have hmem := (h connId _).mpr ⟨filter, htab, rfl⟩
      exact absurd (decide_eq_true rfl) (hnone connId (mem_map_of_mem hmem))
  · intro htab x hx heq
    obtain ⟨⟨id, c⟩, hmem, rfl⟩ := List.mem_map.mp hx
    obtain ⟨filter, hfil, -⟩ := (h id c).mp hmem
    obtain rfl : id = connId := of_decide_eq_true heq
    rw [htab] at hfil
    cases hfil

theorem foldl_update (connId : String) (channels : List String) (table : String → Option String) :
    channels.foldl (fun table name ↦ update table connId (some name)) table =
      update table connId (channels.getLast?.or (table connId)) := by
  induction channels generalizing table with
  | nil => exact (update_eq_self _ _).symm
  | cons name rest ih =>
    rw [foldl_cons, ih, update_idem, update_self, List.getLast?_cons, or_some]
    rfl

theorem perform_of_ne (s : PubSub) (op : PubSubOp) (hx : x ≠ op.connId) :
    (s.perform op).isOpen x = s.isOpen x ∧ (s.perform op).current x = s.current x ∧
      (s.perform op).members x = s.members x ∧
      (x ∈ s.broker.clients → x ∈ (s.perform op).broker.clients) := by
  have hstays {connId : String} (hne : x ≠ connId) (hcli : x ∈ s.broker.clients) :
      x ∈ s.broker.clients.filter (· ≠ connId) := mem_filter.mpr ⟨hcli, decide_eq_true hne⟩
  cases op with
  | subscribe connId channels =>
    refine ⟨rfl, ?_, update_of_ne hx .., fun hcli ↦ mem_cons_of_mem _ (hstays hx hcli)⟩
    rw [perform, foldl_update]
    exact update_of_ne hx ..
  | unsubscribe connId channels =>
    refine ⟨rfl, ?_, update_of_ne hx .., id⟩
    dsimp only [perform]
    split_ifs
    · exact update_of_ne hx ..
    · rfl
  | close connId => exact ⟨update_of_ne hx .., update_of_ne hx .., update_of_ne hx .., hstays hx⟩
  | abort connId => exact ⟨update_of_ne hx .., rfl, update_of_ne hx .., id⟩

theorem holds_perform (h : s.broker.router.Holds s.current) :
    (s.perform op).broker.router.Holds (s.perform op).current := by
  cases op with
  | subscribe connId channels =>
    change (RespBroker.confirmAll _ _ _ _).2.Holds _
    rw [confirmAll_router]
    have hrun := h.run ((names channels).map (.subscribe connId))
    rwa [foldl_map, foldl_map] at hrun
  | unsubscribe connId channels =>
    change (RespBroker.confirmAll _ _ _ _).2.Holds
      (if channels.isEmpty ∨ names channels ≠ [] then _ else _)
    rw [confirmAll_router]
    have hhld := holds_unsubscribe h connId (s.broker.toRemove connId channels)
    by_cases hemp : channels.isEmpty
    · rw [if_pos (.inl hemp)]
      split_ifs at hhld with hnil
      · rwa [update_eq_self_iff.mpr ((toRemove_eq_nil h hemp).mp hnil).symm]
      · exact hhld
    · have hremove : s.broker.toRemove connId channels = names channels := by
        rw [RespBroker.toRemove, if_neg hemp, names]
      rw [hremove] at hhld ⊢
      by_cases hnil : names channels = []
      · rw [if_pos hnil] at hhld
        rwa [if_neg (not_or.mpr ⟨hemp, not_not.mpr hnil⟩)]
      · rw [if_neg hnil] at hhld
        rwa [if_pos (.inr hnil)]
  | close connId => exact h.perform (.unsubscribe connId)
  | abort connId => exact h

theorem Inv.perform (h : s.Inv) (hop : ∀ name ∈ op.named, Simple name) : (s.perform op).Inv := by
  refine ⟨holds_perform h.holds, fun x name hx ↦ ?_⟩
  by_cases hconn : x = op.connId
  · subst hconn
    cases op with
    | subscribe connId channels =>
      rw [PubSub.perform, foldl_update] at hx
      refine ⟨?_, mem_cons_self⟩
      obtain hlast | ⟨-, hcur⟩ := or_eq_some_iff.mp
        ((update_self connId _ s.current).symm.trans hx)
      · exact hop name (mem_of_getLast? hlast)
      · exact (h.simple hcur).1
    | unsubscribe connId channels =>
      dsimp only [PubSub.perform] at hx
      split_ifs at hx
      · cases (update_self ..).symm.trans hx
      · exact h.simple hx
    | close connId => cases (update_self ..).symm.trans hx
    | abort connId => exact h.simple hx
  · obtain ⟨-, hcur, -, hcli⟩ := s.perform_of_ne op hconn
    obtain ⟨hsimple, hmem⟩ := h.simple (hcur.symm.trans hx)
    exact ⟨hsimple, hcli hmem⟩

theorem eraseDups_of_nodup {l : List String} (h : l.Nodup) : l.eraseDups = l := by
  induction l with
  | nil => rfl
  | cons a l ih =>
    obtain ⟨ha, hl⟩ := nodup_cons.mp h
    have hself : l.filter (fun b ↦ !b == a) = l := by
      refine filter_eq_self.mpr fun b hb ↦ ?_
      have hne : b ≠ a := fun heq ↦ ha (heq ▸ hb)
      rw [beq_false_of_ne hne]
      rfl
    rw [eraseDups_cons, hself, ih hl]

theorem receivers_eq (s : PubSub) (channel : String) (payload : Bytes) :
    s.receivers channel payload =
      ((s.broker.router.route channel).filter (· ∈ s.broker.clients)).filter s.isOpen := by
  have hnd : (s.broker.router.route channel).Nodup :=
    s.broker.router.nodup.sublist (filter_sublist.map Prod.fst)
  rw [receivers, RespBroker.publish, List.map_map, eraseDups_of_nodup hnd]
  exact map_id'' (fun _ ↦ rfl) _

theorem nodup_receivers (s : PubSub) (channel : String) (payload : Bytes) :
    (s.receivers channel payload).Nodup := by
  have hnd : (s.broker.router.route channel).Nodup :=
    s.broker.router.nodup.sublist (filter_sublist.map Prod.fst)
  rw [receivers_eq]
  exact (hnd.filter _).filter _

/-- A message goes to the open connections whose current channel is the published one, whatever
their clients expect. -/
theorem mem_receivers (h : s.Inv) {channel : String} (hchan : Simple channel) (payload : Bytes) :
    x ∈ s.receivers channel payload ↔ s.isOpen x ∧ s.current x = some channel ∧ channel ≠ "" := by
  have hrou : x ∈ s.broker.router.route channel ↔ s.current x = some channel ∧ channel ≠ "" := by
    rw [TopicRouter.route, List.mem_map]
    constructor
    · rintro ⟨⟨id, c⟩, hmem, rfl⟩
      obtain ⟨hmem, hmat⟩ := mem_filter.mp hmem
      obtain ⟨filter, hfil, rfl⟩ := (h.holds id c).mp hmem
      obtain ⟨rfl, hne⟩ := ((h.simple hfil).1.matchesLevels_iff hchan).mp hmat
      exact ⟨hfil, hne⟩
    · rintro ⟨hcur, hne⟩
      refine ⟨(x, compile channel slash), mem_filter.mpr ⟨?_, ?_⟩, rfl⟩
      · exact (h.holds x _).mpr ⟨channel, hcur, rfl⟩
      · exact (hchan.matchesLevels_iff hchan).mpr ⟨rfl, hne⟩
  rw [receivers_eq, mem_filter, mem_filter, hrou, decide_eq_true_iff]
  constructor
  · rintro ⟨⟨hcur, -⟩, hopen⟩
    exact ⟨hopen, hcur⟩
  · rintro ⟨hopen, hcur, hne⟩
    exact ⟨⟨⟨hcur, hne⟩, (h.simple hcur).2⟩, hopen⟩

/-! ## The set the client expects -/

/-- The command leaves its connection with one channel at most and, if it removes channels by name,
with none. -/
def OneChannel (s : PubSub) : PubSubOp → Prop
  | .subscribe connId channels =>
    ((s.perform (.subscribe connId channels)).members connId).card ≤ 1
  | .unsubscribe connId channels =>
    names channels ≠ [] → (s.perform (.unsubscribe connId channels)).members connId = ∅
  | .close _ => True
  | .abort _ => True

/-- The router and the clients agree about the open connections; the others expect nothing. -/
def Agrees (s : PubSub) : Prop :=
  ∀ x name, name ∈ s.members x ↔ s.isOpen x ∧ s.current x = some name ∧ name ≠ ""

theorem Agrees.subscribe (h : s.Agrees) (hopen : s.isOpen connId)
    (hnms : ∀ name ∈ names channels, name ≠ "") (hone : s.OneChannel (.subscribe connId channels))
    (name : String) : name ∈ (s.perform (.subscribe connId channels)).members connId ↔
      s.isOpen connId ∧ (s.perform (.subscribe connId channels)).current connId = some name ∧
        name ≠ "" := by
  have hmems : (s.perform (.subscribe connId channels)).members connId =
      s.members connId ∪ (names channels).toFinset := update_self ..
  change _ ↔ s.isOpen connId ∧ (names channels).foldl _ s.current connId = _ ∧ _
  rw [foldl_update, update_self]
  cases hlast : (names channels).getLast? with
  | none =>
    rw [hmems, List.getLast?_eq_none_iff.mp hlast, toFinset_nil, Finset.union_empty]
    exact h connId name
  | some last =>
    -- the last name is in the set, which has no room for another one
    have hmem : last ∈ (s.perform (.subscribe connId channels)).members connId := by
      rw [hmems]
      exact Finset.mem_union_right _ (mem_toFinset.mpr (mem_of_getLast? hlast))
    constructor
    · intro hname
      obtain rfl := Finset.card_le_one.mp hone name hname last hmem
      exact ⟨hopen, rfl, hnms name (mem_of_getLast? hlast)⟩
    · rintro ⟨-, hcur, -⟩
      cases hcur
      exact hmem

theorem Agrees.unsubscribe (h : s.Agrees) (hone : s.OneChannel (.unsubscribe connId channels))
    (name : String) : name ∈ (s.perform (.unsubscribe connId channels)).members connId ↔
      s.isOpen connId ∧ (s.perform (.unsubscribe connId channels)).current connId = some name ∧
        name ≠ "" := by
  have hmems : (s.perform (.unsubscribe connId channels)).members connId =
      if channels.isEmpty then ∅ else s.members connId \ (names channels).toFinset := update_self ..
  change _ ↔ _ ∧ (if channels.isEmpty ∨ names channels ≠ [] then _ else _ :
    String → Option String) connId = _ ∧ _
  by_cases hrem : channels.isEmpty ∨ names channels ≠ []
  · have hnone : (s.perform (.unsubscribe connId channels)).members connId = ∅ := by
      obtain hemp | hne := hrem
      · rw [hmems, if_pos hemp]
      · exact hone hne
    rw [hnone, if_pos hrem, update_self]
    exact iff_of_false (Finset.notMem_empty name) fun hcur ↦ by cases hcur.2.1
  · obtain ⟨hemp, hnil⟩ := not_or.mp hrem
    rw [if_neg hrem, hmems, if_neg hemp, not_not.mp hnil, toFinset_nil, Finset.sdiff_empty]
    exact h connId name

theorem Agrees.perform (h : s.Agrees) (hopen : s.isOpen op.connId)
    (hnms : ∀ name ∈ op.named, name ≠ "") (hone : s.OneChannel op) : (s.perform op).Agrees := by
  intro x name
  by_cases hconn : x = op.connId
  · subst hconn
    -- a connection that has ended expects nothing and gets nothing
    have hended {m : Finset String} {o : Bool} {q : Prop} (hm : m = ∅) (ho : o = false) :
        name ∈ m ↔ o ∧ q :=
      iff_of_false (hm ▸ Finset.notMem_empty name) fun h ↦ Bool.false_ne_true (ho ▸ h.1)
    cases op with
    | subscribe connId channels => exact h.subscribe hopen hnms hone name
    | unsubscribe connId channels => exact h.unsubscribe hone name
    | close connId => exact hended (update_self ..) (update_self ..)
    | abort connId => exact hended (update_self ..) (update_self ..)
  · obtain ⟨ho, hcur, hmems, -⟩ := s.perform_of_ne op hconn
    rw [ho, hcur, hmems]
    exact h x name

/-- The condition on a command: its channel names are simple and not empty, and it leaves its
connection with one channel at most. -/
def Careful (s : PubSub) (op : PubSubOp) : Prop :=
  (∀ name ∈ op.named, Simple name ∧ name ≠ "") ∧ s.OneChannel op

theorem agrees_run {core : SynapseCore} {isOpen : String → Bool} {ops : List PubSubOp}
    (hrun : Transition.Steps step Careful (start core isOpen) ops s) : s.Inv ∧ s.Agrees := by
  refine hrun.invariant (fun s ↦ s.Inv ∧ s.Agrees) ?_
    ⟨⟨TopicRouter.holds_new, by rintro x name ⟨⟩⟩, fun x name ↦
      iff_of_false (Finset.notMem_empty name) fun h ↦ by cases h.2.1⟩
  rintro s op s' ⟨hinv, hagrees⟩ ⟨hnms, hone⟩ hstep
  obtain ⟨hopen, hs⟩ := ite_none_right_eq_some.mp hstep
  cases hs
  exact ⟨hinv.perform fun name hname ↦ (hnms name hname).1,
    hagrees.perform hopen (fun name hname ↦ (hnms name hname).2) hone⟩

end PubSub

theorem PubSub.handleValue_publish (s : PubSub) {upper : String → String} {command : String}
    (hcommand : upper command = "PUBLISH") (channel : String) (payload : Bytes) (connId : String)
    (now : ℕ) :
    handleValue upper s.broker s.isOpen connId now
        (.array [.text command, .text channel, .bulkString payload]) =
      (some (.integer (.ofNat (s.receivers channel payload).length)),
        (s.receivers channel payload).map fun x ↦ ⟨x, RespBroker.message channel payload⟩,
        s.broker) := by
  have htext (t : String) : (Value.text t).asStr = some t := fromUtf8_asBytes t
  have hname : commandName upper [.text command, .text channel, .bulkString payload] =
      "PUBLISH" := by
    rw [commandName, List.head?_cons, bind_some, htext, getD_some, hcommand]
  have harg : arg [.text command, .text channel, .bulkString payload] 1 = some channel :=
    htext channel
  have hpushed : s.broker.publish s.isOpen channel payload =
      (s.receivers channel payload).map fun x ↦ ⟨x, RespBroker.message channel payload⟩ := by
    rw [receivers, RespBroker.publish, List.map_map, List.map_map]
    rfl
  unfold handleValue
  dsimp only [Value.asArray]
  rw [hname, harg, ← hpushed, receivers, length_map]
  rfl

open PubSub in
/-- **Membership.** In a run in which no connection is ever subscribed to two channels, and
`UNSUBSCRIBE` by name leaves none, a published message goes to exactly the connections whose set
contains the channel, once to each. -/
theorem publish_reaches_members (upper : String → String) (core : SynapseCore)
    (isOpen : String → Bool) (ops : List PubSubOp) (s : PubSub)
    (hrun : Transition.Steps step Careful (start core isOpen) ops s) (command : String)
    (hcommand : upper command = "PUBLISH") (channel : String) (hchannel : Simple channel)
    (payload : Bytes) (connId : String) (now : ℕ) :
    ∃ receivers : List String, receivers.Nodup ∧ (∀ x, x ∈ receivers ↔ channel ∈ s.members x) ∧
      handleValue upper s.broker s.isOpen connId now
          (.array [.text command, .text channel, .bulkString payload]) =
        (some (.integer (.ofNat receivers.length)),
          receivers.map fun x ↦ ⟨x, RespBroker.message channel payload⟩, s.broker) := by
  obtain ⟨hinv, hagrees⟩ := agrees_run hrun
  refine ⟨s.receivers channel payload, nodup_receivers s channel payload, fun x ↦ ?_, ?_⟩
  · rw [mem_receivers hinv hchannel, hagrees]
  · exact handleValue_publish s hcommand channel payload connId now

theorem publish_reaches_members_one :
    let ops : List PubSubOp := [.subscribe "conn-1" [.text "a"], .subscribe "conn-2" [.text "b"],
      .unsubscribe "conn-1" [], .subscribe "conn-1" [.text "b"]]
    ∃ s, Transition.Steps PubSub.step PubSub.Careful
        (.start (.withObjectStore .empty) fun _ ↦ true) ops s ∧
      s.members "conn-1" = {"b"} ∧
      ∃ receivers : List String, receivers.Nodup ∧ (∀ x, x ∈ receivers ↔ "b" ∈ s.members x) ∧
        handleValue asciiUpper s.broker s.isOpen "conn-3" 0
            (.array [.text "publish", .text "b", .bulkString [0x68]]) =
          (some (.integer (.ofNat receivers.length)),
            receivers.map fun x ↦ ⟨x, RespBroker.message "b" [0x68]⟩, s.broker) := by
  intro ops
  have hrun : Transition.Steps PubSub.step PubSub.Careful
      (.start (.withObjectStore .empty) fun _ ↦ true) ops _ :=
    .cons ⟨by decide, by unfold PubSub.OneChannel; decide⟩ rfl
      (.cons ⟨by decide, by unfold PubSub.OneChannel; decide⟩ rfl
        (.cons ⟨by decide, fun h ↦ absurd rfl h⟩ rfl
          (.cons ⟨by decide, by unfold PubSub.OneChannel; decide⟩ rfl (.nil _))))
  exact ⟨_, hrun, by decide, publish_reaches_members asciiUpper _ _ _ _ hrun "publish" (by decide)
    "b" (by decide) [0x68] "conn-3" 0⟩

/-- Subscribed to two channels, a connection gets messages for the second only; subscribed to one,
it loses that by unsubscribing from another. -/
theorem publish_misses_members :
    let Misses (ops : List PubSubOp) : Prop := ∃ s,
      Transition.Steps PubSub.step (fun _ op ↦ ∀ name ∈ op.named, Simple name)
          (.start (.withObjectStore .empty) fun _ ↦ true) ops s ∧
        "a" ∈ s.members "conn-1" ∧
        handleValue asciiUpper s.broker s.isOpen "conn-2" 0
          (.array [.text "publish", .text "a", .bulkString [0x68]]) =
          (some (.integer 0), [], s.broker)
    Misses [.subscribe "conn-1" [.text "a", .text "b"]] ∧
      Misses [.subscribe "conn-1" [.text "a"], .unsubscribe "conn-1" [.text "b"]] :=
  ⟨⟨_, .cons (by decide) rfl (.nil _), by decide, by
      rw [PubSub.handleValue_publish _ (by decide), show PubSub.receivers _ "a" _ = [] by
        decide +kernel]
      rfl⟩,
    ⟨_, .cons (by decide) rfl (.cons (by decide) rfl (.nil _)), by decide, by
      rw [PubSub.handleValue_publish _ (by decide), show PubSub.receivers _ "a" _ = [] by
        decide +kernel]
      rfl⟩⟩

end Synapse.Resp
