import Synapse.Lib.RoundRobin
import Synapse.Mqtt.Deliveries

/-!
# Shared subscriptions

A publish serves each shared group it matches once: the member at the group's cursor gets the
message, or the next one that is connected, and the cursor moves past it. That the member chosen has
a subscription to deliver through is the invariant of the tables.

As long as the members of a group stay the same and connected, the cursor is moved by the publishes
that match the group and by nothing else, and each of them moves it by one. So the members are
served in rotation, from wherever the cursor has been left (`copies_eq_picks`), and rotation is
fair.
-/

namespace Synapse.Mqtt

open List

namespace Broker

open RoundRobin

variable {b b' b'' : Broker} {name : GroupName} {members : List String} {p : Publish}

/-! ## The member chosen -/

theorem sharedMembers_eq (h : b.membersOf name ≠ []) :
    b.sharedMembers name = some (b.membersOf name, b.cursorOf name) := by
  rcases hgr : b.sharedMembers name with _ | ⟨ms, cursor⟩
  · simp [membersOf, hgr] at h
  · rw [membersOf_eq hgr, cursorOf_eq hgr]

/-- The group has these members, and all of them are connected. -/
structure Ready (b : Broker) (name : GroupName) (members : List String) : Prop where
  eq : b.membersOf name = members
  conn : ∀ m ∈ members, (b.clients m).isSome
  /-- No member has set No Local. -/
  noLocal : ∀ m ∈ members, ∀ state ∈ b.subState.lookup (subKey m (sharedFilter name)),
    state.noLocal = false

instance (b : Broker) (name : GroupName) (members : List String) :
    Decidable (b.Ready name members) :=
  decidable_of_iff (b.membersOf name = members ∧ (∀ m ∈ members, (b.clients m).isSome) ∧
      ∀ m ∈ members, ∀ state ∈ b.subState.lookup (subKey m (sharedFilter name)),
        state.noLocal = false)
    ⟨fun h ↦ ⟨h.1, h.2.1, h.2.2⟩, fun h ↦ ⟨h.eq, h.conn, h.noLocal⟩⟩

theorem candidate_of_connected (hne : members ≠ []) (hconn : ∀ m ∈ members, (b.clients m).isSome)
    (cursor : ℕ) : ∃ m, members[cursor % members.length]? = some m ∧
      b.candidate members cursor = some (cursor % members.length, m) := by
  obtain ⟨n, hn⟩ := Nat.exists_eq_succ_of_ne_zero (mt length_eq_zero_iff.mp hne)
  have hlt : cursor % members.length < members.length :=
    Nat.mod_lt cursor (length_pos_of_ne_nil hne)
  have hrange : List.range members.length = 0 :: (List.range n).map Nat.succ := by
    rw [hn, range_succ_eq_map]
  refine ⟨members[cursor % members.length], getElem?_eq_getElem hlt, ?_⟩
  rw [candidate, hrange, List.findSome?_cons, add_zero]
  dsimp only
  rw [getElem?_eq_getElem hlt, Option.filter_some, if_pos (hconn _ (getElem_mem hlt))]
  rfl

theorem Ready.selectMember (h : b.Ready name members) (hne : members ≠ []) :
    ∃ m, members[b.cursorOf name % members.length]? = some m ∧
      (b.selectMember name).1 = some (subKey m (sharedFilter name)) ∧
      (b.selectMember name).2.cursorOf name =
        (b.cursorOf name % members.length + 1) % members.length := by
  have hgr : b.sharedMembers name = some (b.membersOf name, b.cursorOf name) :=
    sharedMembers_eq (by rwa [h.eq])
  obtain ⟨m, hm, hcand⟩ := candidate_of_connected hne h.conn (b.cursorOf name)
  refine ⟨m, hm, ?_, ?_⟩
  · rw [Broker.selectMember, hgr, h.eq]
    dsimp only
    rw [hcand]
  · rw [Broker.selectMember, hgr, h.eq]
    dsimp only
    rw [hcand]
    exact (cursorOf_update ..).trans (if_pos rfl)

/-! ## The copies of a group -/

/-- The copies a call sends to a shared group. -/
def groupCopies (name : GroupName) (b : Broker) : BrokerCall → List Delivery
  | .publish env publisher p =>
    (b.deliveries env publisher p).filter fun d ↦ groupOf d.key = some name
  | .connect .. | .subscribe .. | .unsubscribe .. | .disconnect .. => []

/-- A key of the group that the router finds is that of a member. -/
theorem Tables.exists_member (h : b.Tables) {topic : String} (hsrv : b.Served name topic) :
    b.membersOf name ≠ [] := by
  obtain ⟨key, hkey, hgr⟩ := hsrv
  obtain ⟨entry, hent, rfl⟩ := mem_map.mp hkey
  have hstate := (h.mem_router entry.1).mp (mem_map_of_mem (mem_of_mem_filter hent))
  obtain ⟨c, f, hc, heq⟩ := h.owned _ hstate
  rw [heq, groupOf_subKey hc] at hgr
  obtain ⟨hname, rfl⟩ := parseShared_eq_some.mp hgr
  rw [heq] at hstate
  exact ne_nil_of_mem ((h.member name c).mpr ⟨hname, hc, hstate⟩)

theorem Ready.bareCopy (h : b.Ready name members) {m : String} (hm : m ∈ members) (hpln : Plain m)
    (publisher : Option String) (p : Publish) :
    ∃ conn, (b.clients m).map Client.conn = some conn ∧
      bareCopy publisher p b (subKey m (sharedFilter name)) =
        some ⟨subKey m (sharedFilter name), conn,
          deliveryOf p (b.subState.lookup (subKey m (sharedFilter name))) none
            (effective p (b.subState.lookup (subKey m (sharedFilter name))))⟩ := by
  obtain ⟨client, hcli⟩ := Option.isSome_iff_exists.mp (h.conn m hm)
  have hsupp :
      suppressed publisher m (b.subState.lookup (subKey m (sharedFilter name))) = false := by
    rw [suppressed]
    cases hstate : b.subState.lookup (subKey m (sharedFilter name)) with
    | none => simp
    | some state => simp [h.noLocal m hm state hstate]
  refine ⟨client.conn, by rw [hcli]; rfl, ?_⟩
  rw [Broker.bareCopy, subKey, Text.splitOnce_join hpln, Option.bind_some]
  dsimp only
  rw [← subKey, hsupp, if_neg Bool.false_ne_true, hcli]
  rfl

/-- **One copy for a group.** A publish that matches a shared group whose members are connected
sends one copy, to the member at the cursor. -/
theorem Ready.groupCopies (h : b.Ready name members) (htabs : b.Tables) (env : Env)
    (publisher : Option String) (hsrv : b.Served name p.topic) :
    ∃ d m, b.groupCopies name (.publish env publisher p) = [d] ∧
      members[b.cursorOf name % members.length]? = some m ∧
      d.key = subKey m (sharedFilter name) ∧ (b.clients m).map Client.conn = some d.conn ∧
      d.message.topic = p.topic ∧ d.message.payload = p.payload := by
  have hne : members ≠ [] := h.eq ▸ htabs.exists_member hsrv
  obtain ⟨m, hm, hkey, -⟩ := h.selectMember hne
  have hmem : m ∈ members := mem_of_getElem? hm
  have hpln : Plain m := ((htabs.member name m).mp (h.eq ▸ hmem)).2.1
  obtain ⟨conn, hconn, hcopy⟩ := h.bareCopy hmem hpln publisher p
  have hbare := htabs.bare_group env publisher p name
  rw [if_pos hsrv, hkey, Option.bind_some, hcopy, Option.toList_some, map_eq_singleton_iff] at hbare
  obtain ⟨d, hd, hbare⟩ := hbare
  refine ⟨d, m, hd, hm, ?_, ?_, ?_⟩
  · exact congrArg Delivery.key hbare
  · exact hconn.trans (congrArg (fun d ↦ some d.conn) hbare).symm
  have htop := congrArg (fun d ↦ (d.message.topic, d.message.payload)) hbare
  obtain ⟨htop, hpay⟩ := Prod.mk.inj htop
  refine ⟨htop.trans ?_, hpay.trans ?_⟩
  · cases b.subState.lookup (subKey m (sharedFilter name)) <;> rfl
  · cases b.subState.lookup (subKey m (sharedFilter name)) <;> rfl

theorem Tables.groupCopies_eq_nil (h : b.Tables) (env : Env) (publisher : Option String)
    (hsrv : ¬b.Served name p.topic) : b.groupCopies name (.publish env publisher p) = [] := by
  have hbare := h.bare_group env publisher p name
  rwa [if_neg hsrv, map_eq_nil_iff] at hbare

/-! ## The cursor -/

theorem turn_congr (hsh : b'.sharedMembers name = b.sharedMembers name)
    (hconn : ∀ x, (b'.clients x).isSome = (b.clients x).isSome) :
    (b'.selectMember name).2.sharedMembers name = (b.selectMember name).2.sharedMembers name := by
  rw [Broker.selectMember, Broker.selectMember, hsh]
  rcases b.sharedMembers name with _ | ⟨ms, cursor⟩
  · exact hsh
  dsimp only
  rw [candidate_congr hconn]
  cases b.candidate ms cursor with
  | none => exact hsh
  | some found =>
    dsimp only
    rw [Function.update_self, Function.update_self]

theorem sharedMembers_selectMembers {names : List GroupName} (hnd : names.Nodup) (b : Broker)
    (name : GroupName) :
    (selectMembers names b).2.sharedMembers name =
      if name ∈ names then (b.selectMember name).2.sharedMembers name
      else b.sharedMembers name := by
  induction names generalizing b with
  | nil => rfl
  | cons first names ih =>
    obtain ⟨hfst, hnd⟩ := nodup_cons.mp hnd
    refine (ih hnd (b.selectMember first).2).trans ?_
    by_cases hname : name = first
    · subst hname
      rw [if_neg hfst, if_pos mem_cons_self]
    · have hsame := sharedMembers_selectMember_of_ne hname b
      obtain ⟨shared, heq⟩ := b.selectMember_eq first
      rw [turn_congr hsame fun x ↦ by rw [heq], hsame]
      simp only [mem_cons, hname, false_or]

theorem cursorOf_publish (b : Broker) (env : Env) (publisher : Option String) (p : Publish)
    (name : GroupName) :
    (b.publish env publisher p).cursorOf name =
      if b.Served name p.topic then (b.selectMember name).2.cursorOf name
      else b.cursorOf name := by
  have hprep := sameTables_prepared b env publisher p
  have hnms := env.order.groups_perm (partition (b.router.route p.topic)).groups
  have hpub : (b.publish env publisher p).sharedMembers =
      (selectMembers (env.order.groups (partition (b.router.route p.topic)).groups)
        (b.prepared env publisher p)).2.sharedMembers := by
    rw [← hprep.router]
    exact (sends_foldl (sends_deliver publisher p) _ _).shared
  rw [cursorOf, hpub, sharedMembers_selectMembers (hnms.nodup_iff.mpr (nodup_groups_partition _)),
    turn_congr (by rw [hprep.shared]) hprep.isSome, hprep.shared]
  simp only [hnms.mem_iff, mem_groups_iff_served]
  split_ifs <;> rfl

/-- Members leave a group; if none does, the cursor stays. -/
structure Shrinks (name : GroupName) (b b' : Broker) : Prop where
  members : (b'.membersOf name).Sublist (b.membersOf name)
  cursor : (b'.membersOf name).length = (b.membersOf name).length →
    b'.cursorOf name = b.cursorOf name

theorem Shrinks.of_eq (h : b'.sharedMembers = b.sharedMembers) : Shrinks name b b' := by
  refine ⟨?_, fun _ ↦ ?_⟩
  · rw [membersOf, membersOf, h]
  · rw [cursorOf, cursorOf, h]

theorem Shrinks.trans (h : Shrinks name b b') (h' : Shrinks name b' b'') : Shrinks name b b'' := by
  refine ⟨h'.members.trans h.members, fun hlen ↦ ?_⟩
  -- no member has left in between either
  have hle := h.members.length_le
  have hle' := h'.members.length_le
  rw [h'.cursor (by omega), h.cursor (by omega)]

theorem shrinks_removeSharedMember (b : Broker) (group : GroupName) (a : String) :
    Shrinks name b (b.removeSharedMember group a) := by
  refine ⟨?_, fun hlen ↦ ?_⟩
  · rw [membersOf_removeSharedMember]
    split_ifs with hname
    · subst hname
      exact erase_sublist
    · exact List.Sublist.refl _
  · rw [removeSharedMember]
    rcases hgr : b.sharedMembers group with _ | ⟨ms, cursor⟩
    · rfl
    by_cases hmem : a ∈ ms
    · by_cases hname : name = group
      · subst hname
        have hpos := length_pos_of_mem hmem
        rw [membersOf_removeSharedMember, if_pos rfl, membersOf_eq hgr,
          length_erase_of_mem hmem] at hlen
        omega
      · simp only [if_pos hmem]
        exact (cursorOf_update ..).trans (if_neg hname)
    · simp only [if_neg hmem]

theorem shrinks_removeKey (b : Broker) (key a : String) (shared : Option GroupName) :
    Shrinks name b (b.removeKey key a shared) := by
  have htabs : Shrinks name b
      { b with subState := b.subState.erase key, router := b.router.unsubscribe key } := .of_eq rfl
  cases shared with
  | none => exact htabs
  | some group => exact htabs.trans (shrinks_removeSharedMember _ group a)

theorem shrinks_foldl {α : Type} {act : Broker → α → Broker} (xs : List α) (b : Broker)
    (hact : ∀ b x, Shrinks name b (act b x)) : Shrinks name b (xs.foldl act b) :=
  List.foldlRecOn xs act (.of_eq rfl) fun b' h x _ ↦ h.trans (hact b' x)

theorem shrinks_dropSession (b : Broker) (a : String) : Shrinks name b (b.dropSession a) := by
  have hclis : Shrinks name b { b with clients := Function.update b.clients a none } := .of_eq rfl
  exact hclis.trans (shrinks_foldl _ _ fun b' key ↦ shrinks_removeKey ..)

theorem cursorOf_subscribeTopic (a : String) (subId : Option UInt32)
    (found : List (String × Bytes × QoS)) (b : Broker) (t : SubscribeTopic) (name : GroupName) :
    (subscribeTopic a subId found b t).cursorOf name = b.cursorOf name := by
  have hadd : (b.addKey a subId t).cursorOf name = b.cursorOf name := by
    rw [addKey]
    cases parseShared t.filter with
    | none => rfl
    | some group => exact cursorOf_joinShared ..
  rwa [cursorOf, (sends_subscribeTopic a subId found b t).shared]

/-- Apart from a publish, no call moves the cursor of a group that keeps its members. -/
theorem cursorOf_call {call : BrokerCall} (hcall : call.clientId.isSome)
    (hmems : (b.call call).membersOf name = b.membersOf name) :
    (b.call call).cursorOf name = b.cursorOf name := by
  have hlen := congrArg List.length hmems
  cases call with
  | connect id clean conn =>
    have hshrinks : Shrinks name b (b.connect id clean conn) := by
      rw [connect]
      split_ifs
      · exact (shrinks_dropSession b id).trans (.of_eq rfl)
      · exact .of_eq rfl
    exact hshrinks.cursor hlen
  | subscribe env id topics subId =>
    exact List.foldlRecOn (motive := fun b' : Broker ↦ b'.cursorOf name = b.cursorOf name) topics _
      rfl fun b' h t _ ↦ (cursorOf_subscribeTopic ..).trans h
  | unsubscribe id topics =>
    have hshrinks : Shrinks name b (b.unsubscribe id topics) :=
      shrinks_foldl topics b fun b' f ↦ shrinks_removeKey ..
    exact hshrinks.cursor hlen
  | disconnect id => exact (shrinks_dropSession b id).cursor hlen
  | publish env publisher p => cases hcall

/-! ## Runs -/

theorem subKey_injective (f : String) : Function.Injective fun c ↦ subKey c f := by
  intro c c' h
  have hlist := congrArg String.toList h
  dsimp only at hlist
  rw [subKey, subKey, Text.toList_join, Text.toList_join] at hlist
  exact String.toList_inj.mp (append_cancel_right hlist)

/-- **The members are served in rotation.** -/
theorem copies_eq_picks {calls : List BrokerCall} (hcl : ∀ call ∈ calls, call.IsPlain)
    (h : b.Tables) (hrdy : ∀ pre, pre <+: calls → (b.run pre).Ready name members) :
    ∃ k, (emitted (groupCopies name) call calls b).map Delivery.key =
      (picks members (b.cursorOf name) k).map fun m ↦ subKey m (sharedFilter name) := by
  induction calls generalizing b with
  | nil => exact ⟨0, rfl⟩
  | cons call calls ih =>
    obtain ⟨hcall, hcl⟩ := forall_mem_cons.mp hcl
    have hb : b.Ready name members := hrdy [] nil_prefix
    have hb' : (b.call call).Ready name members := hrdy [call] (prefix_append [call] calls)
    obtain ⟨k, hk⟩ := ih hcl (h.call hcall) fun pre hpre ↦
      hrdy (call :: pre) (cons_prefix_cons.mpr ⟨rfl, hpre⟩)
    rw [emitted, map_append, hk]
    cases hid : call.clientId with
    | some id =>
      have hsome : call.clientId.isSome := by rw [hid]; rfl
      have hqt : b.groupCopies name call = [] := by
        cases call with
        | publish env publisher p => cases hid
        | _ => rfl
      rw [hqt, cursorOf_call hsome (hb'.eq.trans hb.eq.symm)]
      exact ⟨k, rfl⟩
    | none =>
      cases call with
      | publish env publisher p =>
        have hcsr := cursorOf_publish b env publisher p name
        change (b.call (.publish env publisher p)).cursorOf name = _ at hcsr
        by_cases hsrv : b.Served name p.topic
        · -- the member at the cursor gets the copy
          obtain ⟨d, m, hd, hm, hkey, -⟩ := hb.groupCopies h env publisher hsrv
          obtain ⟨-, -, -, hmoved⟩ := hb.selectMember (hb.eq ▸ h.exists_member hsrv)
          have hmod : (b.cursorOf name % members.length + 1) % members.length ≡
              b.cursorOf name + 1 [MOD members.length] :=
            (Nat.mod_modEq _ _).trans ((Nat.mod_modEq _ _).add_right 1)
          refine ⟨k + 1, ?_⟩
          rw [hcsr, if_pos hsrv, hmoved, picks_congr hmod, hd, picks, hm]
          rw [map_cons, hkey]
          rfl
        · rw [h.groupCopies_eq_nil env publisher hsrv, hcsr, if_neg hsrv]
          exact ⟨k, rfl⟩
      | _ => cases hid

/-- The number of copies sent to a member of a group in a run. -/
def copiesTo (name : GroupName) (m : String) (b : Broker) (calls : List BrokerCall) : ℕ :=
  (emitted (groupCopies name) call calls b).countP fun d ↦ d.key = subKey m (sharedFilter name)

/-- **Shared subscriptions.** Under ids without U+0000, where every client that has a subscription
is connected and no member of the group has set No Local, a publish that matches the group leaves
one delivery through it on record, to a member. In a run during which the members stay so, any two
of them get equally many copies up to one. -/
theorem shared_fair {core : SynapseCore} {b : Broker} (hnew : Broker.new core = some b)
    (calls : List BrokerCall) (hcalls : ∀ call ∈ calls, call.IsPlain) (name : GroupName) :
    ((∀ c f, Plain c → subKey c f ∈ (b.run calls).subState → ((b.run calls).clients c).isSome) →
      (∀ m ∈ (b.run calls).membersOf name,
        ∀ state ∈ (b.run calls).subState.lookup (subKey m (sharedFilter name)),
          state.noLocal = false) →
      ∀ env publisher p, (b.run calls).Served name p.topic →
        ((b.run calls).publish env publisher p).trace = (b.run calls).trace ++
          .published publisher p :: ((b.run calls).deliveries env publisher p).map Delivery.event ∧
        ∃ d, ∃ m ∈ (b.run calls).membersOf name,
          (b.run calls).groupCopies name (.publish env publisher p) = [d] ∧
          d.key = subKey m (sharedFilter name) ∧
          ((b.run calls).clients m).map Client.conn = some d.conn ∧
          d.message.topic = p.topic ∧ d.message.payload = p.payload) ∧
    ∀ members later, (∀ call ∈ later, call.IsPlain) →
      (∀ pre, pre <+: later → ((b.run calls).run pre).Ready name members) →
      ∀ m ∈ members, ∀ m' ∈ members,
        copiesTo name m (b.run calls) later ≤ copiesTo name m' (b.run calls) later + 1 := by
  have htables := tables_run hnew hcalls
  refine ⟨fun hconn hlocal env publisher p hserved ↦ ?_, fun members later hlater hready ↦ ?_⟩
  · have hready : (b.run calls).Ready name ((b.run calls).membersOf name) := by
      refine ⟨rfl, fun m hm ↦ ?_, hlocal⟩
      obtain ⟨-, hplain, hkey⟩ := (htables.member name m).mp hm
      exact hconn m _ hplain hkey
    obtain ⟨d, m, hd, hm, hrest⟩ := hready.groupCopies htables env publisher hserved
    exact ⟨trace_publish .., d, m, mem_of_getElem? hm, hd, hrest⟩
  · intro m hm m' hm'
    obtain ⟨k, hk⟩ := copies_eq_picks hlater htables hready
    have hnodup : members.Nodup := (hready [] nil_prefix).eq ▸ (htables.group name).1
    have hcount : ∀ m, copiesTo name m (b.run calls) later =
        (picks members ((b.run calls).cursorOf name) k).count m := by
      intro m
      rw [← count_map_of_injective _ _ (subKey_injective (sharedFilter name)), ← hk,
        count_eq_countP, countP_map, copiesTo]
      rfl
    rw [hcount, hcount]
    exact count_picks_le hnodup hm hm' _ k

def sharedRun : List BrokerCall :=
  let topic : SubscribeTopic := ⟨"$share/g/t", .exactlyOnce, false, false, .sendAtSubscribe⟩
  [.connect "a" true 0, .connect "b" true 1, .subscribe ⟨0, .inOrder⟩ "a" [topic] none,
    .subscribe ⟨0, .inOrder⟩ "b" [topic] none]

/-- Three messages to `t`, with one to `u` between them. -/
def messageRun : List BrokerCall :=
  let message (topic : String) : BrokerCall :=
    .publish ⟨0, .inOrder⟩ none ⟨false, .atMostOnce, false, topic, none, [1], none⟩
  [message "t", message "u", message "t", message "t"]

/-- A message goes to one member, and of three messages `a` gets two. -/
theorem shared_fair_messageRun :
    (∀ env publisher p, (fresh.run sharedRun).Served ("g", "t") p.topic →
        ∃ d, (fresh.run sharedRun).groupCopies ("g", "t") (.publish env publisher p) = [d] ∧
          d.message.payload = p.payload) ∧
      copiesTo ("g", "t") "a" (fresh.run sharedRun) messageRun = 2 ∧
      copiesTo ("g", "t") "a" (fresh.run sharedRun) messageRun ≤
        copiesTo ("g", "t") "b" (fresh.run sharedRun) messageRun + 1 := by
  obtain ⟨hone, hfair⟩ := shared_fair new_fresh sharedRun (by decide) ("g", "t")
  have hready : ∀ pre ∈ messageRun.inits,
      ((fresh.run sharedRun).run pre).Ready ("g", "t") ["a", "b"] := by decide +kernel
  have hkeys : (fresh.run sharedRun).subState.keys =
      [subKey "b" "$share/g/t", subKey "a" "$share/g/t"] := by decide +kernel
  have hconn : ∀ c f, Plain c → subKey c f ∈ (fresh.run sharedRun).subState →
      ((fresh.run sharedRun).clients c).isSome := by
    intro c f hc hmem
    rw [AList.mem_keys, hkeys, mem_pair] at hmem
    obtain heq | heq := hmem <;> rw [((subKey_inj hc (by decide)).mp heq).1] <;> decide +kernel
  refine ⟨fun env publisher p hserved ↦ ?_, by decide +kernel, hfair ["a", "b"] messageRun
    (by decide) (fun pre hpre ↦ hready pre ((mem_inits _ _).mpr hpre)) "a" (by decide) "b"
    (by decide)⟩
  obtain ⟨-, d, m, -, hd, -, -, -, hpay⟩ := hone hconn (by decide +kernel) env publisher p hserved
  exact ⟨d, hd, hpay⟩

end Broker

end Synapse.Mqtt
