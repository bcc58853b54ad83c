import Synapse.Mqtt.Frame
import Synapse.Mqtt.Server

/-!
# The tables of the MQTT broker

A subscription is recorded in three places: with its options under its key, in the router under the
same key, and, if its filter is one of a shared group, by the client's name in that group. `Tables`
says that the three agree, and that the cursor of a group points at a member.

The calls of the broker change these tables in three ways only. A key is entered, a key is taken
out, and a member of a group is chosen. The invariant is proved for each of them, and every run of
calls is made of them (`tables_run`). It needs that the client ids hold no U+0000, since a key could
be read in two ways otherwise; the filters may hold it.
-/

namespace Synapse.Mqtt

open List Function Option

/-! ## Names of shared groups -/

/-- The name is that of a shared filter: a group without a slash and a filter, neither empty. -/
def IsGroup (name : GroupName) : Prop := parseShared (sharedFilter name) = some name

instance (name : GroupName) : Decidable (IsGroup name) := inferInstanceAs (Decidable (_ = _))

variable {name : GroupName} {filter : String}

/-- A shared filter is put together again from what it was cut into. -/
theorem eq_sharedFilter (h : parseShared filter = some name) : filter = sharedFilter name := by
  obtain ⟨group, real⟩ := name
  rw [parseShared] at h
  obtain ⟨rest, hrest, h⟩ := bind_eq_some_iff.mp h
  obtain ⟨parts, hparts, h⟩ := bind_eq_some_iff.mp h
  dsimp only at h
  split_ifs at h
  obtain ⟨rfl, rfl⟩ := h
  rw [Text.stripPrefix_eq_some.mp hrest, (Text.splitOnce_eq_some.mp hparts).2, Text.join,
    sharedFilter]
  simp only [String.append_assoc]
  rfl

theorem parseShared_eq_some :
    parseShared filter = some name ↔ IsGroup name ∧ filter = sharedFilter name := by
  constructor
  · exact fun h ↦ ⟨by rw [IsGroup, ← eq_sharedFilter h, h], eq_sharedFilter h⟩
  · rintro ⟨h, rfl⟩
    exact h

namespace Broker

/-! ## Members and cursors -/

def membersOf (b : Broker) (name : GroupName) : List String :=
  ((b.sharedMembers name).map Prod.fst).getD []

def cursorOf (b : Broker) (name : GroupName) : ℕ := ((b.sharedMembers name).map Prod.snd).getD 0

section Members

variable {b b' : Broker} {name name' : GroupName} {a c : String} {members : List String}
  {cursor : ℕ}

theorem membersOf_eq (h : b.sharedMembers name = some (members, cursor)) :
    b.membersOf name = members := by
  rw [membersOf, h]
  rfl

theorem cursorOf_eq (h : b.sharedMembers name = some (members, cursor)) :
    b.cursorOf name = cursor := by
  rw [cursorOf, h]
  rfl

theorem member_iff : b.Member name c ↔ c ∈ b.membersOf name := by
  rcases hgr : b.sharedMembers name with _ | ⟨members, cursor⟩
  · simp [Member, membersOf, hgr]
  · rw [member_iff_of_eq hgr, membersOf_eq hgr]

section

variable (b : Broker) (name : GroupName)

theorem membersOf_update (members : List String) (cursor : ℕ) (name' : GroupName) :
    membersOf { b with sharedMembers := update b.sharedMembers name (some (members, cursor)) }
        name' =
      if name' = name then members else b.membersOf name' := by
  split_ifs with h
  · subst h
    exact membersOf_eq (update_self ..)
  · simp only [membersOf, update_of_ne h]

theorem cursorOf_update (members : List String) (cursor : ℕ) (name' : GroupName) :
    cursorOf { b with sharedMembers := update b.sharedMembers name (some (members, cursor)) }
        name' =
      if name' = name then cursor else b.cursorOf name' := by
  split_ifs with h
  · subst h
    exact cursorOf_eq (update_self ..)
  · simp only [cursorOf, update_of_ne h]

theorem membersOf_removeSharedMember (a : String) (name' : GroupName) :
    (b.removeSharedMember name a).membersOf name' =
      if name' = name then (b.membersOf name).erase a else b.membersOf name' := by
  rw [removeSharedMember]
  rcases hgr : b.sharedMembers name with _ | ⟨members, cursor⟩
  · split_ifs with h
    · subst h
      simp [membersOf, hgr]
    · rfl
  · by_cases hmem : a ∈ members
    · simp only [if_pos hmem]
      rw [membersOf_update, membersOf_eq hgr]
    · simp only [if_neg hmem]
      split_ifs with h
      · rw [h, membersOf_eq hgr, erase_of_not_mem hmem]
      · rfl

theorem membersOf_joinShared (a : String) (name' : GroupName) :
    (b.joinShared name a).membersOf name' = if name' = name then
        if a ∈ b.membersOf name then b.membersOf name else b.membersOf name ++ [a]
      else b.membersOf name' := by
  have hgr : (b.sharedMembers name).getD ([], 0) = (b.membersOf name, b.cursorOf name) := by
    rw [membersOf, cursorOf]
    cases b.sharedMembers name <;> rfl
  rw [joinShared, hgr]
  exact membersOf_update ..

theorem cursorOf_joinShared (a : String) (name' : GroupName) :
    (b.joinShared name a).cursorOf name' = b.cursorOf name' := by
  rw [joinShared]
  refine (cursorOf_update ..).trans ?_
  split_ifs with h
  · rw [h, cursorOf]
    cases b.sharedMembers name <;> rfl
  · rfl

end

theorem candidate_eq_some {idx : ℕ} {member : String}
    (h : b.candidate members cursor = some (idx, member)) :
    idx < members.length ∧ members[idx]? = some member ∧ (b.clients member).isSome := by
  obtain ⟨i, hi, h⟩ := exists_of_findSome?_eq_some h
  obtain ⟨m, hm, h⟩ := map_eq_some_iff.mp h
  obtain ⟨rfl, rfl⟩ := Prod.mk.inj h
  obtain ⟨hm, hconn⟩ := filter_eq_some_iff.mp hm
  exact ⟨(List.getElem?_eq_some_iff.mp hm).1, hm, hconn⟩

/-- What choosing a member does to a group. -/
theorem selectMember_cases (b : Broker) (name : GroupName) : (b.selectMember name).2 = b ∨
      ∃ idx, idx < (b.membersOf name).length ∧ (b.selectMember name).2 = { b with
          sharedMembers := update b.sharedMembers name
            (some (b.membersOf name, (idx + 1) % (b.membersOf name).length)) } := by
  rw [selectMember]
  rcases hgr : b.sharedMembers name with _ | ⟨members, cursor⟩
  · exact .inl rfl
  dsimp only
  rcases hcand : b.candidate members cursor with _ | ⟨idx, member⟩
  · exact .inl rfl
  · rw [membersOf_eq hgr]
    exact .inr ⟨idx, (candidate_eq_some hcand).1, rfl⟩

theorem membersOf_selectMember (b : Broker) (name name' : GroupName) :
    (b.selectMember name).2.membersOf name' = b.membersOf name' := by
  rcases selectMember_cases b name with heq | ⟨idx, -, heq⟩
  · rw [heq]
  · rw [heq, membersOf_update]
    split_ifs with h
    · rw [h]
    · rfl

end Members

/-! ## The invariant -/

/-- The cursor points at a member, and no member is listed twice. -/
def GroupOk (members : List String) (cursor : ℕ) : Prop :=
  members.Nodup ∧ (cursor = 0 ∨ cursor < members.length)

/-- The tables agree. -/
structure Tables (b : Broker) : Prop where
  owned : ∀ key ∈ b.subState, ∃ c f, Plain c ∧ key = subKey c f
  routed : ∀ key x, (key, x) ∈ b.router.subs ↔
    key ∈ b.subState ∧ ∃ c f, Plain c ∧ key = subKey c f ∧ x = compile (realFilter f) slash
  member : ∀ name c, c ∈ b.membersOf name ↔
    IsGroup name ∧ Plain c ∧ subKey c (sharedFilter name) ∈ b.subState
  group : ∀ name, GroupOk (b.membersOf name) (b.cursorOf name)

theorem subKey_inj {a c f g : String} (ha : Plain a) (hc : Plain c) :
    subKey a f = subKey c g ↔ a = c ∧ f = g :=
  ⟨Text.join_inj ha hc, fun h ↦ by rw [h.1, h.2]⟩

section Tables

variable {b b' : Broker} {a c f : String} {members : List String} {cursor : ℕ}

theorem Tables.congr (h : b.Tables) (hstate : b'.subState = b.subState)
    (hrtr : b'.router = b.router) (hsh : b'.sharedMembers = b.sharedMembers) :
    b'.Tables := by
  have hmems : b'.membersOf = b.membersOf := funext fun _ ↦ by rw [membersOf, membersOf, hsh]
  have hcsr : b'.cursorOf = b.cursorOf := funext fun _ ↦ by rw [cursorOf, cursorOf, hsh]
  refine ⟨?_, ?_, ?_, ?_⟩
  · rw [hstate]
    exact h.owned
  · rw [hstate, hrtr]
    exact h.routed
  · rw [hstate, hmems]
    exact h.member
  · rw [hmems, hcsr]
    exact h.group

theorem Tables.of_sameTables (h : b.Tables) (hsame : SameTables b b') : b'.Tables :=
  h.congr hsame.state hsame.router hsame.shared

/-- The group a client leaves stays in order. -/
theorem groupOk_removeSharedMember (h : ∀ name, GroupOk (b.membersOf name) (b.cursorOf name))
    (name : GroupName) (a : String) (name' : GroupName) :
    GroupOk ((b.removeSharedMember name a).membersOf name')
      ((b.removeSharedMember name a).cursorOf name') := by
  rw [removeSharedMember]
  rcases hgr : b.sharedMembers name with _ | ⟨members, cursor⟩
  · exact h name'
  by_cases hmem : a ∈ members
  · simp only [if_pos hmem]
    rw [membersOf_update, cursorOf_update]
    by_cases hname : name' = name
    · have hold := h name
      rw [membersOf_eq hgr, cursorOf_eq hgr] at hold
      rw [if_pos hname, if_pos hname]
      refine ⟨hold.1.erase a, ?_⟩
      split_ifs with hnil
      · exact .inl rfl
      · exact .inr (Nat.mod_lt _ (length_pos_iff.mpr hnil))
    · rw [if_neg hname, if_neg hname]
      exact h name'
  · simp only [if_neg hmem]
    exact h name'

theorem subState_removeKey (b : Broker) (key a : String) (group : Option GroupName) :
    (b.removeKey key a group).subState = b.subState.erase key := by
  obtain ⟨shared, heq⟩ := b.removeKey_eq a key group
  rw [heq]

theorem router_removeKey (b : Broker) (key a : String) (group : Option GroupName) :
    (b.removeKey key a group).router = b.router.unsubscribe key := by
  obtain ⟨shared, heq⟩ := b.removeKey_eq a key group
  rw [heq]

theorem mem_membersOf_unsubscribeFilter (hnd : ∀ name, (b.membersOf name).Nodup) (a f : String)
    (name : GroupName) (c : String) :
    c ∈ (unsubscribeFilter a b f).membersOf name ↔
      c ∈ b.membersOf name ∧ ¬(parseShared f = some name ∧ c = a) := by
  rw [unsubscribeFilter, removeKey.eq_def]
  cases parseShared f with
  | none => simp [membersOf]
  | some group =>
    rw [membersOf_removeSharedMember]
    by_cases hname : name = group
    · subst hname
      rw [if_pos rfl]
      exact (List.Nodup.mem_erase_iff (hnd name)).trans (by tauto)
    · rw [if_neg hname]
      simp [membersOf, Ne.symm hname]

/-- **A key is taken out**, with the membership it stands for. -/
theorem Tables.unsubscribeFilter (h : b.Tables) (ha : Plain a) (f : String) :
    (unsubscribeFilter a b f).Tables := by
  refine ⟨fun key hkey ↦ ?_, fun key x ↦ ?_, fun name c ↦ ?_, fun name ↦ ?_⟩
  · rw [Broker.unsubscribeFilter, subState_removeKey, AList.mem_erase] at hkey
    exact h.owned key hkey.2
  · rw [Broker.unsubscribeFilter, router_removeKey, TopicRouter.mem_unsubscribe, h.routed,
      subState_removeKey, AList.mem_erase, and_assoc]
  · rw [mem_membersOf_unsubscribeFilter (fun name ↦ (h.group name).1), h.member,
      Broker.unsubscribeFilter, subState_removeKey, AList.mem_erase, parseShared_eq_some]
    constructor
    · rintro ⟨⟨hgr, hc, hmem⟩, hne⟩
      refine ⟨hgr, hc, fun hkey ↦ hne ?_, hmem⟩
      obtain ⟨rfl, rfl⟩ := (subKey_inj hc ha).mp hkey
      exact ⟨⟨hgr, rfl⟩, rfl⟩
    · rintro ⟨hgr, hc, hkey, hmem⟩
      refine ⟨⟨hgr, hc, hmem⟩, ?_⟩
      rintro ⟨⟨-, rfl⟩, rfl⟩
      exact hkey rfl
  · rw [Broker.unsubscribeFilter, removeKey.eq_def]
    cases parseShared f with
    | none => exact h.group name
    | some group =>
      refine groupOk_removeSharedMember ?_ group a name
      exact h.group

section

variable (b : Broker) (a : String) (subId : Option UInt32) (t : SubscribeTopic)

theorem subState_addKey : (b.addKey a subId t).subState = b.subState.insert (subKey a t.filter)
      ⟨QoS.ofU8 (granted t), t.noLocal, t.retainAsPublished, subId⟩ := by
  obtain ⟨shared, heq⟩ := b.addKey_eq a subId t
  rw [heq]

theorem router_addKey : (b.addKey a subId t).router =
      b.router.subscribe (subKey a t.filter) (realFilter t.filter) := by
  obtain ⟨shared, heq⟩ := b.addKey_eq a subId t
  rw [heq]

theorem mem_membersOf_addKey (name : GroupName) (c : String) :
    c ∈ (b.addKey a subId t).membersOf name ↔
      c ∈ b.membersOf name ∨ parseShared t.filter = some name ∧ c = a := by
  rw [addKey]
  cases parseShared t.filter with
  | none => simp [membersOf]
  | some group =>
    rw [membersOf_joinShared]
    by_cases hname : name = group
    · subst hname
      rw [if_pos rfl]
      change c ∈ (if a ∈ b.membersOf name then b.membersOf name else b.membersOf name ++ [a]) ↔ _
      split_ifs with hmem
      · simp only [true_and]
        exact ⟨.inl, fun h ↦ h.elim id fun h ↦ h ▸ hmem⟩
      · simp
    · rw [if_neg hname]
      simp [membersOf, Ne.symm hname]

end

theorem GroupOk.join (h : GroupOk members cursor) (a : String) :
    GroupOk (if a ∈ members then members else members ++ [a]) cursor := by
  split_ifs with hmem
  · exact h
  refine ⟨?_, h.2.imp_right fun hlt ↦ ?_⟩
  · rw [← concat_eq_append]
    exact h.1.concat hmem
  · rw [length_append]
    omega

/-- **A key is entered**, with the membership it stands for. -/
theorem Tables.addKey (h : b.Tables) (ha : Plain a) (subId : Option UInt32) (t : SubscribeTopic) :
    (b.addKey a subId t).Tables := by
  refine ⟨fun key hkey ↦ ?_, fun key x ↦ ?_, fun name c ↦ ?_, fun name ↦ ?_⟩
  · rw [subState_addKey, AList.mem_insert] at hkey
    rcases hkey with rfl | hkey
    · exact ⟨a, t.filter, ha, rfl⟩
    · exact h.owned key hkey
  · rw [router_addKey, TopicRouter.mem_subscribe, subState_addKey, AList.mem_insert]
    by_cases hkey : key = subKey a t.filter
    · subst hkey
      rw [if_pos rfl]
      constructor
      · rintro rfl
        exact ⟨.inl rfl, a, t.filter, ha, rfl, rfl⟩
      · rintro ⟨-, c, f, hc, heq, rfl⟩
        obtain ⟨-, rfl⟩ := (subKey_inj ha hc).mp heq
        rfl
    · rw [if_neg hkey, h.routed, or_iff_right hkey]
  · rw [mem_membersOf_addKey, h.member, subState_addKey, AList.mem_insert, parseShared_eq_some]
    constructor
    · rintro (⟨hgr, hc, hmem⟩ | ⟨⟨hgr, hfil⟩, rfl⟩)
      · exact ⟨hgr, hc, .inr hmem⟩
      · exact ⟨hgr, ha, .inl (by rw [hfil])⟩
    · rintro ⟨hgr, hc, hkey | hmem⟩
      · obtain ⟨rfl, hfil⟩ := (subKey_inj hc ha).mp hkey
        exact .inr ⟨⟨hgr, hfil.symm⟩, rfl⟩
      · exact .inl ⟨hgr, hc, hmem⟩
  · rw [Broker.addKey]
    cases parseShared t.filter with
    | none => exact h.group name
    | some group =>
      rw [membersOf_joinShared, cursorOf_joinShared]
      by_cases hname : name = group
      · rw [hname, if_pos rfl]
        exact (h.group group).join a
      · rw [if_neg hname]
        exact h.group name

/-- **A member is chosen.** -/
theorem Tables.selectMember (h : b.Tables) (name : GroupName) : (b.selectMember name).2.Tables := by
  rcases selectMember_cases b name with heq | ⟨idx, hidx, heq⟩
  · rwa [heq]
  refine ⟨?_, ?_, fun name' c ↦ ?_, fun name' ↦ ?_⟩
  · rw [heq]
    exact h.owned
  · rw [heq]
    exact h.routed
  · rw [membersOf_selectMember, h.member, heq]
  · rw [membersOf_selectMember, heq, cursorOf_update]
    split_ifs with hname
    · subst hname
      exact ⟨(h.group name').1, .inr (Nat.mod_lt _ (Nat.zero_lt_of_lt hidx))⟩
    · exact h.group name'

theorem Tables.foldl {α : Type} {g : Broker → α → Broker} {xs : List α} (h : b.Tables)
    (hg : ∀ b : Broker, b.Tables → ∀ x ∈ xs, (g b x).Tables) : (xs.foldl g b).Tables :=
  List.foldlRecOn xs g h hg

/-! ## Every call -/

theorem Tables.dropSession (h : b.Tables) (ha : Plain a) : (b.dropSession a).Tables := by
  have hclis : Tables { b with clients := update b.clients a none } := h.congr rfl rfl rfl
  refine hclis.foldl fun b' hb' key hkey ↦ ?_
  obtain ⟨f, hf⟩ := isSome_iff_exists.mp (mem_filter.mp hkey).2
  rw [dropKey_eq hf]
  exact hb'.unsubscribeFilter ha f

theorem mem_subState_dropSession {key : String} (b : Broker) (a : String) :
    key ∈ (b.dropSession a).subState ↔
      key ∈ b.subState ∧ Text.stripPrefix (keyFront a) key = none := by
  have hfold : ∀ (keys : List String) (b' : Broker),
      key ∈ (keys.foldl (dropKey a) b').subState ↔ key ∈ b'.subState ∧ key ∉ keys := by
    intro keys
    induction keys with
    | nil => simp
    | cons k keys ih =>
      intro b'
      rw [foldl_cons, ih, dropKey, subState_removeKey, AList.mem_erase, mem_cons, not_or,
        and_comm (a := key ≠ k), and_assoc]
  rw [Broker.dropSession]
  refine (hfold _ _).trans (and_congr_right fun hkey ↦ ?_)
  rw [sessionKeys, mem_filter, not_and]
  constructor
  · intro hstrip
    exact not_isSome_iff_eq_none.mp (hstrip hkey)
  · intro hnone _ hsome
    rw [hnone] at hsome
    cases hsome

theorem not_mem_dropSession (b : Broker) (a f : String) :
    subKey a f ∉ (b.dropSession a).subState := by
  intro hmem
  have hown : Text.stripPrefix (keyFront a) (subKey a f) = some f :=
    Text.stripPrefix_eq_some.mpr rfl
  rw [((mem_subState_dropSession b a).mp hmem).2] at hown
  cases hown

theorem Tables.connect (h : b.Tables) (ha : Plain a) (clean : Bool) (conn : ℕ) :
    (b.connect a clean conn).Tables := by
  rw [Broker.connect]
  split_ifs
  · exact (h.dropSession ha).congr rfl rfl rfl
  · exact h.congr rfl rfl rfl

theorem Tables.selectMembers (h : b.Tables) (names : List GroupName) :
    (selectMembers names b).2.Tables := by
  induction names generalizing b with
  | nil => exact h
  | cons name names ih => exact ih (h.selectMember name)

theorem Tables.publish (h : b.Tables) (env : Env) (publisher : Option String) (p : Publish) :
    (b.publish env publisher p).Tables := by
  obtain ⟨names, heq⟩ := publish_eq b env publisher p
  rw [heq]
  have hprep := h.of_sameTables (sameTables_prepared b env publisher p)
  exact (hprep.selectMembers names).of_sameTables
    (sends_foldl (sends_deliver publisher p) _ _).toSameTables

end Tables

end Broker

/-! ## Runs of calls -/

namespace Broker

variable {b : Broker} {core : SynapseCore}

theorem tables_new (h : Broker.new core = some b) : b.Tables := by
  have hemp : b.subState = ∅ ∧ b.router = .new ∧ b.sharedMembers = fun _ ↦ none := by
    rw [Broker.new] at h
    split at h
    · cases h
      exact ⟨rfl, rfl, rfl⟩
    · split at h
      · obtain ⟨log, -, rfl⟩ := map_eq_some_iff.mp h
        exact ⟨rfl, rfl, rfl⟩
      · cases h
  obtain ⟨hstate, hrtr, hsh⟩ := hemp
  refine ⟨?_, ?_, ?_, ?_⟩
  · simp [hstate]
  · simp [hstate, hrtr, TopicRouter.new]
  · simp [hstate, membersOf, hsh]
  · exact fun name ↦ ⟨by simp [membersOf, hsh], by simp [cursorOf, hsh]⟩

theorem Tables.call (h : b.Tables) {call : BrokerCall} (hcall : call.IsPlain) :
    (b.call call).Tables := by
  cases call with
  | connect id clean conn => exact h.connect (hcall id rfl) clean conn
  | subscribe env id topics subId =>
    refine h.foldl fun b' hb' t _ ↦ ?_
    exact (hb'.addKey (hcall id rfl) subId t).of_sameTables (sends_subscribeTopic ..).toSameTables
  | unsubscribe id topics => exact h.foldl fun _ h f _ ↦ h.unsubscribeFilter (hcall id rfl) f
  | disconnect id => exact h.dropSession (hcall id rfl)
  | publish env publisher p => exact h.publish env publisher p

theorem tables_run (hnew : Broker.new core = some b) {calls : List BrokerCall}
    (hcl : ∀ call ∈ calls, call.IsPlain) : (b.run calls).Tables :=
  (tables_new hnew).foldl fun _ h _ hcall ↦ h.call (hcl _ hcall)

theorem Tables.mem_router (h : b.Tables) (key : String) :
    key ∈ b.router.subs.map Prod.fst ↔ key ∈ b.subState := by
  constructor
  · intro hkey
    obtain ⟨⟨_, x⟩, hmem, rfl⟩ := mem_map.mp hkey
    exact ((h.routed _ x).mp hmem).1
  · intro hkey
    obtain ⟨c, f, hc, rfl⟩ := h.owned key hkey
    exact mem_map.mpr ⟨(subKey c f, _), (h.routed _ _).mpr ⟨hkey, c, f, hc, rfl, rfl⟩, rfl⟩

theorem Tables.filter_eq (h : b.Tables) {c f : String} (hc : Plain c) {x : CompiledFilter}
    (hmem : (subKey c f, x) ∈ b.router.subs) : x = compile (realFilter f) slash := by
  obtain ⟨-, c', f', hc', heq, rfl⟩ := (h.routed _ x).mp hmem
  obtain ⟨-, rfl⟩ := (subKey_inj hc hc').mp heq
  rfl

theorem Tables.count_member (h : b.Tables) {c : String} (hname : IsGroup name) (hc : Plain c) :
    (b.membersOf name).count c = if subKey c (sharedFilter name) ∈ b.subState then 1 else 0 := by
  have hmem : c ∈ b.membersOf name ↔ subKey c (sharedFilter name) ∈ b.subState := by
    rw [h.member, and_iff_right hname, and_iff_right hc]
  split_ifs with hkey
  · exact count_eq_one_of_mem (h.group name).1 (hmem.mpr hkey)
  · exact count_eq_zero.mpr (mt hmem.mp hkey)

/-- **The tables agree** after every run under ids without U+0000: router and options are kept under
the same keys; a client is listed in a shared group once if it holds the filter of the group, and
not otherwise; a cursor is zero or the position of a member. -/
theorem tables_agree {core : SynapseCore} {b : Broker} (hnew : Broker.new core = some b)
    (calls : List BrokerCall) (hcalls : ∀ call ∈ calls, call.IsPlain) :
    (∀ key, key ∈ (b.run calls).router.subs.map Prod.fst ↔ key ∈ (b.run calls).subState) ∧
      (∀ c f x, Plain c → (subKey c f, x) ∈ (b.run calls).router.subs →
        (parseShared f = none → x = compile f slash) ∧
          ∀ name, parseShared f = some name → x = compile name.2 slash) ∧
      (∀ name c, IsGroup name → Plain c → ((b.run calls).membersOf name).count c =
        if subKey c (sharedFilter name) ∈ (b.run calls).subState then 1 else 0) ∧
      ∀ name, (b.run calls).cursorOf name = 0 ∨
        (b.run calls).cursorOf name < ((b.run calls).membersOf name).length := by
  have h := tables_run hnew hcalls
  refine ⟨h.mem_router, fun c f x hc hmem ↦ ?_, fun name c ↦ h.count_member,
    fun name ↦ (h.group name).2⟩
  have hx := h.filter_eq hc hmem
  refine ⟨fun hshared ↦ ?_, fun name hshared ↦ ?_⟩
  · rw [hx, realFilter, hshared]
    rfl
  · rw [hx, realFilter, hshared]
    rfl

theorem new_fresh : Broker.new (.withObjectStore .empty) = some .fresh := (some_get _).symm

/-- Two clients subscribe to a shared filter, the first twice and then also to one of its own; a
message is published; the second client leaves. -/
def tableRun : List BrokerCall :=
  let env : Env := ⟨0, .inOrder⟩
  let topic (filter : String) : SubscribeTopic :=
    ⟨filter, .exactlyOnce, false, false, .sendAtSubscribe⟩
  [.connect "a" true 0, .connect "b" true 1,
    .subscribe env "a" [topic "$share/g/t", topic "$share/g/t", topic "u"] none,
    .subscribe env "b" [topic "$share/g/t"] none,
    .publish env none ⟨false, .atMostOnce, false, "t", none, [1], none⟩,
    .disconnect "b"]

theorem tables_agree_tableRun : ((Broker.fresh.run tableRun).membersOf ("g", "t")).count "a" = 1 ∧
      ((Broker.fresh.run tableRun).membersOf ("g", "t")).count "b" = 0 := by
  obtain ⟨-, -, hcount, -⟩ := tables_agree new_fresh tableRun (by decide)
  rw [hcount _ _ (by decide +kernel) (by decide), hcount _ _ (by decide +kernel) (by decide)]
  decide +kernel

end Broker

end Synapse.Mqtt
