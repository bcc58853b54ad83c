import Synapse.Engine.Core

/-!
# Creating a name again

The adapters call `create_queue` and `create_map` before each use, as if creating a primitive that
exists did nothing. It does: a new, empty primitive replaces the one the table refers to, and what
was in that one is out of reach for everybody who asks the engine for the name. Only a creation for
which there is `NoRoom` leaves the contents alone (`recreate_harmless_iff`).

`seen` is the primitive a tenant and a name stand for at present. What a creation does to it is said
once, for all three kinds, by `seen_createIn`.
-/

namespace Synapse

open Function Option

theorem TenantId.name_of_new {tenant : String} {t : TenantId} (h : TenantId.new tenant = .ok t) :
    t.name = tenant := by
  rw [TenantId.new] at h
  split_ifs at h
  exact Except.ok.inj h ▸ rfl

theorem TenantId.new_name (t : TenantId) : TenantId.new t.name = .ok t := by
  rw [TenantId.new, dif_neg t.nonempty, dif_pos t.safe]

/-- Nothing can be created: the name is empty, there cannot be such a tenant, or it has used up its
quota. -/
def TenantRegistry.NoRoom (tenants : TenantRegistry) (used limit : Tenant → ℕ)
    (tenant name : String) : Prop :=
  name = "" ∨ ∀ t : TenantId, t.name = tenant → limit (tenants.deref t) ≤ used (tenants.deref t)

theorem TenantRegistry.noRoom_iff {tenants : TenantRegistry} {used limit : Tenant → ℕ}
    {tenant name : String} {t : TenantId} (ht : TenantId.new tenant = .ok t) :
    tenants.NoRoom used limit tenant name ↔
      name = "" ∨ limit (tenants.deref t) ≤ used (tenants.deref t) := by
  refine or_congr_right ⟨fun h ↦ h t (TenantId.name_of_new ht), fun h t' ht' ↦ ?_⟩
  obtain rfl : t' = t := by
    rw [← ht', TenantId.new_name] at ht
    exact Except.ok.inj ht
  exact h

theorem TenantRegistry.noRoom_of_error {tenants : TenantRegistry} {used limit : Tenant → ℕ}
    {tenant : String} (name : String) {e : EngineError} (ht : TenantId.new tenant = .error e) :
    tenants.NoRoom used limit tenant name := by
  refine .inr fun t hname ↦ ?_
  rw [← hname, TenantId.new_name] at ht
  cases ht

instance (tenants : TenantRegistry) (used limit : Tenant → ℕ) (tenant name : String) :
    Decidable (tenants.NoRoom used limit tenant name) :=
  match ht : TenantId.new tenant with
  | .error _ => isTrue (TenantRegistry.noRoom_of_error name ht)
  | .ok _ => decidable_of_iff _ (TenantRegistry.noRoom_iff ht).symm

/-! ## Names that share no object -/

/-- Different names refer to different objects. -/
def ArcTable.Separate {α : Type} (objects : ArcTable α) : Prop :=
  ∀ key key' id, objects.table key = some id → objects.table key' = some id → key = key'

namespace ArcTable.Separate

variable {α : Type} {objects : ArcTable α}

theorem new : (ArcTable.new : ArcTable α).Separate := by
  intro key key' id h
  cases h

theorem push (h : objects.Separate) (key : Key) (x : α) : (objects.push key x).Separate := by
  have hfr {k : Key} (hk : objects.table k = some objects.cells.length) : False :=
    absurd (objects.live k _ hk) (lt_irrefl _)
  intro k k' id hk hk'
  change update objects.table key _ k = _ at hk
  change update objects.table key _ k' = _ at hk'
  rw [update_apply] at hk hk'
  split_ifs at hk hk' with hkey hkey' hkey'
  · exact hkey.trans hkey'.symm
  · cases hk
    exact (hfr hk').elim
  · cases hk'
    exact (hfr hk).elim
  · exact h k k' id hk hk'

theorem release (h : objects.Separate) (key : α → Key) (id : ℕ) :
    (objects.release key id).1.Separate := by
  rw [ArcTable.release]
  cases objects.held id with
  | none => exact h
  | some x => exact h

end ArcTable.Separate

namespace SynapseCore

/-! ## What the engine shows under a name -/

section Seen

variable {α : Type}

/-- The primitive that `get_log`, `get_queue` or `get_map` returns. -/
def seen (objects : ArcTable α) (tenant name : String) : Option α :=
  match locate objects tenant name with
  | .ok (some (_, x)) => some x
  | _ => none

variable {objects : ArcTable α} {tenant name : String} {t : TenantId}

theorem seen_eq (ht : TenantId.new tenant = .ok t) :
    seen objects tenant name = (objects.table (t, name)).bind objects.object := by
  rw [seen, locate, find, ht, Except.map, Except.map]
  cases objects.table (t, name) with
  | none => rfl
  | some id =>
    rw [bind_some, bind_some]
    cases objects.object id <;> rfl

theorem seen_eq_none {e : EngineError} (ht : TenantId.new tenant = .error e) :
    seen objects tenant name = none := by
  rw [seen, locate, find, ht]
  rfl

variable {tenant' name' : String} {id : ℕ} {x : α} {found : Option (ℕ × α)}

theorem seen_push_of_ne (ht : TenantId.new tenant = .ok t) (x : α)
    (hne : (tenant', name') ≠ (tenant, name)) :
    seen (objects.push (t, name) x) tenant' name' = seen objects tenant' name' := by
  cases ht' : TenantId.new tenant' with
  | error e => rw [seen_eq_none ht', seen_eq_none ht']
  | ok t' =>
    have hkey : (t', name') ≠ (t, name) := by
      rintro heq
      obtain ⟨rfl, rfl⟩ := Prod.mk.inj heq
      exact hne (by rw [← TenantId.name_of_new ht, ← TenantId.name_of_new ht'])
    have htab : (objects.push (t, name) x).table (t', name') = objects.table (t', name') :=
      update_of_ne hkey ..
    rw [seen_eq ht', seen_eq ht', htab]
    cases hid : objects.table (t', name') with
    | none => rfl
    | some id => exact objects.object_push_of_lt _ x (objects.live _ id hid)

theorem locate_eq_some (h : locate objects tenant name = .ok (some (id, x))) :
    ∃ t, TenantId.new tenant = .ok t ∧ objects.table (t, name) = some id ∧
      objects.object id = some x := by
  rw [locate, find] at h
  cases ht : TenantId.new tenant with
  | error e =>
    rw [ht] at h
    cases h
  | ok t =>
    rw [ht, Except.map, Except.map] at h
    obtain ⟨id', hid, h⟩ := bind_eq_some_iff.mp (Except.ok.inj h)
    obtain ⟨x', hx, ⟨⟩⟩ := map_eq_some_iff.mp h
    exact ⟨t, rfl, hid, hx⟩

theorem seen_of_locate (h : locate objects tenant name = .ok found) :
    seen objects tenant name = found.map Prod.snd := by
  rw [seen, h]
  cases found <;> rfl

theorem seen_release (key : α → Key) (id : ℕ) (tenant name : String) :
    seen (objects.release key id).1 tenant name = seen objects tenant name := by
  rw [ArcTable.release]
  cases objects.held id with
  | none => rfl
  | some x =>
    cases ht : TenantId.new tenant with
    | error e => rw [seen_eq_none ht, seen_eq_none ht]
    | ok t =>
      rw [seen_eq ht, seen_eq ht]
      change (objects.table (t, name)).bind _ = _
      congr 1
      exact funext (objects.object_modify_count id (· - 1))

theorem write_located (h : locate objects tenant name = .ok (some (id, x))) :
    objects.write id x = objects := by
  obtain ⟨-, -, -, hx⟩ := locate_eq_some h
  exact ArcTable.write_self hx

theorem locate_write (h : locate objects tenant name = .ok (some (id, x))) (y : α) :
    locate (objects.write id y) tenant name = .ok (some (id, y)) := by
  obtain ⟨t, ht, hid, hx⟩ := locate_eq_some h
  have htab : (objects.write id y).table (t, name) = some id := hid
  rw [locate, find, ht, Except.map, Except.map, htab, bind_some, ArcTable.object_write,
    if_pos rfl, hx]
  rfl

theorem seen_write_self (h : locate objects tenant name = .ok (some (id, x))) (y : α) :
    seen (objects.write id y) tenant name = some y :=
  seen_of_locate (locate_write h y)

/-- Nobody else sees it, if names do not share objects. -/
theorem seen_write_of_other (hsep : objects.Separate)
    (h : locate objects tenant name = .ok (some (id, x))) (y : α)
    (hne : (tenant', name') ≠ (tenant, name)) :
    seen (objects.write id y) tenant' name' = seen objects tenant' name' := by
  obtain ⟨t, ht, hid, -⟩ := locate_eq_some h
  cases ht' : TenantId.new tenant' with
  | error e => rw [seen_eq_none ht', seen_eq_none ht']
  | ok t' =>
    have htab : (objects.write id y).table (t', name') = objects.table (t', name') := rfl
    rw [seen_eq ht', seen_eq ht', htab]
    cases hid' : objects.table (t', name') with
    | none => rfl
    | some id' =>
      have hids : id' ≠ id := by
        rintro rfl
        obtain ⟨rfl, rfl⟩ := Prod.mk.inj (hsep _ _ _ hid' hid)
        exact hne (by rw [← TenantId.name_of_new ht, ← TenantId.name_of_new ht'])
      rw [bind_some, bind_some, ArcTable.object_write, if_neg hids]

variable {create : Tenant → EngineResult (α × Tenant)} {release : Tenant → Tenant}
  {tenants : TenantRegistry} {used limit : Tenant → ℕ}

section

variable (create : Tenant → EngineResult (α × Tenant)) (release : Tenant → Tenant)
  (tenants : TenantRegistry) (objects : ArcTable α)

/-- **Creation.** The name stands for what the constructor made, or, if there is no room for that,
for what it stood for before. -/
theorem seen_createIn (hnew : ∀ t, (∃ e, create t = .error e) ↔ name = "" ∨ limit t ≤ used t) :
    (¬tenants.NoRoom used limit tenant name ∧ ∃ x owner t, create t = .ok (x, owner) ∧
        seen (createIn create release tenants objects tenant name).2.2 tenant name = some x) ∨
      tenants.NoRoom used limit tenant name ∧
        (createIn create release tenants objects tenant name).2.2 = objects := by
  rw [createIn]
  cases ht : TenantId.new tenant with
  | error e => exact .inr ⟨TenantRegistry.noRoom_of_error name ht, rfl⟩
  | ok t =>
    rw [TenantRegistry.noRoom_iff ht, ← hnew, TenantRegistry.deref]
    dsimp only
    cases hx : create (tenants.getOrCreate t).1 with
    | error e => exact .inr ⟨⟨e, rfl⟩, rfl⟩
    | ok made => exact .inl ⟨by simp, _, _, _, hx, seen_of_locate (locate_push_self ht made.1)⟩

theorem seen_createIn_of_ne (hne : (tenant', name') ≠ (tenant, name)) :
    seen (createIn create release tenants objects tenant name).2.2 tenant' name' =
      seen objects tenant' name' := by
  rcases hcr : createIn create release tenants objects tenant name with ⟨r, tenants', made⟩
  obtain ⟨t, x, -, ht, -, -, rfl⟩ | ⟨-, -, -, rfl⟩ := createIn_cases hcr
  · exact seen_push_of_ne ht x hne
  · rfl

end

theorem separate_createIn (h : objects.Separate) (create : Tenant → EngineResult (α × Tenant))
    (release : Tenant → Tenant) (tenants : TenantRegistry) (tenant name : String) :
    (createIn create release tenants objects tenant name).2.2.Separate := by
  rcases hcr : createIn create release tenants objects tenant name with ⟨r, tenants', made⟩
  obtain ⟨t, x, -, -, -, -, rfl⟩ | ⟨-, -, -, rfl⟩ := createIn_cases hcr
  · exact h.push (t, name) x
  · exact h

theorem map_seen_createIn_iff {β : Type} (f : α → β) (blank : β)
    (hblk : ∀ t x owner, create t = .ok (x, owner) → f x = blank)
    (hnew : ∀ t, (∃ e, create t = .error e) ↔ name = "" ∨ limit t ≤ used t) :
    (seen (createIn create release tenants objects tenant name).2.2 tenant name).map f =
        (seen objects tenant name).map f ↔
      tenants.NoRoom used limit tenant name ∨ (seen objects tenant name).map f = some blank := by
  rcases seen_createIn create release tenants objects hnew with
    ⟨hroom, x, owner, t, hx, hseen⟩ | ⟨hroom, hsame⟩
  · rw [hseen, map_some, hblk t x owner hx, or_iff_right hroom]
    exact eq_comm
  · rw [hsame]
    exact iff_of_true rfl (.inl hroom)

end Seen

/-- The ready and the in-flight messages of a queue, as `get_queue` shows them. -/
def messages (core : SynapseCore) (tenant name : String) :
    Option (List QueueEntry × List QueueEntry) :=
  (seen core.queues tenant name).map fun q ↦ (q.ready, q.inflight)

/-- The entries of a map, as `get_map` shows them. -/
def entries (core : SynapseCore) (tenant name : String) : Option (List (String × MapEntry)) :=
  (seen core.maps tenant name).map Map.data

/-- **Creating an existing resource.** Creating a queue or a map leaves what the engine shows under
its name unchanged if and only if there is no room for it or nothing in it. Everything else stays as
it was. -/
theorem recreate_harmless_iff (core : SynapseCore) (tenant name : String) :
    ((core.createQueue tenant name).2.messages tenant name = core.messages tenant name ↔
        core.tenants.NoRoom Tenant.usedQueues (·.quota.maxQueues) tenant name ∨
          core.messages tenant name = some ([], [])) ∧
      ((core.createMap tenant name).2.entries tenant name = core.entries tenant name ↔
        core.tenants.NoRoom Tenant.usedMaps (·.quota.maxMaps) tenant name ∨
          core.entries tenant name = some []) ∧
      ∀ tenant' name', (tenant', name') ≠ (tenant, name) →
        (core.createQueue tenant name).2.messages tenant' name' = core.messages tenant' name' ∧
        (core.createMap tenant name).2.entries tenant' name' = core.entries tenant' name' := by
  refine ⟨map_seen_createIn_iff _ _ (fun _ _ _ h ↦ ?_) fun _ ↦ Queue.new_error_iff,
    map_seen_createIn_iff _ _ (fun _ _ _ h ↦ ?_) fun _ ↦ Map.new_error_iff,
    fun tenant' name' hne ↦ ⟨?_, ?_⟩⟩
  · rw [Queue.eq_of_new h]
  · rw [Map.eq_of_new h]
  · exact congrArg (Option.map _) (seen_createIn_of_ne _ _ core.tenants core.queues hne)
  · exact congrArg (Option.map _) (seen_createIn_of_ne _ _ core.tenants core.maps hne)

/-- One message is ready, one in flight, and a map has one entry: after the second creation all of
it is gone. -/
theorem recreate_loses_contents : ∃ core : SynapseCore,
      core = [EngineOp.createQueue "t" "q", .queueEnqueue "t" "q" [1] 0,
        .queueEnqueue "t" "q" [2] 0, .dequeue 0, .createMap "t" "m",
        .mapSet "t" "m" "k" [3] none 0].foldl perform (withObjectStore .empty) ∧
      core.messages "t" "q" = some ([⟨1, [2]⟩], [⟨0, [1]⟩]) ∧
      (core.createQueue "t" "q").2.messages "t" "q" = some ([], []) ∧
      core.entries "t" "m" = some [("k", ⟨[3], none⟩)] ∧
      (core.createMap "t" "m").2.entries "t" "m" = some [] :=
  ⟨_, rfl, by decide +kernel, by decide +kernel, by decide +kernel, by decide +kernel⟩

end SynapseCore

end Synapse
