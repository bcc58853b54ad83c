import Mathlib.Tactic.Common
import Synapse.Engine.Core

/-!
# Replaying commands

A committed Raft entry holds one `ReplicatedCommand`. `apply_command` creates the primitive it
addresses if that is missing, dropping the handle at once, and then performs the write.

Two engines that replay the same commands read different clocks. `SynapseCore.Agree` is equality up
to the clock, and `Agree.applyCommand` says that replaying a command keeps it.

`SynapseCore.accepts` says from the command and the state before it whether the command succeeds
(`isOk_applyCommand`), and `SynapseCore.idle` when a rejected command leaves no trace. The other
rejected commands do leave one: a missing tenant or primitive has been created, or a record has been
stored whose bytes the quota then refuses.
-/

namespace Synapse

open Option

/-- A single operation replicated through Raft and applied to the engine. -/
inductive ReplicatedCommand
  | logAppend (tenant name : String) (payload : Bytes)
  | queueEnqueue (tenant name : String) (payload : Bytes)
  | mapSet (tenant name key : String) (value : Bytes) (ttlMs : Option ℕ)
deriving DecidableEq, Repr

namespace SynapseCore

/-- Create a primitive if it does not exist yet. The handle on a new one is dropped at once. -/
def ensureIn {α : Type} (create : Tenant → EngineResult (α × Tenant)) (release : Tenant → Tenant)
    (key : α → Key) (tenants : TenantRegistry) (objects : ArcTable α) (tenant name : String) :
    EngineResult Unit × TenantRegistry × ArcTable α :=
  match find objects tenant name with
  | .error e => (.error e, tenants, objects)
  | .ok (some _) => (.ok (), tenants, objects)
  | .ok none =>
    match createIn create release tenants objects tenant name with
    | (.error e, tenants, objects) => (.error e, tenants, objects)
    | (.ok handle, tenants, objects) =>
      let (objects, dropped) := objects.release key handle
      (.ok (), giveBack tenants (fun x ↦ (key x).1) release dropped, objects)

def ensureLog (core : SynapseCore) (tenant name : String) : EngineResult Unit × SynapseCore :=
  let (r, tenants, logs) :=
    ensureIn (Log.new name) Tenant.releaseLog Log.key core.tenants core.logs tenant name
  (r, { core with tenants := tenants, logs := logs })

def ensureQueue (core : SynapseCore) (tenant name : String) : EngineResult Unit × SynapseCore :=
  let (r, tenants, queues) :=
    ensureIn (Queue.new name) Tenant.releaseQueue Queue.key core.tenants core.queues tenant name
  (r, { core with tenants := tenants, queues := queues })

def ensureMap (core : SynapseCore) (tenant name : String) : EngineResult Unit × SynapseCore :=
  let (r, tenants, maps) :=
    ensureIn (Map.new name) Tenant.releaseMap Map.key core.tenants core.maps tenant name
  (r, { core with tenants := tenants, maps := maps })

/-- The write that follows once the primitive is there. -/
def thenWrite {β : Type} (write : SynapseCore → EngineResult β × SynapseCore) :
    EngineResult Unit × SynapseCore → EngineResult Unit × SynapseCore
  | (.error e, core) => (.error e, core)
  | (.ok (), core) => ((write core).1.map fun _ ↦ (), (write core).2)

/-- Apply one committed command, creating the target primitive if it does not yet exist. -/
def applyCommand (core : SynapseCore) (cmd : ReplicatedCommand) (now : ℕ) :
    EngineResult Unit × SynapseCore :=
  match cmd with
  | .logAppend tenant name payload =>
    thenWrite (·.logAppend tenant name payload now) (core.ensureLog tenant name)
  | .queueEnqueue tenant name payload =>
    thenWrite (·.queueEnqueue tenant name payload now) (core.ensureQueue tenant name)
  | .mapSet tenant name key value ttlMs =>
    thenWrite (·.mapSet tenant name key value ttlMs now) (core.ensureMap tenant name)

/-! ## Which commands are accepted -/

/-- The primitive exists, or it has a name and the tenant may create one more. -/
def available {α : Type} (objects : ArcTable α) (key : Key) (used limit : ℕ) : Bool :=
  (objects.table key).isSome || (key.2 != "" && decide (used < limit))

/-- The command succeeds, decided from the state before it. -/
def accepts (core : SynapseCore) : ReplicatedCommand → Bool
  | .logAppend tenant name payload =>
    match TenantId.new tenant with
    | .error _ => false
    | .ok id =>
      let t := core.tenants.deref id
      available core.logs (id, name) t.usedLogs t.quota.maxLogs && payload != [] &&
        decide (min (t.usedLogBytes + payload.length) (2 ^ 64 - 1) ≤ t.quota.maxLogBytes)
  | .queueEnqueue tenant name payload =>
    match TenantId.new tenant with
    | .error _ => false
    | .ok id =>
      let t := core.tenants.deref id
      available core.queues (id, name) t.usedQueues t.quota.maxQueues && payload != []
  | .mapSet tenant name key value _ =>
    match TenantId.new tenant with
    | .error _ => false
    | .ok id =>
      let t := core.tenants.deref id
      available core.maps (id, name) t.usedMaps t.quota.maxMaps && key != "" && value != []

/-- The write is refused although the primitive exists, or the primitive is missing and cannot be
created although the tenant is known. -/
def refused {α : Type} (tenants : TenantRegistry) (objects : ArcTable α) (key : Key)
    (used limit : ℕ) (badWrite : Bool) : Bool :=
  if (objects.table key).isSome then badWrite
  else (tenants.tenants key.1).isSome && (key.2 == "" || decide (limit ≤ used))

/-- The command is rejected and leaves no trace, decided from the state before it. -/
def idle (core : SynapseCore) : ReplicatedCommand → Bool
  | .logAppend tenant name payload =>
    match TenantId.new tenant with
    | .error _ => true
    | .ok id =>
      let t := core.tenants.deref id
      refused core.tenants core.logs (id, name) t.usedLogs t.quota.maxLogs (payload == [])
  | .queueEnqueue tenant name payload =>
    match TenantId.new tenant with
    | .error _ => true
    | .ok id =>
      let t := core.tenants.deref id
      refused core.tenants core.queues (id, name) t.usedQueues t.quota.maxQueues (payload == [])
  | .mapSet tenant name key value _ =>
    match TenantId.new tenant with
    | .error _ => true
    | .ok id =>
      let t := core.tenants.deref id
      refused core.tenants core.maps (id, name) t.usedMaps t.quota.maxMaps
        (key == "" || value == [])

/-! ## What `ensureIn` does -/

/-- What the three constructors have in common: a name and room below a limit are needed, and
enough; the object is the tenant's, and the byte account stays. -/
structure Constructs {α : Type} (create : Tenant → EngineResult (α × Tenant)) (key : α → Key)
    (name : String) (used limit : Tenant → ℕ) : Prop where
  makes : ∀ t, name ≠ "" → used t < limit t → ∃ x t', create t = .ok (x, t')
  fails : ∀ t, ¬(name ≠ "" ∧ used t < limit t) → ∃ e, create t = .error e
  made : ∀ t x t', create t = .ok (x, t') → key x = (t.id, name) ∧ t'.id = t.id ∧
    t'.usedLogBytes = t.usedLogBytes ∧ t'.quota = t.quota

theorem constructs_of_charge {α : Type} {create : Tenant → EngineResult (α × Tenant)}
    {key : α → Key} {name : String} {used limit : Tenant → ℕ} (kind : String) (e : EngineError)
    (make : Tenant → α) (count : Tenant → ℕ → Tenant)
    (hcr : ∀ t, create t = if name = "" then .error e
      else ((t.chargeCount kind (used t) (limit t)).map (count t)).map fun t ↦ (make t, t))
    (hkey : ∀ t, key (make t) = (t.id, name))
    (hct : ∀ t n, (count t n).id = t.id ∧ (count t n).usedLogBytes = t.usedLogBytes ∧
      (count t n).quota = t.quota) : Constructs create key name used limit where
  makes t hname hlt := by
    rw [hcr, if_neg hname, Tenant.chargeCount, if_neg (Nat.not_le.mpr hlt)]
    exact ⟨_, _, rfl⟩
  fails t hnot := by
    rw [hcr]
    by_cases hname : name = ""
    · exact ⟨e, if_pos hname⟩
    · have hle : used t ≥ limit t := Nat.not_lt.mp fun hlt ↦ hnot ⟨hname, hlt⟩
      rw [if_neg hname, Tenant.chargeCount, if_pos hle]
      exact ⟨_, rfl⟩
  made t x t' hmade := by
    rw [hcr, Tenant.chargeCount] at hmade
    split_ifs at hmade
    · cases hmade
    · obtain ⟨rfl, rfl⟩ := Prod.mk.inj (Except.ok.inj hmade)
      exact ⟨by rw [hkey, (hct t _).1], hct t _⟩

variable (core : SynapseCore) (name : String) {β : Type}

theorem constructs_log : Constructs (Log.new name) Log.key name Tenant.usedLogs (·.quota.maxLogs) :=
  constructs_of_charge _ _ (fun t ↦ ⟨name, t.id⟩) (fun t n ↦ { t with usedLogs := n })
    (fun _ ↦ rfl) (fun _ ↦ rfl) fun _ _ ↦ ⟨rfl, rfl, rfl⟩

theorem constructs_queue :
    Constructs (Queue.new name) Queue.key name Tenant.usedQueues (·.quota.maxQueues) :=
  constructs_of_charge _ _ (fun t ↦ ⟨name, t.id, [], [], 0⟩) (fun t n ↦ { t with usedQueues := n })
    (fun _ ↦ rfl) (fun _ ↦ rfl) fun _ _ ↦ ⟨rfl, rfl, rfl⟩

theorem constructs_map : Constructs (Map.new name) Map.key name Tenant.usedMaps (·.quota.maxMaps) :=
  constructs_of_charge _ _ (fun t ↦ ⟨name, t.id, []⟩) (fun t n ↦ { t with usedMaps := n })
    (fun _ ↦ rfl) (fun _ ↦ rfl) fun _ _ ↦ ⟨rfl, rfl, rfl⟩

section Ensure

variable {α : Type} {create : Tenant → EngineResult (α × Tenant)} {release : Tenant → Tenant}
  {key : α → Key} {tenants : TenantRegistry} {objects : ArcTable α} {tenant name : String}
  {used limit : Tenant → ℕ}

theorem ensureIn_of_error {e : EngineError} (hid : TenantId.new tenant = .error e) :
    ensureIn create release key tenants objects tenant name = (.error e, tenants, objects) := by
  rw [ensureIn, find, hid]
  rfl

variable {id : TenantId} (hid : TenantId.new tenant = .ok id)

include hid

theorem locate_of_table {handle : ℕ} (htab : objects.table (id, name) = some handle) :
    ∃ x, objects.object handle = some x ∧ locate objects tenant name = .ok (some (handle, x)) := by
  refine locate_of_find ?_
  rw [find, hid, Except.map, htab]

variable (hc : Constructs create key name used limit)

include hc

/-- Under a valid tenant, a missing primitive is created and its handle dropped, which leaves it in
the table. -/
theorem ensureIn_of_ok : ensureIn create release key tenants objects tenant name =
      if (objects.table (id, name)).isSome then (.ok (), tenants, objects)
      else match create (tenants.deref id) with
        | .error e => (.error e, (tenants.getOrCreate id).2, objects)
        | .ok (x, t) => (.ok (), (tenants.getOrCreate id).2.put t,
            (objects.push (id, name) x).modify objects.cells.length fun c ↦ (c.1, c.2 - 1)) := by
  rw [ensureIn, find, hid, Except.map]
  cases htab : objects.table (id, name) with
  | some handle => rfl
  | none =>
    simp only [isSome_none, Bool.false_eq_true, if_false]
    rw [createIn, hid]
    simp only [TenantRegistry.deref]
    cases hcr : create (tenants.getOrCreate id).1 with
    | error e => rfl
    | ok made =>
      obtain ⟨x, t⟩ := made
      have hx : key x = (id, name) := by
        rw [(hc.made _ _ _ hcr).1, ← TenantRegistry.deref, TenantRegistry.deref_id]
      have hheld : (objects.push (id, name) x).held objects.cells.length = some x := by
        simp [ArcTable.held, ArcTable.handles, ArcTable.object, ArcTable.push]
      have hrefers : (objects.push (id, name) x).table (key x) = some objects.cells.length := by
        rw [hx]
        exact Function.update_self _ _ _
      simp only [ArcTable.insert, htab, bind_none, isSome_none,
        Bool.false_eq_true, if_false, ArcTable.release, hheld, hrefers, ne_eq, not_true_eq_false,
        and_false, giveBack]

theorem ensureIn_unavailable
    (h : available objects (id, name) (used (tenants.deref id)) (limit (tenants.deref id)) =
      false) : ∃ e, ensureIn create release key tenants objects tenant name =
      (.error e, (tenants.getOrCreate id).2, objects) := by
  obtain ⟨hnone, hnot⟩ := Bool.or_eq_false_iff.mp h
  obtain ⟨e, he⟩ := hc.fails (tenants.deref id) fun ⟨hname, hlt⟩ ↦ by simp [hname, hlt] at hnot
  exact ⟨e, by rw [ensureIn_of_ok hid hc, hnone, he, if_neg Bool.false_ne_true]⟩

/-- An available primitive is found afterwards: the one that was there, or a new one with the right
key. The byte account is unchanged. -/
theorem ensureIn_available
    (h : available objects (id, name) (used (tenants.deref id)) (limit (tenants.deref id)) = true) :
    ∃ tenants' objects' handle x,
      ensureIn create release key tenants objects tenant name = (.ok (), tenants', objects') ∧
      locate objects' tenant name = .ok (some (handle, x)) ∧
      (key x = (id, name) ∨
        objects.table (id, name) = some handle ∧ objects.object handle = some x) ∧
      (tenants'.deref id).usedLogBytes = (tenants.deref id).usedLogBytes ∧
      (tenants'.deref id).quota = (tenants.deref id).quota := by
  cases htab : objects.table (id, name) with
  | some handle =>
    obtain ⟨x, hobj, hloc⟩ := locate_of_table hid htab
    refine ⟨tenants, objects, handle, x, ?_, hloc, .inr ⟨rfl, hobj⟩, rfl, rfl⟩
    rw [ensureIn_of_ok hid hc, htab]
    rfl
  | none =>
    have hroom : name ≠ "" ∧ used (tenants.deref id) < limit (tenants.deref id) := by
      simpa [available, htab] using h
    obtain ⟨x, t, hmade⟩ := hc.makes (tenants.deref id) hroom.1 hroom.2
    obtain ⟨hkey, ht, hbs, hquo⟩ := hc.made _ _ _ hmade
    rw [tenants.deref_id] at hkey ht
    have hdrf : ((tenants.getOrCreate id).2.put t).deref id = t := by
      rw [← ht, TenantRegistry.deref_put]
    set objects' := (objects.push (id, name) x).modify objects.cells.length
      fun c ↦ (c.1, c.2 - 1) with hobjects'
    have htab' : objects'.table (id, name) = some objects.cells.length := Function.update_self _ _ _
    obtain ⟨y, hy, hloc⟩ := locate_of_table hid htab'
    have hx : objects'.object objects.cells.length = some x := by
      simp [hobjects', ArcTable.object, ArcTable.modify, ArcTable.push]
    obtain rfl : x = y := some.inj (hx.symm.trans hy)
    exact ⟨_, objects', objects.cells.length, x, by rw [ensureIn_of_ok hid hc, htab, hmade]; rfl,
      hloc, .inl hkey, by rw [hdrf, hbs], by rw [hdrf, hquo]⟩

/-- A refused command does not get beyond the primitive, or finds it and makes a bad write. -/
theorem ensureIn_refused {badWrite : Bool}
    (h : refused tenants objects (id, name) (used (tenants.deref id)) (limit (tenants.deref id))
      badWrite = true) :
    (∃ e, ensureIn create release key tenants objects tenant name = (.error e, tenants, objects)) ∨
      badWrite = true ∧
        ensureIn create release key tenants objects tenant name = (.ok (), tenants, objects) ∧
        ∃ handle x, objects.object handle = some x ∧
          locate objects tenant name = .ok (some (handle, x)) := by
  rw [refused] at h
  cases htab : objects.table (id, name) with
  | some handle =>
    rw [htab] at h
    obtain ⟨x, hobj, hloc⟩ := locate_of_table hid htab
    refine .inr ⟨h, ?_, handle, x, hobj, hloc⟩
    rw [ensureIn_of_ok hid hc, htab]
    rfl
  | none =>
    rw [htab, isSome_none, if_neg Bool.false_ne_true, Bool.and_eq_true] at h
    obtain ⟨hkn, hfull⟩ := h
    have havail : available objects (id, name) (used (tenants.deref id))
        (limit (tenants.deref id)) = false := by
      rcases Bool.or_eq_true_iff.mp hfull with hname | hle
      · rw [available, htab, bne, hname]
        rfl
      · simp [available, htab, decide_eq_true_iff.mp hle]
    obtain ⟨e, he⟩ := ensureIn_unavailable hid hc havail
    refine .inl ⟨e, he.trans ?_⟩
    obtain ⟨t, ht⟩ := isSome_iff_exists.mp hkn
    rw [TenantRegistry.getOrCreate, ht]

end Ensure

/-! ## Acceptance -/

/-- Every log in the table is the log of its key. -/
def LogsKeyed (core : SynapseCore) : Prop :=
  ∀ key id log, core.logs.table key = some id → core.logs.object id = some log → log.key = key

theorem isOk_map {ε α : Type} (f : α → β) (x : Except ε α) : (x.map f).isOk = x.isOk := by
  cases x <;> rfl

theorem isOk_wal_append (wal : TieredSegmentedLog) (payload : Bytes) (now : ℕ) :
    (wal.append payload now).1.isOk = (payload != []) := by
  by_cases hnil : payload = []
  · subst hnil
    rfl
  · rw [wal.append_of_ne_nil hnil, bne_iff_ne.mpr hnil]
    rfl

theorem isOk_append (log : Log) (payload : Bytes) (now : ℕ) :
    (core.append log payload now).1.isOk = (payload != [] &&
      decide (min ((core.tenants.deref log.tenant).usedLogBytes + payload.length) (2 ^ 64 - 1) ≤
        (core.tenants.deref log.tenant).quota.maxLogBytes)) := by
  rw [← isOk_wal_append core.wal payload now, SynapseCore.append, Log.append]
  rcases core.wal.append payload now with ⟨_ | offset, wal⟩
  · rfl
  rw [Tenant.chargeLogBytes]
  split_ifs with hgt
  · rw [decide_eq_false (Nat.not_le.mpr hgt)]
    rfl
  · rw [decide_eq_true (Nat.not_lt.mp hgt)]
    rfl

theorem isOk_enqueue (id : ℕ) (q : Queue) (payload : Bytes) (now : ℕ) :
    (core.enqueue id q payload now).1.isOk = (payload != []) := by
  rw [← isOk_wal_append core.wal payload now, SynapseCore.enqueue, Queue.enqueue]
  rcases core.wal.append payload now with ⟨_ | offset, wal⟩ <;> rfl

theorem isOk_set (id : ℕ) (m : Map) (key : String) (value : Bytes) (ttl : Option ℕ) (now : ℕ) :
    (core.set id m key value ttl now).1.isOk = (key != "" && value != []) := by
  rw [← isOk_wal_append core.wal value now, SynapseCore.set, Map.set]
  split_ifs with hkey
  · simp [hkey, Except.isOk, Except.toBool]
  · rw [bne_iff_ne.mpr hkey, Bool.true_and]
    rcases core.wal.append value now with ⟨_ | offset, wal⟩ <;> rfl

section ThenWrite

variable {α β : Type} {create : Tenant → EngineResult (α × Tenant)} {release : Tenant → Tenant}
  {key : α → Key} {tenants : TenantRegistry} {objects : ArcTable α} {tenant name : String}
  {used limit : Tenant → ℕ} {id : TenantId} {build : TenantRegistry → ArcTable α → SynapseCore}
  {write : SynapseCore → EngineResult β × SynapseCore}

def around (build : TenantRegistry → ArcTable α → SynapseCore)
    (ensured : EngineResult Unit × TenantRegistry × ArcTable α) : EngineResult Unit × SynapseCore :=
  (ensured.1, build ensured.2.1 ensured.2.2)

variable (hid : TenantId.new tenant = .ok id) (hc : Constructs create key name used limit)

include hid hc

/-- Under a valid tenant a command succeeds if the primitive is available and the write is good. -/
theorem isOk_thenWrite {good : Bool}
    (hwrt : ∀ tenants' objects' handle x, locate objects' tenant name = .ok (some (handle, x)) →
      (key x = (id, name) ∨
        objects.table (id, name) = some handle ∧ objects.object handle = some x) →
      (tenants'.deref id).usedLogBytes = (tenants.deref id).usedLogBytes →
      (tenants'.deref id).quota = (tenants.deref id).quota →
      (write (build tenants' objects')).1.isOk = good) :
    (thenWrite write (around build
      (ensureIn create release key tenants objects tenant name))).1.isOk =
      (available objects (id, name) (used (tenants.deref id)) (limit (tenants.deref id)) &&
        good) := by
  cases havail : available objects (id, name) (used (tenants.deref id))
    (limit (tenants.deref id)) with
  | false =>
    obtain ⟨e, he⟩ := ensureIn_unavailable hid hc havail
    rw [he]
    rfl
  | true =>
    obtain ⟨tenants', objects', handle, x, hens, hloc, hx, hbs, hquo⟩ :=
      ensureIn_available hid hc havail
    rw [hens, Bool.true_and, ← hwrt tenants' objects' handle x hloc hx hbs hquo]
    exact isOk_map _ _

/-- A refused command is rejected without a trace if its bad write on an existing primitive is. -/
theorem thenWrite_of_refused {badWrite : Bool}
    (h : refused tenants objects (id, name) (used (tenants.deref id)) (limit (tenants.deref id))
      badWrite = true)
    (hwrt : badWrite = true → ∀ handle x, objects.object handle = some x →
      locate objects tenant name = .ok (some (handle, x)) →
      ∃ e, write (build tenants objects) = (.error e, build tenants objects)) :
    ∃ e, thenWrite write (around build (ensureIn create release key tenants objects tenant name)) =
        (.error e, build tenants objects) := by
  obtain ⟨e, he⟩ | ⟨hbad, hens, handle, x, hobj, hloc⟩ := ensureIn_refused hid hc h
  · exact ⟨e, by rw [he]; rfl⟩
  obtain ⟨e, he⟩ := hwrt hbad handle x hobj hloc
  refine ⟨e, ?_⟩
  rw [hens]
  change ((write (build tenants objects)).1.map fun _ ↦ (), (write (build tenants objects)).2) = _
  rw [he]
  rfl

end ThenWrite

section

variable (core : SynapseCore) (tenant name : String)

theorem ensureLog_eq : core.ensureLog tenant name =
    around (fun tenants logs ↦ { core with tenants := tenants, logs := logs })
      (ensureIn (Log.new name) Tenant.releaseLog Log.key core.tenants core.logs tenant name) := rfl

theorem ensureQueue_eq : core.ensureQueue tenant name =
    around (fun tenants queues ↦ { core with tenants := tenants, queues := queues })
      (ensureIn (Queue.new name) Tenant.releaseQueue Queue.key core.tenants core.queues tenant
        name) := rfl

theorem ensureMap_eq : core.ensureMap tenant name =
    around (fun tenants maps ↦ { core with tenants := tenants, maps := maps })
      (ensureIn (Map.new name) Tenant.releaseMap Map.key core.tenants core.maps tenant name) := rfl

end

/-- **Acceptance.** Whether a command succeeds is decided by the state before it. -/
theorem isOk_applyCommand {core : SynapseCore} (hkey : core.LogsKeyed) (cmd : ReplicatedCommand)
    (now : ℕ) : (core.applyCommand cmd now).1.isOk = core.accepts cmd := by
  cases cmd with
  | logAppend tenant name payload =>
    rw [applyCommand, accepts, ensureLog_eq]
    cases hid : TenantId.new tenant with
    | error e => rw [ensureIn_of_error hid]; rfl
    | ok id =>
      refine (isOk_thenWrite hid (constructs_log name) ?_).trans (Bool.and_assoc ..).symm
      intro tenants logs handle log hloc hlog hbs hquo
      have hown : log.tenant = id := congrArg Prod.fst
        (hlog.elim (fun h ↦ h) fun h ↦ hkey _ _ _ h.1 h.2 : log.key = (id, name))
      simp only [logAppend, withObject, hloc, isOk_append, hown, hbs, hquo]
  | queueEnqueue tenant name payload =>
    rw [applyCommand, accepts, ensureQueue_eq]
    cases hid : TenantId.new tenant with
    | error e => rw [ensureIn_of_error hid]; rfl
    | ok id =>
      refine isOk_thenWrite hid (constructs_queue name) ?_
      intro tenants queues handle q hloc _ _ _
      simp only [queueEnqueue, withObject, hloc, isOk_enqueue]
  | mapSet tenant name key value ttlMs =>
    rw [applyCommand, accepts, ensureMap_eq]
    cases hid : TenantId.new tenant with
    | error e => rw [ensureIn_of_error hid]; rfl
    | ok id =>
      refine (isOk_thenWrite hid (constructs_map name) ?_).trans (Bool.and_assoc ..).symm
      intro tenants maps handle m hloc _ _ _
      simp only [mapSet, withObject, hloc, isOk_set]

/-- An idle command is rejected and leaves the engine as it is. -/
theorem applyCommand_of_idle {core : SynapseCore} {cmd : ReplicatedCommand}
    (h : core.idle cmd = true) (now : ℕ) : ∃ e, core.applyCommand cmd now = (.error e, core) := by
  cases cmd with
  | logAppend tenant name payload =>
    rw [idle] at h
    rw [applyCommand, ensureLog_eq]
    cases hid : TenantId.new tenant with
    | error e => exact ⟨e, by rw [ensureIn_of_error hid]; rfl⟩
    | ok id =>
      rw [hid] at h
      refine thenWrite_of_refused hid (constructs_log name) h fun hbad handle log _ hloc ↦ ?_
      obtain rfl := beq_iff_eq.mp hbad
      exact ⟨_, by simp only [logAppend, withObject, hloc]; rfl⟩
  | queueEnqueue tenant name payload =>
    rw [idle] at h
    rw [applyCommand, ensureQueue_eq]
    cases hid : TenantId.new tenant with
    | error e => exact ⟨e, by rw [ensureIn_of_error hid]; rfl⟩
    | ok id =>
      rw [hid] at h
      refine thenWrite_of_refused hid (constructs_queue name) h fun hbad handle q hobj hloc ↦ ?_
      obtain rfl := beq_iff_eq.mp hbad
      have hsame : { core with queues := core.queues.write handle q } = core :=
        congrArg (fun queues ↦ { core with queues := queues }) (ArcTable.write_self hobj)
      refine ⟨.invalidArgument "empty payload", ?_⟩
      simp only [queueEnqueue, withObject, hloc]
      exact congrArg (Prod.mk _) hsame
  | mapSet tenant name key value ttlMs =>
    rw [idle] at h
    rw [applyCommand, ensureMap_eq]
    cases hid : TenantId.new tenant with
    | error e => exact ⟨e, by rw [ensureIn_of_error hid]; rfl⟩
    | ok id =>
      rw [hid] at h
      refine thenWrite_of_refused hid (constructs_map name) h fun hbad handle m hobj hloc ↦ ?_
      have hsame : { core with maps := core.maps.write handle m } = core :=
        congrArg (fun maps ↦ { core with maps := maps }) (ArcTable.write_self hobj)
      obtain ⟨e, he⟩ := m.set_of_nil core.wal (by simpa using hbad) ttlMs now
      refine ⟨e, ?_⟩
      simp only [mapSet, withObject, hloc, SynapseCore.set, he]
      exact congrArg (Prod.mk _) hsame

theorem logs_withObject {α : Type} (objects : ArcTable α) (kind tenant name : String)
    {act : ℕ → α → EngineResult β × SynapseCore} (hact : ∀ id x, (act id x).2.logs = core.logs) :
    (core.withObject objects kind tenant name act).2.logs = core.logs := by
  rw [withObject]
  rcases locate objects tenant name with _ | _ | ⟨id, x⟩
  · rfl
  · rfl
  · exact hact id x

theorem LogsKeyed.thenWrite {write : SynapseCore → EngineResult β × SynapseCore}
    {p : EngineResult Unit × SynapseCore} (h : p.2.LogsKeyed)
    (hwrt : ∀ core, (write core).2.logs = core.logs) : (thenWrite write p).2.LogsKeyed := by
  rcases p with ⟨_ | _, core⟩
  · exact h
  · rwa [LogsKeyed, SynapseCore.thenWrite, hwrt]

theorem LogsKeyed.ensureLog {core : SynapseCore} (h : core.LogsKeyed) (tenant name : String) :
    (core.ensureLog tenant name).2.LogsKeyed := by
  rw [SynapseCore.ensureLog]
  cases hid : TenantId.new tenant with
  | error e =>
    rwa [ensureIn_of_error hid]
  | ok id =>
    rw [ensureIn_of_ok hid (constructs_log name)]
    split_ifs
    · exact h
    cases hmade : Log.new name (core.tenants.deref id) with
    | error e => exact h
    | ok made =>
      obtain ⟨x, t⟩ := made
      have hx : x.key = (id, name) := by
        rw [((constructs_log name).made _ _ _ hmade).1, TenantRegistry.deref_id]
      intro key handle log htab hobj
      change Function.update core.logs.table (id, name) (some core.logs.cells.length) key =
        some handle at htab
      change ((core.logs.push (id, name) x).modify core.logs.cells.length
        fun c ↦ (c.1, c.2 - 1)).object handle = some log at hobj
      rw [ArcTable.object_modify_count _ _ (· - 1)] at hobj
      by_cases hkey : key = (id, name)
      · rw [hkey, Function.update_self] at htab
        rw [← some.inj htab, ArcTable.object_push_self] at hobj
        rw [← some.inj hobj, hx, hkey]
      · rw [Function.update_of_ne hkey] at htab
        rw [ArcTable.object_push_of_lt _ _ _ (core.logs.live _ _ htab)] at hobj
        exact h key handle log htab hobj

theorem LogsKeyed.applyCommand {core : SynapseCore} (h : core.LogsKeyed) (cmd : ReplicatedCommand)
    (now : ℕ) : (core.applyCommand cmd now).2.LogsKeyed := by
  cases cmd with
  | logAppend tenant name payload =>
    exact (h.ensureLog tenant name).thenWrite fun core ↦
      core.logs_withObject core.logs "log" tenant name fun _ _ ↦ rfl
  | queueEnqueue tenant name payload =>
    have hens : (core.ensureQueue tenant name).2.LogsKeyed := h
    exact hens.thenWrite fun core ↦
      core.logs_withObject core.queues "queue" tenant name fun _ _ ↦ rfl
  | mapSet tenant name key value ttlMs =>
    have hens : (core.ensureMap tenant name).2.LogsKeyed := h
    exact hens.thenWrite fun core ↦ core.logs_withObject core.maps "map" tenant name fun _ _ ↦ rfl

end SynapseCore

/-! ## Agreement up to the clock -/

/-- The same table over the images of its objects. -/
def ArcTable.map {α β : Type} (f : α → β) (a : ArcTable α) : ArcTable β where
  cells := a.cells.map fun c ↦ (f c.1, c.2)
  table := a.table
  live := by simpa only [List.length_map] using a.live

namespace ArcTable

variable {α β : Type} (f : α → β) (a : ArcTable α)

theorem map_push (key : Key) (x : α) : (a.push key x).map f = (a.map f).push key (f x) :=
  ArcTable.ext (by simp [map, push]) (by simp [map, push])

theorem map_modify {g : α × ℕ → α × ℕ} {g' : β × ℕ → β × ℕ}
    (h : ∀ c, (fun c : α × ℕ ↦ (f c.1, c.2)) (g c) = g' (f c.1, c.2)) (id : ℕ) :
    (a.modify id g).map f = (a.map f).modify id g' := by
  refine ArcTable.ext (List.ext_getElem? fun k ↦ ?_) rfl
  change ((a.cells.modify id g).map _)[k]? = ((a.cells.map _).modify id g')[k]?
  rw [List.getElem?_map, List.getElem?_modify, List.getElem?_modify, List.getElem?_map]
  split_ifs with hk
  · cases a.cells[k]? with
    | none => rfl
    | some c => exact congrArg some (h c)
  · cases a.cells[k]? <;> rfl

theorem map_write (id : ℕ) (x : α) : (a.write id x).map f = (a.map f).write id (f x) :=
  map_modify f a (fun _ ↦ rfl) id

theorem object_map (id : ℕ) : (a.map f).object id = (a.object id).map f := by
  rw [object, object, map, List.getElem?_map]
  cases a.cells[id]? <;> rfl

theorem length_cells_map : (a.map f).cells.length = a.cells.length := List.length_map _

end ArcTable

/-- A map without the expiries of its entries. -/
def Map.untimed (m : Map) : Map :=
  { m with data := m.data.map fun e ↦ (e.1, { e.2 with expiresAt := none }) }

/-- The state a set leaves behind, apart from the expiries, is a function of the one before. -/
theorem Map.untimed_set (m : Map) (wal : TieredSegmentedLog) (key : String) (value : Bytes)
    (ttl : Option ℕ) (now : ℕ) :
    (m.set wal key value ttl now).2.1.untimed = if key = "" ∨ value = [] then m.untimed
      else { m.untimed with
        data := (key, ⟨value, none⟩) :: m.untimed.data.filter (·.1 != key) } := by
  by_cases hbad : key = "" ∨ value = []
  · obtain ⟨e, he⟩ := m.set_of_nil wal hbad ttl now
    rw [he, if_pos hbad]
  · obtain ⟨hkey, hval⟩ := not_or.mp hbad
    rw [Map.set_of_ne_nil hkey hval, if_neg hbad]
    simp only [Map.untimed, List.map_cons, List.filter_map]
    rfl

namespace SynapseCore

/-- Two engines differ at most in clock readings: the timestamps of the records in the shared log
and the expiries of map entries. -/
structure Agree (core core' : SynapseCore) : Prop where
  tenants : core.tenants = core'.tenants
  logs : core.logs = core'.logs
  queues : core.queues = core'.queues
  maps : core.maps.map Map.untimed = core'.maps.map Map.untimed
  wal : ∃ history, core.wal.Holds history ∧ core'.wal.Holds history

theorem ensureIn_map {α β : Type} (f : α → β) {create : Tenant → EngineResult (α × Tenant)}
    {key : α → Key} {name : String} {used limit : Tenant → ℕ}
    (hc : Constructs create key name used limit) (release : Tenant → Tenant)
    (tenants : TenantRegistry) {objects objects' : ArcTable α}
    (h : objects.map f = objects'.map f) (tenant : String) :
    (ensureIn create release key tenants objects tenant name).1 =
        (ensureIn create release key tenants objects' tenant name).1 ∧
      (ensureIn create release key tenants objects tenant name).2.1 =
        (ensureIn create release key tenants objects' tenant name).2.1 ∧
      (ensureIn create release key tenants objects tenant name).2.2.map f =
        (ensureIn create release key tenants objects' tenant name).2.2.map f := by
  cases hid : TenantId.new tenant with
  | error e =>
    rw [ensureIn_of_error hid, ensureIn_of_error hid]
    exact ⟨rfl, rfl, h⟩
  | ok id =>
    have htab : (objects.map f).table = (objects'.map f).table := by rw [h]
    change objects.table = objects'.table at htab
    have hlen : objects.cells.length = objects'.cells.length := by
      rw [← ArcTable.length_cells_map f, h, ArcTable.length_cells_map]
    rw [ensureIn_of_ok hid hc, ensureIn_of_ok hid hc, htab, hlen]
    split_ifs
    · exact ⟨rfl, rfl, h⟩
    cases create (tenants.deref id) with
    | error e => exact ⟨rfl, rfl, h⟩
    | ok made =>
      refine ⟨rfl, rfl, ?_⟩
      have hdrop (a : ArcTable α) (k : ℕ) : (a.modify k fun c ↦ (c.1, c.2 - 1)).map f =
          (a.map f).modify k fun c ↦ (c.1, c.2 - 1) := ArcTable.map_modify f a (fun _ ↦ rfl) k
      simp only [hdrop, ArcTable.map_push, h]

theorem locate_map {α β : Type} (f : α → β) (objects : ArcTable α) (tenant name : String) :
    locate (objects.map f) tenant name =
      (locate objects tenant name).map (Option.map (Prod.map id f)) := by
  rw [locate, locate, find, find]
  cases TenantId.new tenant with
  | error e => rfl
  | ok id =>
    simp only [Except.map, ArcTable.object_map]
    change Except.ok ((objects.table (id, name)).bind _) = _
    cases objects.table (id, name) with
    | none => rfl
    | some handle =>
      simp only [bind_some]
      cases objects.object handle <;> rfl

namespace Agree

variable {core core' : SynapseCore}

theorem of_common {core'' : SynapseCore} (h : core.Agree core'') (h' : core'.Agree core'') :
    core.Agree core' where
  tenants := h.tenants.trans h'.tenants.symm
  logs := h.logs.trans h'.logs.symm
  queues := h.queues.trans h'.queues.symm
  maps := h.maps.trans h'.maps.symm
  wal := by
    obtain ⟨history, hwal, hcommon⟩ := h.wal
    obtain ⟨history', hwal', hcommon'⟩ := h'.wal
    exact ⟨history, hwal, hcommon.unique hcommon' ▸ hwal'⟩

section

variable (h : core.Agree core')

include h

variable (tenant name : String) (payload : Bytes)

theorem wal_append (now now' : ℕ) : ∃ r wal wal', core.wal.append payload now = (r, wal) ∧
      core'.wal.append payload now' = (r, wal') ∧
      ∃ history, wal.Holds history ∧ wal'.Holds history := by
  obtain ⟨history, hwal, hwal'⟩ := h.wal
  have hfst := (hwal.append_fst payload now).trans (hwal'.append_fst payload now').symm
  have hhld := hwal.append payload now
  have hhld' := hwal'.append payload now'
  generalize core.wal.append payload now = stored at hfst hhld
  generalize core'.wal.append payload now' = stored' at hfst hhld'
  obtain ⟨r, wal⟩ := stored
  obtain ⟨r', wal'⟩ := stored'
  obtain rfl : r = r' := hfst
  exact ⟨r, wal, wal', rfl, rfl, _, hhld, hhld'⟩

theorem maps_table : core.maps.table = core'.maps.table := by
  have htab : (core.maps.map Map.untimed).table = (core'.maps.map Map.untimed).table := by
    rw [h.maps]
  exact htab

theorem accepts_eq (cmd : ReplicatedCommand) : core.accepts cmd = core'.accepts cmd := by
  cases cmd with
  | logAppend tenant name payload => rw [accepts, accepts, h.tenants, h.logs]
  | queueEnqueue tenant name payload => rw [accepts, accepts, h.tenants, h.queues]
  | mapSet tenant name key value ttlMs => simp only [accepts, available, h.tenants, h.maps_table]

theorem idle_eq (cmd : ReplicatedCommand) : core.idle cmd = core'.idle cmd := by
  cases cmd with
  | logAppend tenant name payload => rw [idle, idle, h.tenants, h.logs]
  | queueEnqueue tenant name payload => rw [idle, idle, h.tenants, h.queues]
  | mapSet tenant name key value ttlMs => simp only [idle, refused, h.tenants, h.maps_table]

theorem logsKeyed (hkey : core.LogsKeyed) : core'.LogsKeyed := by
  rwa [LogsKeyed, ← h.logs]

theorem append (log : Log) (payload : Bytes) (now now' : ℕ) :
    (core.append log payload now).2.Agree (core'.append log payload now').2 := by
  obtain ⟨r, wal, wal', hsto, hsto', hwal⟩ := h.wal_append payload now now'
  rw [SynapseCore.append, SynapseCore.append, Log.append, Log.append, ← h.tenants, hsto, hsto']
  cases r with
  | error e => exact ⟨rfl, h.logs, h.queues, h.maps, hwal⟩
  | ok offset =>
    cases (core.tenants.deref log.tenant).chargeLogBytes payload.length with
    | error e => exact ⟨rfl, h.logs, h.queues, h.maps, hwal⟩
    | ok t => exact ⟨rfl, h.logs, h.queues, h.maps, hwal⟩

theorem enqueue (id : ℕ) (q : Queue) (payload : Bytes) (now now' : ℕ) :
    (core.enqueue id q payload now).2.Agree (core'.enqueue id q payload now').2 := by
  obtain ⟨r, wal, wal', hsto, hsto', hwal⟩ := h.wal_append payload now now'
  rw [SynapseCore.enqueue, SynapseCore.enqueue, Queue.enqueue, Queue.enqueue, ← h.queues, hsto,
    hsto']
  cases r <;> exact ⟨h.tenants, h.logs, rfl, h.maps, hwal⟩

theorem set (id : ℕ) {m m' : Map} (hm : m.untimed = m'.untimed)
    (key : String) (value : Bytes) (ttl : Option ℕ) (now now' : ℕ) :
    (core.set id m key value ttl now).2.Agree (core'.set id m' key value ttl now').2 where
  tenants := h.tenants
  logs := h.logs
  queues := h.queues
  maps := by
    change (core.maps.write id (m.set core.wal key value ttl now).2.1).map Map.untimed =
      (core'.maps.write id (m'.set core'.wal key value ttl now').2.1).map Map.untimed
    rw [ArcTable.map_write, ArcTable.map_write, Map.untimed_set, Map.untimed_set, hm, h.maps]
  wal := by
    rw [set_wal, set_wal]
    split_ifs
    · exact h.wal
    · obtain ⟨r, wal, wal', hsto, hsto', hwal⟩ := h.wal_append value now now'
      rwa [hsto, hsto']

theorem logAppend (now now' : ℕ) : (core.logAppend tenant name payload now).2.Agree
      (core'.logAppend tenant name payload now').2 := by
  rw [SynapseCore.logAppend, SynapseCore.logAppend, withObject, withObject, ← h.logs]
  rcases locate core.logs tenant name with _ | _ | ⟨id, log⟩
  · exact h
  · exact h
  · exact h.append log payload now now'

theorem queueEnqueue (now now' : ℕ) : (core.queueEnqueue tenant name payload now).2.Agree
      (core'.queueEnqueue tenant name payload now').2 := by
  rw [SynapseCore.queueEnqueue, SynapseCore.queueEnqueue, withObject, withObject, ← h.queues]
  rcases locate core.queues tenant name with _ | _ | ⟨id, q⟩
  · exact h
  · exact h
  · exact h.enqueue id q payload now now'

theorem mapSet (key : String) (value : Bytes) (ttl : Option ℕ) (now now' : ℕ)
    : (core.mapSet tenant name key value ttl now).2.Agree
      (core'.mapSet tenant name key value ttl now').2 := by
  rw [SynapseCore.mapSet, SynapseCore.mapSet, withObject, withObject]
  -- the two tables have the same keys, with maps that are equal up to the expiries
  have hloc := congrArg (locate · tenant name) h.maps
  simp only [locate_map] at hloc
  generalize locate core.maps tenant name = found at hloc ⊢
  generalize locate core'.maps tenant name = found' at hloc ⊢
  rcases found with _ | _ | ⟨id, m⟩ <;> rcases found' with _ | _ | ⟨id', m'⟩
  case ok.some.ok.some =>
    obtain ⟨rfl, hm⟩ := Prod.mk.inj (some.inj (Except.ok.inj hloc))
    exact h.set _ hm key value ttl now now'
  all_goals first | exact h | cases hloc

theorem ensureLog : (core.ensureLog tenant name).1 = (core'.ensureLog tenant name).1 ∧
      (core.ensureLog tenant name).2.Agree (core'.ensureLog tenant name).2 := by
  rw [ensureLog_eq, ensureLog_eq, ← h.tenants, ← h.logs]
  exact ⟨rfl, rfl, rfl, h.queues, h.maps, h.wal⟩

theorem ensureQueue : (core.ensureQueue tenant name).1 = (core'.ensureQueue tenant name).1 ∧
      (core.ensureQueue tenant name).2.Agree (core'.ensureQueue tenant name).2 := by
  rw [ensureQueue_eq, ensureQueue_eq, ← h.tenants, ← h.queues]
  exact ⟨rfl, rfl, h.logs, rfl, h.maps, h.wal⟩

theorem ensureMap : (core.ensureMap tenant name).1 = (core'.ensureMap tenant name).1 ∧
      (core.ensureMap tenant name).2.Agree (core'.ensureMap tenant name).2 := by
  rw [ensureMap_eq, ensureMap_eq, ← h.tenants]
  obtain ⟨hr, htenants, hmaps⟩ := ensureIn_map Map.untimed (constructs_map name)
    Tenant.releaseMap core.tenants h.maps tenant
  exact ⟨hr, htenants, h.logs, h.queues, hmaps, h.wal⟩

end

theorem thenWrite {β : Type} {write write' : SynapseCore → EngineResult β × SynapseCore}
    {p p' : EngineResult Unit × SynapseCore} (hp : p.1 = p'.1 ∧ p.2.Agree p'.2)
    (hwrt : (write p.2).2.Agree (write' p'.2).2) :
    (SynapseCore.thenWrite write p).2.Agree (SynapseCore.thenWrite write' p').2 := by
  obtain ⟨r, core⟩ := p
  obtain ⟨r', core'⟩ := p'
  obtain rfl : r = r' := hp.1
  cases r with
  | error e => exact hp.2
  | ok _ => exact hwrt

/-- **Replay is independent of the clock.** -/
theorem applyCommand (h : core.Agree core') (cmd : ReplicatedCommand) (now now' : ℕ) :
    (core.applyCommand cmd now).2.Agree (core'.applyCommand cmd now').2 := by
  cases cmd with
  | logAppend tenant name payload =>
    have hens := h.ensureLog tenant name
    exact thenWrite hens (hens.2.logAppend tenant name payload now now')
  | queueEnqueue tenant name payload =>
    have hens := h.ensureQueue tenant name
    exact thenWrite hens (hens.2.queueEnqueue tenant name payload now now')
  | mapSet tenant name key value ttlMs =>
    have hens := h.ensureMap tenant name
    exact thenWrite hens (hens.2.mapSet tenant name key value ttlMs now now')

end Agree

end SynapseCore

end Synapse
