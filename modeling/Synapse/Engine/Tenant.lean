import Mathlib.Logic.Function.Basic
import Synapse.Basic

/-!
# Tenants and their quotas

A tenant is named by a validated identifier and accounts for the bytes its logs retain and for the
logs, queues and maps it has created. The registry creates a tenant with the default quota the
first time it is named and never removes one, so the identifier stands for the `Arc<Tenant>` that
every primitive of the tenant shares. The operations-per-second limit of a quota is read by no
function of the engine and is left out.
-/

namespace Synapse

def TenantId.validChar (c : Char) : Bool :=
  c.isAlphanum || c == '-' || c == '_' || c == '.'

/-- A tenant identifier: non-empty and restricted to a safe set of characters. -/
structure TenantId where
  name : String
  nonempty : name ≠ ""
  safe : name.toList.all TenantId.validChar = true
deriving DecidableEq, Repr

def TenantId.new (name : String) : EngineResult TenantId :=
  if hemp : name = "" then .error (.invalidArgument "tenant id must not be empty")
  else if hsafe : name.toList.all TenantId.validChar then .ok ⟨name, hemp, hsafe⟩
  else .error (.invalidArgument "tenant id may only contain [A-Za-z0-9._-]")

structure TenantQuota where
  maxLogBytes : ℕ := 1024 * 1024 * 1024
  maxQueues : ℕ := 1024
  maxMaps : ℕ := 1024
  maxLogs : ℕ := 1024
deriving DecidableEq, Repr

/-- A live tenant with its accounting counters. -/
structure Tenant where
  id : TenantId
  quota : TenantQuota
  usedLogBytes : ℕ
  usedQueues : ℕ
  usedMaps : ℕ
  usedLogs : ℕ
deriving DecidableEq, Repr

namespace Tenant

def new (id : TenantId) : Tenant := ⟨id, {}, 0, 0, 0, 0⟩

/-- Account for new log retention; `saturating_add` on `u64`. -/
def chargeLogBytes (t : Tenant) (bytes : ℕ) : EngineResult Tenant :=
  let next := min (t.usedLogBytes + bytes) (2 ^ 64 - 1)
  if next > t.quota.maxLogBytes then
    .error (.quotaExceeded (s!"tenant {t.id.name} would exceed log byte quota ({next} > " ++
      s!"{t.quota.maxLogBytes})"))
  else .ok { t with usedLogBytes := next }

/-- The check shared by the three object counters. -/
def chargeCount (t : Tenant) (kind : String) (used limit : ℕ) : EngineResult ℕ :=
  if used ≥ limit then .error (.quotaExceeded s!"tenant {t.id.name} {kind} count quota exceeded")
  else .ok (used + 1)

def chargeLog (t : Tenant) : EngineResult Tenant :=
  (t.chargeCount "log" t.usedLogs t.quota.maxLogs).map fun n ↦ { t with usedLogs := n }

def releaseLog (t : Tenant) : Tenant := { t with usedLogs := t.usedLogs - 1 }

def chargeQueue (t : Tenant) : EngineResult Tenant :=
  (t.chargeCount "queue" t.usedQueues t.quota.maxQueues).map fun n ↦ { t with usedQueues := n }

def releaseQueue (t : Tenant) : Tenant := { t with usedQueues := t.usedQueues - 1 }

def chargeMap (t : Tenant) : EngineResult Tenant :=
  (t.chargeCount "map" t.usedMaps t.quota.maxMaps).map fun n ↦ { t with usedMaps := n }

def releaseMap (t : Tenant) : Tenant := { t with usedMaps := t.usedMaps - 1 }

end Tenant

/-- Registry of known tenants, each under its own identifier. -/
structure TenantRegistry where
  tenants : TenantId → Option Tenant
  keyed : ∀ id t, tenants id = some t → t.id = id

namespace TenantRegistry

def new : TenantRegistry := ⟨fun _ ↦ none, by simp⟩

/-- Write a tenant's counters back: all holders of its `Arc` see them. -/
def put (reg : TenantRegistry) (t : Tenant) : TenantRegistry where
  tenants := Function.update reg.tenants t.id (some t)
  keyed := (Function.forall_update_iff reg.tenants fun id o ↦ ∀ u, o = some u → u.id = id).mpr
    ⟨fun _ hu ↦ Option.some.inj hu ▸ rfl, fun id _ ↦ reg.keyed id⟩

/-- Get a tenant by id, or create it with the default quota if missing. -/
def getOrCreate (reg : TenantRegistry) (id : TenantId) : Tenant × TenantRegistry :=
  match reg.tenants id with
  | some t => (t, reg)
  | none => (.new id, reg.put (.new id))

/-- The tenant behind the `Arc` a primitive holds; a primitive is only created for a tenant that is
in the registry. -/
def deref (reg : TenantRegistry) (id : TenantId) : Tenant := (reg.getOrCreate id).1

theorem deref_id (reg : TenantRegistry) (id : TenantId) : (reg.deref id).id = id := by
  rw [deref, getOrCreate]
  cases ht : reg.tenants id with
  | none => rfl
  | some t => exact reg.keyed id t ht

theorem deref_put (reg : TenantRegistry) (t : Tenant) : (reg.put t).deref t.id = t := by
  have hself : (reg.put t).tenants t.id = some t := Function.update_self _ _ _
  rw [deref, getOrCreate, hself]

end TenantRegistry

end Synapse
