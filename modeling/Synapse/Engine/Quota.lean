import Mathlib.Algebra.GroupWithZero.Nat
import Synapse.Engine.Isolation
import Synapse.Engine.Replay

/-!
# Appends that are refused

`Log::append` stores the payload first and charges the tenant afterwards. A charge that is refused
does not take the payload back: the caller sees an error, and the record stays in the shared log. So
an append that fails has changed nothing exactly if the tenant's account has room for the payload
(`SynapseCore.append_traceless_iff`).

What the tenant has stored is therefore not bounded by what it has been charged for. `Charged`
compares the two: the charge never exceeds what is stored, and equals it while that is within the
quota. So the quota holds along a run exactly if every append of the tenant would have been within
it (`EngineRun.failed_appends_iff`).
-/

namespace Synapse

open Transition

/-- The tenant's account has room for the payload; `saturating_add` on `u64`. -/
def Tenant.RoomFor (t : Tenant) (payload : Bytes) : Prop :=
  payload = [] ∨ min (t.usedLogBytes + payload.length) (2 ^ 64 - 1) ≤ t.quota.maxLogBytes

instance (t : Tenant) (payload : Bytes) : Decidable (t.RoomFor payload) :=
  inferInstanceAs (Decidable (_ ∨ _))

/-! ## Accounting that other operations leave alone -/

/-- The two tenants differ at most in their object counts. -/
structure Tenant.SameRetention (t t' : Tenant) : Prop where
  id : t'.id = t.id
  quota : t'.quota = t.quota
  usedLogBytes : t'.usedLogBytes = t.usedLogBytes

theorem Tenant.SameRetention.refl (t : Tenant) : t.SameRetention t := ⟨rfl, rfl, rfl⟩

namespace TenantRegistry

variable (reg : TenantRegistry) {t : Tenant}

theorem deref_put_of_ne {id : TenantId} (h : id ≠ t.id) : (reg.put t).deref id = reg.deref id := by
  have hoth : (reg.put t).tenants id = reg.tenants id := Function.update_of_ne h _ _
  rw [deref, deref, getOrCreate, getOrCreate, hoth]
  rcases reg.tenants id with _ | u <;> rfl

theorem deref_getOrCreate (id id' : TenantId) :
    (reg.getOrCreate id).2.deref id' = reg.deref id' := by
  rw [getOrCreate]
  rcases ht : reg.tenants id with _ | t
  · by_cases heq : id' = id
    · have hdrf : reg.deref id = .new id := by rw [deref, getOrCreate, ht]
      rw [heq, hdrf]
      exact reg.deref_put (.new id)
    · exact reg.deref_put_of_ne heq
  · rfl

theorem sameRetention_put (id : TenantId) (h : (reg.deref id).SameRetention t) (k : TenantId) :
    (reg.deref k).SameRetention ((reg.put t).deref k) := by
  have hid : t.id = id := h.id.trans (reg.deref_id id)
  by_cases hk : k = id
  · rwa [hk, ← hid, reg.deref_put t, hid]
  · rw [reg.deref_put_of_ne (hid ▸ hk)]
    exact .refl _

end TenantRegistry

namespace SynapseCore

variable {release : Tenant → Tenant} {α : Type} {e : EngineError}

theorem sameRetention_createIn {create : Tenant → EngineResult (α × Tenant)} {key : α → Key}
    {name : String} {used limit : Tenant → ℕ} (hcr : Constructs create key name used limit)
    (hrel : ∀ t : Tenant, t.SameRetention (release t)) (tenants : TenantRegistry)
    (objects : ArcTable α) (tenant : String) (k : TenantId) : (tenants.deref k).SameRetention
      ((createIn create release tenants objects tenant name).2.1.deref k) := by
  rw [createIn]
  rcases TenantId.new tenant with e | id
  · exact .refl _
  have hdrf := tenants.deref_getOrCreate id
  dsimp only
  rcases hmade : create (tenants.getOrCreate id).1 with e | ⟨x, t⟩
  · rw [hdrf]
    exact .refl _
  obtain ⟨-, hid, hused, hquo⟩ := hcr.made _ x t hmade
  have hput : ∀ u, t.SameRetention u →
      (tenants.deref k).SameRetention (((tenants.getOrCreate id).2.put u).deref k) := by
    intro u hu
    rw [← hdrf k]
    refine (tenants.getOrCreate id).2.sameRetention_put id ?_ k
    rw [hdrf id]
    exact ⟨hu.id.trans hid, hu.quota.trans hquo, hu.usedLogBytes.trans hused⟩
  dsimp only
  split_ifs
  · exact hput _ (hrel t)
  · exact hput _ (.refl t)

theorem sameRetention_giveBack (tenants : TenantRegistry) (owner : α → TenantId)
    (hrel : ∀ t : Tenant, t.SameRetention (release t)) (dropped : Option α) (k : TenantId) :
    (tenants.deref k).SameRetention ((giveBack tenants owner release dropped).deref k) := by
  rcases dropped with _ | x
  · exact .refl _
  · exact tenants.sameRetention_put _ (hrel _) k

/-! ## One append -/

section Append

variable (core : SynapseCore) (log : Log) (payload : Bytes) (now : ℕ) {e : EngineError}

def charge : EngineResult Tenant :=
  (core.tenants.deref log.tenant).chargeLogBytes payload.length

/-- The payload is stored whatever the charge says. -/
theorem append_of_ne_nil (hne : payload ≠ []) : core.append log payload now =
      match core.charge log payload with
      | .error e => (.error e, { core with wal := (core.wal.append payload now).2 })
      | .ok t => (.ok core.wal.local.nextOffset, { core with
            wal := (core.wal.append payload now).2
            tenants := core.tenants.put t }) := by
  have hwal : core.wal.append payload now =
      (.ok core.wal.local.nextOffset, (core.wal.append payload now).2) := by
    rw [core.wal.append_of_ne_nil hne]
  rw [append, Log.append, hwal, charge]
  rcases (core.tenants.deref log.tenant).chargeLogBytes payload.length with e | t <;> rfl

theorem len_wal_append (hne : payload ≠ []) :
    (core.wal.append payload now).2.len = core.wal.len + 1 := by
  rw [core.wal.append_of_ne_nil hne]
  rfl

/-- If it fails, an append has changed nothing, exactly if there was room for the payload. -/
theorem append_traceless_iff :
    ((∃ e, (core.append log payload now).1 = .error e) → (core.append log payload now).2 = core) ↔
      (core.tenants.deref log.tenant).RoomFor payload := by
  rw [Tenant.RoomFor]
  by_cases hnil : payload = []
  · subst hnil
    exact iff_of_true (fun _ ↦ rfl) (.inl rfl)
  rw [core.append_of_ne_nil log payload now hnil, charge, Tenant.chargeLogBytes, or_iff_right hnil]
  split_ifs with hfull
  · refine iff_of_false (fun h ↦ ?_) (Nat.not_le.mpr hfull)
    have hlen := congrArg (fun c : SynapseCore ↦ c.wal.len) (h ⟨_, rfl⟩)
    rw [core.len_wal_append payload now hnil] at hlen
    omega
  · exact iff_of_true (by rintro ⟨e, ⟨⟩⟩) (Nat.not_lt.mp hfull)

/-- What an append does to the account of a tenant. -/
theorem deref_append (hne : payload ≠ []) (k : TenantId) :
    ((core.append log payload now).2.tenants.deref k).quota = (core.tenants.deref k).quota ∧
      ((core.append log payload now).2.tenants.deref k).usedLogBytes =
        if k = log.tenant ∧ min ((core.tenants.deref k).usedLogBytes + payload.length)
            (2 ^ 64 - 1) ≤ (core.tenants.deref k).quota.maxLogBytes then
          min ((core.tenants.deref k).usedLogBytes + payload.length) (2 ^ 64 - 1)
        else (core.tenants.deref k).usedLogBytes := by
  have hid := core.tenants.deref_id log.tenant
  rw [core.append_of_ne_nil log payload now hne, charge, Tenant.chargeLogBytes]
  by_cases hfull : (core.tenants.deref log.tenant).quota.maxLogBytes <
      min ((core.tenants.deref log.tenant).usedLogBytes + payload.length) (2 ^ 64 - 1)
  · rw [if_pos hfull]
    refine ⟨rfl, (if_neg fun h ↦ ?_).symm⟩
    rw [h.1] at h
    exact absurd hfull (Nat.not_lt.mpr h.2)
  · rw [if_neg hfull]
    by_cases hk : k = log.tenant
    · rw [hk, if_pos ⟨rfl, Nat.not_lt.mp hfull⟩]
      have hput := core.tenants.deref_put { core.tenants.deref log.tenant with
        usedLogBytes := min ((core.tenants.deref log.tenant).usedLogBytes + payload.length)
          (2 ^ 64 - 1) }
      rw [hid] at hput
      rw [hput]
      exact ⟨rfl, rfl⟩
    · rw [core.tenants.deref_put_of_ne (by rw [hid]; exact hk), if_neg fun h ↦ hk h.1]
      exact ⟨rfl, rfl⟩

end Append

/-- The same for an append by tenant and name. -/
theorem logAppend_traceless_iff (core : SynapseCore) (tenant name : String) (payload : Bytes)
    (now : ℕ) : ((∃ e, (core.logAppend tenant name payload now).1 = .error e) →
        (core.logAppend tenant name payload now).2 = core) ↔
      ∀ id log, locate core.logs tenant name = .ok (some (id, log)) →
        (core.tenants.deref log.tenant).RoomFor payload := by
  rw [logAppend, withObject]
  rcases locate core.logs tenant name with e | _ | ⟨id, log⟩
  · exact iff_of_true (fun _ ↦ rfl) (by rintro _ _ ⟨⟩)
  · exact iff_of_true (fun _ ↦ rfl) (by rintro _ _ ⟨⟩)
  · refine (core.append_traceless_iff log payload now).trans ⟨?_, fun h ↦ h id log rfl⟩
    rintro h _ _ ⟨⟩
    exact h

theorem perform_account (core : SynapseCore) (op : EngineOp) :
    (∃ log payload now, op.call core = some ((.log, log.key), payload) ∧
        core.perform op = (core.append log payload now).2) ∨
      (∀ c ∈ op.call core, c.1.1 ≠ .log) ∧
        ∀ k, (core.tenants.deref k).SameRetention ((core.perform op).tenants.deref k) := by
  obtain ⟨hcall, -, hacc⟩ | hlog | ⟨source, payload, now, hcall, hne, -, htn⟩ :=
    core.perform_cases op
  · refine .inr ⟨hcall ▸ nofun, ?_⟩
    rcases hacc with hacc | htn
    · have hlog : ∀ t : Tenant, t.SameRetention t.releaseLog := fun _ ↦ ⟨rfl, rfl, rfl⟩
      have hq : ∀ t : Tenant, t.SameRetention t.releaseQueue := fun _ ↦ ⟨rfl, rfl, rfl⟩
      have hmap : ∀ t : Tenant, t.SameRetention t.releaseMap := fun _ ↦ ⟨rfl, rfl, rfl⟩
      cases op with
      | createLog tenant name =>
        exact sameRetention_createIn (constructs_log name) hlog _ _ tenant
      | createQueue tenant name =>
        exact sameRetention_createIn (constructs_queue name) hq _ _ tenant
      | createMap tenant name =>
        exact sameRetention_createIn (constructs_map name) hmap _ _ tenant
      | releaseLog handle => exact sameRetention_giveBack _ _ hlog _
      | releaseQueue handle => exact sameRetention_giveBack _ _ hq _
      | releaseMap handle => exact sameRetention_giveBack _ _ hmap _
      | _ => cases hacc
    · exact fun k ↦ htn ▸ .refl _
  · exact .inl hlog
  · refine .inr ⟨?_, fun k ↦ htn ▸ .refl _⟩
    rw [hcall]
    rintro _ ⟨⟩
    exact hne

end SynapseCore

/-! ## Runs -/

namespace EngineRun

/-- An engine whose tenants have the quotas they have in `tenants`. -/
def startFor (tenants : TenantRegistry) (object : ObjectStore) : EngineRun :=
  ⟨{ SynapseCore.withObjectStore object with tenants := tenants }, []⟩

/-- The bytes stored through the logs of a tenant. -/
def storedBytes (s : EngineRun) (t : TenantId) : ℕ :=
  ((s.stored.filter fun c ↦ c.1.1 = .log ∧ c.1.2.1 = t).map fun c ↦ c.2.length).sum

/-- An append through a log of the tenant is within what is left of its quota. -/
def WithinQuota (t : TenantId) (s : EngineRun) (op : EngineOp) : Prop :=
  ∀ c ∈ op.call s.core, c.1.1 = .log → c.1.2.1 = t →
    (s.core.tenants.deref t).usedLogBytes + c.2.length ≤
      (s.core.tenants.deref t).quota.maxLogBytes

instance (t : TenantId) : DecidableRel (WithinQuota t) := fun s op ↦
  inferInstanceAs (Decidable (∀ c ∈ op.call s.core, _ → _ → _))

/-- The tenant is charged for what it has stored, as long as that is within its quota. -/
structure Charged (t : TenantId) (limit : ℕ) (s : EngineRun) : Prop where
  quota : (s.core.tenants.deref t).quota.maxLogBytes = limit
  used_le : (s.core.tenants.deref t).usedLogBytes ≤ s.storedBytes t
  used_eq : s.storedBytes t ≤ limit → (s.core.tenants.deref t).usedLogBytes = s.storedBytes t

variable {t : TenantId} {limit : ℕ} {s : EngineRun}

/-- What an operation adds to the bytes stored: an empty payload is not stored, and adds none. -/
theorem storedBytes_perform (s : EngineRun) (op : EngineOp) (t : TenantId) :
    (s.perform op).storedBytes t = s.storedBytes t + ((op.call s.core).toList.map fun c ↦
        if c.1.1 = .log ∧ c.1.2.1 = t then c.2.length else 0).sum := by
  rw [storedBytes, stored_perform, List.filter_append, List.map_append, List.sum_append,
    ← storedBytes]
  rcases op.call s.core with _ | ⟨⟨kind, key⟩, payload⟩
  · rfl
  · rw [Option.toList_some]
    by_cases hown : kind = .log ∧ key.1 = t
    · by_cases hnil : payload = [] <;> simp [hown, hnil]
    · by_cases hnil : payload = [] <;> simp [hown, hnil]

theorem Charged.other (h : s.Charged t limit) {op : EngineOp}
    (hcall : ∀ c ∈ op.call s.core, ¬(c.1.1 = .log ∧ c.1.2.1 = t))
    (hquo : ((s.perform op).core.tenants.deref t).quota = (s.core.tenants.deref t).quota)
    (hused : ((s.perform op).core.tenants.deref t).usedLogBytes =
      (s.core.tenants.deref t).usedLogBytes) :
    (s.perform op).Charged t limit ∧
      ((s.perform op).storedBytes t ≤ limit ↔ s.storedBytes t ≤ limit ∧ s.WithinQuota t op) := by
  have hwth : s.WithinQuota t op := fun c hc hlog hown ↦ absurd ⟨hlog, hown⟩ (hcall c hc)
  have hsto : (s.perform op).storedBytes t = s.storedBytes t := by
    rw [storedBytes_perform]
    rcases hc : op.call s.core with _ | c
    · rfl
    · simp [hcall c hc]
  rw [hsto, and_iff_left hwth]
  refine ⟨⟨?_, ?_, ?_⟩, Iff.rfl⟩
  · rw [hquo, h.quota]
  · rw [hused, hsto]
    exact h.used_le
  · rw [hused, hsto]
    exact h.used_eq

theorem Charged.append (h : s.Charged t limit) (hlimit : limit < 2 ^ 64) {op : EngineOp} {log : Log}
    {payload : Bytes} {now : ℕ} (hcall : op.call s.core = some ((.log, log.key), payload))
    (hperf : s.core.perform op = (s.core.append log payload now).2) (hown : log.tenant = t) :
    (s.perform op).Charged t limit ∧
      ((s.perform op).storedBytes t ≤ limit ↔ s.storedBytes t ≤ limit ∧ s.WithinQuota t op) := by
  have hwth : s.WithinQuota t op ↔
      (s.core.tenants.deref t).usedLogBytes + payload.length ≤ limit := by
    rw [WithinQuota, hcall, h.quota]
    simp [Log.key, hown]
  have hsto : (s.perform op).storedBytes t = s.storedBytes t + payload.length := by
    rw [storedBytes_perform, hcall]
    simp [Log.key, hown]
  have hle := h.used_le
  have heq := h.used_eq
  -- nothing is charged for an empty payload, and for one the quota refuses
  have hnew : ((s.perform op).core.tenants.deref t).quota = (s.core.tenants.deref t).quota ∧
      (((s.perform op).core.tenants.deref t).usedLogBytes = (s.core.tenants.deref t).usedLogBytes ∧
          (payload.length = 0 ∨ limit < (s.core.tenants.deref t).usedLogBytes + payload.length) ∨
        ((s.perform op).core.tenants.deref t).usedLogBytes =
            min ((s.core.tenants.deref t).usedLogBytes + payload.length) (2 ^ 64 - 1) ∧
          min ((s.core.tenants.deref t).usedLogBytes + payload.length) (2 ^ 64 - 1) ≤ limit) := by
    rw [perform, hperf]
    by_cases hnil : payload = []
    · rw [hnil]
      exact ⟨rfl, .inl ⟨rfl, .inl rfl⟩⟩
    obtain ⟨hquo, hused⟩ := s.core.deref_append log payload now hnil t
    rw [h.quota] at hused
    refine ⟨hquo, ?_⟩
    by_cases hfits : min ((s.core.tenants.deref t).usedLogBytes + payload.length) (2 ^ 64 - 1) ≤
      limit
    · rw [if_pos ⟨hown.symm, hfits⟩] at hused
      exact .inr ⟨hused, hfits⟩
    · rw [if_neg fun hboth ↦ hfits hboth.2] at hused
      exact .inl ⟨hused, .inr (by omega)⟩
  obtain ⟨hquo, hused⟩ := hnew
  refine ⟨⟨by rw [hquo, h.quota], ?_, ?_⟩, ?_⟩
  · omega
  · intro hfits
    have := heq (by omega)
    omega
  rw [hsto, hwth]
  constructor
  · intro hfits
    have := heq (by omega)
    exact ⟨by omega, by omega⟩
  · rintro ⟨hgood, hfits⟩
    have := heq hgood
    omega

theorem Charged.step (h : s.Charged t limit) (hlimit : limit < 2 ^ 64) (op : EngineOp) :
    (s.perform op).Charged t limit ∧
      ((s.perform op).storedBytes t ≤ limit ↔ s.storedBytes t ≤ limit ∧ s.WithinQuota t op) := by
  rcases s.core.perform_account op with ⟨log, payload, now, hcall, hperf⟩ | ⟨hcall, hsame⟩
  · by_cases hown : log.tenant = t
    · exact h.append hlimit hcall hperf hown
    have hoth : ∀ c ∈ op.call s.core, ¬(c.1.1 = .log ∧ c.1.2.1 = t) := by
      rw [hcall]
      rintro c hc ⟨-, hkey⟩
      rw [← Option.mem_some.mp hc] at hkey
      exact hown hkey
    have haccount : ((s.perform op).core.tenants.deref t).quota = (s.core.tenants.deref t).quota ∧
        ((s.perform op).core.tenants.deref t).usedLogBytes =
          (s.core.tenants.deref t).usedLogBytes := by
      rw [perform, hperf]
      by_cases hnil : payload = []
      · rw [hnil]
        exact ⟨rfl, rfl⟩
      · have hdrf := s.core.deref_append log payload now hnil t
        rwa [if_neg fun hboth ↦ hown hboth.1.symm] at hdrf
    exact h.other hoth haccount.1 haccount.2
  · exact h.other (fun c hc hlog ↦ hcall c hc hlog.1) (hsame t).quota (hsame t).usedLogBytes

/-- **Failed appends and quotas.** An append that fails has changed nothing exactly if the tenant's
account has room for the payload. What a tenant has stored through its logs is within its quota
exactly if each append was within what was left of it. -/
theorem failed_appends_iff (tenants : TenantRegistry) (object : ObjectStore) (ops : List EngineOp)
    (t : TenantId) (hunused : (tenants.deref t).usedLogBytes = 0)
    (hlimit : (tenants.deref t).quota.maxLogBytes < 2 ^ 64) :
    (∀ (core : SynapseCore) log payload now,
        ((∃ e, (core.append log payload now).1 = .error e) →
          (core.append log payload now).2 = core) ↔
        (core.tenants.deref log.tenant).RoomFor payload) ∧
      (∀ (core : SynapseCore) tenant name payload now,
        ((∃ e, (core.logAppend tenant name payload now).1 = .error e) →
          (core.logAppend tenant name payload now).2 = core) ↔
        ∀ id log, SynapseCore.locate core.logs tenant name = .ok (some (id, log)) →
          (core.tenants.deref log.tenant).RoomFor payload) ∧
      (((startFor tenants object).run ops).storedBytes t ≤ (tenants.deref t).quota.maxLogBytes ↔
        Steps (fun s op ↦ some (s.perform op)) (WithinQuota t) (startFor tenants object) ops
          ((startFor tenants object).run ops)) := by
  refine ⟨SynapseCore.append_traceless_iff, SynapseCore.logAppend_traceless_iff, ?_⟩
  have hstart : (startFor tenants object).storedBytes t ≤ (tenants.deref t).quota.maxLogBytes :=
    Nat.zero_le _
  have hgood := (steps_run (startFor tenants object) ops).good_iff
    (Charged t (tenants.deref t).quota.maxLogBytes)
    (fun s ↦ s.storedBytes t ≤ (tenants.deref t).quota.maxLogBytes)
    (fun s op s' hs _ hstep ↦ Option.some.inj hstep ▸ hs.step hlimit op)
    ⟨rfl, hunused.le, fun _ ↦ hunused⟩
  simpa only [hstart, true_and] using hgood

theorem acme_ne_empty : "acme" ≠ "" := by decide

def acme : TenantId := ⟨"acme", acme_ne_empty, Eq.refl true⟩

def threeBytes : TenantRegistry :=
  TenantRegistry.new.put { Tenant.new acme with quota := { maxLogBytes := 3 } }

/-- The tenant appends these payloads to a log of its own. -/
def afterAppends (payloads : List Bytes) : EngineRun :=
  (startFor threeBytes .empty).run
    (.createLog "acme" "l" :: payloads.map fun payload ↦ .logAppend "acme" "l" payload 0)

/-- One append, which fits. Another of two bytes would fail and leave a trace. -/
theorem failed_appends_iff_one : (afterAppends [[1, 2]]).storedBytes acme ≤ 3 ∧
      ¬((∃ e, ((afterAppends [[1, 2]]).core.logAppend "acme" "l" [3, 4] 0).1 = .error e) →
        ((afterAppends [[1, 2]]).core.logAppend "acme" "l" [3, 4] 0).2 =
          (afterAppends [[1, 2]]).core) := by
  have h := failed_appends_iff threeBytes .empty
    [.createLog "acme" "l", .logAppend "acme" "l" [1, 2] 0] acme (by decide +kernel)
    (by decide +kernel)
  refine ⟨h.2.2.mpr ?_, fun htraceless ↦ ?_⟩
  · exact .cons (by decide +kernel) rfl (.cons (by decide +kernel) rfl (.nil _))
  · have hroom := (h.2.1 _ "acme" "l" [3, 4] 0).mp htraceless 0 ⟨"l", acme⟩ (by decide +kernel)
    exact absurd hroom (by decide +kernel)

/-- The second append is refused and stored all the same: four bytes where three are allowed. -/
theorem refused_append_stored : ((afterAppends [[1, 2]]).core.logAppend "acme" "l" [3, 4] 0).1 =
        .error (.quotaExceeded "tenant acme would exceed log byte quota (4 > 3)") ∧
      (afterAppends [[1, 2]]).core.wal.len = 1 ∧
      (afterAppends [[1, 2], [3, 4]]).core.wal.len = 2 ∧
      ((afterAppends [[1, 2], [3, 4]]).core.wal.read 0 9).toOption.map
        (List.map Record.payload) = some [[1, 2], [3, 4]] ∧
      (afterAppends [[1, 2], [3, 4]]).storedBytes acme = 4 := by
  decide +kernel

end EngineRun

end Synapse
