import Synapse.Engine.Core
import Synapse.Lib.Run

/-!
# What a log reads

A log is looked up by tenant and name but reads the write-ahead log that all primitives share, so
`Log::read` returns the payloads of every log, queue and map of every tenant
(`foreign_payload_read`). `isolated_iff_ownWrites` says exactly when a log reads back only what was
appended through it: when nothing else has been written in the whole run.
-/

namespace Synapse

open Transition List

/-! ## Runs of the engine -/

/-- An engine and the calls that entered the write path of some primitive, in order. -/
structure EngineRun where
  core : SynapseCore
  calls : List ((ResourceKind × Key) × Bytes)

namespace EngineRun

def start (object : ObjectStore) : EngineRun := ⟨.withObjectStore object, []⟩

def perform (s : EngineRun) (op : EngineOp) : EngineRun :=
  ⟨s.core.perform op, s.calls ++ (op.call s.core).toList⟩

def run (s : EngineRun) (ops : List EngineOp) : EngineRun := ops.foldl perform s

/-- The payloads appended through the log with this key, in the order of the calls. -/
def appended (s : EngineRun) (key : Key) : List Bytes :=
  (s.calls.filter (·.1 = (.log, key))).map Prod.snd

/-- Reading the log from the start returns, for every limit, only payloads that were appended
through it, in append order. -/
def Isolated (s : EngineRun) (log : Log) : Prop :=
  ∀ n, ∃ recs, log.read s.core.wal 0 n = .ok recs ∧
    (recs.map Record.payload).Sublist (s.appended log.key)

/-- The operation hands no payload to the shared log, or does so through the log with this key. -/
def OwnWrite (key : Key) (s : EngineRun) (op : EngineOp) : Prop :=
  ∀ c ∈ op.call s.core, c.2 ≠ [] → c.1 = (.log, key)

instance (key : Key) (s : EngineRun) (op : EngineOp) : Decidable (OwnWrite key s op) :=
  inferInstanceAs (Decidable (∀ c ∈ op.call s.core, _ → _))

/-- The calls whose payload reached the shared log. -/
def stored (s : EngineRun) : List ((ResourceKind × Key) × Bytes) := s.calls.filter (·.2 ≠ [])

theorem stored_perform (s : EngineRun) (op : EngineOp) :
    (s.perform op).stored = s.stored ++ (op.call s.core).toList.filter (·.2 ≠ []) :=
  filter_append _ _

variable {s : EngineRun}

theorem holds_perform (h : s.core.wal.Holds (s.stored.map Prod.snd)) (op : EngineOp) :
    (s.perform op).core.wal.Holds ((s.perform op).stored.map Prod.snd) := by
  rw [stored_perform, map_append]
  rcases s.core.perform_wal op with ⟨hcall, hwal⟩ | ⟨source, payload, now, hcall, hwal⟩
  · rw [hcall, perform, hwal]
    simpa using h
  have hpay : ([(source, payload)].filter (·.2 ≠ [])).map Prod.snd = [payload].filter (· ≠ []) := by
    by_cases hnil : payload = [] <;> simp [hnil]
  rw [hcall, perform, hwal, Option.toList_some, hpay]
  exact h.append payload now

theorem steps_run (s : EngineRun) (ops : List EngineOp) :
    Steps (fun s op ↦ some (s.perform op)) (fun _ _ ↦ True) s ops (s.run ops) :=
  steps_foldl perform s ops

theorem holds_run (object : ObjectStore) (ops : List EngineOp) :
    ((start object).run ops).core.wal.Holds (((start object).run ops).stored.map Prod.snd) :=
  (steps_run _ ops).invariant (fun s ↦ s.core.wal.Holds (s.stored.map Prod.snd))
    (fun _ op _ h _ hstep ↦ Option.some.inj hstep ▸ holds_perform h op) (.new _ object)

/-- An operation keeps the log to itself exactly when it is an own write. -/
theorem stored_perform_iff {key : Key} (op : EngineOp) :
    (∀ c ∈ (s.perform op).stored, c.1 = (.log, key)) ↔
      (∀ c ∈ s.stored, c.1 = (.log, key)) ∧ OwnWrite key s op := by
  rw [stored_perform, forall_mem_append]
  refine and_congr_right fun _ ↦ forall_congr' fun c ↦ ?_
  rw [mem_filter, Option.mem_toList, decide_eq_true_iff, and_imp]
  rfl

/-- A foreign call would make the shared log longer than the list of own payloads. -/
theorem isolated_iff (h : s.core.wal.Holds (s.stored.map Prod.snd)) (log : Log) :
    s.Isolated log ↔ ∀ c ∈ s.stored, c.1 = (.log, log.key) := by
  constructor
  · intro hiso
    obtain ⟨recs, hread, hsub⟩ := hiso s.stored.length
    obtain ⟨recs', hread', hpays⟩ := h.read_eq s.stored.length
    obtain rfl : recs = recs' := Except.ok.inj (hread.symm.trans hread')
    rw [hpays, take_of_length_le (length_map _).le] at hsub
    -- the own payloads that are stored are at least as many as all stored ones
    have hlen := (hsub.filter (· ≠ [])).length_le
    rw [filter_eq_self.mpr, appended, filter_map, length_map, length_map, filter_filter] at hlen
    · have hcomm : s.calls.filter (fun c ↦ ((fun p : Bytes ↦ decide (p ≠ [])) ∘ Prod.snd) c &&
          decide (c.1 = (.log, log.key))) = s.stored.filter (·.1 = (.log, log.key)) := by
        rw [stored, filter_filter]
        exact filter_congr fun c _ ↦ Bool.and_comm _ _
      rw [hcomm] at hlen
      have hall := filter_eq_self.mp (filter_sublist.eq_of_length_le hlen)
      exact fun c hc ↦ decide_eq_true_iff.mp (hall c hc)
    · intro p hp
      obtain ⟨c, hc, rfl⟩ := mem_map.mp hp
      exact (mem_filter.mp hc).2
  · intro hown n
    obtain ⟨recs, hread, hpays⟩ := h.read_eq n
    refine ⟨recs, hread, hpays ▸ (take_sublist _ _).trans ?_⟩
    have hself : s.stored.filter (·.1 = (.log, log.key)) = s.stored :=
      filter_eq_self.mpr fun c hc ↦ decide_eq_true (hown c hc)
    rw [← hself]
    exact (filter_sublist.filter _).map _

/-- **A log is isolated exactly when nothing else is written**: when every operation that handed a
payload to the shared log was an append through that log. -/
theorem isolated_iff_ownWrites (object : ObjectStore) (ops : List EngineOp) (log : Log) :
    ((start object).run ops).Isolated log ↔
      Steps (fun s op ↦ some (s.perform op)) (OwnWrite log.key) (start object) ops
        ((start object).run ops) := by
  have hgood := (steps_run (start object) ops).good_iff (fun _ ↦ True)
    (fun s ↦ ∀ c ∈ s.stored, c.1 = (.log, log.key))
    (fun s op _ _ _ hstep ↦ ⟨trivial, Option.some.inj hstep ▸ stored_perform_iff op⟩) trivial
  rw [isolated_iff (holds_run object ops), hgood]
  simp [stored, start]

/-- Tenant `globex` enqueues a job, and tenant `acme` reads it from its own log, to which nothing
was ever appended. -/
theorem foreign_payload_read :
    let ops : List EngineOp := [.createLog "acme" "events", .createQueue "globex" "jobs",
      .queueEnqueue "globex" "jobs" [42] 0]
    let s := (start .empty).run ops
    ∃ log, s.core.logs.object 0 = some log ∧ s.appended log.key = [] ∧
      (log.read s.core.wal 0 1).map (List.map Record.payload) = .ok [[42]] ∧ ¬s.Isolated log := by
  intro ops s
  obtain ⟨log, hlog, happended, hread⟩ : ∃ log, s.core.logs.object 0 = some log ∧
      s.appended log.key = [] ∧
      (log.read s.core.wal 0 1).map (List.map Record.payload) = .ok [[42]] :=
    ⟨⟨"events", "acme", by decide, by decide⟩, by decide +kernel, by decide +kernel,
      by decide +kernel⟩
  refine ⟨log, hlog, happended, hread, fun hisolated ↦ ?_⟩
  obtain ⟨recs, hrecs, hsub⟩ := hisolated 1
  rw [happended, sublist_nil] at hsub
  rw [hrecs, Except.map, hsub] at hread
  exact absurd (Except.ok.inj hread) (by decide)

end EngineRun

end Synapse
