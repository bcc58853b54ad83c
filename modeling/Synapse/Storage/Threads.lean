import Synapse.Lib.Run
import Synapse.Storage.Tiered

/-!
# Reads and offloads, one step at a time

`TieredSegmentedLog::read` and `offload_sealed` hold no lock throughout. Here each lock acquisition
and each call of the object store is one atomic step, of one read and of any number of offloads;
what a thread computes in between touches nothing that is shared. Nothing is appended meanwhile, and
the store does not fail.

A thread during whose run nobody else moves does what the sequential model of it does (`read_alone`,
`offload_alone`).
-/

namespace Synapse

open ByteCode Transition Function

/-! ## The threads -/

inductive ReadPc
  /-- Before it copies the set of offloaded bases. -/
  | idle
  /-- Before it takes the bounds of the local segments. -/
  | bounds (offloaded : List ℕ)
  /-- In the loop over the bases. -/
  | fetch (offloaded bases : List ℕ) (out : List Record)
  | done (result : EngineResult (List Record))
deriving DecidableEq

/-- Where an offload is; `todo` are the sealed segments that follow the present one. -/
inductive OffloadPc
  | idle
  /-- Before it asks the store for the next segment. -/
  | loop (todo : List (ℕ × ℕ × ℕ)) (moved : ℕ)
  /-- The store does not have it: before it copies the payloads. -/
  | payloads (id base : ℕ) (todo : List (ℕ × ℕ × ℕ)) (moved : ℕ)
  | put (id base : ℕ) (data : Bytes) (todo : List (ℕ × ℕ × ℕ)) (moved : ℕ)
  | drop (id base : ℕ) (todo : List (ℕ × ℕ × ℕ)) (moved : ℕ)
  /-- The segment is dropped, and its base not yet in the set. -/
  | insert (base : ℕ) (todo : List (ℕ × ℕ × ℕ)) (moved : ℕ)
  | done (result : EngineResult ℕ)

namespace TieredSegmentedLog

/-- One step of a read. The tier of a segment is decided by the copy of the set. -/
def readStep (fromOffset maxRecords : ℕ) (t : TieredSegmentedLog) : ReadPc → Option ReadPc
  | .idle => some (.bounds t.offloaded)
  | .bounds offloaded => some (.fetch offloaded { t with offloaded := offloaded }.bases [])
  | .fetch _ [] out => some (.done (.ok out))
  | .fetch offloaded (base :: bases) out =>
    if maxRecords ≤ out.length then some (.done (.ok out))
    else
      match { t with offloaded := offloaded }.fetch base with
      | .error e => some (.done (.error e))
      | .ok none => some (.fetch offloaded bases out)
      | .ok (some recs) =>
        if base + recs.length ≤ fromOffset then some (.fetch offloaded bases out)
        else
          some (.fetch offloaded bases
            (SegmentedLog.pushUpTo maxRecords out ((renumber base recs).drop (fromOffset - base))))
  | .done _ => none

/-- A read can always go on, until it is done. -/
theorem exists_readStep (fromOffset maxRecords : ℕ) (t : TieredSegmentedLog) (pc : ReadPc)
    (h : ∀ result, pc ≠ .done result) : ∃ pc', t.readStep fromOffset maxRecords pc = some pc' := by
  rcases pc with _ | offloaded | ⟨offloaded, _ | ⟨base, bases⟩, out⟩ | result
  · exact ⟨_, rfl⟩
  · exact ⟨_, rfl⟩
  · exact ⟨_, rfl⟩
  · rw [readStep]
    split_ifs
    · exact ⟨_, rfl⟩
    · split
      · exact ⟨_, rfl⟩
      · exact ⟨_, rfl⟩
      · split_ifs <;> exact ⟨_, rfl⟩
  · exact absurd rfl (h result)

def dropSegment (t : TieredSegmentedLog) (id : ℕ) : TieredSegmentedLog :=
  { t with «local» := t.local.dropSegment id }

def insertOffloaded (t : TieredSegmentedLog) (base : ℕ) : TieredSegmentedLog :=
  { t with offloaded := if base ∈ t.offloaded then t.offloaded else base :: t.offloaded }

def offloadStep (t : TieredSegmentedLog) : OffloadPc → Option (TieredSegmentedLog × OffloadPc)
  | .idle => some (t, .loop t.local.sealedSegments 0)
  | .loop [] moved => some (t, .done (.ok moved))
  | .loop ((id, base, _) :: todo) moved =>
    if t.object.contains (segmentKey base) then some (t, .drop id base todo moved)
    else some (t, .payloads id base todo moved)
  | .payloads id base todo moved =>
    match t.local.segmentPayloads id with
    | .error e => some (t, .done (.error e))
    | .ok payloads => some (t, .put id base (frames payloads) todo moved)
  | .put id base data todo moved =>
    some (t.putObject (segmentKey base) data, .drop id base todo moved)
  | .drop id base todo moved => some (t.dropSegment id, .insert base todo moved)
  | .insert base todo moved => some (t.insertOffloaded base, .loop todo (moved + 1))
  | .done _ => none

end TieredSegmentedLog

/-- A log, one read and any number of offloads. -/
structure Interleaving where
  log : TieredSegmentedLog
  reader : ReadPc
  offloads : ℕ → OffloadPc

inductive ThreadStep
  | read
  | offload (thread : ℕ)
deriving DecidableEq, Repr

namespace Interleaving

def start (t : TieredSegmentedLog) : Interleaving := ⟨t, .idle, fun _ ↦ .idle⟩

def step (fromOffset maxRecords : ℕ) (s : Interleaving) : ThreadStep → Option Interleaving
  | .read =>
    (s.log.readStep fromOffset maxRecords s.reader).map fun reader ↦ { s with reader := reader }
  | .offload thread =>
    (s.log.offloadStep (s.offloads thread)).map fun (log, pc) ↦
      { s with log := log, offloads := Function.update s.offloads thread pc }

/-! ## Threads that are alone -/

section Alone

variable {fromOffset maxRecords : ℕ} {t t' : TieredSegmentedLog}

theorem step_read {pc pc' : ReadPc} (h : t.readStep fromOffset maxRecords pc = some pc')
    (offloads : ℕ → OffloadPc) :
    step fromOffset maxRecords ⟨t, pc, offloads⟩ .read = some ⟨t, pc', offloads⟩ := by
  rw [step, h]
  rfl

theorem step_offload {pc pc' : OffloadPc} (h : t.offloadStep pc = some (t', pc'))
    (reader : ReadPc) (offloads : ℕ → OffloadPc) (thread : ℕ) :
    step fromOffset maxRecords ⟨t, reader, update offloads thread pc⟩ (.offload thread) =
      some ⟨t', reader, update offloads thread pc'⟩ := by
  simp [step, h]

variable (fromOffset maxRecords : ℕ) (t : TieredSegmentedLog)

/-- The loop of a read during which nobody else moves. -/
theorem fetch_alone (offloads : ℕ → OffloadPc) (bases : List ℕ) (out : List Record) :
    ∃ k, Steps (step fromOffset maxRecords) (fun _ _ ↦ True)
      ⟨t, .fetch t.offloaded bases out, offloads⟩ (List.replicate k .read)
      ⟨t, .done (t.readLoop fromOffset maxRecords bases out), offloads⟩ := by
  induction bases generalizing out with
  | nil => exact ⟨1, .cons trivial rfl (.nil _)⟩
  | cons base bases ih =>
    rw [TieredSegmentedLog.readLoop]
    by_cases hfull : maxRecords ≤ out.length
    · rw [if_pos hfull]
      refine ⟨1, .cons trivial (step_read ?_ offloads) (.nil _)⟩
      rw [TieredSegmentedLog.readStep, if_pos hfull]
    rw [if_neg hfull]
    -- whatever is fetched, the rest of the loop runs on with the records there are then
    have hgo {out' : List Record} (h : t.readStep fromOffset maxRecords
          (.fetch t.offloaded (base :: bases) out) = some (.fetch t.offloaded bases out')) :
        ∃ k, Steps (step fromOffset maxRecords) (fun _ _ ↦ True)
          ⟨t, .fetch t.offloaded (base :: bases) out, offloads⟩ (List.replicate k .read)
          ⟨t, .done (t.readLoop fromOffset maxRecords bases out'), offloads⟩ := by
      obtain ⟨k, hrest⟩ := ih out'
      exact ⟨k + 1, .cons trivial (step_read h offloads) hrest⟩
    rcases hfet : t.fetch base with e | _ | recs
    · refine ⟨1, .cons trivial (step_read ?_ offloads) (.nil _)⟩
      simp only [TieredSegmentedLog.readStep, if_neg hfull, hfet]
      rfl
    · refine hgo ?_
      simp only [TieredSegmentedLog.readStep, if_neg hfull, hfet]
    simp only [bind, Except.bind]
    split_ifs with hbef
    · refine hgo ?_
      simp only [TieredSegmentedLog.readStep, if_neg hfull, hfet, if_pos hbef]
    · refine hgo ?_
      simp only [TieredSegmentedLog.readStep, if_neg hfull, hfet, if_neg hbef]

/-- A read during which nobody else moves is `TieredSegmentedLog.read`. -/
theorem read_alone (offloads : ℕ → OffloadPc) :
    ∃ k, Steps (step fromOffset maxRecords) (fun _ _ ↦ True) ⟨t, .idle, offloads⟩
      (List.replicate k .read) ⟨t, .done (t.read fromOffset maxRecords), offloads⟩ := by
  obtain ⟨k, hloop⟩ := fetch_alone fromOffset maxRecords t offloads t.bases []
  exact ⟨k + 2, .cons trivial rfl (.cons trivial rfl hloop)⟩

/-- The loop of an offload during which nobody else moves. -/
theorem loop_alone (reader : ReadPc)
    (offloads : ℕ → OffloadPc) (thread : ℕ) (todo : List (ℕ × ℕ × ℕ)) (moved : ℕ) :
    ∃ k, Steps (step fromOffset maxRecords) (fun _ _ ↦ True)
      ⟨t, reader, update offloads thread (.loop todo moved)⟩
      (List.replicate k (.offload thread))
      ⟨(t.offloadLoop (fun _ ↦ none) todo moved).2, reader, update offloads thread
          (.done (t.offloadLoop (fun _ ↦ none) todo moved).1)⟩ := by
  induction todo generalizing t moved with
  | nil => exact ⟨1, .cons trivial (step_offload rfl ..) (.nil _)⟩
  | cons entry todo ih =>
    obtain ⟨id, base, len⟩ := entry
    -- the segment is in the store: it is dropped and its base entered
    have hmove (t : TieredSegmentedLog) : ∃ k, Steps (step fromOffset maxRecords) (fun _ _ ↦ True)
        ⟨t, reader, update offloads thread (.drop id base todo moved)⟩
        (List.replicate k (.offload thread))
        ⟨((t.dropLocal id base).offloadLoop (fun _ ↦ none) todo (moved + 1)).2, reader,
          update offloads thread
            (.done ((t.dropLocal id base).offloadLoop (fun _ ↦ none) todo (moved + 1)).1)⟩ := by
      obtain ⟨k, hrest⟩ := ih (t.dropLocal id base) (moved + 1)
      exact ⟨k + 2, .cons trivial (step_offload rfl ..) (.cons trivial (step_offload rfl ..) hrest)⟩
    rw [TieredSegmentedLog.offloadLoop]
    by_cases hsto : t.object.contains (segmentKey base) = true
    · rw [if_pos hsto]
      obtain ⟨k, hrest⟩ := hmove t
      refine ⟨k + 1, .cons trivial (step_offload ?_ ..) hrest⟩
      rw [TieredSegmentedLog.offloadStep, if_pos hsto]
    rw [if_neg hsto]
    have hlook : t.offloadStep (.loop ((id, base, len) :: todo) moved) =
        some (t, .payloads id base todo moved) := by
      rw [TieredSegmentedLog.offloadStep, if_neg hsto]
    cases hpays : t.local.segmentPayloads id with
    | error e =>
      refine ⟨2, .cons trivial (step_offload hlook ..)
        (.cons trivial (step_offload ?_ ..) (.nil _))⟩
      rw [TieredSegmentedLog.offloadStep, hpays]
    | ok payloads =>
      obtain ⟨k, hrest⟩ := hmove (t.putObject (segmentKey base) (frames payloads))
      have hcopy : t.offloadStep (.payloads id base todo moved) =
          some (t, .put id base (frames payloads) todo moved) := by
        rw [TieredSegmentedLog.offloadStep, hpays]
      exact ⟨k + 3, .cons trivial (step_offload hlook ..)
        (.cons trivial (step_offload hcopy ..) (.cons trivial (step_offload rfl ..) hrest))⟩

/-- An offload during which nobody else moves is `TieredSegmentedLog.offloadSealed`. -/
theorem offload_alone (reader : ReadPc) (offloads : ℕ → OffloadPc) (thread : ℕ) :
    ∃ k, Steps (step fromOffset maxRecords) (fun _ _ ↦ True)
      ⟨t, reader, update offloads thread .idle⟩ (List.replicate k (.offload thread))
      ⟨(t.offloadSealed fun _ ↦ none).2, reader,
        update offloads thread (.done (t.offloadSealed fun _ ↦ none).1)⟩ := by
  obtain ⟨k, hloop⟩ := loop_alone fromOffset maxRecords t reader offloads thread
    t.local.sealedSegments 0
  exact ⟨k + 1, .cons trivial (step_offload rfl ..) hloop⟩

end Alone

end Interleaving

end Synapse
