import Synapse.Lib.Run
import Synapse.Storage.Tiered

/-!
# Concurrent appends

`SegmentedLog::append` reserves its offset with an atomic counter and only then takes the lock on
the segments, so appenders that hold reserved offsets may insert in any order. Records are addressed
by segment base and position, that is by the order of insertion, and a read even overwrites the
offset stored in the record. `overtaking_appends_swap` is a run in which two appenders are told each
other's offsets.

Offsets are truthful in the runs in which nobody is overtaken (`Appenders.InOrder`): the positions
at which records are inserted are then the offsets that were handed out.
-/

namespace Synapse

open Chunks Transition Option

/-- A log, the appends that hold a reserved offset and have not inserted yet, and the completed
ones, each with its offset and payload. -/
structure Appenders where
  log : TieredSegmentedLog
  outstanding : List (ℕ × Bytes)
  told : List (ℕ × Bytes)

inductive AppenderOp
  /-- An append starts: an empty payload is rejected, any other one gets an offset. -/
  | reserve (payload : Bytes)
  /-- One of the outstanding appends takes the lock, inserts its record and returns. -/
  | insert (k now : ℕ)
deriving DecidableEq, Repr

namespace Appenders

/-- A new log; whatever the object store holds, nothing has been offloaded to it. -/
def start (maxSegmentBytes : ℕ) (object : ObjectStore) : Appenders :=
  ⟨.new (SegmentedLog.new maxSegmentBytes) object, [], []⟩

def step (s : Appenders) : AppenderOp → Option Appenders
  | .reserve payload =>
    if payload = [] then some s
    else
      let (offset, log) := s.log.local.reserve
      some { s with
        log := { s.log with «local» := log }
        outstanding := s.outstanding ++ [(offset, payload)] }
  | .insert k now => do
    let (offset, payload) ← s.outstanding[k]?
    some
      { log := { s.log with «local» := s.log.local.insert ⟨offset, payload, now⟩ }
        outstanding := s.outstanding.eraseIdx k
        told := s.told ++ [(offset, payload)] }

/-- Reading at the offset a completed append was told returns its payload. -/
def Truthful (s : Appenders) : Prop :=
  ∀ e ∈ s.told, ∃ recs, s.log.read e.1 1 = .ok recs ∧ recs.map Record.payload = [e.2]

def InOrder (s : Appenders) : AppenderOp → Prop
  | .reserve _ => True
  | .insert k _ => ∀ e ∈ s.outstanding[k]?, ∀ e' ∈ s.outstanding, e.1 ≤ e'.1

instance (s : Appenders) (op : AppenderOp) : Decidable (s.InOrder op) := by
  cases op <;> dsimp only [InOrder] <;> infer_instance

/-- The completed appends are the history of the log, and the outstanding ones hold the offsets that
follow. -/
def Inv (s : Appenders) : Prop :=
  ∃ history chunks pending, TieredInv s.log history chunks ∧ s.told = numbered 0 history ∧
    s.outstanding = numbered history.length pending ∧
    s.log.local.nextOffset = history.length + pending.length

theorem Inv.step {s s' : Appenders} {op : AppenderOp} (h : s.Inv) (hok : s.InOrder op)
    (hstep : s.step op = some s') : s'.Inv := by
  obtain ⟨history, chunks, pending, hinv, htold, hout, hnext⟩ := h
  cases op with
  | reserve payload =>
    rw [Appenders.step] at hstep
    split_ifs at hstep with hnil
    · cases hstep
      exact ⟨history, chunks, pending, hinv, htold, hout, hnext⟩
    cases hstep
    refine ⟨history, chunks, pending ++ [payload], { hinv with }, htold, ?_, ?_⟩
    · rw [numbered_append, hout, ← hnext]
      rfl
    · rw [List.length_append, ← add_assoc, ← hnext]
      rfl
  | insert k now =>
    rw [Appenders.step] at hstep
    obtain ⟨⟨offset, payload⟩, hk, hstep⟩ := bind_eq_some_iff.mp hstep
    cases hstep
    -- the lowest offset outstanding is the first one, and it is the length of the history
    have hlow := hok _ hk
    rw [hout, getElem?_numbered, map_eq_some_iff] at hk
    obtain ⟨p, hp, heq⟩ := hk
    obtain ⟨rfl, rfl⟩ := Prod.mk.inj heq
    cases pending with
    | nil => simp at hp
    | cons q pending =>
      have hle : history.length + k ≤ history.length := hlow (history.length, q) (by simp [hout])
      obtain rfl : k = 0 := by omega
      obtain rfl : q = p := by simpa using hp
      obtain ⟨chunks', hins⟩ := hinv.insert ⟨history.length + 0, q, now⟩ rfl
      refine ⟨history ++ [q], chunks', pending, hins, ?_, ?_, ?_⟩
      · rw [htold, numbered_append, zero_add]
        rfl
      · rw [hout, List.length_append]
        rfl
      · rwa [List.length_append, add_assoc, add_comm [q].length]

theorem Inv.truthful {s : Appenders} (h : s.Inv) : s.Truthful := by
  obtain ⟨history, chunks, pending, hinv, htold, -, -⟩ := h
  intro e he
  obtain ⟨k, hk⟩ := List.getElem?_of_mem (htold ▸ he)
  rw [getElem?_numbered, map_eq_some_iff] at hk
  obtain ⟨payload, hpay, rfl⟩ := hk
  obtain ⟨recs, hread, hents⟩ := hinv.read_eq (0 + k) 1
  refine ⟨recs, hread, ?_⟩
  have hone : ((numbered 0 history).drop (0 + k)).take 1 = [(0 + k, payload)] := by
    rw [List.take_one, List.head?_drop, getElem?_numbered]
    simp [hpay]
  have hpays := congrArg (List.map Prod.snd) (hents.trans hone)
  rwa [List.map_map] at hpays

/-- **Offsets are truthful when nobody is overtaken.** If inserts happen in the order of the
reserved offsets, every completed append can be read back at the offset it was told. -/
theorem inOrder_run_truthful {maxSegmentBytes : ℕ} {object : ObjectStore} {ops : List AppenderOp}
    {s : Appenders} (hrun : Steps step InOrder (start maxSegmentBytes object) ops s) :
    s.Truthful :=
  (hrun.invariant Inv (fun _ _ _ h hok hstep ↦ h.step hok hstep)
    ⟨[], _, [], tieredInv_new maxSegmentBytes object, rfl, rfl, rfl⟩).truthful

/-- Two appends overlap without overtaking, and the second one rolls the segment. -/
theorem inOrder_run_truthful_two : ∃ s, Steps step InOrder (start 1 .empty)
        [.reserve [1], .reserve [2], .insert 0 0, .insert 0 0] s ∧
      (s.told = [(0, [1]), (1, [2])] ∧ s.outstanding = []) ∧ s.Truthful := by
  refine exists_steps_of_isSome (by decide +kernel) fun hrun ↦ ⟨by decide +kernel, ?_⟩
  exact inOrder_run_truthful hrun

/-- The second append overtakes the first: each is told the other's offset. -/
theorem overtaking_appends_swap : ∃ s, Steps step (fun _ _ ↦ True) (start 1024 .empty)
        [.reserve [1], .reserve [2], .insert 1 0, .insert 0 0] s ∧
      s.outstanding = [] ∧ ¬s.Truthful := by
  refine exists_steps_of_isSome (by decide +kernel) fun _ ↦ ⟨by decide +kernel, fun htruth ↦ ?_⟩
  obtain ⟨recs, hrecs, hpayload⟩ := htruth (0, [1]) (by decide +kernel)
  cases hrecs
  exact absurd hpayload (by decide)

end Appenders

end Synapse
