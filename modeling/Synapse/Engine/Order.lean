import Synapse.Lib.Run
import Synapse.Engine.QueueRun

/-!
# The order of a queue

Messages are numbered as they are enqueued, and a message that is returned goes to the front of the
ready list. If the list is in the order of the numbers, the next dequeue takes the smallest.
Returning a message keeps the order exactly if it comes before all that are ready (`ordered_nack`),
which is not so when several are returned in the order they were taken. A list that is out of order
stays so until some dequeue takes a message that is not the smallest, and if nothing else happens
one of the next dequeues does (`ordered_of_drain`). So it is the returned messages that decide
(`QueueRun.leastFirst_iff`).
-/

namespace Synapse

open Keyed Transition List

/-! ## One queue -/

namespace Queue

variable {q : Queue} {enqueued acked : List QueueEntry} {seq : ℕ}

/-- The ready messages are in the order of their numbers. -/
def Ordered (q : Queue) : Prop := q.ready.Pairwise fun e e' ↦ e.seq < e'.seq

/-- A dequeue returns the ready message with the smallest number. -/
def LeastFirst (q : Queue) : Prop :=
  ∀ seq payload, q.dequeue.1 = some (seq, payload) → ∀ e ∈ q.ready, seq ≤ e.seq

/-- A message that is returned comes before all that are ready. -/
def InFront (q : Queue) (seq : ℕ) : Prop := (q.nack seq).1 = true → ∀ e ∈ q.ready, seq < e.seq

theorem leastFirst_cons {e : QueueEntry} {ready : List QueueEntry} (h : q.ready = e :: ready) :
    q.LeastFirst ↔ ∀ e' ∈ ready, e.seq ≤ e'.seq := by
  rw [LeastFirst, dequeue_cons h, h]
  constructor
  · intro hlst e' he'
    exact hlst e.seq e.payload rfl e' (mem_cons_of_mem e he')
  · rintro hlst seq payload ⟨⟩ e' he'
    rcases mem_cons.mp he' with rfl | he'
    · exact le_rfl
    · exact hlst e' he'

theorem Ordered.leastFirst (h : q.Ordered) : q.LeastFirst := by
  rcases hrdy : q.ready with _ | ⟨e, ready⟩
  · rw [LeastFirst, dequeue_nil hrdy]
    exact nofun
  · rw [Ordered, hrdy, pairwise_cons] at h
    exact (leastFirst_cons hrdy).mpr fun e' he' ↦ Nat.le_of_lt (h.1 e' he')

theorem Ordered.drain (h : q.Ordered) (n : ℕ) : (q.drain n).Ordered := by
  rw [Ordered, ready_drain]
  exact h.sublist (drop_sublist n _)

namespace Tracks

variable (h : q.Tracks enqueued acked)

include h

theorem nodup_ready : (q.ready.map QueueEntry.seq).Nodup := by
  have hpls := h.nodup_places
  rw [map_append] at hpls
  exact hpls.of_append_left

theorem ordered_push (payload : Bytes) :
    (q.push payload).Ordered ↔ q.Ordered := by
  rw [Ordered, Ordered, pairwise_append, and_iff_left]
  refine ⟨pairwise_singleton _ _, fun e he e' he' ↦ ?_⟩
  rw [mem_singleton.mp he']
  exact h.fresh e (h.perm.mem_iff.mpr (mem_append_left _ he))

theorem ordered_enqueue (wal : TieredSegmentedLog) (payload : Bytes)
    (now : ℕ) : (q.enqueue wal payload now).2.1.Ordered ↔ q.Ordered := by
  rw [enqueue]
  rcases wal.append payload now with ⟨_ | _, wal⟩
  · rfl
  · exact h.ordered_push payload

theorem ordered_dequeue (hlst : q.LeastFirst) : q.dequeue.2.Ordered ↔ q.Ordered := by
  have hnd := h.nodup_ready
  rcases hrdy : q.ready with _ | ⟨e, ready⟩
  · rw [dequeue_nil hrdy]
  rw [hrdy, map_cons, nodup_cons] at hnd
  rw [Ordered, Ordered, ready_dequeue, hrdy, tail_cons, pairwise_cons, and_iff_right]
  intro e' he'
  refine Nat.lt_of_le_of_ne ((leastFirst_cons hrdy).mp hlst e' he') fun heq ↦ hnd.1 ?_
  rw [heq]
  exact mem_map_of_mem he'

theorem ordered_nack (seq : ℕ) : (q.nack seq).2.Ordered ↔ q.Ordered ∧ q.InFront seq := by
  obtain ⟨e, he, rfl, heq⟩ | ⟨-, heq⟩ := q.nack_cases seq
  · rw [InFront, Ordered, Ordered, nack_ready h he, pairwise_cons, and_comm, heq,
      imp_iff_right rfl]
  · rw [InFront, heq, and_iff_left fun hfnd ↦ absurd hfnd Bool.false_ne_true]

theorem ordered_of_drain (hlst : ∀ n, (q.drain n).LeastFirst) : q.Ordered := by
  generalize hrdy : q.ready = ready
  induction ready generalizing q with
  | nil =>
    rw [Ordered, hrdy]
    exact .nil
  | cons e ready ih =>
    refine (h.ordered_dequeue (hlst 0)).mp (ih h.dequeue (fun n ↦ hlst (n + 1)) ?_)
    rw [ready_dequeue, hrdy, tail_cons]

end Tracks

end Queue

/-! ## Runs -/

namespace QueueRun

variable {r : QueueRun}

def step (r : QueueRun) (op : QueueOp) : Option QueueRun := some (r.perform op)

def LeastFirst (r : QueueRun) : QueueOp → Prop
  | .dequeue => r.queue.LeastFirst
  | _ => True

def InFront (r : QueueRun) : QueueOp → Prop
  | .nack seq => r.queue.InFront seq
  | _ => True

theorem ordered_perform (h : r.Inv) {op : QueueOp} (hlst : r.LeastFirst op) :
    (r.perform op).queue.Ordered ↔ r.queue.Ordered ∧ r.InFront op := by
  obtain ⟨acked, htr, -⟩ := h
  rcases op with ⟨payload, now⟩ | _ | seq | seq | wal
  · refine Iff.trans ?_ (and_iff_left trivial).symm
    rw [← htr.ordered_enqueue r.wal payload now, perform]
    rcases r.queue.enqueue r.wal payload now with ⟨_ | _, queue, wal⟩ <;> rfl
  · exact (htr.ordered_dequeue hlst).trans (and_iff_left trivial).symm
  · exact (and_iff_left trivial).symm
  · exact htr.ordered_nack seq
  · exact (and_iff_left trivial).symm

/-- Dequeuing again and again. -/
theorem exists_drain_iff (r : QueueRun) (n : ℕ) :
    (∃ r', Steps step LeastFirst r (.replicate n .dequeue) r') ↔
      ∀ k < n, (r.queue.drain k).LeastFirst := by
  induction n generalizing r with
  | zero => exact ⟨fun _ _ hk ↦ absurd hk (Nat.not_lt_zero _), fun _ ↦ ⟨r, .nil r⟩⟩
  | succ n ih =>
    rw [replicate_succ]
    constructor
    · rintro ⟨r', _ | ⟨hlst, ⟨⟩, hrest⟩⟩ k hk
      rcases k with _ | k
      · exact hlst
      · exact (ih _).mp ⟨r', hrest⟩ k (Nat.lt_of_succ_lt_succ hk)
    · intro hlst
      obtain ⟨r', hrest⟩ := (ih (r.perform .dequeue)).mpr fun k hk ↦
        hlst (k + 1) (Nat.succ_lt_succ hk)
      exact ⟨r', .cons (hlst 0 (Nat.succ_pos n)) rfl hrest⟩

/-- However often the queue is dequeued, the smallest message comes first, exactly if each returned
message came before all that were ready. -/
theorem leastFirst_iff (name : String) (tenant : TenantId) (wal : TieredSegmentedLog)
    (ops : List QueueOp) :
    (∀ n, ∃ r, Steps step LeastFirst (start name tenant wal) (ops ++ .replicate n .dequeue) r) ↔
      ∃ r, Steps step InFront (start name tenant wal) ops r := by
  refine steps_probe_iff Inv (·.queue.Ordered) (fun n ↦ .replicate n .dequeue) ?_ ?_ ?_
    (inv_start name tenant wal) .nil ops
  · rintro r op _ h hlst ⟨⟩
    exact ⟨h.perform op, ordered_perform h hlst⟩
  · intro r op _ hord
    rcases op with _ | _ | _ | _ | _
    · trivial
    · exact hord.leastFirst
    · trivial
    · trivial
    · trivial
  · rintro r ⟨acked, htr, -⟩
    simp only [exists_drain_iff]
    constructor
    · intro hlst
      exact htr.ordered_of_drain fun n ↦ hlst (n + 1) n (Nat.lt_succ_self n)
    · exact fun hord _ k _ ↦ (hord.drain k).leastFirst

end QueueRun

end Synapse
