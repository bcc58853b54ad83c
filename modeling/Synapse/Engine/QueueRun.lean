import Synapse.Engine.Primitives

/-!
# Queue conservation

A message that has been enqueued waits in the ready list, is in flight between a dequeue and an
acknowledgement, or has been acknowledged. `Queue.Tracks` says that no message is lost, duplicated
or altered on the way: the messages enqueued so far are, up to order, the ready ones, the ones in
flight and the acknowledged ones. Each operation keeps it, whatever sequence number it is given.

The write-ahead log is shared with the other primitives; in a run it may be replaced by any other
between two operations.
-/

namespace Synapse

open Keyed List

/-! ## The invariant -/

namespace Queue

variable {q : Queue} {ready : List QueueEntry} {e : QueueEntry} {wal : TieredSegmentedLog}
  {payload : Bytes} {now : ℕ}

theorem dequeue_nil (h : q.ready = []) : q.dequeue = (none, q) := by rw [dequeue, h]

theorem dequeue_cons (h : q.ready = e :: ready) : q.dequeue = (some (e.seq, e.payload),
      { q with ready := ready, inflight := e :: q.inflight.filter (·.seq != e.seq) }) := by
  rw [dequeue, h]

theorem enqueue_of_ne_nil (h : payload ≠ []) :
    q.enqueue wal payload now = (.ok q.seq, q.push payload, (wal.append payload now).2) := by
  rw [enqueue, wal.append_of_ne_nil h]

theorem enqueue_cases (q : Queue) (wal : TieredSegmentedLog) (payload : Bytes) (now : ℕ) :
    (∃ e, q.enqueue wal payload now = (.error e, q, wal)) ∨
      q.enqueue wal payload now = (.ok q.seq, q.push payload, (wal.append payload now).2) := by
  by_cases hnil : payload = []
  · subst hnil
    exact .inl ⟨_, rfl⟩
  · exact .inr (enqueue_of_ne_nil hnil)

theorem dequeue_eq (h : q.ready = e :: ready) :
    q.dequeue = (some (e.seq, e.payload), q.dequeue.2) := by
  rw [dequeue_cons h]

/-- Everything enqueued is ready, in flight or acknowledged. -/
structure Tracks (q : Queue) (enqueued acked : List QueueEntry) : Prop where
  perm : enqueued.Perm (q.ready ++ (q.inflight ++ acked))
  nodup : (enqueued.map QueueEntry.seq).Nodup
  fresh : ∀ e ∈ enqueued, e.seq < q.seq

namespace Tracks

variable {q : Queue} {enqueued acked : List QueueEntry}

theorem blank (name : String) (tenant : TenantId) : Tracks ⟨name, tenant, [], [], 0⟩ [] [] where
  perm := .nil
  nodup := nodup_nil
  fresh := by simp

section

variable (h : q.Tracks enqueued acked)

include h

theorem nodup_places : ((q.ready ++ (q.inflight ++ acked)).map QueueEntry.seq).Nodup :=
  (h.perm.map QueueEntry.seq).nodup_iff.mp h.nodup

theorem nodup_inflight : (q.inflight.map QueueEntry.seq).Nodup := by
  have hpls := h.nodup_places
  rw [map_append, map_append] at hpls
  exact hpls.of_append_right.of_append_left

theorem move {q' : Queue} {acked' : List QueueEntry} (hseq : q'.seq = q.seq)
    (hperm : (q.ready ++ (q.inflight ++ acked)).Perm (q'.ready ++ (q'.inflight ++ acked'))) :
    q'.Tracks enqueued acked' where
  perm := h.perm.trans hperm
  nodup := h.nodup
  fresh := hseq ▸ h.fresh

theorem push (payload : Bytes) :
    (q.push payload).Tracks (enqueued ++ [⟨q.seq, payload⟩]) acked where
  perm := by
    rw [append_assoc]
    refine (h.perm.append_right _).trans ?_
    rw [append_assoc]
    exact (perm_append_comm).append_left q.ready
  nodup := nodup_concat _ h.nodup fun e he ↦ (h.fresh e he).ne
  fresh := forall_mem_append.mpr ⟨fun e he ↦ Nat.lt_succ_of_lt (h.fresh e he),
    forall_mem_singleton.mpr (Nat.lt_succ_self _)⟩

end

variable {e : QueueEntry} {ready : List QueueEntry}

variable (h : q.Tracks enqueued acked)

include h

section

variable (hrdy : q.ready = e :: ready)

include hrdy

theorem head_notMem : e.seq ∉ q.inflight.map QueueEntry.seq := by
  have hpls := h.nodup_places
  rw [hrdy, cons_append, map_cons, nodup_cons, map_append, map_append] at hpls
  exact fun hmem ↦ hpls.1 (mem_append_right _ (mem_append_left _ hmem))

theorem filter_head : q.inflight.filter (·.seq != e.seq) = q.inflight :=
  filter_ne_of_not_mem _ (h.head_notMem hrdy)

theorem dequeue_snd : q.dequeue.2 = { q with ready := ready, inflight := e :: q.inflight } := by
  rw [dequeue_cons hrdy, h.filter_head hrdy]

theorem inflight_ack_dequeue : (q.dequeue.2.ack e.seq).2.inflight = q.inflight := by
  rw [h.dequeue_snd hrdy]
  change (e :: q.inflight).filter (·.seq != e.seq) = q.inflight
  rw [filter_cons_of_neg (by simp), h.filter_head hrdy]

end

theorem dequeue : q.dequeue.2.Tracks enqueued acked := by
  cases hrdy : q.ready with
  | nil => rwa [dequeue_nil hrdy]
  | cons e ready =>
    rw [h.dequeue_snd hrdy]
    refine h.move rfl ?_
    rw [hrdy, cons_append]
    exact (perm_middle).symm

theorem perm_inflight (he : e ∈ q.inflight) :
    q.inflight.Perm (e :: q.inflight.filter (·.seq != e.seq)) :=
  perm_cons_filter QueueEntry.seq h.nodup_inflight he

theorem ack_of_mem (he : e ∈ q.inflight) : (q.ack e.seq).2.Tracks enqueued (acked ++ [e]) := by
  refine h.move rfl (.append_left q.ready ?_)
  refine ((h.perm_inflight he).append_right acked).trans ?_
  rw [cons_append, ← append_assoc]
  exact (perm_append_singleton e _).symm

theorem inOnePlace (he : e ∈ enqueued) : (e ∈ q.ready ∧ q.ready.filter (·.seq == e.seq) = [e] ∧
      q.inflight.filter (·.seq == e.seq) = [] ∧ e.seq ∉ acked.map QueueEntry.seq) ∨
    (e ∈ q.inflight ∧ q.ready.filter (·.seq == e.seq) = [] ∧
      q.inflight.filter (·.seq == e.seq) = [e] ∧ e.seq ∉ acked.map QueueEntry.seq) ∨
    (q.ready.filter (·.seq == e.seq) = [] ∧
      q.inflight.filter (·.seq == e.seq) = [] ∧ e.seq ∈ acked.map QueueEntry.seq) := by
  have hpls := h.nodup_places
  rw [map_append, map_append] at hpls
  obtain ⟨hrdy, hrest, hdisj⟩ := nodup_append.mp hpls
  obtain ⟨hinf, -, hdisj'⟩ := nodup_append.mp hrest
  -- the number of a message in one place is in no other place
  rcases mem_append.mp (h.perm.mem_iff.mp he) with hmem | hmem
  · have hseq := mem_map_of_mem (f := QueueEntry.seq) hmem
    refine Or.inl ⟨hmem, filter_key _ hrdy hmem, filter_key_of_not_mem _ ?_, ?_⟩
    · exact fun h ↦ hdisj _ hseq _ (mem_append_left _ h) rfl
    · exact fun h ↦ hdisj _ hseq _ (mem_append_right _ h) rfl
  rcases mem_append.mp hmem with hmem | hmem
  · have hseq := mem_map_of_mem (f := QueueEntry.seq) hmem
    refine Or.inr (Or.inl ⟨hmem, filter_key_of_not_mem _ ?_, filter_key _ hinf hmem, ?_⟩)
    · exact fun h ↦ hdisj _ h _ (mem_append_left _ hseq) rfl
    · exact fun h ↦ hdisj' _ hseq _ h rfl
  · have hseq := mem_map_of_mem (f := QueueEntry.seq) hmem
    refine Or.inr (Or.inr ⟨filter_key_of_not_mem _ ?_, filter_key_of_not_mem _ ?_, hseq⟩)
    · exact fun h ↦ hdisj _ h _ (mem_append_right _ hseq) rfl
    · exact fun h ↦ hdisj' _ h _ hseq rfl

end Tracks

section Replies

variable {q : Queue} {seq : ℕ}

theorem ack_fst_iff : (q.ack seq).1 = true ↔ ∃ e ∈ q.inflight, e.seq = seq := by
  rw [ack, any_eq_true]
  simp only [beq_iff_eq]

theorem ack_of_not (h : ¬∃ e ∈ q.inflight, e.seq = seq) : q.ack seq = (false, q) := by
  have hfst : (q.ack seq).1 = false := by
    rw [Bool.eq_false_iff]
    exact mt ack_fst_iff.mp h
  refine Prod.ext hfst ?_
  rw [ack, filter_ne_of_not_mem QueueEntry.seq (mt mem_map.mp h)]

/-- A message that is in flight goes back to the front. -/
theorem nack_cases (q : Queue) (seq : ℕ) :
    (∃ e ∈ q.inflight, e.seq = seq ∧ q.nack seq = (true, { q with
        ready := e :: q.ready, inflight := q.inflight.filter (·.seq != seq) })) ∨
      (¬∃ e ∈ q.inflight, e.seq = seq) ∧ q.nack seq = (false, q) := by
  rw [nack]
  cases hfind : q.inflight.find? (·.seq == seq) with
  | some e => exact .inl ⟨e, mem_of_find?_eq_some hfind, by simpa using find?_some hfind, rfl⟩
  | none =>
    refine .inr ⟨?_, rfl⟩
    rintro ⟨e, he, rfl⟩
    exact List.find?_eq_none.mp hfind e he BEq.rfl

theorem nack_fst_iff : (q.nack seq).1 = true ↔ ∃ e ∈ q.inflight, e.seq = seq := by
  obtain ⟨e, he, hseq, heq⟩ | ⟨hnot, heq⟩ := q.nack_cases seq <;> rw [heq]
  · exact iff_of_true rfl ⟨e, he, hseq⟩
  · exact iff_of_false Bool.false_ne_true hnot

end Replies

section InFlight

variable {q : Queue} {enqueued acked : List QueueEntry}

theorem nack_inflight (q : Queue) (seq : ℕ) :
    (q.nack seq).2.inflight = q.inflight.filter (·.seq != seq) := by
  obtain ⟨e, -, -, heq⟩ | ⟨hnot, heq⟩ := q.nack_cases seq <;> rw [heq]
  exact (filter_ne_of_not_mem _ (mt mem_map.mp hnot)).symm

theorem nack_ready (h : q.Tracks enqueued acked) (he : e ∈ q.inflight) :
    (q.nack e.seq).2.ready = e :: q.ready := by
  rw [nack, find?_key QueueEntry.seq h.nodup_inflight he]

theorem subset_nack_ready (q : Queue) (seq : ℕ) : q.ready ⊆ (q.nack seq).2.ready := by
  obtain ⟨e, -, -, heq⟩ | ⟨-, heq⟩ := q.nack_cases seq <;> rw [heq]
  · exact subset_cons_self e q.ready
  · exact List.Subset.refl _

theorem Tracks.nack (h : q.Tracks enqueued acked) (seq : ℕ) :
    (q.nack seq).2.Tracks enqueued acked := by
  obtain ⟨e, he, rfl, heq⟩ | ⟨-, heq⟩ := q.nack_cases seq <;> rw [heq]
  · refine h.move rfl ?_
    rw [cons_append]
    exact (((h.perm_inflight he).append_right acked).append_left q.ready).trans perm_middle
  · exact h

theorem Tracks.ack (h : q.Tracks enqueued acked) (seq : ℕ) :
    ∃ enqueued acked, (q.ack seq).2.Tracks enqueued acked := by
  by_cases hmem : ∃ e ∈ q.inflight, e.seq = seq
  · obtain ⟨e, he, rfl⟩ := hmem
    exact ⟨enqueued, acked ++ [e], h.ack_of_mem he⟩
  · rw [ack_of_not hmem]
    exact ⟨enqueued, acked, h⟩

end InFlight

section Draining

variable (q : Queue)

def drain (q : Queue) : ℕ → Queue
  | 0 => q
  | n + 1 => q.dequeue.2.drain n

theorem dequeue_fst : q.dequeue.1 = q.ready.head?.map fun e ↦ (e.seq, e.payload) := by
  cases hrdy : q.ready with
  | nil => rw [dequeue_nil hrdy, List.head?_nil, Option.map_none]
  | cons e ready => rw [dequeue_cons hrdy, List.head?_cons, Option.map_some]

theorem ready_dequeue : q.dequeue.2.ready = q.ready.tail := by
  cases hrdy : q.ready with
  | nil => rw [dequeue_nil hrdy, hrdy, tail_nil]
  | cons e ready => rw [dequeue_cons hrdy, tail_cons]

theorem ready_drain (n : ℕ) : (q.drain n).ready = q.ready.drop n := by
  induction n generalizing q with
  | zero => rw [drain, drop_zero]
  | succ n ih => rw [drain, ih, ready_dequeue, drop_tail]

end Draining

theorem depth_eq {enqueued acked : List QueueEntry} (h : q.Tracks enqueued acked) :
    q.depth = enqueued.length - acked.length := by
  have hlen := h.perm.length_eq
  rw [length_append, length_append] at hlen
  rw [depth]
  omega

end Queue

/-! ## Runs -/

inductive QueueOp
  | enqueue (payload : Bytes) (now : ℕ)
  | dequeue
  | ack (seq : ℕ)
  | nack (seq : ℕ)
  /-- Other primitives write to the shared log. -/
  | share (wal : TieredSegmentedLog)

/-- A queue and the log it shares, with what callers have seen: the messages enqueued, under the
number returned, and the numbers acknowledged. -/
structure QueueRun where
  queue : Queue
  wal : TieredSegmentedLog
  enqueued : List QueueEntry
  acked : List ℕ

namespace QueueRun

def start (name : String) (tenant : TenantId) (wal : TieredSegmentedLog) : QueueRun :=
  ⟨⟨name, tenant, [], [], 0⟩, wal, [], []⟩

def perform (r : QueueRun) : QueueOp → QueueRun
  | .enqueue payload now =>
    match r.queue.enqueue r.wal payload now with
    | (.error _, queue, wal) => { r with queue := queue, wal := wal }
    | (.ok seq, queue, wal) =>
      { r with queue := queue, wal := wal, enqueued := r.enqueued ++ [⟨seq, payload⟩] }
  | .dequeue => { r with queue := r.queue.dequeue.2 }
  | .ack seq =>
    { r with
      queue := (r.queue.ack seq).2
      acked := if (r.queue.ack seq).1 then r.acked ++ [seq] else r.acked }
  | .nack seq => { r with queue := (r.queue.nack seq).2 }
  | .share wal => { r with wal := wal }

def run (r : QueueRun) (ops : List QueueOp) : QueueRun := ops.foldl perform r

/-- A message is ready once, in flight or acknowledged, and only one of them, and no other message
has its number. -/
def InOnePlace (r : QueueRun) (e : QueueEntry) : Prop :=
  let ready := r.queue.ready.filter (·.seq == e.seq)
  let inflight := r.queue.inflight.filter (·.seq == e.seq)
  (ready = [e] ∧ inflight = [] ∧ e.seq ∉ r.acked) ∨
    (ready = [] ∧ inflight = [e] ∧ e.seq ∉ r.acked) ∨
    (ready = [] ∧ inflight = [] ∧ e.seq ∈ r.acked)

/-- The queue tracks the messages callers have seen enqueued and acknowledged. -/
def Inv (r : QueueRun) : Prop :=
  ∃ acked, r.queue.Tracks r.enqueued acked ∧ acked.map QueueEntry.seq = r.acked

theorem inv_start (name : String) (tenant : TenantId) (wal : TieredSegmentedLog) :
    (start name tenant wal).Inv :=
  ⟨[], .blank name tenant, rfl⟩

variable {r : QueueRun}

theorem Inv.perform (h : r.Inv) (op : QueueOp) : (r.perform op).Inv := by
  obtain ⟨acked, htr, hack⟩ := h
  cases op with
  | enqueue payload now =>
    rw [QueueRun.perform, Queue.enqueue]
    rcases r.wal.append payload now with ⟨_ | _, wal⟩
    · exact ⟨acked, htr, hack⟩
    · exact ⟨acked, htr.push payload, hack⟩
  | dequeue => exact ⟨acked, htr.dequeue, hack⟩
  | ack seq =>
    by_cases hmem : ∃ e ∈ r.queue.inflight, e.seq = seq
    · obtain ⟨e, he, rfl⟩ := hmem
      refine ⟨acked ++ [e], htr.ack_of_mem he, ?_⟩
      rw [QueueRun.perform, if_pos (Queue.ack_fst_iff.mpr ⟨e, he, rfl⟩), map_append, hack]
      rfl
    · rw [QueueRun.perform, Queue.ack_of_not hmem]
      exact ⟨acked, htr, hack⟩
  | nack seq => exact ⟨acked, htr.nack seq, hack⟩
  | share wal => exact ⟨acked, htr, hack⟩

theorem Inv.run (h : r.Inv) (ops : List QueueOp) : (r.run ops).Inv := by
  induction ops generalizing r with
  | nil => exact h
  | cons op ops ih => exact ih (h.perform op)

theorem Inv.inOnePlace (h : r.Inv) {e : QueueEntry} (he : e ∈ r.enqueued) : r.InOnePlace e := by
  obtain ⟨acked, htr, hack⟩ := h
  rw [InOnePlace, ← hack]
  exact (htr.inOnePlace he).imp And.right (Or.imp_left And.right)

/-- **Queue conservation.** -/
theorem conserved (name : String) (tenant : TenantId) (wal : TieredSegmentedLog)
    (ops : List QueueOp) :
    (((start name tenant wal).run ops).enqueued.map QueueEntry.seq).Nodup ∧
      (∀ e ∈ ((start name tenant wal).run ops).enqueued,
        ((start name tenant wal).run ops).InOnePlace e) ∧
      (∀ seq, (((start name tenant wal).run ops).queue.ack seq).1 = true ↔
        ∃ e ∈ ((start name tenant wal).run ops).queue.inflight, e.seq = seq) ∧
      (∀ seq, (((start name tenant wal).run ops).queue.nack seq).1 = true ↔
        ∃ e ∈ ((start name tenant wal).run ops).queue.inflight, e.seq = seq) ∧
      ((start name tenant wal).run ops).queue.depth =
        ((start name tenant wal).run ops).enqueued.length -
          ((start name tenant wal).run ops).acked.length := by
  have hinv := (inv_start name tenant wal).run ops
  generalize (start name tenant wal).run ops = r at hinv ⊢
  refine ⟨?_, fun e he ↦ hinv.inOnePlace he, fun _ ↦ Queue.ack_fst_iff,
    fun _ ↦ Queue.nack_fst_iff, ?_⟩
  · obtain ⟨acked, htracks, -⟩ := hinv
    exact htracks.nodup
  · obtain ⟨acked, htracks, hacked⟩ := hinv
    rw [← hacked, length_map]
    exact Queue.depth_eq htracks

end QueueRun

end Synapse
