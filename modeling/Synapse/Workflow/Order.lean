import Synapse.Engine.Order
import Synapse.Workflow.Leases

/-!
# The order of deliveries

A routed queue returns a task to its core queue when a worker fails it or when its lease runs out. A
sweep returns all tasks whose lease has run out, one after the other, in the order in which the hash
map yields them. Each goes to the front, so afterwards the core queue is in order exactly if the
numbers came in descending order, below those of the tasks that were ready (`ordered_sweep`). With
two tasks the sweep may as well yield the earlier one first (`redelivered_out_of_order`).

`smallest_first_iff` puts this together with what `Engine.Order` says about the queue itself.
-/

namespace Synapse.Workflow

open Transition List Option

/-! ## Sweeping -/

variable {order : List ℕ}

namespace TaskQueue

variable {q : Queue} {enqueued acked : List QueueEntry}

/-- The tasks are returned from the last to the first, and come before all that are ready. -/
def Descends (q : Queue) (order : List ℕ) : Prop :=
  order.Pairwise (· > ·) ∧ ∀ seq ∈ order, ∀ e ∈ q.ready, seq < e.seq

theorem ordered_sweep (tq : TaskQueue) (h : q.Tracks enqueued acked) (hnd : order.Nodup)
    (hmem : ∀ seq ∈ order, ∃ e ∈ q.inflight, e.seq = seq) :
    (tq.sweep q order).2.Ordered ↔ q.Ordered ∧ Descends q order := by
  induction order generalizing tq q with
  | nil =>
    rw [sweep, Descends, and_iff_left]
    exact ⟨.nil, forall_mem_nil _⟩
  | cons seq rest ih =>
    obtain ⟨e, he, rfl⟩ := hmem seq mem_cons_self
    rw [nodup_cons] at hnd
    have hrest : ∀ seq ∈ rest, ∃ e' ∈ (q.nack e.seq).2.inflight, e'.seq = seq := by
      intro seq hseq
      obtain ⟨e', he', rfl⟩ := hmem seq (mem_cons_of_mem _ hseq)
      refine ⟨e', ?_, rfl⟩
      rw [Queue.nack_inflight, mem_filter, bne_iff_ne]
      exact ⟨he', fun heq ↦ hnd.1 (heq ▸ hseq)⟩
    have hfnd : (q.nack e.seq).1 = true := Queue.nack_fst_iff.mpr ⟨e, he, rfl⟩
    rw [sweep, ih _ (h.nack e.seq) hnd.2 hrest, h.ordered_nack, Queue.InFront,
      imp_iff_right hfnd, Descends, Descends, Queue.nack_ready h he, pairwise_cons]
    simp only [forall_mem_cons]
    constructor
    · rintro ⟨⟨hord, hfst⟩, hdesc, hbelow⟩
      exact ⟨hord, ⟨fun seq hseq ↦ (hbelow seq hseq).1, hdesc⟩, hfst,
        fun seq hseq ↦ (hbelow seq hseq).2⟩
    · rintro ⟨hord, ⟨hless, hdesc⟩, hfst, hbelow⟩
      exact ⟨⟨hord, hfst⟩, hdesc, fun seq hseq ↦ ⟨hless seq hseq, hbelow seq hseq⟩⟩

end TaskQueue

/-! ## Runs -/

inductive TaskOp
  | enqueue (payload : Bytes) (wall : ℕ)
  | setVisibility (d : ℕ)
  | dispatch (token : Bytes) (now : ℕ)
  | ack (token : Bytes)
  | nack (token : Bytes)
  /-- A sweep, with the order in which the hash map yields the expired leases. -/
  | sweep (now : ℕ) (order : List ℕ)
  /-- Other primitives write to the shared log. -/
  | share (wal : TieredSegmentedLog)

structure TaskRun where
  tq : TaskQueue
  queue : Queue
  wal : TieredSegmentedLog

namespace TaskRun

def start (name : String) (tenant : TenantId) (wal : TieredSegmentedLog) (inner visibility : ℕ) :
    TaskRun :=
  ⟨.new inner visibility, ⟨name, tenant, [], [], 0⟩, wal⟩

def step (s : TaskRun) : TaskOp → Option TaskRun
  | .enqueue payload wall =>
    let (_, queue, wal) := s.queue.enqueue s.wal payload wall
    some { s with queue := queue, wal := wal }
  | .setVisibility d => some { s with tq := s.tq.setVisibility d }
  | .dispatch token now =>
    let (_, tq, queue) := s.tq.dispatch s.queue token now
    some { s with tq := tq, queue := queue }
  | .ack token =>
    let (_, tq, queue) := s.tq.ack s.queue token
    some { s with tq := tq, queue := queue }
  | .nack token =>
    let (_, tq, queue) := s.tq.nack s.queue token
    some { s with tq := tq, queue := queue }
  | .sweep now order =>
    if order.Perm (s.tq.expired now) then
      let (tq, queue) := s.tq.sweep s.queue order
      some { s with tq := tq, queue := queue }
    else none
  | .share wal => some { s with wal := wal }

/-- A task that is delivered is the ready one with the smallest number. -/
def LeastFirst (s : TaskRun) : TaskOp → Prop
  | .dispatch _ _ => s.queue.LeastFirst
  | _ => True

def InFront (s : TaskRun) : TaskOp → Prop
  | .nack token => ∀ seq, s.tq.seqForToken token = some seq → s.queue.InFront seq
  | .sweep _ order => TaskQueue.Descends s.queue order
  | _ => True

structure Inv (s : TaskRun) : Prop where
  tracks : ∃ enqueued acked, s.queue.Tracks enqueued acked
  leased : (s.tq.inflight.map Inflight.seq).Perm (s.queue.inflight.map QueueEntry.seq)

variable {s s' : TaskRun}

theorem step_enqueue (h : s.Inv) (payload : Bytes) (wall : ℕ)
    (hstep : s.step (.enqueue payload wall) = some s') :
    s'.Inv ∧ (s'.queue.Ordered ↔ s.queue.Ordered) := by
  obtain ⟨⟨enqueued, acked, htr⟩, hlsd⟩ := h
  rw [step, Queue.enqueue] at hstep
  generalize s.wal.append payload wall = appended at hstep
  obtain ⟨_ | _, wal⟩ := appended <;> cases hstep
  · exact ⟨⟨⟨_, _, htr⟩, hlsd⟩, Iff.rfl⟩
  · exact ⟨⟨⟨_, _, htr.push payload⟩, hlsd⟩, htr.ordered_push payload⟩

variable {token : Bytes} {now : ℕ}

theorem step_dispatch (h : s.Inv) (hlst : s.queue.LeastFirst)
    (hstep : s.step (.dispatch token now) = some s') :
    s'.Inv ∧ (s'.queue.Ordered ↔ s.queue.Ordered) := by
  obtain ⟨⟨enqueued, acked, htr⟩, hlsd⟩ := h
  have hord := htr.ordered_dequeue hlst
  have htr' := htr.dequeue
  rw [step] at hstep
  rcases hrdy : s.queue.ready with _ | ⟨e, ready⟩
  · rw [TaskQueue.dispatch_nil hrdy] at hstep
    cases hstep
    exact ⟨⟨⟨_, _, htr⟩, hlsd⟩, Iff.rfl⟩
  rw [Queue.dequeue_cons hrdy] at hord htr'
  rw [TaskQueue.dispatch_cons hrdy] at hstep
  cases hstep
  exact ⟨⟨⟨_, _, htr'⟩, (TaskQueue.perm_filter_seq hlsd (· != e.seq)).cons e.seq⟩, hord⟩

theorem step_ack (h : s.Inv) (hstep : s.step (.ack token) = some s') :
    s'.Inv ∧ (s'.queue.Ordered ↔ s.queue.Ordered) := by
  obtain ⟨⟨enqueued, acked, htr⟩, hlsd⟩ := h
  rw [step, TaskQueue.ack] at hstep
  generalize s.tq.seqForToken token = found at hstep
  obtain _ | seq := found <;> cases hstep
  · exact ⟨⟨⟨_, _, htr⟩, hlsd⟩, Iff.rfl⟩
  · exact ⟨⟨htr.ack seq, TaskQueue.perm_filter_seq hlsd (· != seq)⟩, Iff.rfl⟩

theorem step_nack (h : s.Inv) (hstep : s.step (.nack token) = some s') :
    s'.Inv ∧ (s'.queue.Ordered ↔ s.queue.Ordered ∧ s.InFront (.nack token)) := by
  obtain ⟨⟨enqueued, acked, htr⟩, hlsd⟩ := h
  rw [step, TaskQueue.nack] at hstep
  rw [InFront]
  generalize s.tq.seqForToken token = found at hstep ⊢
  obtain _ | seq := found <;> cases hstep
  · exact ⟨⟨⟨_, _, htr⟩, hlsd⟩, (and_iff_left (by rintro _ ⟨⟩)).symm⟩
  refine ⟨⟨⟨_, _, htr.nack seq⟩, ?_⟩, ?_⟩
  · change (List.map _ (s.tq.inflight.filter (·.seq != seq))).Perm
      (List.map _ (s.queue.nack seq).2.inflight)
    rw [Queue.nack_inflight]
    exact TaskQueue.perm_filter_seq hlsd (· != seq)
  · change (s.queue.nack seq).2.Ordered ↔ _
    rw [htr.ordered_nack]
    exact and_congr_right fun _ ↦ ⟨by rintro hfrt _ ⟨⟩; exact hfrt, fun hall ↦ hall seq rfl⟩

/-- The leases that have run out are for different messages, which are in flight. -/
theorem step_sweep (h : s.Inv) (hstep : s.step (.sweep now order) = some s') :
    s'.Inv ∧ (s'.queue.Ordered ↔ s.queue.Ordered ∧ s.InFront (.sweep now order)) := by
  obtain ⟨⟨enqueued, acked, htr⟩, hlsd⟩ := h
  rw [step] at hstep
  split_ifs at hstep with hperm
  cases hstep
  have hsub : List.Sublist (s.tq.expired now) (s.tq.inflight.map Inflight.seq) :=
    filter_sublist.map _
  have hnd : order.Nodup :=
    hperm.nodup_iff.mpr ((hlsd.nodup_iff.mpr htr.nodup_inflight).sublist hsub)
  have hmem : ∀ seq ∈ order, ∃ e ∈ s.queue.inflight, e.seq = seq := fun seq hseq ↦
    mem_map.mp (hlsd.mem_iff.mp (hsub.mem (hperm.mem_iff.mp hseq)))
  refine ⟨⟨⟨_, _, TaskQueue.tracks_sweep s.tq htr order⟩, ?_⟩,
    TaskQueue.ordered_sweep s.tq htr hnd hmem⟩
  change (List.map _ (s.tq.sweep s.queue order).1.inflight).Perm
    (List.map _ (s.tq.sweep s.queue order).2.inflight)
  rw [TaskQueue.sweep_inflight, TaskQueue.sweep_queue_inflight]
  exact TaskQueue.perm_filter_seq hlsd fun seq ↦ decide (seq ∉ order)

/-- What each operation does to the order. -/
theorem ordered_step (h : s.Inv) {op : TaskOp} (hlst : s.LeastFirst op)
    (hstep : s.step op = some s') :
    s'.Inv ∧ (s'.queue.Ordered ↔ s.queue.Ordered ∧ s.InFront op) := by
  have hkept : s'.Inv ∧ (s'.queue.Ordered ↔ s.queue.Ordered) → s.InFront op →
      s'.Inv ∧ (s'.queue.Ordered ↔ s.queue.Ordered ∧ s.InFront op) :=
    fun hsame hfrt ↦ ⟨hsame.1, hsame.2.trans (and_iff_left hfrt).symm⟩
  rcases op with ⟨payload, wall⟩ | d | ⟨token, now⟩ | token | token | ⟨now, order⟩ | wal
  · exact hkept (step_enqueue h payload wall hstep) trivial
  · cases hstep
    exact hkept ⟨⟨h.tracks, h.leased⟩, Iff.rfl⟩ trivial
  · exact hkept (step_dispatch h hlst hstep) trivial
  · exact hkept (step_ack h hstep) trivial
  · exact step_nack h hstep
  · exact step_sweep h hstep
  · cases hstep
    exact hkept ⟨⟨h.tracks, h.leased⟩, Iff.rfl⟩ trivial

def polls (calls : List (Bytes × ℕ)) : List TaskOp := calls.map fun c ↦ .dispatch c.1 c.2

theorem exists_polls_iff (s : TaskRun) (calls : List (Bytes × ℕ)) :
    (∃ s', Steps step LeastFirst s (polls calls) s') ↔
      ∀ k < calls.length, (s.queue.drain k).LeastFirst := by
  induction calls generalizing s with
  | nil => exact ⟨fun _ _ hk ↦ absurd hk (Nat.not_lt_zero _), fun _ ↦ ⟨s, .nil s⟩⟩
  | cons c calls ih =>
    obtain ⟨s₁, hstep, hq⟩ : ∃ s₁, s.step (.dispatch c.1 c.2) = some s₁ ∧
        s₁.queue = s.queue.dequeue.2 :=
      ⟨_, rfl, TaskQueue.dispatch_queue s.tq s.queue c.1 c.2⟩
    rw [polls, map_cons, ← polls]
    constructor
    · rintro ⟨s', _ | ⟨hlst, hstep', hrest⟩⟩ k hk
      cases hstep.symm.trans hstep'
      rcases k with _ | k
      · exact hlst
      · have hlat := (ih s₁).mp ⟨s', hrest⟩ k (Nat.lt_of_succ_lt_succ hk)
        rwa [hq] at hlat
    · intro hlst
      obtain ⟨s', hrest⟩ := (ih s₁).mpr fun k hk ↦ by
        rw [hq]
        exact hlst (k + 1) (Nat.succ_lt_succ hk)
      exact ⟨s', .cons (hlst 0 (Nat.succ_pos _)) hstep hrest⟩

theorem leastFirst_iff (name : String) (tenant : TenantId) (wal : TieredSegmentedLog)
    (inner visibility : ℕ) (ops : List TaskOp) :
    (∀ calls, ∃ s, Steps step LeastFirst (start name tenant wal inner visibility)
        (ops ++ polls calls) s) ↔
      ∃ s, Steps step InFront (start name tenant wal inner visibility) ops s := by
  have hstart : (start name tenant wal inner visibility).Inv :=
    ⟨⟨[], [], .blank name tenant⟩, .nil⟩
  refine steps_probe_iff Inv (·.queue.Ordered) polls ?_ ?_ ?_ hstart .nil ops
  · exact fun s op s' h hlst hstep ↦ ordered_step h hlst hstep
  · intro s op _ hord
    rcases op with _ | _ | _ | _ | _ | _ | _
    · trivial
    · trivial
    · exact hord.leastFirst
    · trivial
    · trivial
    · trivial
    · trivial
  · rintro s ⟨⟨enqueued, acked, htr⟩, -⟩
    simp only [exists_polls_iff]
    constructor
    · intro hlst
      refine htr.ordered_of_drain fun n ↦ hlst (.replicate (n + 1) ([], 0)) n ?_
      rw [length_replicate]
      exact Nat.lt_succ_self n
    · exact fun hord _ k _ ↦ (hord.drain k).leastFirst

end TaskRun

/-- **Order of delivery.** However often a queue is dequeued after a run, each dequeue returns the
ready message with the smallest number, exactly if each message that was returned came before all
that were ready. For a routed queue the same holds of its deliveries; of the tasks a sweep returns,
the later have to be returned before the earlier. -/
theorem smallest_first_iff (name : String) (tenant : TenantId) (wal : TieredSegmentedLog) :
    (∀ ops, (∀ n, ∃ r, Steps QueueRun.step QueueRun.LeastFirst (.start name tenant wal)
          (ops ++ .replicate n .dequeue) r) ↔
        ∃ r, Steps QueueRun.step QueueRun.InFront (.start name tenant wal) ops r) ∧
    ∀ inner visibility ops, (∀ calls, ∃ s, Steps TaskRun.step TaskRun.LeastFirst
          (.start name tenant wal inner visibility) (ops ++ TaskRun.polls calls) s) ↔
        ∃ s, Steps TaskRun.step TaskRun.InFront (.start name tenant wal inner visibility) ops s :=
  ⟨QueueRun.leastFirst_iff name tenant wal, TaskRun.leastFirst_iff name tenant wal⟩

/-- **Redelivered out of order.** Two messages are returned in the order they were taken: the second
comes first. So it does when a sweep returns the earlier of two tasks first. -/
theorem redelivered_out_of_order : (∃ r, Steps QueueRun.step (fun _ _ ↦ True)
        (.start "q" ⟨"acme", by decide, by decide⟩ (.new (.new 64) .empty))
        [.enqueue [1] 0, .enqueue [2] 0, .dequeue, .dequeue, .nack 0, .nack 1] r ∧
      r.queue.ready = [⟨1, [2]⟩, ⟨0, [1]⟩] ∧ r.queue.dequeue.1 = some (1, [2])) ∧
    ∃ s, Steps TaskRun.step (fun _ _ ↦ True)
        (.start "q" ⟨"acme", by decide, by decide⟩ (.new (.new 64) .empty) 0 5)
        [.enqueue [1] 0, .enqueue [2] 0, .dispatch [10] 0, .dispatch [11] 0, .sweep 9 [0, 1]] s ∧
      s.queue.ready = [⟨1, [2]⟩, ⟨0, [1]⟩] ∧
      (s.tq.dispatch s.queue [12] 9).1 = some ⟨[12], [2], 2⟩ := by
  constructor
  · exact exists_steps_of_isSome (by decide +kernel) fun _ ↦ by decide +kernel
  · exact exists_steps_of_isSome (by decide +kernel) fun _ ↦ by decide +kernel

end Synapse.Workflow
