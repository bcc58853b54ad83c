import Synapse.Workflow.Dispatch

/-!
# Leases and the core queue

A routed queue keeps its leases in a table of its own, next to the in-flight messages of the core
queue. `TaskQueue.Leases` says that the two agree: there is one lease for each message in flight,
and no two leases have the same token. The methods of the routed queue keep this, and what the core
queue does with the messages is described by `Queue.Tracks`.
-/

namespace Synapse

open Keyed List

namespace Workflow.TaskQueue

variable {tq : TaskQueue} {q : Queue} {enqueued acked : List QueueEntry}

/-- One lease for each message in flight, and one token for each lease. -/
structure Leases (tq : TaskQueue) (q : Queue) : Prop where
  perm : (tq.inflight.map Inflight.seq).Perm (q.inflight.map QueueEntry.seq)
  tokens : (tq.inflight.map Inflight.token).Nodup

variable {token : Bytes} {seq : ℕ}

theorem exists_lease_of_seqForToken (h : tq.seqForToken token = some seq) :
    ∃ lease ∈ tq.inflight, lease.token = token ∧ lease.seq = seq := by
  obtain ⟨lease, hfind, hseq⟩ := Option.map_eq_some_iff.mp h
  have htok := List.find?_some hfind
  exact ⟨lease, mem_of_find?_eq_some hfind, decide_eq_true_iff.mp htok, hseq⟩

theorem seqForToken_eq_some (h : tq.Leases q) : tq.seqForToken token = some seq ↔
      ∃ lease ∈ tq.inflight, lease.token = token ∧ lease.seq = seq := by
  constructor
  · exact exists_lease_of_seqForToken
  · rintro ⟨lease, hls, rfl, hseq⟩
    rw [seqForToken, Option.map_eq_some_iff]
    exact ⟨lease, find?_key Inflight.token h.tokens hls, hseq⟩

theorem seqForToken_eq_none :
    tq.seqForToken token = none ↔ ∀ lease ∈ tq.inflight, lease.token ≠ token := by
  rw [seqForToken, Option.map_eq_none_iff, List.find?_eq_none]
  simp only [decide_eq_true_eq, ne_eq]

theorem perm_filter_seq {leases : List Inflight} {messages : List QueueEntry}
    (h : (leases.map Inflight.seq).Perm (messages.map QueueEntry.seq)) (p : ℕ → Bool) :
    ((leases.filter fun lease ↦ p lease.seq).map Inflight.seq).Perm
      ((messages.filter fun e ↦ p e.seq).map QueueEntry.seq) := by
  have hperm := h.filter p
  rwa [filter_map, filter_map] at hperm

namespace Leases

variable (h : tq.Leases q) {tq' : TaskQueue} {q' : Queue} {lease lease' : Inflight}

include h

theorem congr (hinf : tq'.inflight = tq.inflight) (hq : q'.inflight = q.inflight) :
    tq'.Leases q' where
  perm := by
    rw [hinf, hq]
    exact h.perm
  tokens := by
    rw [hinf]
    exact h.tokens

theorem exists_entry (hls : lease ∈ tq.inflight) : ∃ e ∈ q.inflight, e.seq = lease.seq :=
  mem_map.mp (h.perm.mem_iff.mp (mem_map_of_mem hls))

theorem eq_of_seq (htr : q.Tracks enqueued acked) (hls : lease ∈ tq.inflight)
    (hls' : lease' ∈ tq.inflight) (hseq : lease.seq = lease'.seq) : lease = lease' :=
  inj_on_of_nodup_map (h.perm.nodup_iff.mpr htr.nodup_inflight) hls hls' hseq

theorem eq_of_token (hls : lease ∈ tq.inflight) (hls' : lease' ∈ tq.inflight)
    (htok : lease.token = lease'.token) : lease = lease' :=
  inj_on_of_nodup_map h.tokens hls hls' htok

theorem dispatch (htr : q.Tracks enqueued acked) {e : QueueEntry}
    {ready : List QueueEntry} (hrdy : q.ready = e :: ready)
    (hfr : ∀ lease ∈ tq.inflight, lease.token ≠ token) (now : ℕ) :
    (tq.dispatch q token now).2.1.Leases (tq.dispatch q token now).2.2 := by
  have hnew := htr.head_notMem hrdy
  have hls : tq.inflight.filter (·.seq != e.seq) = tq.inflight :=
    Keyed.filter_ne_of_not_mem _ fun hmem ↦ hnew (h.perm.mem_iff.mp hmem)
  rw [dispatch_cons hrdy, hls, htr.filter_head hrdy]
  constructor
  · exact h.perm.cons e.seq
  · refine nodup_cons.mpr ⟨?_, h.tokens⟩
    intro hmem
    obtain ⟨lease, hls, heq⟩ := mem_map.mp hmem
    exact hfr lease hls heq

theorem filter (p : ℕ → Bool) (htq' : tq'.inflight = tq.inflight.filter fun lease ↦ p lease.seq)
    (hq' : q'.inflight = q.inflight.filter fun e ↦ p e.seq) : tq'.Leases q' where
  perm := by
    rw [htq', hq']
    exact perm_filter_seq h.perm p
  tokens := by
    rw [htq']
    exact h.tokens.sublist ((filter_sublist).map _)

end Leases

/-! ## Sweeping -/

section

variable (tq : TaskQueue) (q : Queue) (order : List ℕ)

theorem sweep_inflight :
    (tq.sweep q order).1.inflight = tq.inflight.filter fun lease ↦ decide (lease.seq ∉ order) := by
  induction order generalizing tq q with
  | nil => simp [sweep]
  | cons seq rest ih =>
    rw [sweep, ih, removeInflight, filter_filter]
    congr 1
    funext lease
    by_cases hseq : lease.seq = seq <;> simp [hseq]

theorem sweep_queue_inflight :
    (tq.sweep q order).2.inflight = q.inflight.filter fun e ↦ decide (e.seq ∉ order) := by
  induction order generalizing tq q with
  | nil => simp [sweep]
  | cons seq rest ih =>
    rw [sweep, ih, Queue.nack_inflight, filter_filter]
    congr 1
    funext e
    by_cases hseq : e.seq = seq <;> simp [hseq]

theorem sweep_attempts : (tq.sweep q order).1.attempts = tq.attempts := by
  induction order generalizing tq q with
  | nil => rfl
  | cons seq rest ih => rw [sweep, ih, removeInflight]

theorem sweep_inner : (tq.sweep q order).1.inner = tq.inner := by
  induction order generalizing tq q with
  | nil => rfl
  | cons seq rest ih => rw [sweep, ih, removeInflight]

end

theorem Leases.sweep (h : tq.Leases q) (order : List ℕ) :
    (tq.sweep q order).1.Leases (tq.sweep q order).2 :=
  h.filter (fun seq ↦ decide (seq ∉ order)) (sweep_inflight tq q order)
    (sweep_queue_inflight tq q order)

theorem tracks_sweep (tq : TaskQueue) (h : q.Tracks enqueued acked) (order : List ℕ) :
    (tq.sweep q order).2.Tracks enqueued acked := by
  induction order generalizing tq q with
  | nil => exact h
  | cons seq rest ih => exact ih (tq.removeInflight seq) (h.nack seq)

theorem subset_sweep_ready (tq : TaskQueue) (q : Queue) (order : List ℕ) :
    q.ready ⊆ (tq.sweep q order).2.ready := by
  induction order generalizing tq q with
  | nil => exact List.Subset.refl _
  | cons seq rest ih =>
    exact List.Subset.trans (q.subset_nack_ready seq) (ih (tq.removeInflight seq) (q.nack seq).2)

/-- A message that is swept becomes ready. -/
theorem mem_sweep_ready (tq : TaskQueue) (h : q.Tracks enqueued acked) {order : List ℕ}
    {e : QueueEntry} (he : e ∈ q.inflight) (hseq : e.seq ∈ order) :
    e ∈ (tq.sweep q order).2.ready := by
  induction order generalizing tq q with
  | nil => cases hseq
  | cons seq rest ih =>
    by_cases heq : e.seq = seq
    · refine subset_sweep_ready (tq.removeInflight seq) (q.nack seq).2 rest ?_
      rw [← heq, Queue.nack_ready h he]
      exact mem_cons_self
    · refine ih (tq.removeInflight seq) (h.nack seq) ?_ ((mem_cons.mp hseq).resolve_left heq)
      rw [Queue.nack_inflight, mem_filter, bne_iff_ne]
      exact ⟨he, heq⟩

end Workflow.TaskQueue

end Synapse
