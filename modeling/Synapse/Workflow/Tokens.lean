import Mathlib.Data.Set.Card
import Synapse.Lib.Run
import Synapse.Workflow.Leases
import Synapse.Workflow.Routing

/-!
# The index of tokens

The manager enters each token it hands out in an index, so that a response finds the routed queue,
and takes it out when the response is accepted. A sweep knows nothing of the index: it drops the
leases that have run out, and their tokens stay (`swept_token_stays`), one for every delivery that
is not responded to in time. `indexed_iff` is about any operations on any routed queues: the tokens
of the index are those of the tasks in flight exactly if no sweep has found such a lease.

`Owned` and `Indexed` speak of the leases of all routed queues and of the index, and there is one
lemma for each change of these two tables. `Sound` ties the leases to the messages of the core
queues.
-/

namespace Synapse.Workflow

open Transition Function Option
open List hiding lookup

/-! ## Leases and index -/

/-- Leases are for different tasks, under different tokens, which the index knows. -/
structure Owned (leases : String → List Inflight) (index : Bytes → Option String) : Prop where
  seqs : ∀ key, ∀ l ∈ leases key, ∀ l' ∈ leases key, l.seq = l'.seq → l = l'
  tokens : ∀ key, ∀ l ∈ leases key, ∀ l' ∈ leases key, l.token = l'.token → l = l'
  indexed : ∀ key, ∀ l ∈ leases key, index l.token = some key

/-- Every token of the index is that of a lease. -/
def Indexed (leases : String → List Inflight) (index : Bytes → Option String) : Prop :=
  ∀ token key, index token = some key → ∃ l ∈ leases key, l.token = token

namespace Owned

variable {leases : String → List Inflight} {index : Bytes → Option String} {key : String}
  (h : Owned leases index)

include h

/-- A new lease, under a token that is not in the index. -/
theorem add (lease : Inflight) (hfree : index lease.token = none)
    (hseq : ∀ l ∈ leases key, l.seq ≠ lease.seq) :
    Owned (update leases key (lease :: leases key)) (update index lease.token (some key)) ∧
      (Indexed (update leases key (lease :: leases key)) (update index lease.token (some key)) ↔
        Indexed leases index) := by
  obtain ⟨hseqs, htoks, hidx⟩ := h
  refine ⟨⟨?_, ?_, ?_⟩, ?_, ?_⟩ <;> simp only [Indexed, update_apply] <;> grind

/-- A lease is dropped, and its token taken out of the index. -/
theorem drop {lease : Inflight} (hls : lease ∈ leases key) :
    Owned (update leases key ((leases key).filter (·.seq != lease.seq)))
        (update index lease.token none) ∧
      (Indexed (update leases key ((leases key).filter (·.seq != lease.seq)))
        (update index lease.token none) ↔ Indexed leases index) := by
  obtain ⟨hseqs, htoks, hidx⟩ := h
  refine ⟨⟨?_, ?_, ?_⟩, ?_, ?_⟩ <;> simp only [Indexed, update_apply] <;> grind

/-- Leases are dropped without the index: their tokens stay there, and no other lease has them. -/
theorem expire (key : String) (p : Inflight → Bool) :
    Owned (update leases key ((leases key).filter p)) index ∧
      (Indexed (update leases key ((leases key).filter p)) index ↔
        Indexed leases index ∧ ∀ l ∈ leases key, p l) := by
  obtain ⟨hseqs, htoks, hidx⟩ := h
  refine ⟨⟨?_, ?_, ?_⟩, ?_, ?_⟩ <;> simp only [Indexed, update_apply] <;> grind

end Owned

/-! ## Runs of the manager -/

inductive ManagerOp
  | addTask (tenant taskQueue : String) (taskType : Option String) (payload : Bytes)
      (visibility : Option ℕ) (wall : ℕ)
  | take (key : String) (token : Bytes) (now : ℕ)
  | respond (token : Bytes) (failed : Bool) (now later : ℕ)
  /-- The sweeper visits the expired leases of a routed queue in this order. -/
  | sweep (key : String) (now : ℕ) (order : List ℕ)
deriving DecidableEq, Repr

namespace TaskQueueManager

def leases (m : TaskQueueManager) (key : String) : List Inflight :=
  (m.queues key).elim [] (·.tq.inflight)

def expired (m : TaskQueueManager) (key : String) (now : ℕ) : List Inflight :=
  (m.leases key).filter fun lease ↦ lease.expiresAt ≤ now

def step (m : TaskQueueManager) : ManagerOp → Option TaskQueueManager
  | .addTask tenant taskQueue taskType payload visibility wall =>
    some (m.addTask tenant taskQueue taskType payload visibility wall).2
  | .take key token now => some (m.take key token now).2
  | .respond token failed now later => some (m.respond token failed now later).2
  | .sweep key now order =>
    if order.Perm ((m.expired key now).map Inflight.seq) then some (m.sweep key order) else none

/-- A new token is not in the index. -/
def Fresh (m : TaskQueueManager) : ManagerOp → Prop
  | .take _ token _ => m.tokenIndex token = none
  | _ => True

/-- A sweep finds no lease that has run out. -/
def InTime (m : TaskQueueManager) : ManagerOp → Prop
  | .sweep key now _ => m.expired key now = []
  | _ => True

instance (m : TaskQueueManager) (op : ManagerOp) : Decidable (m.Fresh op) := by
  cases op <;> dsimp only [Fresh] <;> infer_instance

instance (m : TaskQueueManager) (op : ManagerOp) : Decidable (m.InTime op) := by
  cases op <;> dsimp only [InTime] <;> infer_instance

/-- Core queues have been used by their own methods only, and leases are for messages in flight. -/
structure Sound (m : TaskQueueManager) : Prop where
  bound : m.Bound
  tracked : ∀ id q, m.core.queues.object id = some q → ∃ enqueued acked, q.Tracks enqueued acked
  backed : ∀ key rq q, m.lookup key = some (rq, q) →
    ∀ lease ∈ rq.tq.inflight, ∃ e ∈ q.inflight, e.seq = lease.seq

variable {m m' : TaskQueueManager} {key : String} {rq : RoutedQueue} {q q' : Queue} {tq : TaskQueue}

theorem leases_of_lookup (h : m.lookup key = some (rq, q)) : m.leases key = rq.tq.inflight := by
  rw [leases, (lookup_eq_some.mp h).1]
  rfl

theorem leases_store (tq : TaskQueue) (q : Queue) :
    (m.store key rq tq q).leases = update m.leases key tq.inflight := by
  funext k
  rw [leases, queues_store, update_apply]
  split_ifs <;> rfl

/-- Another routed queue is as before if its core queue is. -/
theorem lookup_congr {k : String} (hqueues : m'.queues k = m.queues k)
    (hobj : ∀ id, m.inners k = some id → m'.core.queues.object id = m.core.queues.object id) :
    m'.lookup k = m.lookup k := by
  rw [lookup, lookup, hqueues]
  cases hrq : m.queues k with
  | none => rfl
  | some rq =>
    change (m'.core.queues.object rq.tq.inner).bind _ = (m.core.queues.object rq.tq.inner).bind _
    rw [hobj _ (by rw [inners, hrq, map_some])]

namespace Sound

variable (h : m.Sound)

include h

theorem congr (hcore : m'.core.queues = m.core.queues) (hqueues : m'.queues = m.queues) :
    m'.Sound := by
  have hlook : m'.lookup = m.lookup := by
    funext key
    rw [lookup, lookup, hcore, hqueues]
  refine ⟨h.bound.of_eq ?_ (by rw [hcore]), hcore ▸ h.tracked, hlook ▸ h.backed⟩
  funext key
  rw [inners, inners, hqueues]

theorem store (hlook : m.lookup key = some (rq, q)) (htq : tq.inner = rq.tq.inner)
    (htr : ∃ enqueued acked, q'.Tracks enqueued acked)
    (hbacked : ∀ lease ∈ tq.inflight, ∃ e ∈ q'.inflight, e.seq = lease.seq) :
    (m.store key rq tq q').Sound := by
  obtain ⟨hrq, hq⟩ := lookup_eq_some.mp hlook
  have hsame := sameRouting_store hrq htq q'
  refine ⟨h.bound.of_eq hsame.1 hsame.2, fun id q₁ hq₁ ↦ ?_, fun k rq₁ q₁ hl ↦ ?_⟩
  · change (m.core.queues.write rq.tq.inner q').object id = some q₁ at hq₁
    rw [ArcTable.object_write, hq, map_some] at hq₁
    split_ifs at hq₁
    · cases hq₁
      exact htr
    · exact h.tracked id q₁ hq₁
  by_cases hne : k = key
  · rw [hne, lookup_store hlook htq] at hl
    cases hl
    exact hbacked
  · refine h.backed k rq₁ q₁ ((lookup_congr ?_ fun id hid ↦ ?_).symm.trans hl)
    · rw [queues_store, if_neg hne]
    refine (ArcTable.object_write ..).trans (if_neg ?_)
    rintro rfl
    exact hne (h.bound.inners_inj hid (by rw [inners, hrq, map_some]))

/-- A routed queue that has just been created has no leases. -/
theorem getOrCreate (tenant taskQueue : String) (taskType : Option String) :
    (m.getOrCreate tenant taskQueue taskType).2.Sound ∧
      (m.getOrCreate tenant taskQueue taskType).2.leases = m.leases ∧
      (m.getOrCreate tenant taskQueue taskType).2.tokenIndex = m.tokenIndex := by
  have hbound : (m.getOrCreate tenant taskQueue taskType).2.Bound := h.bound.getOrCreate
  obtain ⟨rq, -, heq⟩ | ⟨e, core, -, heq, hqs⟩ | ⟨t, id, core, hnone, -, heq, -, hid⟩ :=
    m.getOrCreate_cases tenant taskQueue taskType rfl
  · rw [heq]
    exact ⟨h, rfl, rfl⟩
  · rw [heq]
    exact ⟨h.congr hqs rfl, rfl, rfl⟩
  rw [heq] at hbound ⊢
  refine ⟨⟨hbound, fun k q hq ↦ ?_, fun k rq q hl ↦ ?_⟩, funext fun k ↦ ?_, rfl⟩
  · change core.queues.object k = some q at hq
    rcases hid with ⟨-, hqs⟩ | ⟨-, -, hqs⟩
    · rw [hqs] at hq
      exact h.tracked k q ((ArcTable.object_modify_count ..).symm.trans hq)
    · rw [hqs, ArcTable.object, ArcTable.push, getElem?_append] at hq
      split_ifs at hq
      · exact h.tracked k q hq
      · obtain ⟨c, hc, rfl⟩ := map_eq_some_iff.mp hq
        rw [mem_singleton.mp (mem_of_getElem? hc)]
        exact ⟨[], [], .blank ..⟩
  · obtain ⟨hrq, hq⟩ := lookup_eq_some.mp hl
    rw [queues_insert] at hrq
    split_ifs at hrq with hk
    · cases hrq
      rintro _ ⟨⟩
    · obtain ⟨t', ht'⟩ := h.bound.entry k rq.tq.inner (by rw [inners, hrq, map_some])
      have hold : core.queues.object rq.tq.inner = m.core.queues.object rq.tq.inner := by
        rcases hid with ⟨-, hqs⟩ | ⟨-, -, hqs⟩
        · rw [hqs]
          exact ArcTable.object_modify_count ..
        · rw [hqs]
          exact ArcTable.object_push_of_lt _ _ _ (m.core.queues.live _ _ ht')
      exact h.backed k rq q (lookup_eq_some.mpr ⟨hrq, hold.symm.trans hq⟩)
  · rw [leases, leases, queues_insert]
    split_ifs with hk
    · rw [hk, hnone]
      rfl
    · rfl

end Sound

def Inv (m : TaskQueueManager) : Prop := m.Sound ∧ Owned m.leases m.tokenIndex

theorem Sound.inv (h : m'.Sound) {leases : String → List Inflight} {index : Bytes → Option String}
    {p : Prop} (hchange : Owned leases index ∧ (Indexed leases index ↔ p))
    (hleases : m'.leases = leases) (hindex : m'.tokenIndex = index) :
    m'.Inv ∧ (Indexed m'.leases m'.tokenIndex ↔ p) := by
  subst hleases hindex
  exact ⟨⟨h, hchange.1⟩, hchange.2⟩

theorem Inv.store (h : m.Inv) (hlook : m.lookup key = some (rq, q)) (htq : tq.inner = rq.tq.inner)
    (hleases : tq.inflight = rq.tq.inflight) (htr : ∃ enqueued acked, q'.Tracks enqueued acked)
    (hq : q'.inflight = q.inflight) : (m.store key rq tq q').Inv ∧
      (m.store key rq tq q').leases = m.leases := by
  have hsame : (m.store key rq tq q').leases = m.leases := by
    rw [leases_store, hleases, ← leases_of_lookup hlook, update_eq_self]
  refine ⟨⟨h.1.store hlook htq htr ?_, hsame ▸ h.2⟩, hsame⟩
  rw [hleases, hq]
  exact h.1.backed key rq q hlook

theorem Inv.addTask (h : m.Inv) (tenant taskQueue : String) (taskType : Option String)
    (payload : Bytes) (visibility : Option ℕ) (wall : ℕ) :
    (m.addTask tenant taskQueue taskType payload visibility wall).2.Inv ∧
      (m.addTask tenant taskQueue taskType payload visibility wall).2.leases = m.leases ∧
      (m.addTask tenant taskQueue taskType payload visibility wall).2.tokenIndex =
        m.tokenIndex := by
  rw [TaskQueueManager.addTask]
  split_ifs
  · exact ⟨h, rfl, rfl⟩
  obtain ⟨hsound, hleases, hindex⟩ := h.1.getOrCreate tenant taskQueue taskType
  generalize m.getOrCreate tenant taskQueue taskType = made at hsound hleases hindex
  obtain ⟨e | key, m₁⟩ := made
  · exact ⟨⟨hsound, hleases ▸ hindex ▸ h.2⟩, hleases, hindex⟩
  have hinv : m₁.Inv := ⟨hsound, hleases ▸ hindex ▸ h.2⟩
  dsimp only
  cases hlook : m₁.lookup key with
  | none => exact ⟨hinv, hleases, hindex⟩
  | some found =>
    obtain ⟨rq, q⟩ := found
    obtain ⟨enqueued, acked, htr⟩ := hsound.tracked _ q (lookup_eq_some.mp hlook).2
    have hq : (∃ enqueued acked,
          (q.enqueue m₁.core.wal payload wall).2.1.Tracks enqueued acked) ∧
        (q.enqueue m₁.core.wal payload wall).2.1.inflight = q.inflight := by
      obtain ⟨e, he⟩ | hok := q.enqueue_cases m₁.core.wal payload wall
      · rw [he]
        exact ⟨⟨_, _, htr⟩, rfl⟩
      · rw [hok]
        exact ⟨⟨_, _, htr.push payload⟩, rfl⟩
    obtain ⟨hstored, hsame⟩ := hinv.store hlook (elim_setVisibility_inner rq.tq visibility)
      (by cases visibility <;> rfl) hq.1 hq.2
    exact ⟨⟨hstored.1.congr rfl rfl, hstored.2⟩, hsame.trans hleases, hindex⟩

theorem Inv.take (h : m.Inv) {token : Bytes} (hfree : m.tokenIndex token = none) (key : String)
    (now : ℕ) : (m.take key token now).2.Inv ∧
      (Indexed (m.take key token now).2.leases (m.take key token now).2.tokenIndex ↔
        Indexed m.leases m.tokenIndex) := by
  cases hlook : m.lookup key with
  | none =>
    rw [TaskQueueManager.take, hlook]
    exact ⟨h, .rfl⟩
  | some found =>
    obtain ⟨rq, q⟩ := found
    obtain ⟨enqueued, acked, htr⟩ := h.1.tracked _ q (lookup_eq_some.mp hlook).2
    have hleases := leases_of_lookup hlook
    cases hrdy : q.ready with
    | nil =>
      rw [take_of_ready_nil hlook hrdy]
      obtain ⟨hinv, hsame⟩ := h.store hlook rfl rfl ⟨_, _, htr⟩ rfl
      exact ⟨hinv, hsame ▸ .rfl⟩
    | cons e ready =>
      have hbacked := h.1.backed key rq q hlook
      have hseq : ∀ l ∈ rq.tq.inflight, l.seq ≠ e.seq := by
        intro l hl heq
        obtain ⟨e', he', heq'⟩ := hbacked l hl
        exact htr.head_notMem hrdy (mem_map.mpr ⟨e', he', heq'.trans heq⟩)
      have hkeep : rq.tq.inflight.filter (·.seq != e.seq) = rq.tq.inflight :=
        filter_eq_self.mpr fun l hl ↦ bne_iff_ne.mpr (hseq l hl)
      rw [take_of_ready_cons hlook hrdy, TaskQueue.dispatch_cons hrdy, hkeep, htr.filter_head hrdy]
      have hadd := h.2.add ⟨e.seq, token, now + rq.tq.visibility⟩ hfree (hleases ▸ hseq)
      rw [hleases] at hadd
      refine Sound.inv ?_ hadd (leases_store _ q) rfl
      refine (h.1.store hlook ?_ ⟨enqueued, acked, ?_⟩ ?_).congr rfl rfl
      · rfl
      · rw [← htr.dequeue_snd hrdy]
        exact htr.dequeue
      · refine forall_mem_cons.mpr ⟨⟨e, mem_cons_self, rfl⟩, fun l hl ↦ ?_⟩
        obtain ⟨e', he', heq⟩ := hbacked l hl
        exact ⟨e', mem_cons_of_mem e he', heq⟩

theorem Inv.respond (h : m.Inv) (token : Bytes) (failed : Bool) (now later : ℕ) :
    (m.respond token failed now later).2.Inv ∧
      (Indexed (m.respond token failed now later).2.leases
        (m.respond token failed now later).2.tokenIndex ↔ Indexed m.leases m.tokenIndex) := by
  have hpruned : (m.pruneCompleted now).Inv := ⟨h.1.congr rfl rfl, h.2⟩
  by_cases hmem : remembered m.completed now token = none
  · by_cases hreg : ∀ key, m.tokenIndex token = some key → m.lookup key = none
    · rw [respond_of_not_registered hmem hreg]
      exact ⟨hpruned, .rfl⟩
    push Not at hreg
    obtain ⟨key, hkey, hfound⟩ := hreg
    obtain ⟨⟨rq, q⟩, hlook⟩ := ne_none_iff_exists'.mp hfound
    rw [respond_of_registered hmem hkey hlook]
    obtain ⟨enqueued, acked, htr⟩ := h.1.tracked _ q (lookup_eq_some.mp hlook).2
    cases hseq : rq.tq.seqForToken token with
    | none =>
      -- The lease of this token has been swept: the token stays in the index.
      rw [settle_of_no_lease hseq]
      obtain ⟨hinv, hsame⟩ := hpruned.store hlook rfl rfl ⟨_, _, htr⟩ rfl
      exact ⟨hinv, hsame ▸ .rfl⟩
    | some seq =>
      obtain ⟨lease, hls, rfl, rfl⟩ := TaskQueue.exists_lease_of_seqForToken hseq
      have hbacked := h.1.backed key rq q hlook
      have hdrop := h.2.drop (leases_of_lookup hlook ▸ hls)
      rw [leases_of_lookup hlook] at hdrop
      have hremoved (tq : TaskQueue) {q' : Queue} (htq : tq.inner = rq.tq.inner)
          (hinf : tq.inflight = rq.tq.inflight.filter (·.seq != lease.seq))
          (hinf' : q'.inflight = q.inflight.filter (·.seq != lease.seq))
          (htr' : ∃ enqueued acked, q'.Tracks enqueued acked) :
          ((m.pruneCompleted now).store key rq tq q').Sound := by
        refine hpruned.1.store hlook htq htr' fun l hl ↦ ?_
        rw [hinf, mem_filter] at hl
        obtain ⟨e, he, heq⟩ := hbacked l hl.1
        exact ⟨e, by rw [hinf', mem_filter, heq]; exact ⟨he, hl.2⟩, heq⟩
      cases failed with
      | false =>
        rw [settle_ack hseq]
        have hsound := hremoved ((rq.tq.removeInflight lease.seq).removeAttempts lease.seq) rfl rfl
          rfl (htr.ack _)
        refine Sound.inv ?_ hdrop (leases_store _ q) rfl
        exact hsound.congr rfl rfl
      | true =>
        rw [settle_nack hseq (Queue.nack_fst_iff.mpr (hbacked lease hls))]
        have hsound := hremoved (rq.tq.removeInflight lease.seq) rfl rfl (q.nack_inflight _)
          ⟨_, _, htr.nack _⟩
        refine Sound.inv ?_ hdrop (leases_store _ q) rfl
        exact hsound.congr rfl rfl
  · rw [respond_of_remembered hmem]
    exact ⟨hpruned, .rfl⟩

/-- A routed queue whose core queue is not found has not been created. -/
theorem Sound.leases_eq_nil (h : m.Sound) (hlook : m.lookup key = none) : m.leases key = [] := by
  cases hrq : m.queues key with
  | none => rw [leases, hrq, elim_none]
  | some rq =>
    obtain ⟨t, ht⟩ := h.bound.entry key rq.tq.inner (by rw [inners, hrq, map_some])
    have hcell := getElem?_eq_getElem (m.core.queues.live _ _ ht)
    cases hlook.symm.trans (lookup_eq_some.mpr ⟨hrq, by rw [ArcTable.object, hcell, map_some]⟩)

theorem Inv.sweep (h : m.Inv) {now : ℕ} {order : List ℕ}
    (hord : order.Perm ((m.expired key now).map Inflight.seq)) : (m.sweep key order).Inv ∧
      (Indexed (m.sweep key order).leases (m.sweep key order).tokenIndex ↔
        Indexed m.leases m.tokenIndex ∧ m.expired key now = []) := by
  rw [TaskQueueManager.sweep]
  cases hlook : m.lookup key with
  | none => exact ⟨h, by rw [expired, h.1.leases_eq_nil hlook, filter_nil, and_iff_left rfl]⟩
  | some found =>
    obtain ⟨rq, q⟩ := found
    obtain ⟨enqueued, acked, htr⟩ := h.1.tracked _ q (lookup_eq_some.mp hlook).2
    have hexpire := h.2.expire key fun lease ↦ decide (lease.seq ∉ order)
    rw [leases_of_lookup hlook, ← TaskQueue.sweep_inflight rq.tq q] at hexpire
    have hnone : (∀ l ∈ rq.tq.inflight, decide (l.seq ∉ order)) ↔ m.expired key now = [] := by
      rw [expired, leases_of_lookup hlook] at hord ⊢
      refine ⟨fun hall ↦ filter_eq_nil_iff.mpr fun l hl hexp ↦ ?_, fun hnil l hl ↦ ?_⟩
      · refine of_decide_eq_true (hall l hl) (hord.mem_iff.mpr ?_)
        exact mem_map.mpr ⟨l, mem_filter.mpr ⟨hl, hexp⟩, rfl⟩
      · rw [hnil] at hord
        rw [hord.eq_nil, decide_eq_true (not_mem_nil)]
    rw [hnone] at hexpire
    refine (h.1.store hlook (rq.tq.sweep_inner q order) ⟨_, _, rq.tq.tracks_sweep htr order⟩
      fun l hl ↦ ?_).inv hexpire (leases_store _ _) rfl
    rw [TaskQueue.sweep_inflight, mem_filter] at hl
    obtain ⟨e, he, heq⟩ := h.1.backed key rq q hlook l hl.1
    exact ⟨e, by rw [TaskQueue.sweep_queue_inflight, mem_filter, heq]; exact ⟨he, hl.2⟩, heq⟩

theorem Inv.step (h : m.Inv) {op : ManagerOp} (hok : m.Fresh op) (hstep : m.step op = some m') :
    m'.Inv ∧ (Indexed m'.leases m'.tokenIndex ↔ Indexed m.leases m.tokenIndex ∧ m.InTime op) := by
  cases op with
  | addTask tenant taskQueue taskType payload visibility wall =>
    cases hstep
    obtain ⟨hinv, hleases, hindex⟩ := h.addTask tenant taskQueue taskType payload visibility wall
    rw [hleases, hindex]
    exact ⟨hinv, (and_iff_left trivial).symm⟩
  | take key token now =>
    cases hstep
    obtain ⟨hinv, hiff⟩ := h.take hok key now
    exact ⟨hinv, hiff.trans (and_iff_left trivial).symm⟩
  | respond token failed now later =>
    cases hstep
    obtain ⟨hinv, hiff⟩ := h.respond token failed now later
    exact ⟨hinv, hiff.trans (and_iff_left trivial).symm⟩
  | sweep key now order =>
    rw [TaskQueueManager.step] at hstep
    split_ifs at hstep with hperm
    cases hstep
    exact h.sweep hperm

/-- There are as many leases as tasks in flight, so that at most as many tokens are indexed. -/
theorem Inv.encard_le (h : m.Inv) (hindexed : Indexed m.leases m.tokenIndex) :
    {token | (m.tokenIndex token).isSome}.encard ≤
      {x : String × ℕ | ∃ lease ∈ m.leases x.1, lease.seq = x.2}.encard := by
  have hsub : {token | (m.tokenIndex token).isSome} ⊆
      (fun x : String × ℕ ↦ Classical.epsilon fun token ↦
          ∃ lease ∈ m.leases x.1, lease.seq = x.2 ∧ lease.token = token) ''
        {x : String × ℕ | ∃ lease ∈ m.leases x.1, lease.seq = x.2} := by
    intro token htok
    obtain ⟨key, hkey⟩ := isSome_iff_exists.mp htok
    obtain ⟨lease, hls, rfl⟩ := hindexed token key hkey
    refine ⟨(key, lease.seq), ⟨lease, hls, rfl⟩, ?_⟩
    obtain ⟨lease', hls', hseq, heq⟩ := Classical.epsilon_spec (p := fun token ↦
      ∃ l ∈ m.leases key, l.seq = lease.seq ∧ l.token = token) ⟨_, lease, hls, rfl, rfl⟩
    rw [h.2.seqs key lease' hls' lease hls hseq] at heq
    exact heq.symm
  exact (Set.encard_le_encard hsub).trans (Set.encard_image_le _ _)

/-- **The index of tokens.** Over a core whose queues have one name each and were used by their own
methods, and with tokens that are new when they are handed out, every token of the index is that of
a task in flight, and there are no more of them, exactly if no sweep of any routed queue has found a
lease that has run out. -/
theorem indexed_iff {core : SynapseCore}
    (hinj : ∀ k k' id, core.queues.table k = some id → core.queues.table k' = some id → k = k')
    (htracked : ∀ id q, core.queues.object id = some q → ∃ enqueued acked, q.Tracks enqueued acked)
    {ops : List ManagerOp} {m : TaskQueueManager} (hrun : Steps step Fresh (new core) ops m) :
    ((∀ token key, m.tokenIndex token = some key → ∃ lease ∈ m.leases key, lease.token = token) ∧
        {token | (m.tokenIndex token).isSome}.encard ≤
          {x : String × ℕ | ∃ lease ∈ m.leases x.1, lease.seq = x.2}.encard) ↔
      Steps step (fun m op ↦ m.Fresh op ∧ m.InTime op) (new core) ops m := by
  have hinit : (new core).Inv := ⟨⟨⟨nofun, hinj⟩, htracked, nofun⟩, nofun, nofun, nofun⟩
  have hinv : m.Inv := hrun.invariant Inv (fun _ _ _ h hok hstep ↦ (h.step hok hstep).1) hinit
  have hgood := hrun.good_iff Inv (fun m ↦ Indexed m.leases m.tokenIndex)
    (fun _ _ _ h hok hstep ↦ h.step hok hstep) hinit
  rw [and_iff_right (show Indexed (new core).leases (new core).tokenIndex from nofun)] at hgood
  rw [← hgood]
  exact ⟨And.left, fun h ↦ ⟨h, hinv.encard_le h⟩⟩

/-- Two routed queues, and a sweep in time: the leases stay, and the tokens with them. -/
theorem indexed_iff_in_time : ∃ m,
    Steps step (fun m op ↦ m.Fresh op ∧ m.InTime op) (new (.withObjectStore .empty))
      [.addTask "a" "q" none [1] (some 5) 0, .addTask "a" "r" none [2] (some 5) 0,
        .take "a|q|" [9] 0, .take "a|r|" [8] 1, .sweep "a|q|" 4 [], .respond [8] false 4 9] m ∧
    (m.tokenIndex [9] = some "a|q|" ∧ m.tokenIndex [8] = none) ∧
    (∀ token key, m.tokenIndex token = some key → ∃ lease ∈ m.leases key, lease.token = token) ∧
    {token | (m.tokenIndex token).isSome}.encard ≤
      {x : String × ℕ | ∃ lease ∈ m.leases x.1, lease.seq = x.2}.encard :=
  exists_steps_of_isSome (by decide +kernel) fun hrun ↦ ⟨by decide +kernel,
    (indexed_iff (by rintro _ _ _ ⟨⟩) (by rintro _ _ ⟨⟩) (hrun.mono fun _ _ h ↦ h.1)).mpr hrun⟩

/-- The lease runs out and is swept. The token stays, and no task is in flight. -/
theorem swept_token_stays : ∃ m,
    Steps step Fresh (new (.withObjectStore .empty))
      [.addTask "a" "q" none [1] (some 5) 0, .take "a|q|" [9] 0, .sweep "a|q|" 5 [0]] m ∧
    m.tokenIndex [9] = some "a|q|" ∧ (m.lookup "a|q|").map (·.1.tq.inflight) = some [] :=
  exists_steps_of_isSome (by decide +kernel) fun _ ↦ ⟨by decide +kernel, by decide +kernel⟩

end TaskQueueManager

end Synapse.Workflow
