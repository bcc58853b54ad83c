import Synapse.Workflow.Life

/-!
# The life cycle of tasks

Every operation of a run keeps the invariant of `Life`, and `lifeCycle_run` reads off what a task
goes through: it is ready, in flight or completed, a response is accepted exactly if its token is
valid, and a task that has failed or whose lease has run out is ready again.
-/

namespace Synapse.Workflow

open Transition TaskQueueManager Option
open List hiding lookup

namespace Life

variable {token : Bytes} {rq : RoutedQueue} {e : QueueEntry} {now later : ℕ} {order : List ℕ}

/-! ## The steps of a run -/

variable {key : String} {s : Life} {tq : TaskQueue} {q : Queue} {done : List QueueEntry}

theorem held_store {m : TaskQueueManager} {q' : Queue} (h : m.lookup key = some (rq, q))
    (htq : tq.inner = rq.tq.inner) : Held key (m.store key rq tq q') tq q' :=
  .inl ⟨{ rq with tq := tq }, lookup_store h htq, rfl⟩

namespace Steady

theorem follows_duplicate {b : Books} (h : Steady key b tq q done)
    (hmem : remembered b.completed now token ≠ none) (failed : Bool) (later : ℕ) :
    TaskEvent.Follows b.events (.responded token failed .duplicate now later) := by
  constructor
  · rintro lease hls rfl
    exact absurd (h.expired hls).2.2 (remembered_ne_none hmem)
  · exact fun _ _ _ _ ↦ ⟨AckResult.noConfusion, fun _ ↦ rfl⟩

theorem follows_unknown {b : Books} (h : Steady key b tq q done)
    (hnone : remembered b.completed now token = none) (hnow : b.clock ≤ now) (failed : Bool)
    (later : ℕ) : TaskEvent.Follows b.events (.responded token failed .unknown now later) := by
  constructor
  · exact fun _ _ _ ↦ rfl
  intro failed' earlier recorded hmem
  refine ⟨AckResult.noConfusion, fun hlt ↦ ?_⟩
  rcases (h.accepted hmem).2.2.2 with hsome | ⟨-, hpast⟩
  · rw [remembered, hsome, filter_some, if_pos (by
      rw [decide_eq_true_eq, completedTtl]
      rw [completedTtl] at hlt
      omega)] at hnone
    cases hnone
  · exact absurd (hpast.trans hnow) (Nat.not_le.mpr hlt)

end Steady

section Step

variable {tenant taskQueue : String} {taskType : Option String} {s' : Life} {visibility : Option ℕ}
  {payload : Bytes} {wall : ℕ}

theorem inv_addTask_of_lookup (hkey : queueKey tenant taskQueue taskType = key)
    (htq : taskQueue ≠ "") (hlookup : s.manager.lookup key = some (rq, q))
    (hst : Steady key s.books rq.tq q done)
    (hstep : s.step tenant taskQueue taskType (.addTask payload visibility wall) = some s') :
    s'.Inv key := by
  rw [step, addTask_of_lookup htq hkey hlookup, Queue.enqueue] at hstep
  have hinn := elim_setVisibility_inner rq.tq visibility
  have hcongr {b : Books} {q : Queue} (h : Steady key b rq.tq q done) :
      Steady key b (visibility.elim rq.tq rq.tq.setVisibility) q done := by
    refine h.congr ?_ ?_ rfl rfl rfl <;> cases visibility <;> first | rfl | exact fun _ ↦ rfl
  generalize s.manager.core.wal.append payload wall = appended at hstep
  obtain ⟨_ | _, wal⟩ := appended
  · cases hstep
    exact ⟨_, _, done, held_store hlookup hinn, hcongr hst⟩
  · cases hstep
    exact ⟨_, _, done, held_store hlookup hinn, hcongr { hst with
      tracks := hst.tracks.push payload
      leases := ⟨hst.leases.perm, hst.leases.tokens⟩ }⟩

theorem Inv.addTask (h : s.Inv key) (hkey : queueKey tenant taskQueue taskType = key)
    (hstep : s.step tenant taskQueue taskType (.addTask payload visibility wall) = some s') :
    s'.Inv key := by
  obtain ⟨tq, q, done, hheld, hst⟩ := h
  by_cases htq : taskQueue = ""
  · rw [step, TaskQueueManager.addTask, if_pos htq] at hstep
    cases hstep
    exact ⟨tq, q, done, hheld, hst⟩
  rcases hheld with ⟨rq, hlookup, rfl⟩ | ⟨hnone, htab, hblk⟩
  · exact inv_addTask_of_lookup hkey htq hlookup hst hstep
  obtain ⟨rq, hrq, -⟩ | ⟨e, core, -, heq, hqs⟩ | ⟨t, id, core, -, -, heq, -, hid⟩ :=
    s.manager.getOrCreate_cases tenant taskQueue taskType hkey
  · cases hnone.symm.trans hrq
  · rw [step, TaskQueueManager.addTask, if_neg htq, heq] at hstep
    cases hstep
    refine ⟨tq, q, done, .inr ⟨hnone, fun t ↦ ?_, hblk⟩, hst⟩
    change core.queues.table (t, key) = none
    rw [hqs, htab]
  · -- The core has no queue of this name, so it is a new one; adding then finds it.
    obtain ⟨-, hid, hqs⟩ := hid.resolve_left fun hfnd ↦ some_ne_none _ (hfnd.1.symm.trans (htab t))
    obtain ⟨hinf, hatts, hrdy, hq, hseq⟩ := hblk
    set m := s.manager.insert core key taskQueue taskType id
    have hlookup : m.lookup key =
        some (⟨.new id defaultVisibility, taskQueue, taskType.getD ""⟩, ⟨key, t, [], [], 0⟩) := by
      rw [lookup_eq_some, queues_insert, if_pos rfl]
      refine ⟨rfl, ?_⟩
      change core.queues.object id = _
      rw [hqs, hid, ArcTable.object_push_self]
    have hadd : s.manager.addTask tenant taskQueue taskType payload visibility wall =
        m.addTask tenant taskQueue taskType payload visibility wall := by
      rw [TaskQueueManager.addTask, TaskQueueManager.addTask, if_neg htq, if_neg htq,
        heq, getOrCreate_of_lookup hkey hlookup]
    have hsame : s.step tenant taskQueue taskType (.addTask payload visibility wall) =
        step tenant taskQueue taskType { s with manager := m }
          (.addTask payload visibility wall) := by
      rw [step, hadd]
      rfl
    rw [hsame] at hstep
    have hnew : Steady key s.books (.new id defaultVisibility) ⟨key, t, [], [], 0⟩ done :=
      hst.congr hinf.symm (fun n ↦ (hatts n).symm) hrdy.symm hq.symm hseq.symm
    exact inv_addTask_of_lookup hkey htq hlookup hnew hstep

variable {now : ℕ}

theorem Inv.take (h : s.Inv key) (hkey : queueKey tenant taskQueue taskType = key)
    (hok : s.Admissible (.take token now))
    (hstep : s.step tenant taskQueue taskType (.take token now) = some s') : s'.Inv key := by
  obtain ⟨hnow, hfr⟩ := hok
  obtain ⟨tq, q, done, hheld, hst⟩ := h
  rw [step, hkey] at hstep
  rcases hheld with ⟨rq, hlookup, rfl⟩ | ⟨hnone, hblk⟩
  · cases hrdy : q.ready with
    | nil =>
      rw [take_of_ready_nil hlookup hrdy] at hstep
      cases hstep
      exact ⟨_, _, done, held_store hlookup rfl, hst.tick hnow⟩
    | cons e ready =>
      have hseq : (s.manager.store key rq (rq.tq.dispatch q token now).2.1
          (rq.tq.dispatch q token now).2.2).queues key =
            some { rq with tq := (rq.tq.dispatch q token now).2.1 } := by
        rw [queues_store, if_pos rfl]
      rw [take_of_ready_cons hlookup hrdy] at hstep
      simp only [hseq, bind_some, TaskQueue.seqForToken_dispatch hrdy, map_some,
        toList_some] at hstep
      cases hstep
      exact ⟨_, _, done, held_store hlookup (rq.tq.dispatch_inner q token now),
        hst.take hrdy hfr hnow rfl rfl⟩
  · have hlookup : s.manager.lookup key = none := by
      rw [lookup, hnone]
      rfl
    rw [TaskQueueManager.take, hlookup] at hstep
    cases hstep
    exact ⟨tq, q, done, .inr ⟨hnone, hblk⟩, hst.tick hnow⟩

theorem Inv.respond (h : s.Inv key) {failed : Bool}
    (hok : s.Admissible (.respond token failed now later))
    (hstep : s.step tenant taskQueue taskType (.respond token failed now later) = some s') :
    s'.Inv key := by
  obtain ⟨hnow, hlat⟩ := hok
  obtain ⟨tq, q, done, hheld, hst⟩ := h
  rw [step] at hstep
  by_cases hmem : remembered s.manager.completed now token = none
  · -- The token is not remembered, so its lease decides.
    have hunknown := hst.refuse AckResult.noConfusion hnow hlat
      (hst.follows_unknown hmem hnow failed later)
    rcases hheld with ⟨rq, hlookup, rfl⟩ | ⟨hnone, hblk⟩
    · cases hidx : s.manager.tokenIndex token with
      | none =>
        rw [respond_of_not_registered hmem fun k hk ↦ nomatch hidx.symm.trans hk] at hstep
        cases hstep
        exact ⟨_, q, done, .inl ⟨rq, hlookup, rfl⟩, hunknown⟩
      | some k =>
        obtain rfl := hst.own hidx
        rw [respond_of_registered hmem hidx hlookup] at hstep
        have hlookup' : (s.manager.pruneCompleted now).lookup k = some (rq, q) := hlookup
        cases hseq : rq.tq.seqForToken token with
        | none =>
          rw [settle_of_no_lease hseq] at hstep
          cases hstep
          exact ⟨_, _, done, held_store hlookup' rfl, hunknown⟩
        | some seq =>
          obtain ⟨lease, hls, rfl, rfl⟩ := (TaskQueue.seqForToken_eq_some hst.leases).mp hseq
          obtain ⟨e, he, heseq⟩ := hst.leases.exists_entry hls
          cases failed with
          | false =>
            rw [settle_ack hseq] at hstep
            cases hstep
            exact ⟨_, _, _, held_store hlookup' rfl, hst.complete hls he heseq hnow hlat⟩
          | true =>
            rw [settle_nack hseq (Queue.nack_fst_iff.mpr ⟨e, he, heseq⟩)] at hstep
            cases hstep
            exact ⟨_, _, done, held_store hlookup' rfl, hst.fail hls hnow hlat⟩
    · have hlookup (k : String) (hk : s.manager.tokenIndex token = some k) :
          s.manager.lookup k = none := by
        rw [hst.own hk, lookup, hnone]
        rfl
      rw [respond_of_not_registered hmem hlookup] at hstep
      cases hstep
      exact ⟨tq, q, done, .inr ⟨hnone, hblk⟩, hunknown⟩
  · rw [respond_of_remembered hmem] at hstep
    cases hstep
    exact ⟨tq, q, done, hheld, hst.refuse AckResult.noConfusion hnow hlat
      (hst.follows_duplicate hmem failed later)⟩

theorem Inv.sweep (h : s.Inv key) (hkey : queueKey tenant taskQueue taskType = key)
    (hnow : s.clock ≤ now) (hstep : s.step tenant taskQueue taskType (.sweep now order) = some s') :
    s'.Inv key := by
  obtain ⟨tq, q, done, hheld, hst⟩ := h
  rw [step, hkey] at hstep
  rcases hheld with ⟨rq, hlookup, rfl⟩ | ⟨hnone, hblk⟩
  · simp only [(lookup_eq_some.mp hlookup).1] at hstep
    split_ifs at hstep with hord
    rw [TaskQueueManager.sweep, hlookup] at hstep
    cases hstep
    exact ⟨_, _, done, held_store hlookup (rq.tq.sweep_inner q order), hst.sweep hnow hord⟩
  · simp only [hnone] at hstep
    cases hstep
    exact ⟨tq, q, done, .inr ⟨hnone, hblk⟩, hst.tick hnow⟩

theorem Inv.step (h : s.Inv (queueKey tenant taskQueue taskType)) {op : LifeOp}
    (hok : s.Admissible op) (hstep : s.step tenant taskQueue taskType op = some s') :
    s'.Inv (queueKey tenant taskQueue taskType) := by
  cases op with
  | addTask payload visibility wall => exact h.addTask rfl hstep
  | take token now => exact h.take rfl hok hstep
  | respond token failed now later => exact h.respond hok hstep
  | sweep now order => exact h.sweep rfl hok hstep

theorem steady_blank (key : String) (clock : ℕ) (tenant : TenantId) :
    Steady key ⟨fun _ ↦ none, fun _ ↦ none, clock, [], []⟩ (.new 0 0) ⟨"", tenant, [], [], 0⟩
      [] where
  tracks := .blank "" tenant
  leases := ⟨.nil, nodup_nil⟩
  registered := nofun
  own := nofun
  delivered := nofun
  token_inj := fun _ _ _ ⟨_, hmem, _⟩ ↦ nomatch hmem
  recorded _ hne := absurd rfl hne
  attempts _ _ := rfl
  accepted := nofun
  expired := nofun
  finished _ := iff_of_false nofun nofun
  history := .nil

theorem inv_start {core : SynapseCore} (hcore : ∀ t, core.queues.table (t, key) = none)
    (clock : ℕ) : (start core clock).Inv key :=
  ⟨_, _, [], .inr ⟨rfl, hcore, rfl, fun _ ↦ rfl, rfl, rfl, rfl⟩,
    steady_blank key clock ⟨"a", by decide, by decide⟩⟩

end Step

/-! ## The life cycle -/

theorem Held.exists_lookup (hheld : Held key s.manager tq q)
    (hst : Steady key s.books tq q done) (he : e ∈ s.added) :
    ∃ rq, s.manager.lookup key = some (rq, q) ∧ rq.tq = tq := by
  refine hheld.resolve_right ?_
  rintro ⟨-, -, -, -, -, -, hseq⟩
  exact absurd (hst.tracks.fresh e he) (by rw [hseq]; exact Nat.not_lt_zero _)

section

variable (hlookup : s.manager.lookup key = some (rq, q)) (h : Steady key s.books rq.tq q done)

include hlookup h

/-- The valid tokens are those of the leases. -/
theorem Steady.valid_iff :
    s.Valid key token seq ↔ ∃ lease ∈ rq.tq.inflight, lease.token = token ∧ lease.seq = seq := by
  have hrq := (lookup_eq_some.mp hlookup).1
  rw [← TaskQueue.seqForToken_eq_some h.leases]
  constructor
  · rintro ⟨-, -, rq', hrq', hseq⟩
    obtain rfl : rq = rq' := some.inj (hrq.symm.trans hrq')
    exact hseq
  · intro hseq
    obtain ⟨lease, hls, rfl, -⟩ := (TaskQueue.seqForToken_eq_some h.leases).mp hseq
    obtain ⟨hidx, hcomp⟩ := h.registered lease hls
    exact ⟨hidx, hcomp, rq, hrq, hseq⟩

theorem Steady.exists_valid_iff (e : QueueEntry) :
    (∃ token, s.Valid key token e.seq) ↔ ∃ x ∈ q.inflight, x.seq = e.seq := by
  simp only [h.valid_iff hlookup]
  constructor
  · rintro ⟨_, lease, hls, -, hseq⟩
    obtain ⟨x, hx, hxseq⟩ := h.leases.exists_entry hls
    exact ⟨x, hx, hxseq.trans hseq⟩
  · rintro ⟨x, hx, hxseq⟩
    obtain ⟨lease, hls, hseq⟩ := mem_map.mp (h.leases.perm.mem_iff.mpr (mem_map_of_mem hx))
    exact ⟨_, lease, hls, rfl, hseq.trans hxseq⟩

theorem Steady.existsUnique_valid (he : e ∈ q.inflight) : ∃! token, s.Valid key token e.seq := by
  obtain ⟨token, hval⟩ := (h.exists_valid_iff hlookup e).mpr ⟨e, he, rfl⟩
  refine ⟨token, hval, fun token' hval' ↦ ?_⟩
  obtain ⟨lease, hls, rfl, hseq⟩ := (h.valid_iff hlookup).mp hval
  obtain ⟨lease', hls', rfl, hseq'⟩ := (h.valid_iff hlookup).mp hval'
  rw [h.leases.eq_of_seq h.tracks hls' hls (hseq'.trans hseq.symm)]

end

theorem Inv.inOnePlace (h : s.Inv key) (he : e ∈ s.added) :
    s.Ready key e ∨ s.InFlight key e ∨ s.Completed key e := by
  obtain ⟨tq, q, done, hheld, hst⟩ := h
  obtain ⟨rq, hlookup, rfl⟩ := hheld.exists_lookup hst he
  have hfind := hst.finished e.seq
  have hnot (hemp : q.inflight.filter (·.seq == e.seq) = []) :
      ¬∃ token, s.Valid key token e.seq := by
    rw [hst.exists_valid_iff hlookup]
    rintro ⟨x, hx, hseq⟩
    exact filter_eq_nil_iff.mp hemp x hx (beq_iff_eq.mpr hseq)
  obtain ⟨-, hrdy, hinf, hdone⟩ | ⟨hmem, hrdy, hinf, hdone⟩ |
    ⟨hrdy, hinf, hdone⟩ := hst.tracks.inOnePlace he
  · exact .inl ⟨⟨rq, q, hlookup, hrdy, hinf⟩, hnot hinf, mt hfind.mp hdone⟩
  · exact .inr (.inl ⟨⟨rq, q, hlookup, hrdy, hinf⟩,
      hst.existsUnique_valid hlookup hmem, mt hfind.mp hdone⟩)
  · exact .inr (.inr ⟨⟨rq, q, hlookup, hrdy, hinf⟩, hnot hinf, hfind.mpr hdone⟩)

theorem Inv.ready_of_mem (h : s.Inv key) (hlookup : s.manager.lookup key = some (rq, q))
    (he : e ∈ s.added) (hrdy : e ∈ q.ready) : s.Ready key e := by
  have hfnd {ready inflight : List QueueEntry} (hhld : s.Holds key e ready inflight) :
      e ∈ ready := by
    obtain ⟨rq', q', hlookup', rfl, -⟩ := hhld
    obtain ⟨-, rfl⟩ := Prod.mk.inj (some.inj (hlookup.symm.trans hlookup'))
    exact mem_filter.mpr ⟨hrdy, BEq.rfl⟩
  rcases h.inOnePlace he with hplc | ⟨hhld, -⟩ | ⟨hhld, -⟩
  · exact hplc
  · cases hfnd hhld
  · cases hfnd hhld

/-- A response is accepted if and only if there is a lease with its token. -/
theorem Steady.respond_accepted_iff (hheld : Held key s.manager tq q)
    (h : Steady key s.books tq q done) (token : Bytes) (failed : Bool) (now later : ℕ) :
    (s.manager.respond token failed now later).1 = .accepted ↔
      ∃ lease ∈ tq.inflight, lease.token = token := by
  constructor
  · intro hacc
    by_contra hnone
    have hseq : tq.seqForToken token = none :=
      TaskQueue.seqForToken_eq_none.mpr fun lease hls heq ↦ hnone ⟨lease, hls, heq⟩
    by_cases hmem : remembered s.manager.completed now token = none
    · by_cases hidx : ∀ k, s.manager.tokenIndex token = some k → s.manager.lookup k = none
      · rw [respond_of_not_registered hmem hidx] at hacc
        cases hacc
      simp only [not_forall] at hidx
      obtain ⟨k, hk, hlookup⟩ := hidx
      obtain rfl := h.own hk
      rcases hheld with ⟨rq, hfnd, rfl⟩ | ⟨hblk, -⟩
      · rw [respond_of_registered hmem hk hfnd, settle_of_no_lease hseq] at hacc
        cases hacc
      · exact hlookup (by rw [lookup, hblk]; rfl)
    · rw [respond_of_remembered hmem] at hacc
      cases hacc
  · rintro ⟨lease, hls, rfl⟩
    obtain ⟨rq, hlookup, rfl⟩ := hheld.resolve_right fun hblk ↦ not_mem_nil (hblk.2.2.1 ▸ hls)
    obtain ⟨hidx, hcomp⟩ := h.registered lease hls
    have hseq := (TaskQueue.seqForToken_eq_some h.leases).mpr ⟨lease, hls, rfl, rfl⟩
    rw [respond_of_registered (remembered_eq_none now hcomp) hidx hlookup]
    cases failed with
    | false => rw [settle_ack hseq]
    | true =>
      obtain ⟨e, he, heseq⟩ := h.leases.exists_entry hls
      rw [settle_nack hseq (Queue.nack_fst_iff.mpr ⟨e, he, heseq⟩)]

theorem Steady.mem_added {b : Books} (h : Steady key b tq q done) {lease : Inflight}
    (hls : lease ∈ tq.inflight) : ∃ e ∈ b.added, e.seq = lease.seq ∧ e ∈ q.inflight := by
  obtain ⟨e, he, hseq⟩ := h.leases.exists_entry hls
  have hmem := mem_append_right q.ready (mem_append_left done he)
  exact ⟨e, h.tracks.perm.mem_iff.mpr hmem, hseq, he⟩

section Cycle

variable {tenant taskQueue : String} {taskType : Option String} {s' : Life} {now : ℕ}

theorem Inv.accepted_iff (h : s.Inv key) (token : Bytes) (failed : Bool) (now later : ℕ) :
    (s.manager.respond token failed now later).1 = .accepted ↔
      ∃ e ∈ s.added, s.Valid key token e.seq := by
  obtain ⟨tq, q, done, hheld, hst⟩ := h
  rw [hst.respond_accepted_iff hheld]
  constructor
  · rintro ⟨lease, hls, rfl⟩
    obtain ⟨e, he, hseq, -⟩ := hst.mem_added hls
    obtain ⟨rq, hlookup, rfl⟩ := hheld.exists_lookup hst he
    exact ⟨e, he, (hst.valid_iff hlookup).mpr ⟨lease, hls, rfl, hseq.symm⟩⟩
  · rintro ⟨e, he, hval⟩
    obtain ⟨rq, hlookup, rfl⟩ := hheld.exists_lookup hst he
    obtain ⟨lease, hls, htok, -⟩ := (hst.valid_iff hlookup).mp hval
    exact ⟨lease, hls, htok⟩

theorem Inv.failed_ready (h : s.Inv key) (hnow : s.clock ≤ now) (hlat : now ≤ later)
    (hstep : s.step tenant taskQueue taskType (.respond token true now later) = some s')
    (he : e ∈ s.added) (hval : s.Valid key token e.seq) : s'.Ready key e := by
  have hinv' := h.respond ⟨hnow, hlat⟩ hstep
  obtain ⟨tq, q, done, hheld, hst⟩ := h
  obtain ⟨rq, hlookup, rfl⟩ := hheld.exists_lookup hst he
  obtain ⟨lease, hls, rfl, hseq⟩ := (hst.valid_iff hlookup).mp hval
  obtain ⟨e', he', heseq, hinf⟩ := hst.mem_added hls
  obtain rfl : e' = e := inj_on_of_nodup_map hst.tracks.nodup he' he (heseq.trans hseq)
  obtain ⟨hidx, hcomp⟩ := hst.registered lease hls
  have hfind := (TaskQueue.seqForToken_eq_some hst.leases).mpr ⟨lease, hls, rfl, rfl⟩
  rw [Life.step, respond_of_registered (remembered_eq_none now hcomp) hidx hlookup,
    settle_nack hfind (Queue.nack_fst_iff.mpr ⟨e', hinf, heseq⟩)] at hstep
  cases hstep
  have hlookup' : (s.manager.pruneCompleted now).lookup key = some (rq, q) := hlookup
  refine hinv'.ready_of_mem (lookup_store hlookup' rfl) he ?_
  rw [hseq, Queue.nack_ready hst.tracks hinf]
  exact mem_cons_self

theorem Inv.expired_ready (h : s.Inv key) (hkey : queueKey tenant taskQueue taskType = key)
    (hnow : s.clock ≤ now) (hstep : s.step tenant taskQueue taskType (.sweep now order) = some s')
    (hrq : s.manager.queues key = some rq) {lease : Inflight} (hls : lease ∈ rq.tq.inflight)
    (hexpi : lease.expiresAt ≤ now) : ∃ e ∈ s.added, e.seq = lease.seq ∧ s'.Ready key e := by
  have hinv' := h.sweep hkey hnow hstep
  obtain ⟨tq, q, done, hheld, hst⟩ := h
  obtain ⟨rq', hlookup, rfl⟩ := hheld.resolve_right fun hblk ↦ nomatch hblk.1.symm.trans hrq
  obtain rfl : rq = rq' := some.inj (hrq.symm.trans (lookup_eq_some.mp hlookup).1)
  obtain ⟨e, he, hseq, hinf⟩ := hst.mem_added hls
  refine ⟨e, he, hseq, ?_⟩
  rw [Life.step, hkey] at hstep
  simp only [hrq] at hstep
  split_ifs at hstep with hord
  rw [TaskQueueManager.sweep, hlookup] at hstep
  cases hstep
  refine hinv'.ready_of_mem (lookup_store hlookup (rq.tq.sweep_inner q order)) he ?_
  refine TaskQueue.mem_sweep_ready rq.tq hst.tracks hinf ?_
  rw [hseq, hord.mem_iff]
  exact mem_map_of_mem (mem_filter.mpr ⟨hls, decide_eq_true hexpi⟩)

theorem inv_run {core : SynapseCore}
    (hcore : ∀ t, core.queues.table (t, queueKey tenant taskQueue taskType) = none) {clock : ℕ}
    {ops : List LifeOp}
    (hrun : Steps (step tenant taskQueue taskType) Admissible (start core clock) ops s) :
    s.Inv (queueKey tenant taskQueue taskType) :=
  hrun.invariant (Inv (queueKey tenant taskQueue taskType))
    (fun _ _ _ h hok hstep ↦ h.step hok hstep) (inv_start hcore clock)

/-- **The life cycle of tasks.** In every run of one routed queue, over a core that has no queue of
its name at the start, with fresh tokens and a clock that does not run backwards. -/
theorem lifeCycle_run (core : SynapseCore) (tenant taskQueue : String) (taskType : Option String)
    (hcore : ∀ t, core.queues.table (t, queueKey tenant taskQueue taskType) = none) (clock : ℕ)
    {ops : List LifeOp} {s : Life}
    (hrun : Steps (step tenant taskQueue taskType) Admissible (start core clock) ops s) :
    s.LifeCycle tenant taskQueue taskType := by
  have hinv := inv_run hcore hrun
  constructor
  · exact fun e he ↦ hinv.inOnePlace he
  · obtain ⟨tq, q, done, -, hsteady⟩ := hinv
    exact hsteady.history
  · exact hinv.accepted_iff
  · exact fun token now later s' hnow hlater hstep e he hvalid ↦
      hinv.failed_ready hnow hlater hstep he hvalid
  · exact fun now order s' hnow hstep rq hrq lease hlease hexpired ↦
      hinv.expired_ready rfl hnow hstep hrq hlease hexpired

/-- A task fails, is delivered again, outlives its lease and is completed in its third delivery; a
late response is unknown. -/
theorem lifeCycle_run_third_attempt :
    ∃ s, Steps (step "t" "q" none) Admissible (start (.withObjectStore .empty) 0)
        [.addTask [1] (some 5) 0, .take [1] 10, .respond [1] true 11 12, .take [2] 20,
          .sweep 30 [0], .take [3] 31, .respond [2] false 32 32, .respond [3] false 33 34,
          .respond [3] false 35 35] s ∧
      s.added = [⟨0, [1]⟩] ∧
      s.events = [.delivered 0 ⟨[1], "q", "", [1], 1⟩, .responded [1] true .accepted 11 12,
        .delivered 0 ⟨[2], "q", "", [1], 2⟩, .expired ⟨0, [2], 25⟩,
        .delivered 0 ⟨[3], "q", "", [1], 3⟩, .responded [2] false .unknown 32 32,
        .responded [3] false .accepted 33 34, .responded [3] false .duplicate 35 35] ∧
      s.LifeCycle "t" "q" none := by
  refine exists_steps_of_isSome (by decide +kernel) fun hrun ↦
    ⟨by decide +kernel, by decide +kernel, ?_⟩
  exact lifeCycle_run _ _ _ _ (fun _ ↦ rfl) _ hrun

end Cycle

end Life

end Synapse.Workflow
