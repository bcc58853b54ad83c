import Synapse.Lib.Run
import Synapse.Workflow.Phases

/-!
# Concurrent responses

`respond` takes several locks one after the other: it prunes the completed tokens, looks the token
up in them, in the index and in the table of queues, finds the sequence number among the leases,
answers the core queue, drops the lease and the attempts, and records the token. Here each of these
sections is one step, any number of responses are in progress at once, and tasks are added, taken
and swept in between. A sweep holds the lock on the leases from beginning to end and is one step.

Between finding the lease and dropping it a response relies on a lease that others can still find. A
second response to the same token may find it too, and both are accepted; the sweeper may return the
task to the queue, and the completion is accepted although the task is delivered again
(`completion_races`). `followed_of_exclusive` shows that nothing else goes wrong. Its proof goes
through the views of `Phases`: each step is a move of the view, or leaves it as it is.
-/

namespace Synapse.Workflow

open Transition List Function Option

/-! ## The sections of a response -/

inductive Stage
  | prune
  | check
  | index
  | queue (key : String)
  | find (key : String)
  /-- `ack` or `nack` of the core queue. -/
  | inner (key : String) (seq : ℕ)
  /-- Removing the lease; `ok` is the answer of the core queue. -/
  | lease (key : String) (seq : ℕ) (ok : Bool)
  | attempts (key : String) (seq : ℕ)
  | record (key : String) (seq : ℕ)
  | unindex (key : String) (seq : ℕ)
  | returned (result : AckResult)
deriving DecidableEq, Repr

structure Responder where
  token : Bytes
  failed : Bool
  stage : Stage
deriving DecidableEq, Repr

/-- What the locks of the manager and of its routed queues protect, and the calls in progress. -/
structure Responders where
  queues : String → Option (TaskQueue × Queue)
  tokenIndex : Bytes → Option String
  completed : Bytes → Option ℕ
  responders : List Responder
  events : List RespondEvent

inductive RespondOp
  | addTask (key : String) (payload : Bytes) (visibility : Option ℕ)
  | take (key : String) (token : Bytes) (now : ℕ)
  | sweep (key : String) (now : ℕ) (order : List ℕ)
  | respond (token : Bytes) (failed : Bool)
  /-- A call takes its next section; `now` is the clock, if it reads it. -/
  | advance (id : ℕ) (now : ℕ)
deriving DecidableEq, Repr

namespace Responders

def start (tenants : String → Option TenantId) : Responders where
  queues key := (tenants key).map fun tenant ↦
    (.new 0 defaultVisibility, ⟨key, tenant, [], [], 0⟩)
  tokenIndex _ := none
  completed _ := none
  responders := []
  events := []

def setQueue (s : Responders) (key : String) (tq : TaskQueue) (q : Queue) : Responders :=
  { s with queues := Function.update s.queues key (some (tq, q)) }

/-- The tables after the next section of a call, its next stage and what it reports. -/
def runSection (s : Responders) (r : Responder) (now : ℕ) :
    Option (Responders × Stage × List RespondEvent) :=
  match r.stage with
  | .prune => some ({ s with completed := remembered s.completed now }, .check, [])
  | .check =>
    some (s, if (s.completed r.token).isSome then .returned .duplicate else .index, [])
  | .index =>
    match s.tokenIndex r.token with
    | none => some (s, .returned .unknown, [])
    | some key => some (s, .queue key, [])
  | .queue key =>
    match s.queues key with
    | none => some (s, .returned .unknown, [])
    | some _ => some (s, .find key, [])
  | .find key => do
    let (tq, _) ← s.queues key
    match tq.seqForToken r.token with
    | none => some (s, .returned .unknown, [])
    | some seq => some (s, .inner key seq, [])
  | .inner key seq => do
    let (tq, q) ← s.queues key
    if r.failed then
      some (s.setQueue key tq (q.nack seq).2, .lease key seq (q.nack seq).1, [])
    else some (s.setQueue key tq (q.ack seq).2, .lease key seq true, [])
  | .lease key seq ok => do
    let (tq, q) ← s.queues key
    let next :=
      if r.failed then (if ok then .record key seq else .returned .unknown) else .attempts key seq
    some (s.setQueue key (tq.removeInflight seq) q, next, [])
  | .attempts key seq => do
    let (tq, q) ← s.queues key
    some (s.setQueue key (tq.removeAttempts seq) q, .record key seq, [])
  | .record key seq =>
    some ({ s with completed := Function.update s.completed r.token (some now) },
      .unindex key seq, [])
  | .unindex key seq =>
    some ({ s with tokenIndex := Function.update s.tokenIndex r.token none },
      .returned .accepted, [.accepted key seq r.token r.failed])
  | .returned _ => none

def issued (s : Responders) : List Bytes :=
  s.events.filterMap fun
    | .delivered _ _ token => some token
    | .accepted .. => none

def step (s : Responders) : RespondOp → Option Responders
  | .addTask key payload visibility => do
    let (tq, q) ← s.queues key
    some (s.setQueue key (visibility.elim tq tq.setVisibility)
      { q with seq := q.seq + 1, ready := q.ready ++ [⟨q.seq, payload⟩] })
  | .take key token now => do
    let (tq, q) ← s.queues key
    if token ∈ s.issued then none
    else
      match tq.dispatch q token now with
      | (none, _, _) => some s
      | (some _, tq, q) =>
        some { s.setQueue key tq q with
          tokenIndex := Function.update s.tokenIndex token (some key)
          events := s.events ++
            ((tq.seqForToken token).map (.delivered key · token)).toList }
  | .sweep key now order => do
    let (tq, q) ← s.queues key
    if order.Perm (tq.expired now) then
      some (s.setQueue key (tq.sweep q order).1 (tq.sweep q order).2)
    else none
  | .respond token failed => some { s with responders := s.responders ++ [⟨token, failed, .prune⟩] }
  | .advance id now => do
    let r ← s.responders[id]?
    let (s', stage, events) ← s.runSection r now
    some { s' with
      responders := s.responders.set id { r with stage := stage }
      events := s.events ++ events }

end Responders

def Stage.isFind : Stage → Bool
  | find _ => true
  | _ => false

/-- The sections between finding a lease and dropping it. -/
def Stage.holds : Stage → Bool
  | inner .. => true
  | lease .. => true
  | _ => false

def Stage.phase : Stage → Phase
  | inner key seq => .found key seq
  | lease key seq _ => .answered key seq
  | attempts key seq | record key seq | unindex key seq => .dropped key seq
  | _ => .idle

def Responder.worker (r : Responder) : Worker := ⟨r.token, r.failed, r.stage.phase⟩

/-- The call is between finding the lease of the token and dropping it. -/
def Responder.Holds (r : Responder) (token : Bytes) : Prop :=
  r.token = token ∧ r.stage.holds

instance (r : Responder) (token : Bytes) : Decidable (r.Holds token) :=
  inferInstanceAs (Decidable (_ ∧ _))

namespace Responders

/-- No call looks up a token that another one holds, and no lease expires while its token is
held. -/
def Exclusive (s : Responders) : RespondOp → Prop
  | .advance id _ => ∀ r ∈ s.responders[id]?, r.stage.isFind →
      ∀ r' ∈ s.responders, ¬r'.Holds r.token
  | .sweep key now _ => ∀ p ∈ s.queues key, ∀ lease ∈ p.1.inflight, lease.expiresAt ≤ now →
      ∀ r ∈ s.responders, ¬r.Holds lease.token
  | _ => True

instance (s : Responders) (op : RespondOp) : Decidable (s.Exclusive op) := by
  cases op <;> dsimp only [Exclusive] <;> infer_instance

/-! ## Steps are moves -/

def view (s : Responders) : View where
  table key := (s.queues key).map fun p ↦ (p.1.inflight, p.2)
  worker id := s.responders[id]?.map Responder.worker
  events := s.events

variable {s s' : Responders} {enqueued done : String → List QueueEntry}

theorem view_table {key : String} {tq : TaskQueue} {q : Queue}
    (h : s.queues key = some (tq, q)) : s.view.table key = some (tq.inflight, q) := by
  change (s.queues key).map _ = _
  rw [h, map_some]

theorem view_setQueue (s : Responders) (key : String) (tq : TaskQueue) (q : Queue) :
    (s.setQueue key tq q).view = s.view.setRow key tq.inflight q := by
  refine congrArg (View.mk · s.view.worker s.events) (funext fun key' ↦ ?_)
  change (update s.queues key _ key').map _ = update s.view.table key _ key'
  rw [update_apply, update_apply]
  split_ifs <;> rfl

variable {r : Responder} {token : Bytes} {id : ℕ}

/-- The view after a call has taken its next section. -/
theorem view_advance (hid : s.responders[id]? = some r) (s' : Responders) (stage : Stage)
    (events : List RespondEvent) : view { s' with
      responders := s.responders.set id { r with stage := stage }
      events := s.events ++ events } =
    ⟨s'.view.table,
      (s.view.setWorker id { r.worker with phase := stage.phase }).worker, s.events ++ events⟩ := by
  refine congrArg (View.mk s'.view.table · _) (funext fun id' ↦ ?_)
  change (s.responders.set id _)[id']?.map _ = update s.view.worker id _ id'
  have hlt : id < s.responders.length := (List.getElem?_eq_some_iff.mp hid).1
  rw [update_apply, List.getElem?_set]
  split_ifs with h₁ h₂ h₃
  · rfl
  · exact absurd h₁.symm h₂
  · exact absurd h₃.symm h₁
  · rfl

theorem view_worker (hid : s.responders[id]? = some r) : s.view.worker id = some r.worker := by
  change s.responders[id]?.map Responder.worker = _
  rw [hid, map_some]

theorem holds_of_worker (h : r.worker.Holds token) : r.Holds token := by
  obtain ⟨htok, key, seq, hph⟩ := h
  refine ⟨htok, ?_⟩
  change r.stage.phase = _ ∨ r.stage.phase = _ at hph
  cases hsta : r.stage <;> rw [hsta] at hph <;> first | rfl | simp [Stage.phase] at hph

theorem free_of_not_holds (h : ∀ r ∈ s.responders, ¬r.Holds token) (id : ℕ) (w : Worker)
    (hw : s.view.worker id = some w) : ¬w.Holds token := by
  obtain ⟨r, hr, rfl⟩ := map_eq_some_iff.mp hw
  exact fun hhld ↦ h r (mem_of_getElem? hr) (holds_of_worker hhld)

theorem inv_start (tenants : String → Option TenantId) :
    (start tenants).view.Inv (fun _ ↦ []) (fun _ ↦ []) where
  row key leases q h := by
    obtain ⟨p, hp, heq⟩ := map_eq_some_iff.mp h
    obtain ⟨tenant, -, rfl⟩ := map_eq_some_iff.mp hp
    obtain ⟨rfl, rfl⟩ := Prod.mk.inj heq
    exact ⟨.blank key tenant, nodup_nil, by simp [TaskQueue.new], by simp [TaskQueue.new]⟩
  token_inj := nofun
  stands _ _ h := by cases h
  distinct _ _ _ _ _ _ h := by cases h
  sole _ _ _ _ h := by cases h
  accepted := nofun
  history := .nil

/-- The view after a section of the call `id` that changed the tables of `s` to those of `s'`. -/
def viewAfter (s s' : Responders) (id : ℕ) (w : Worker) (events : List RespondEvent) : View :=
  ⟨s'.view.table, (s.view.setWorker id w).worker, s.events ++ events⟩

theorem viewAfter_setQueue (s : Responders) (key : String) (tq : TaskQueue) (q : Queue) (id : ℕ)
    (w : Worker) :
    viewAfter s (s.setQueue key tq q) id w [] =
      (s.view.setRow key tq.inflight q).setWorker id w := by
  rw [viewAfter, view_setQueue, append_nil]
  rfl

section Advance

variable {id now : ℕ} {r : Responder} {key : String} {seq : ℕ} {stage : Stage} {phase : Phase}

variable {tq : TaskQueue} {q : Queue}

variable (h : s.view.Inv enqueued done) (hid : s.responders[id]? = some r)

include h hid

theorem inv_same (htab : s'.view.table = s.view.table) (hph : r.stage.phase = phase) :
    ∃ done', (viewAfter s s' id { r.worker with phase := phase } []).Inv enqueued done' := by
  have hself : s.view.setWorker id { r.worker with phase := phase } = s.view := by
    rw [← hph]
    exact congrArg (View.mk s.view.table · s.events) (update_eq_self_iff.mpr (view_worker hid).symm)
  rw [viewAfter, htab, hself, append_nil]
  exact ⟨done, h⟩

/-- The token is among the leases, and nobody holds it. -/
theorem inv_find (hold : r.stage.phase = .idle) (hq : s.queues key = some (tq, q))
    (hseq : tq.seqForToken r.token = some seq) (hfree : ∀ r' ∈ s.responders, ¬r'.Holds r.token) :
    (viewAfter s s id { r.worker with phase := .found key seq } []).Inv enqueued done := by
  obtain ⟨lease, hls, htok, rfl⟩ := TaskQueue.exists_lease_of_seqForToken hseq
  rw [viewAfter, append_nil, Responder.worker, ← htok]
  refine h.find (fun w hw ↦ ?_) (view_table hq) hls ?_ r.failed
  · cases some.inj ((view_worker hid).symm.trans hw)
    exact hold
  · rw [htok]
    exact free_of_not_holds hfree

theorem inv_inner (hold : r.stage.phase = .found key seq) (hq : s.queues key = some (tq, q)) :
    ∃ done', (viewAfter s
      (s.setQueue key tq (if r.failed then (q.nack seq).2 else (q.ack seq).2)) id
      { r.worker with phase := .answered key seq } []).Inv enqueued done' := by
  have hwrk := view_worker hid
  have hrow := view_table hq
  obtain ⟨e, he, rfl⟩ := (h.exists_token_of_found hwrk hold hrow).1
  have htr := (h.row hrow).tracks
  rw [viewAfter_setQueue]
  split_ifs with hfail
  · refine ⟨_, h.answer hwrk hold hrow (htr.nack e.seq) (q.nack_inflight e.seq)
      (List.Subset.refl _) fun hne ↦ ?_⟩
    exact absurd (hfail.symm.trans hne) Bool.true_eq_false_eq_False
  · refine ⟨_, h.answer hwrk hold hrow (htr.ack_of_mem he) rfl (subset_append_left _ _) fun _ ↦ ?_⟩
    exact mem_map_of_mem (mem_append_right _ mem_cons_self)

/-- The lease is removed, and the call goes on or gives up. -/
theorem inv_lease (hold : r.stage.phase = .answered key seq) (hq : s.queues key = some (tq, q))
    (hph : phase = .dropped key seq ∨ phase = .idle) :
    (viewAfter s (s.setQueue key (tq.removeInflight seq) q) id
      { r.worker with phase := phase } []).Inv enqueued done := by
  have hdrop := h.drop (view_worker hid) hold (view_table hq)
  rw [viewAfter_setQueue]
  rcases hph with rfl | rfl
  · exact hdrop
  · have hleft := hdrop.leave (View.worker_setWorker.mpr (.inl ⟨rfl, rfl⟩)) rfl
    rwa [View.setWorker, View.setWorker, update_idem] at hleft

theorem inv_runSection (hexcl : r.stage.isFind → ∀ r' ∈ s.responders, ¬r'.Holds r.token)
    {events : List RespondEvent} (hrun : s.runSection r now = some (s', stage, events)) :
    ∃ done', (viewAfter s s' id { r.worker with phase := stage.phase } events).Inv
      enqueued done' := by
  rw [runSection] at hrun
  cases hsta : r.stage with
  | prune =>
    simp only [hsta] at hrun
    obtain ⟨rfl, rfl, rfl⟩ := hrun
    exact inv_same h hid rfl (by rw [hsta]; rfl)
  | check =>
    simp only [hsta] at hrun
    obtain ⟨rfl, rfl, rfl⟩ := hrun
    exact inv_same h hid rfl (by rw [hsta]; split_ifs <;> rfl)
  | index =>
    simp only [hsta] at hrun
    split at hrun <;> obtain ⟨rfl, rfl, rfl⟩ := hrun <;>
      exact inv_same h hid rfl (by rw [hsta]; rfl)
  | queue key =>
    simp only [hsta] at hrun
    split at hrun <;> obtain ⟨rfl, rfl, rfl⟩ := hrun <;>
      exact inv_same h hid rfl (by rw [hsta]; rfl)
  | find key =>
    simp only [hsta, bind_eq_bind, bind_eq_some_iff] at hrun
    obtain ⟨⟨tq, q⟩, hq, hrun⟩ := hrun
    cases hseq : tq.seqForToken r.token with
    | none =>
      simp only [hseq] at hrun
      obtain ⟨rfl, rfl, rfl⟩ := hrun
      exact inv_same h hid rfl (by rw [hsta]; rfl)
    | some seq =>
      simp only [hseq] at hrun
      obtain ⟨rfl, rfl, rfl⟩ := hrun
      exact ⟨done, inv_find h hid (by rw [hsta]; rfl) hq hseq (hexcl (by rw [hsta]; rfl))⟩
  | inner key seq =>
    simp only [hsta, bind_eq_bind, bind_eq_some_iff] at hrun
    obtain ⟨⟨tq, q⟩, hq, hrun⟩ := hrun
    have hinn := inv_inner h hid (by rw [hsta]; rfl) hq
    split_ifs at hrun hinn <;> obtain ⟨rfl, rfl, rfl⟩ := hrun <;> exact hinn
  | lease key seq ok =>
    simp only [hsta, bind_eq_bind, bind_eq_some_iff, some.injEq, Prod.mk.injEq] at hrun
    obtain ⟨⟨tq, q⟩, hq, rfl, rfl, rfl⟩ := hrun
    refine ⟨done, inv_lease h hid (by rw [hsta]; rfl) hq ?_⟩
    split_ifs
    · exact .inl rfl
    · exact .inr rfl
    · exact .inl rfl
  | attempts key seq =>
    simp only [hsta, bind_eq_bind, bind_eq_some_iff, some.injEq, Prod.mk.injEq] at hrun
    obtain ⟨⟨tq, q⟩, hq, rfl, rfl, rfl⟩ := hrun
    refine inv_same h hid ?_ (by rw [hsta]; rfl)
    rw [view_setQueue]
    exact update_eq_self_iff.mpr (view_table hq).symm
  | record key seq =>
    simp only [hsta] at hrun
    obtain ⟨rfl, rfl, rfl⟩ := hrun
    exact inv_same h hid rfl (by rw [hsta]; rfl)
  | unindex key seq =>
    simp only [hsta] at hrun
    obtain ⟨rfl, rfl, rfl⟩ := hrun
    have hph : r.worker.phase = .dropped key seq := by
      change r.stage.phase = _
      rw [hsta]
      rfl
    exact ⟨done, h.accept (view_worker hid) hph⟩
  | returned result =>
    simp only [hsta] at hrun
    cases hrun

end Advance

/-! ## Runs -/

theorem view_record (s : Responders) (tokenIndex : Bytes → Option String)
    (events : List RespondEvent) :
    view { s with tokenIndex := tokenIndex, events := events } =
      { s.view with events := events } := rfl

theorem view_respond (s : Responders) (token : Bytes) (failed : Bool) :
    view { s with responders := s.responders ++ [⟨token, failed, .prune⟩] } =
      s.view.setWorker s.responders.length ⟨token, failed, .idle⟩ := by
  refine congrArg (View.mk s.view.table · s.events) (funext fun id ↦ ?_)
  change (s.responders ++ [_])[id]?.map _ = update s.view.worker _ _ id
  rw [update_apply]
  split_ifs with h
  · rw [h, List.getElem?_concat_length]
    rfl
  change _ = s.responders[id]?.map _
  rw [List.getElem?_append]
  split_ifs with hlt
  · rfl
  · rw [List.getElem?_eq_none (l := s.responders) (by omega), List.getElem?_eq_none]
    rw [length_singleton]
    omega

theorem inv_step {op : RespondOp} (h : s.view.Inv enqueued done) (hexcl : s.Exclusive op)
    (hstep : s.step op = some s') : ∃ enqueued' done', s'.view.Inv enqueued' done' := by
  cases op with
  | addTask key payload visibility =>
    simp only [step, bind_eq_bind, bind_eq_some_iff, some.injEq] at hstep
    obtain ⟨⟨tq, q⟩, hq, rfl⟩ := hstep
    rw [view_setQueue]
    have hlss : (visibility.elim tq tq.setVisibility).inflight = tq.inflight := by
      cases visibility <;> rfl
    rw [hlss]
    exact ⟨_, done, h.push (view_table hq) payload⟩
  | take key token now =>
    simp only [step, bind_eq_bind, bind_eq_some_iff] at hstep
    obtain ⟨⟨tq, q⟩, hq, hstep⟩ := hstep
    split_ifs at hstep with hiss
    cases hrdy : q.ready with
    | nil =>
      rw [TaskQueue.dispatch_nil hrdy] at hstep
      cases hstep
      exact ⟨enqueued, done, h⟩
    | cons e ready =>
      have hseq : (tq.dispatch q token now).2.1.seqForToken token = some e.seq :=
        TaskQueue.seqForToken_dispatch hrdy token now
      have hinv := h.lease (view_table hq) hrdy
        (fun _ _ hmem ↦ hiss (mem_filterMap.mpr ⟨_, hmem, rfl⟩)) (now + tq.visibility)
      rw [TaskQueue.dispatch_cons hrdy] at hstep hseq
      cases hstep
      rw [Queue.dequeue_cons hrdy] at hinv
      refine ⟨enqueued, done, ?_⟩
      simp only [hseq, map_some, toList_some]
      rwa [view_record, view_setQueue]
  | sweep key now order =>
    simp only [step, bind_eq_bind, bind_eq_some_iff] at hstep
    obtain ⟨⟨tq, q⟩, hq, hstep⟩ := hstep
    split_ifs at hstep with hord
    cases hstep
    have hrow := view_table hq
    have htr := (h.row hrow).tracks
    rw [view_setQueue, TaskQueue.sweep_inflight]
    refine ⟨enqueued, done, h.expire hrow (TaskQueue.tracks_sweep tq htr order)
      (TaskQueue.sweep_queue_inflight tq q order) fun seq hseq ↦ ?_⟩
    obtain ⟨lease, hls, rfl⟩ := mem_map.mp (hord.mem_iff.mp hseq)
    rw [mem_filter, decide_eq_true_iff] at hls
    exact ⟨lease, hls.1, rfl, free_of_not_holds (hexcl (tq, q) hq lease hls.1 hls.2)⟩
  | respond token failed =>
    cases hstep
    rw [view_respond]
    refine ⟨enqueued, done, h.rest (fun w hw ↦ ?_) token failed⟩
    change s.responders[s.responders.length]?.map _ = _ at hw
    rw [List.getElem?_eq_none le_rfl] at hw
    cases hw
  | advance id now =>
    simp only [step, bind_eq_bind, bind_eq_some_iff, some.injEq] at hstep
    obtain ⟨r, hid, ⟨s₁, stage, events⟩, hrun, rfl⟩ := hstep
    rw [view_advance hid]
    obtain ⟨done', hinv⟩ := inv_runSection h hid (hexcl r hid) hrun
    exact ⟨enqueued, done', hinv⟩

/-- **Responses that keep out of each other's way.** In every run in which no call looks up a token
that another one holds and no lease expires while its token is held, a token is accepted at most
once, and a completed task is not delivered again. -/
theorem followed_of_exclusive (tenants : String → Option TenantId) {ops : List RespondOp}
    {s : Responders} (hrun : Steps step Exclusive (start tenants) ops s) :
    Chronicle RespondEvent.Follows s.events := by
  have hkeep : ∀ (s : Responders) op (s' : Responders),
      (∃ enqueued done, s.view.Inv enqueued done) → s.Exclusive op → s.step op = some s' →
      ∃ enqueued done, s'.view.Inv enqueued done := by
    rintro s op s' ⟨enqueued, done, hinv⟩ hexcl hstep
    exact inv_step hinv hexcl hstep
  obtain ⟨enqueued, done, hinv⟩ := hrun.invariant _ hkeep ⟨_, _, inv_start tenants⟩
  exact hinv.history

/-- A call takes its next `n` sections. -/
def advances (n id now : ℕ) : List RespondOp := List.replicate n (.advance id now)

/-- A task is completed by the first of two responses, one after the other. -/
theorem followed_of_exclusive_twice :
    ∃ s, Steps step Exclusive (start fun _ ↦ (TenantId.new "t").toOption)
        (.addTask "q" [7] none :: .take "q" [1] 0 :: .respond [1] false ::
          (advances 10 0 5).append (.respond [1] false :: (advances 2 1 6).append
            [.sweep "q" (2 * defaultVisibility) []])) s ∧
      s.events = [.delivered "q" 0 [1], .accepted "q" 0 [1] false] ∧
      Chronicle RespondEvent.Follows s.events := by
  refine exists_steps_of_isSome (by decide +kernel) fun hrun ↦ ⟨by decide +kernel, ?_⟩
  exact followed_of_exclusive _ hrun

/-- **The races.** Two responses that have both found the lease are accepted; and a task that a
response completes is returned to the queue by the sweeper. -/
theorem completion_races :
    (∃ s, Steps step (fun _ _ ↦ True) (start fun _ ↦ (TenantId.new "t").toOption)
        (.addTask "q" [7] none :: .take "q" [1] 0 :: .respond [1] false :: .respond [1] false ::
          List.flatten [advances 5 0 5, advances 5 1 5, advances 5 0 6, advances 5 1 6]) s ∧
      s.events = [.delivered "q" 0 [1], .accepted "q" 0 [1] false, .accepted "q" 0 [1] false] ∧
      ¬Chronicle RespondEvent.Follows s.events) ∧
    ∃ s, Steps step (fun _ _ ↦ True) (start fun _ ↦ (TenantId.new "t").toOption)
        (.addTask "q" [7] none :: .take "q" [1] 0 :: .respond [1] false ::
          (advances 5 0 5).append (.sweep "q" defaultVisibility [0] ::
            (advances 5 0 6).append [.take "q" [2] defaultVisibility])) s ∧
      s.events = [.delivered "q" 0 [1], .accepted "q" 0 [1] false, .delivered "q" 0 [2]] ∧
      ¬Chronicle RespondEvent.Follows s.events := by
  constructor
  · refine exists_steps_of_isSome (by decide +kernel) fun _ ↦ ⟨by decide +kernel, fun hfollows ↦ ?_⟩
    have hlast := hfollows [.delivered "q" 0 [1], .accepted "q" 0 [1] false]
      (.accepted "q" 0 [1] false) [] (by decide +kernel)
    exact hlast "q" 0 false (mem_cons_of_mem _ mem_cons_self)
  · refine exists_steps_of_isSome (by decide +kernel) fun _ ↦ ⟨by decide +kernel, fun hfollows ↦ ?_⟩
    have hlast := hfollows [.delivered "q" 0 [1], .accepted "q" 0 [1] false]
      (.delivered "q" 0 [2]) [] (by decide +kernel)
    exact hlast [1] (mem_cons_of_mem _ mem_cons_self)

end Responders

end Synapse.Workflow
