import Synapse.Lib.Chronicle
import Synapse.Lib.Run
import Synapse.Workflow.Leases

/-!
# The life of a task

A run of one routed queue: tasks are added, taken under fresh tokens, responded to by token and
swept when their lease has run out. The manager's operations are atomic, the clock never runs
backwards and no token is issued twice.

`Life` records beside the manager what the callers have seen. The places a task can be in are read
off the tables of the manager (`Ready`, `InFlight`); that it is completed is read off the history
(`CompletedIn`). `LifeCycle` states what is to hold in every state that is reached.

`Steady` ties the five tables to each other and to the history. It also describes the time before
the routed queue exists (`Held`): the tables are then those of an empty queue.
-/

namespace Synapse.Workflow

open Transition TaskQueueManager Function Option
open List hiding lookup

/-! ## Runs -/

inductive TaskEvent
  | delivered (seq : ℕ) (task : Task)
  /-- A response, its outcome and the two readings of the clock it made. -/
  | responded (token : Bytes) (failed : Bool) (result : AckResult) (now later : ℕ)
  /-- The sweeper found this lease to have run out. -/
  | expired (lease : Inflight)
deriving DecidableEq, Repr

inductive LifeOp
  | addTask (payload : Bytes) (visibility : Option ℕ) (wall : ℕ)
  | take (token : Bytes) (now : ℕ)
  | respond (token : Bytes) (failed : Bool) (now later : ℕ)
  /-- The sweeper visits the expired leases in this order. -/
  | sweep (now : ℕ) (order : List ℕ)
deriving DecidableEq, Repr

/-- The token of a delivery. -/
def TaskEvent.token? : TaskEvent → Option Bytes
  | delivered _ task => some task.taskToken
  | _ => none

def TaskEvent.delivers (seq : ℕ) : TaskEvent → Bool
  | delivered n _ => n = seq
  | _ => false

def deliveries (events : List TaskEvent) (seq : ℕ) : ℕ := events.countP (TaskEvent.delivers seq)

def issued (events : List TaskEvent) : List Bytes := events.filterMap TaskEvent.token?

def Told (events : List TaskEvent) (token : Bytes) (seq : ℕ) : Prop :=
  ∃ task, .delivered seq task ∈ events ∧ task.taskToken = token

def CompletedIn (events : List TaskEvent) (seq : ℕ) : Prop :=
  ∃ task now later, .delivered seq task ∈ events ∧
    .responded task.taskToken false .accepted now later ∈ events

/-- What an event may be, given the events before it: a completed task is not delivered and the
`k`-th delivery has attempt `k`; a token whose lease has run out is unknown; an accepted token is
not accepted again, and is a duplicate as long as it is remembered. -/
def TaskEvent.Follows (past : List TaskEvent) : TaskEvent → Prop
  | .delivered seq task => ¬CompletedIn past seq ∧ task.attempt = deliveries past seq + 1
  | .responded token _ result now _ =>
    (∀ lease, .expired lease ∈ past → lease.token = token → result = .unknown) ∧
    ∀ failed earlier recorded, .responded token failed .accepted earlier recorded ∈ past →
      result ≠ .accepted ∧ (now < recorded + completedTtl → result = .duplicate)
  | .expired _ => True

structure Life where
  manager : TaskQueueManager
  clock : ℕ
  /-- The tasks whose addition succeeded, under the number it returned. -/
  added : List QueueEntry
  events : List TaskEvent

namespace Life

def start (core : SynapseCore) (clock : ℕ) : Life := ⟨.new core, clock, [], []⟩

section Step

variable (tenant taskQueue : String) (taskType : Option String)

def step (s : Life) : LifeOp → Option Life
  | .addTask payload visibility wall =>
    match s.manager.addTask tenant taskQueue taskType payload visibility wall with
    | (.ok seq, m) => some { s with manager := m, added := s.added ++ [⟨seq, payload⟩] }
    | (.error _, m) => some { s with manager := m }
  | .take token now =>
    let key := queueKey tenant taskQueue taskType
    match s.manager.take key token now with
    | (none, m) => some { s with manager := m, clock := now }
    | (some task, m) =>
      some { s with
        manager := m
        clock := now
        events := s.events ++ (((m.queues key).bind (·.tq.seqForToken token)).map
          (.delivered · task)).toList }
  | .respond token failed now later =>
    let (result, m) := s.manager.respond token failed now later
    some { s with
      manager := m
      clock := later
      events := s.events ++ [.responded token failed result now later] }
  | .sweep now order =>
    let key := queueKey tenant taskQueue taskType
    match s.manager.queues key with
    | none => some { s with clock := now }
    | some rq =>
      if order.Perm (rq.tq.expired now) then
        some { s with
          manager := s.manager.sweep key order
          clock := now
          events := s.events ++
            (rq.tq.inflight.filter fun lease ↦ lease.expiresAt ≤ now).map .expired }
      else none

end Step

/-- The clock does not run backwards and a new token has not been issued before. -/
def Admissible (s : Life) : LifeOp → Prop
  | .addTask .. => True
  | .take token now => s.clock ≤ now ∧ token ∉ issued s.events
  | .respond _ _ now later => s.clock ≤ now ∧ now ≤ later
  | .sweep now _ => s.clock ≤ now

instance (s : Life) : (op : LifeOp) → Decidable (s.Admissible op)
  | .addTask .. => isTrue trivial
  | .take .. | .respond .. => inferInstanceAs (Decidable (_ ∧ _))
  | .sweep .. => inferInstanceAs (Decidable (_ ≤ _))

/-! ## Places -/

section Places

variable (key : String)

/-- The token is registered, has not been responded to, and is that of a lease on the task. -/
def Valid (s : Life) (token : Bytes) (seq : ℕ) : Prop :=
  s.manager.tokenIndex token = some key ∧ s.manager.completed token = none ∧
    ∃ rq, s.manager.queues key = some rq ∧ rq.tq.seqForToken token = some seq

/-- What the core queue holds under the number of a task. -/
def Holds (s : Life) (e : QueueEntry) (ready inflight : List QueueEntry) : Prop :=
  ∃ rq q, s.manager.lookup key = some (rq, q) ∧ q.ready.filter (·.seq == e.seq) = ready ∧
    q.inflight.filter (·.seq == e.seq) = inflight

def Ready (s : Life) (e : QueueEntry) : Prop :=
  s.Holds key e [e] [] ∧ ¬(∃ token, s.Valid key token e.seq) ∧ ¬CompletedIn s.events e.seq

def InFlight (s : Life) (e : QueueEntry) : Prop :=
  s.Holds key e [] [e] ∧ (∃! token, s.Valid key token e.seq) ∧ ¬CompletedIn s.events e.seq

def Completed (s : Life) (e : QueueEntry) : Prop :=
  s.Holds key e [] [] ∧ ¬(∃ token, s.Valid key token e.seq) ∧ CompletedIn s.events e.seq

end Places

/-- What holds of one routed queue at any time, and of the next step. -/
structure LifeCycle (tenant taskQueue : String) (taskType : Option String) (s : Life) : Prop where
  /-- Every task is in exactly one place; the three exclude each other. -/
  places : ∀ e ∈ s.added, s.Ready (queueKey tenant taskQueue taskType) e ∨
    s.InFlight (queueKey tenant taskQueue taskType) e ∨
    s.Completed (queueKey tenant taskQueue taskType) e
  history : Chronicle TaskEvent.Follows s.events
  /-- The valid tokens are those a response is accepted for. -/
  accepted_iff : ∀ token failed now later,
    (s.manager.respond token failed now later).1 = .accepted ↔
      ∃ e ∈ s.added, s.Valid (queueKey tenant taskQueue taskType) token e.seq
  /-- A failed task becomes ready. -/
  failed_ready : ∀ token now later s', s.clock ≤ now → now ≤ later →
    s.step tenant taskQueue taskType (.respond token true now later) = some s' →
    ∀ e ∈ s.added, s.Valid (queueKey tenant taskQueue taskType) token e.seq →
      s'.Ready (queueKey tenant taskQueue taskType) e
  /-- A task whose lease has run out becomes ready when it is swept. -/
  expired_ready : ∀ now order s', s.clock ≤ now →
    s.step tenant taskQueue taskType (.sweep now order) = some s' →
    ∀ rq, s.manager.queues (queueKey tenant taskQueue taskType) = some rq →
    ∀ lease ∈ rq.tq.inflight, lease.expiresAt ≤ now →
      ∃ e ∈ s.added, e.seq = lease.seq ∧ s'.Ready (queueKey tenant taskQueue taskType) e

/-! ## The invariant -/

/-- What the manager keeps across its routed queues, and what callers have seen. -/
structure Books where
  tokenIndex : Bytes → Option String
  completed : Bytes → Option ℕ
  clock : ℕ
  added : List QueueEntry
  events : List TaskEvent

def books (s : Life) : Books :=
  ⟨s.manager.tokenIndex, s.manager.completed, s.clock, s.added, s.events⟩

/-- The books after a response was accepted. -/
def Books.settle (b : Books) (token : Bytes) (failed : Bool) (now later : ℕ) : Books :=
  { b with
    tokenIndex := update b.tokenIndex token none
    completed := update (remembered b.completed now) token (some later)
    clock := later
    events := b.events ++ [.responded token failed .accepted now later] }

/-- The tables of a routed queue, the books and the history agree. -/
structure Steady (key : String) (b : Books) (tq : TaskQueue) (q : Queue) (done : List QueueEntry) :
    Prop where
  tracks : q.Tracks b.added done
  leases : tq.Leases q
  registered : ∀ lease ∈ tq.inflight,
    b.tokenIndex lease.token = some key ∧ b.completed lease.token = none
  own : ∀ ⦃token k⦄, b.tokenIndex token = some k → k = key
  delivered : ∀ lease ∈ tq.inflight, Told b.events lease.token lease.seq
  token_inj : ∀ token seq seq', Told b.events token seq → Told b.events token seq' → seq = seq'
  recorded : ∀ ⦃token⦄, b.completed token ≠ none → token ∈ issued b.events
  attempts : ∀ n, n ∉ done.map QueueEntry.seq → (tq.attempts n).getD 0 = deliveries b.events n
  accepted : ∀ ⦃token failed now later⦄, .responded token failed .accepted now later ∈ b.events →
    b.tokenIndex token = none ∧ (∀ lease ∈ tq.inflight, lease.token ≠ token) ∧
    token ∈ issued b.events ∧ (b.completed token = some later ∨
      b.completed token = none ∧ later + completedTtl ≤ b.clock)
  expired : ∀ ⦃lease⦄, .expired lease ∈ b.events →
    (∀ lease' ∈ tq.inflight, lease'.token ≠ lease.token) ∧ lease.token ∈ issued b.events ∧
    b.completed lease.token = none
  finished : ∀ seq, CompletedIn b.events seq ↔ seq ∈ done.map QueueEntry.seq
  history : Chronicle TaskEvent.Follows b.events

/-- The routed queue is there with these tables, or it has not been created and they are blank. -/
def Held (key : String) (m : TaskQueueManager) (tq : TaskQueue) (q : Queue) : Prop :=
  (∃ rq, m.lookup key = some (rq, q) ∧ rq.tq = tq) ∨
    (m.queues key = none ∧ (∀ t, m.core.queues.table (t, key) = none) ∧
      tq.inflight = [] ∧ (∀ n, tq.attempts n = none) ∧ q.ready = [] ∧ q.inflight = [] ∧ q.seq = 0)

def Inv (key : String) (s : Life) : Prop :=
  ∃ tq q done, Held key s.manager tq q ∧ Steady key s.books tq q done

variable {token : Bytes} {rq : RoutedQueue} {e : QueueEntry}

variable {events : List TaskEvent} {completed : Bytes → Option ℕ} {seq now later : ℕ}
  {order : List ℕ}

theorem mem_issued : token ∈ issued events ↔ ∃ seq, Told events token seq := by
  rw [issued, mem_filterMap]
  constructor
  · rintro ⟨event, hev, htok⟩
    cases event with
    | delivered seq task => exact ⟨seq, task, hev, some.inj htok⟩
    | responded | expired => cases htok
  · rintro ⟨seq, task, hev, htok⟩
    exact ⟨_, hev, congrArg some htok⟩

theorem completedIn_iff : CompletedIn events seq ↔ ∃ token now later,
      Told events token seq ∧ .responded token false .accepted now later ∈ events := by
  constructor
  · rintro ⟨task, now, later, hdel, hresp⟩
    exact ⟨_, now, later, ⟨task, hdel, rfl⟩, hresp⟩
  · rintro ⟨_, now, later, ⟨task, hdel, rfl⟩, hresp⟩
    exact ⟨task, now, later, hdel, hresp⟩

theorem issued_append (events events' : List TaskEvent) :
    issued (events ++ events') = issued events ++ issued events' :=
  filterMap_append

theorem deliveries_concat_delivered (events : List TaskEvent) (seq n : ℕ) (task : Task) :
    deliveries (events ++ [.delivered seq task]) n =
      deliveries events n + if seq = n then 1 else 0 := by
  rw [deliveries, countP_append, countP_singleton, TaskEvent.delivers, deliveries]
  simp only [decide_eq_true_eq]

theorem told_concat {n seq : ℕ} {task : Task} : Told (events ++ [.delivered n task]) token seq ↔
      Told events token seq ∨ n = seq ∧ task.taskToken = token := by
  constructor
  · rintro ⟨task', hmem, rfl⟩
    rcases mem_append.mp hmem with hmem | hmem
    · exact .inl ⟨task', hmem, rfl⟩
    · cases mem_singleton.mp hmem
      exact .inr ⟨rfl, rfl⟩
  · rintro (⟨task', hmem, rfl⟩ | ⟨rfl, rfl⟩)
    · exact ⟨task', mem_append_left _ hmem, rfl⟩
    · exact ⟨task, mem_append_right _ (mem_singleton.mpr rfl), rfl⟩

section Silent

-- events that are no deliveries: responses and leases that ran out
variable {events events' : List TaskEvent} (hsilent : ∀ event ∈ events', event.token? = none)
include hsilent

theorem deliveries_append (n : ℕ) : deliveries (events ++ events') n = deliveries events n := by
  have hnone : events'.countP (TaskEvent.delivers n) = 0 := by
    rw [countP_eq_zero]
    intro event hev
    cases event with
    | delivered seq task => cases hsilent _ hev
    | responded | expired => exact Bool.false_ne_true
  rw [deliveries, countP_append, hnone, add_zero, deliveries]

theorem issued_append_of_silent : issued (events ++ events') = issued events := by
  have hnone : issued events' = [] := filterMap_eq_nil_iff.mpr hsilent
  rw [issued_append, hnone, append_nil]

theorem told_append : Told (events ++ events') token seq ↔ Told events token seq := by
  refine exists_congr fun task ↦ and_congr_left fun _ ↦ ?_
  rw [mem_append, or_iff_left]
  intro hmem
  cases hsilent _ hmem

end Silent

theorem silent_responded (token : Bytes) (failed : Bool) (result : AckResult) (now later : ℕ) :
    ∀ event ∈ [TaskEvent.responded token failed result now later], event.token? = none := by
  intro event hev
  rw [mem_singleton.mp hev]
  rfl

theorem silent_expired (leases : List Inflight) :
    ∀ event ∈ leases.map TaskEvent.expired, event.token? = none := by
  intro event hev
  obtain ⟨lease, -, rfl⟩ := mem_map.mp hev
  rfl

theorem mem_concat_of_ne {a b : TaskEvent} (hne : a ≠ b) : a ∈ events ++ [b] ↔ a ∈ events := by
  rw [mem_append, mem_singleton, or_iff_left hne]

/-- The record of a token that was accepted, after pruning. -/
theorem remembered_of_accepted {clock t : ℕ} (hnow : clock ≤ now) (hlat : now ≤ later)
    (h : completed token = some t ∨ completed token = none ∧ t + completedTtl ≤ clock) :
    remembered completed now token = some t ∨
      remembered completed now token = none ∧ t + completedTtl ≤ later := by
  rw [remembered]
  rcases h with hsome | ⟨hnone, hpast⟩
  · rw [hsome, filter_some]
    split_ifs with hkeep
    · exact .inl rfl
    · rw [decide_eq_true_eq] at hkeep
      exact .inr ⟨rfl, by rw [completedTtl] at hkeep ⊢; omega⟩
  · rw [hnone]
    exact .inr ⟨rfl, hpast.trans (hnow.trans hlat)⟩

theorem remembered_eq_none (now : ℕ) (h : completed token = none) :
    remembered completed now token = none := by
  rw [remembered, h, filter_none]

theorem remembered_ne_none (h : remembered completed now token ≠ none) : completed token ≠ none :=
  mt (remembered_eq_none now) h

namespace Steady

variable {key : String} {b : Books} {tq : TaskQueue} {q : Queue} {done : List QueueEntry}

theorem congr (h : Steady key b tq q done) {tq' : TaskQueue} {q' : Queue}
    (hinf : tq'.inflight = tq.inflight) (hatts : ∀ n, tq'.attempts n = tq.attempts n)
    (hrdy : q'.ready = q.ready) (hq : q'.inflight = q.inflight) (hseq : q'.seq = q.seq) :
    Steady key b tq' q' done where
  tracks := h.tracks.move hseq (by rw [hrdy, hq])
  leases := h.leases.congr hinf hq
  registered := by rw [hinf]; exact h.registered
  own := h.own
  delivered := by rw [hinf]; exact h.delivered
  token_inj := h.token_inj
  recorded := h.recorded
  attempts n := by rw [hatts]; exact h.attempts n
  accepted := by rw [hinf]; exact h.accepted
  expired := by rw [hinf]; exact h.expired
  finished := h.finished
  history := h.history

variable {now later : ℕ} {e : QueueEntry}

variable (h : Steady key b tq q done)

include h

theorem tick (hnow : b.clock ≤ now) : Steady key { b with clock := now } tq q done := { h with
    accepted := by
      intro token failed earlier later hmem
      obtain ⟨hidx, hlsd, hmem, hcomp⟩ := h.accepted hmem
      exact ⟨hidx, hlsd, hmem, hcomp.imp_right fun hpast ↦ ⟨hpast.1, hpast.2.trans hnow⟩⟩ }

theorem notMem_done_of_ready (he : e ∈ q.ready) : e.seq ∉ done.map QueueEntry.seq := by
  have hpls := h.tracks.nodup_places
  rw [map_append, map_append, nodup_append] at hpls
  exact fun hdone ↦ hpls.2.2 _ (mem_map_of_mem he) _ (mem_append_right _ hdone) rfl

/-- The head of the ready list is delivered under a new token. -/
theorem take {ready : List QueueEntry} (hrdy : q.ready = e :: ready)
    (hfr : token ∉ issued b.events) (hnow : b.clock ≤ now) {task : Task}
    (htok : task.taskToken = token) (hattempt : task.attempt = (tq.attempts e.seq).getD 0 + 1) :
    Steady key { b with
        tokenIndex := update b.tokenIndex token (some key)
        clock := now
        events := b.events ++ [.delivered e.seq task] }
      (tq.dispatch q token now).2.1 (tq.dispatch q token now).2.2 done := by
  have hiss {token' : Bytes} (hmem : token' ∈ issued b.events) : token' ≠ token :=
    fun heq ↦ hfr (heq ▸ hmem)
  have hls : ∀ lease ∈ tq.inflight, lease.token ≠ token := fun lease hls ↦
    hiss (mem_issued.mpr ⟨_, h.delivered lease hls⟩)
  have hwaits := h.notMem_done_of_ready (hrdy ▸ mem_cons_self)
  have htr := h.tracks.dequeue
  have hlss := h.leases.dispatch h.tracks hrdy hls now
  rw [Queue.dequeue_cons hrdy] at htr
  rw [TaskQueue.dispatch_cons hrdy] at hlss ⊢
  -- A lease is the new one or an old one, whose token is another one.
  have hcs {P : Inflight → Prop} (hnew : P ⟨e.seq, token, now + tq.visibility⟩)
      (hold : ∀ lease ∈ tq.inflight, P lease) : ∀ lease ∈ (⟨e.seq, token, now + tq.visibility⟩ ::
        tq.inflight.filter (·.seq != e.seq) : List Inflight), P lease :=
    forall_mem_cons.mpr ⟨hnew, fun lease hmem ↦ hold lease (mem_of_mem_filter hmem)⟩
  have hiss' {token' : Bytes} (hmem : token' ∈ issued b.events) :
      token' ∈ issued (b.events ++ [.delivered e.seq task]) := by
    rw [issued_append]
    exact mem_append_left _ hmem
  refine ⟨htr, hlss, ?_, ?_, ?_, ?_, fun token' hne ↦ hiss' (h.recorded hne), ?_, ?_, ?_, ?_, ?_⟩
  · refine hcs ⟨update_self .., ?_⟩ fun lease hmem ↦ ⟨?_, (h.registered lease hmem).2⟩
    · by_contra hne
      exact hfr (h.recorded hne)
    · exact (update_of_ne (hls lease hmem) ..).trans (h.registered lease hmem).1
  · intro token' k hk
    change update b.tokenIndex token (some key) token' = some k at hk
    rw [update_apply] at hk
    split_ifs at hk
    · exact (some.inj hk).symm
    · exact h.own hk
  · simp only [told_concat]
    exact hcs (.inr ⟨rfl, htok⟩) fun lease hmem ↦ .inl (h.delivered lease hmem)
  · intro token' seq seq' h₁ h₂
    rw [told_concat, htok] at h₁ h₂
    -- one of the two is the new delivery, and then so is the other
    rcases h₁ with h₁ | ⟨rfl, rfl⟩ <;> rcases h₂ with h₂ | ⟨rfl, heq⟩
    · exact h.token_inj _ _ _ h₁ h₂
    · exact absurd heq.symm (hiss (mem_issued.mpr ⟨_, h₁⟩))
    · exact absurd rfl (hiss (mem_issued.mpr ⟨_, h₂⟩))
    · rfl
  · intro n hn
    change (update tq.attempts e.seq _ n).getD 0 = _
    rw [deliveries_concat_delivered, update_apply]
    split_ifs with h₁ h₂ h₂
    · rw [h₁, getD_some, h.attempts e.seq hwaits]
    · exact absurd h₁.symm h₂
    · exact absurd h₂.symm h₁
    · exact h.attempts n hn
  · intro token' failed earlier later hmem
    rw [mem_concat_of_ne TaskEvent.noConfusion] at hmem
    obtain ⟨hidx, hlsd, hmem, hcomp⟩ := h.accepted hmem
    exact ⟨(update_of_ne (hiss hmem) ..).trans hidx, hcs (hiss hmem).symm hlsd, hiss' hmem,
      hcomp.imp_right fun hpast ↦ ⟨hpast.1, hpast.2.trans hnow⟩⟩
  · intro lease' hmem
    rw [mem_concat_of_ne TaskEvent.noConfusion] at hmem
    obtain ⟨hlsd, hmem, hcomp⟩ := h.expired hmem
    exact ⟨hcs (hiss hmem).symm hlsd, hiss' hmem, hcomp⟩
  · intro seq
    rw [← h.finished, completedIn_iff, completedIn_iff]
    refine exists₃_congr fun token' _ _ ↦ ?_
    rw [told_concat, mem_concat_of_ne TaskEvent.noConfusion]
    -- the new token has not been accepted before
    refine and_congr_left fun hresp ↦ or_iff_left fun hnew ↦ ?_
    exact hiss (h.accepted hresp).2.2.1 (hnew.2.symm.trans htok)
  · refine h.history.concat ⟨?_, ?_⟩
    · rwa [h.finished]
    · rw [hattempt, h.attempts e.seq hwaits]

/-- A response that is not accepted prunes the completed tokens and leaves the tasks alone. -/
theorem refuse {failed : Bool} {result : AckResult}
    (hres : result ≠ .accepted) (hnow : b.clock ≤ now) (hlat : now ≤ later)
    (hfol : TaskEvent.Follows b.events (.responded token failed result now later)) :
    Steady key { b with
        completed := remembered b.completed now
        clock := later
        events := b.events ++ [.responded token failed result now later] } tq q done := by
  have hsilent := silent_responded token failed result now later
  have hacc {token' : Bytes} {failed' : Bool} {now' later' : ℕ} :
      .responded token' failed' .accepted now' later' ∈
        b.events ++ [.responded token failed result now later] ↔
      .responded token' failed' .accepted now' later' ∈ b.events :=
    mem_concat_of_ne fun heq ↦ hres (TaskEvent.responded.inj heq).2.2.1.symm
  refine ⟨h.tracks, h.leases, ?_, h.own, fun lease hls ↦ ?_, ?_, ?_, ?_, ?_, ?_, ?_,
    h.history.concat hfol⟩
  · exact fun lease hls ↦
      ⟨(h.registered lease hls).1, remembered_eq_none now (h.registered lease hls).2⟩
  · exact (told_append hsilent).mpr (h.delivered lease hls)
  · simp only [told_append hsilent]
    exact h.token_inj
  · intro token' hne
    rw [issued_append_of_silent hsilent]
    exact h.recorded (remembered_ne_none hne)
  · intro n hn
    rw [h.attempts n hn, deliveries_append hsilent]
  · intro token' failed' now' later' hmem
    obtain ⟨hidx, hlsd, hmem, hcomp⟩ := h.accepted (hacc.mp hmem)
    rw [issued_append_of_silent hsilent]
    exact ⟨hidx, hlsd, hmem, remembered_of_accepted hnow hlat hcomp⟩
  · intro lease hmem
    rw [mem_concat_of_ne TaskEvent.noConfusion] at hmem
    obtain ⟨hlsd, hmem, hcomp⟩ := h.expired hmem
    rw [issued_append_of_silent hsilent]
    exact ⟨hlsd, hmem, remembered_eq_none now hcomp⟩
  · intro seq
    simp only [← h.finished, completedIn_iff, told_append hsilent, hacc]

variable {lease : Inflight}

theorem follows_accepted (hls : lease ∈ tq.inflight) (failed : Bool) (now later : ℕ) :
    TaskEvent.Follows b.events (.responded lease.token failed .accepted now later) := by
  constructor
  · intro lease' hmem heq
    exact absurd heq.symm ((h.expired hmem).1 lease hls)
  · intro failed' earlier recorded hmem
    exact absurd rfl ((h.accepted hmem).2.1 lease hls)

/-- An accepted response drops the lease and settles the token; where the task goes is left open. -/
theorem accept (hls : lease ∈ tq.inflight) {failed : Bool} (hnow : b.clock ≤ now)
    (hlat : now ≤ later) {tq' : TaskQueue} {q' : Queue} {done' : List QueueEntry}
    (hinf : tq'.inflight = tq.inflight.filter (·.seq != lease.seq)) (htr : q'.Tracks b.added done')
    (hlss : tq'.Leases q')
    (hatts : ∀ n, n ∉ done'.map QueueEntry.seq → (tq'.attempts n).getD 0 = deliveries b.events n)
    (hfind : ∀ seq,
      CompletedIn (b.events ++ [.responded lease.token failed .accepted now later]) seq ↔
        seq ∈ done'.map QueueEntry.seq) :
    Steady key (b.settle lease.token failed now later) tq' q' done' := by
  unfold Books.settle
  have hsilent := silent_responded lease.token failed .accepted now later
  have htok : lease.token ∈ issued b.events := mem_issued.mpr ⟨_, h.delivered lease hls⟩
  -- The leases that are left have other tokens.
  have hleft : ∀ lease' ∈ tq'.inflight, lease' ∈ tq.inflight ∧ lease'.token ≠ lease.token := by
    intro lease' hmem
    rw [hinf, mem_filter, bne_iff_ne] at hmem
    exact ⟨hmem.1, fun heq ↦ hmem.2 (h.leases.eq_of_token hmem.1 hls heq ▸ rfl)⟩
  have hidx {token : Bytes} (hne : token ≠ lease.token) :
      update b.tokenIndex lease.token none token = b.tokenIndex token :=
    update_of_ne hne ..
  have hcomp {token : Bytes} (hne : token ≠ lease.token) :
      update (remembered b.completed now) lease.token (some later) token =
        remembered b.completed now token := update_of_ne hne ..
  refine ⟨htr, hlss, ?_, ?_, fun lease' hmem ↦ ?_, ?_, ?_, ?_, ?_, ?_, hfind,
    h.history.concat (h.follows_accepted hls failed now later)⟩
  · intro lease' hmem
    obtain ⟨hmem, hne⟩ := hleft lease' hmem
    obtain ⟨hregistered, hnone⟩ := h.registered lease' hmem
    exact ⟨(hidx hne).trans hregistered, (hcomp hne).trans (remembered_eq_none now hnone)⟩
  · intro token k hk
    change update b.tokenIndex lease.token none token = some k at hk
    rw [update_apply] at hk
    split_ifs at hk
    exact h.own hk
  · exact (told_append hsilent).mpr (h.delivered lease' (hleft lease' hmem).1)
  · simp only [told_append hsilent]
    exact h.token_inj
  · intro token hne
    rw [issued_append_of_silent hsilent]
    by_cases heq : token = lease.token
    · rwa [heq]
    · exact h.recorded (remembered_ne_none ((hcomp heq).symm.trans_ne hne))
  · intro n hn
    rw [hatts n hn, deliveries_append hsilent]
  · intro token failed' now' later' hmem
    rw [issued_append_of_silent hsilent]
    rcases mem_append.mp hmem with hold | hnew
    · obtain ⟨hnone, hlsd, hmem, hpast⟩ := h.accepted hold
      have hne : token ≠ lease.token := fun heq ↦ hlsd lease hls heq.symm
      refine ⟨(hidx hne).trans hnone, ?_, hmem, ?_⟩
      · exact fun lease' hls' ↦ hlsd lease' (hleft lease' hls').1
      change update _ _ _ _ = _ ∨ update _ _ _ _ = _ ∧ _
      rw [hcomp hne]
      exact remembered_of_accepted hnow hlat hpast
    · obtain ⟨rfl, -, -, -, rfl⟩ := TaskEvent.responded.inj (mem_singleton.mp hnew)
      exact ⟨update_self .., fun lease' hls' ↦ (hleft lease' hls').2, htok, .inl (update_self ..)⟩
  · intro lease' hmem
    rw [mem_concat_of_ne TaskEvent.noConfusion] at hmem
    obtain ⟨hlsd, hmem, hnone⟩ := h.expired hmem
    have hne : lease'.token ≠ lease.token := fun heq ↦ hlsd lease hls heq.symm
    rw [issued_append_of_silent hsilent]
    exact ⟨fun x hx ↦ hlsd x (hleft x hx).1, hmem, (hcomp hne).trans (remembered_eq_none now hnone)⟩

theorem completedIn_concat (hls : lease ∈ tq.inflight) (now later seq : ℕ) :
    CompletedIn (b.events ++ [.responded lease.token false .accepted now later]) seq ↔
      CompletedIn b.events seq ∨ seq = lease.seq := by
  have hdel := h.delivered lease hls
  simp only [completedIn_iff, told_append (silent_responded _ _ _ _ _)]
  constructor
  · rintro ⟨token, now', later', hdel', hresp⟩
    rcases mem_append.mp hresp with hold | hnew
    · exact .inl ⟨token, now', later', hdel', hold⟩
    · cases mem_singleton.mp hnew
      exact .inr (h.token_inj _ _ _ hdel' hdel)
  · rintro (⟨token, now', later', hdel', hresp⟩ | rfl)
    · exact ⟨token, now', later', hdel', mem_append_left _ hresp⟩
    · exact ⟨_, now, later, hdel, mem_append_right _ (mem_singleton.mpr rfl)⟩

/-- A completion: the task leaves the core queue for good. -/
theorem complete (hls : lease ∈ tq.inflight) (he : e ∈ q.inflight) (hseq : e.seq = lease.seq)
    (hnow : b.clock ≤ now) (hlat : now ≤ later) :
    Steady key (b.settle lease.token false now later)
      ((tq.removeInflight lease.seq).removeAttempts lease.seq) (q.ack lease.seq).2
      (done ++ [e]) := by
  have hmap : ∀ n, n ∈ (done ++ [e]).map QueueEntry.seq ↔
      n ∈ done.map QueueEntry.seq ∨ n = lease.seq := by
    intro n
    rw [map_append, mem_append, map_singleton, mem_singleton, hseq]
  refine h.accept hls hnow hlat rfl (hseq ▸ h.tracks.ack_of_mem he)
    (h.leases.filter (· != lease.seq) rfl rfl) ?_ ?_
  · intro n hn
    rw [hmap, not_or] at hn
    exact (congrArg (Option.getD · 0) (update_of_ne hn.2 ..)).trans (h.attempts n hn.1)
  · intro seq
    rw [h.completedIn_concat hls, h.finished, hmap]

/-- A failure: the task goes back to the ready list. -/
theorem fail (hls : lease ∈ tq.inflight) (hnow : b.clock ≤ now) (hlat : now ≤ later) :
    Steady key (b.settle lease.token true now later)
      (tq.removeInflight lease.seq) (q.nack lease.seq).2 done := by
  refine h.accept hls hnow hlat rfl (h.tracks.nack lease.seq)
    (h.leases.filter (· != lease.seq) rfl (q.nack_inflight lease.seq)) h.attempts ?_
  intro seq
  have hne {token : Bytes} {now' later' : ℕ} :
      TaskEvent.responded token false .accepted now' later' ≠
        .responded lease.token true .accepted now later :=
    fun heq ↦ Bool.false_ne_true (TaskEvent.responded.inj heq).2.1
  simp only [← h.finished, completedIn_iff, mem_concat_of_ne hne,
    told_append (silent_responded _ _ _ _ _)]

/-- The sweeper returns the tasks whose lease has run out. -/
theorem sweep (hnow : b.clock ≤ now) (hord : order.Perm (tq.expired now)) : Steady key { b with
        clock := now
        events := b.events ++ (tq.inflight.filter fun lease ↦ lease.expiresAt ≤ now).map .expired }
      (tq.sweep q order).1 (tq.sweep q order).2 done := by
  set leases := tq.inflight.filter fun lease ↦ lease.expiresAt ≤ now with hexpi
  have hleft : ∀ lease ∈ (tq.sweep q order).1.inflight,
      lease ∈ tq.inflight ∧ lease.seq ∉ order := by
    intro lease hmem
    rwa [TaskQueue.sweep_inflight, mem_filter, decide_eq_true_eq] at hmem
  have hsilent := silent_expired leases
  have hresp {token : Bytes} {failed : Bool} {result : AckResult} {now' later : ℕ} :
      .responded token failed result now' later ∈ b.events ++ leases.map .expired ↔
      .responded token failed result now' later ∈ b.events := by
    rw [mem_append, or_iff_left]
    intro hmap
    obtain ⟨lease, -, heq⟩ := mem_map.mp hmap
    cases heq
  refine ⟨TaskQueue.tracks_sweep tq h.tracks order, h.leases.sweep order,
    fun lease hls ↦ h.registered lease (hleft lease hls).1, h.own, fun lease hls ↦ ?_,
    ?_, ?_, ?_, ?_, ?_, ?_, ?_⟩
  · exact (told_append hsilent).mpr (h.delivered lease (hleft lease hls).1)
  · simp only [told_append hsilent]
    exact h.token_inj
  · intro token hne
    rw [issued_append_of_silent hsilent]
    exact h.recorded hne
  · intro n hn
    rw [TaskQueue.sweep_attempts, h.attempts n hn, deliveries_append hsilent]
  · intro token failed now' later hmem
    obtain ⟨hidx, hlsd, hmem, hcomp⟩ := h.accepted (hresp.mp hmem)
    rw [issued_append_of_silent hsilent]
    exact ⟨hidx, fun lease hls ↦ hlsd lease (hleft lease hls).1, hmem,
      hcomp.imp_right fun hpast ↦ ⟨hpast.1, hpast.2.trans hnow⟩⟩
  · intro lease hls
    rw [issued_append_of_silent hsilent]
    rcases mem_append.mp hls with hold | hnew
    · obtain ⟨hlsd, hmem, hcomp⟩ := h.expired hold
      exact ⟨fun lease' hls' ↦ hlsd lease' (hleft lease' hls').1, hmem, hcomp⟩
    -- a lease that has just run out is among those that were visited
    obtain ⟨lease', hls', heq⟩ := mem_map.mp hnew
    obtain rfl := TaskEvent.expired.inj heq
    have hold := mem_of_mem_filter hls'
    have hvisited : lease'.seq ∈ order := hord.mem_iff.mpr (mem_map_of_mem hls')
    refine ⟨?_, mem_issued.mpr ⟨_, h.delivered lease' hold⟩, (h.registered lease' hold).2⟩
    intro x hx heq
    exact (hleft x hx).2 (h.leases.eq_of_token (hleft x hx).1 hold heq ▸ hvisited)
  · intro seq
    simp only [← h.finished, completedIn_iff, told_append hsilent, hresp]
  · refine h.history.append fun event hev past ↦ ?_
    obtain ⟨lease, -, rfl⟩ := mem_map.mp hev
    trivial

end Steady

end Life

end Synapse.Workflow
