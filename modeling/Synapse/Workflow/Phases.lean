import Synapse.Lib.Chronicle
import Synapse.Workflow.Leases

/-!
# Responses up to their phase

What matters of a response in progress is whether it has found the lease of its token, has answered
the core queue, or has dropped the lease. `View` is a table of leases and core queues, a response in
one phase for each call, and a history. The moves of a view are the ways in which one atomic section
of the matching service can change it.

`View.Inv` is kept by every move. Two of them need a condition: a lease is found only if no response
holds its token, and a lease expires only if no response holds its token.
-/

namespace Synapse.Workflow

open List Function

/-! ## Views -/

inductive RespondEvent
  | delivered (key : String) (seq : ℕ) (token : Bytes)
  /-- A response for the task returned `Accepted`. -/
  | accepted (key : String) (seq : ℕ) (token : Bytes) (failed : Bool)
deriving DecidableEq, Repr

/-- What an event may be, given the events before it: a task whose completion was accepted is not
delivered, and a token that was accepted is not accepted again. -/
def RespondEvent.Follows (past : List RespondEvent) : RespondEvent → Prop
  | .delivered key seq _ => ∀ token, .accepted key seq token false ∉ past
  | .accepted _ _ token _ => ∀ key seq failed, .accepted key seq token failed ∉ past

inductive Phase
  /-- Before a lease is found, or after the call has returned. -/
  | idle
  | found (key : String) (seq : ℕ)
  | answered (key : String) (seq : ℕ)
  | dropped (key : String) (seq : ℕ)
deriving DecidableEq, Repr

def Phase.task : Phase → Option (String × ℕ)
  | idle => none
  | found key seq => some (key, seq)
  | answered key seq => some (key, seq)
  | dropped key seq => some (key, seq)

structure Worker where
  token : Bytes
  failed : Bool
  phase : Phase
deriving DecidableEq, Repr

/-- The response has found the lease of the token and not dropped it. -/
def Worker.Holds (w : Worker) (token : Bytes) : Prop :=
  w.token = token ∧ ∃ key seq, w.phase = .found key seq ∨ w.phase = .answered key seq

structure View where
  table : String → Option (List Inflight × Queue)
  worker : ℕ → Option Worker
  events : List RespondEvent

namespace View

/-- The leases and the core queue of one key. A lease is on a message in flight, unless a response
to its token has already answered. -/
structure Row (v : View) (key : String) (leases : List Inflight) (q : Queue)
    (enqueued done : List QueueEntry) : Prop where
  tracks : q.Tracks enqueued done
  nodup : (leases.map Inflight.seq).Nodup
  delivered : ∀ lease ∈ leases, .delivered key lease.seq lease.token ∈ v.events
  live : ∀ lease ∈ leases, (∃ e ∈ q.inflight, e.seq = lease.seq) ∨
    ∃ id w, v.worker id = some w ∧ w.token = lease.token ∧ w.phase = .answered key lease.seq

def Unleased (v : View) (token : Bytes) : Prop :=
  ∀ key leases q, v.table key = some (leases, q) → ∀ lease ∈ leases, lease.token ≠ token

/-- There is a message in flight under the number, and a lease on it has the token. -/
def Finds (v : View) (key : String) (seq : ℕ) (token : Bytes) : Prop :=
  ∃ leases q, v.table key = some (leases, q) ∧ (∃ e ∈ q.inflight, e.seq = seq) ∧
    ∀ lease ∈ leases, lease.seq = seq → lease.token = token

/-- What a response in its phase relies on. -/
structure Stands (v : View) (done : String → List QueueEntry) (w : Worker) : Prop where
  task : ∀ ⦃key seq⦄, w.phase.task = some (key, seq) → .delivered key seq w.token ∈ v.events
  found : ∀ key seq, w.phase = .found key seq → v.Finds key seq w.token
  dropped : ∀ ⦃key seq⦄, w.phase = .dropped key seq → v.Unleased w.token
  acked : w.failed = false → ∀ key seq, w.phase = .answered key seq ∨ w.phase = .dropped key seq →
    seq ∈ (done key).map QueueEntry.seq

structure Inv (v : View) (enqueued done : String → List QueueEntry) : Prop where
  row : ∀ ⦃key leases q⦄, v.table key = some (leases, q) →
    v.Row key leases q (enqueued key) (done key)
  token_inj : ∀ ⦃key seq key' seq' token⦄, .delivered key seq token ∈ v.events →
    .delivered key' seq' token ∈ v.events → key = key' ∧ seq = seq'
  stands : ∀ ⦃id w⦄, v.worker id = some w → v.Stands done w
  distinct : ∀ ⦃id id' w w' key seq⦄, v.worker id = some w → v.worker id' = some w' →
    w.phase = .found key seq → w'.phase = .found key seq → id = id'
  /-- One response per token is past its lookup. -/
  sole : ∀ ⦃id id' w w'⦄, v.worker id = some w → v.worker id' = some w' → w.token = w'.token →
    w.phase ≠ .idle → w'.phase ≠ .idle → id = id'
  accepted : ∀ ⦃key seq token failed⦄, .accepted key seq token failed ∈ v.events →
    .delivered key seq token ∈ v.events ∧ v.Unleased token ∧
    (∀ id w, v.worker id = some w → w.token = token → w.phase = .idle) ∧
    (failed = false → seq ∈ (done key).map QueueEntry.seq)
  history : Chronicle RespondEvent.Follows v.events

variable {v : View} {enqueued done : String → List QueueEntry} {key : String}
  {leases : List Inflight} {q : Queue}

def setRow (v : View) (key : String) (leases : List Inflight) (q : Queue) : View :=
  { v with table := Function.update v.table key (some (leases, q)) }

def setWorker (v : View) (id : ℕ) (w : Worker) : View :=
  { v with worker := Function.update v.worker id (some w) }

variable {leases' : List Inflight} {q' : Queue} {id seq id' : ℕ} {w w' : Worker} {token : Bytes}
  {enq ready : List QueueEntry} {e : QueueEntry}

theorem table_setRow {key' : String} : (v.setRow key leases q).table key' = some (leases', q') ↔
      (key' = key ∧ leases = leases' ∧ q = q') ∨
        (key' ≠ key ∧ v.table key' = some (leases', q')) := by
  change update v.table key _ key' = _ ↔ _
  rw [update_apply]
  split_ifs with h
  · simp [h]
  · simp [h]

theorem worker_setWorker : (v.setWorker id w).worker id' = some w' ↔
      (id' = id ∧ w = w') ∨ (id' ≠ id ∧ v.worker id' = some w') := by
  change update v.worker id _ id' = _ ↔ _
  rw [update_apply]
  split_ifs with h
  · simp [h]
  · simp [h]

theorem worker_setWorker_of_ne {w₁ : Worker} (hw : v.worker id = some w)
    (hw' : v.worker id' = some w') (hne : w.phase ≠ w'.phase) :
    (v.setWorker id w₁).worker id' = some w' := by
  refine worker_setWorker.mpr (.inr ⟨?_, hw'⟩)
  rintro rfl
  cases hw.symm.trans hw'
  exact hne rfl

theorem Unleased.setRow (h : v.Unleased token) (hlss : ∀ lease ∈ leases, lease.token ≠ token) :
    (v.setRow key leases q).Unleased token := by
  intro key' leases' q' htab
  rcases table_setRow.mp htab with ⟨-, rfl, -⟩ | ⟨-, htab⟩
  · exact hlss
  · exact h key' leases' q' htab

variable {acked : List QueueEntry}

/-- A row depends on the history and on the responses that have answered. -/
theorem Row.mono {v' : View} (h : v.Row key leases q enq acked) (hevs : v.events ⊆ v'.events)
    (hwrk : ∀ id w seq, v.worker id = some w → w.phase = .answered key seq → v'.worker id = some w)
    : v'.Row key leases q enq acked where
  tracks := h.tracks
  nodup := h.nodup
  delivered lease hls := hevs (h.delivered lease hls)
  live lease hls := by
    refine (h.live lease hls).imp_right ?_
    rintro ⟨id, w, hw, htok, hph⟩
    exact ⟨id, w, hwrk id w lease.seq hw hph, htok, hph⟩

theorem Stands.mono {v' : View} {done' : String → List QueueEntry} (h : v.Stands done w)
    (hevs : v.events ⊆ v'.events) (hdone : ∀ key, done key ⊆ done' key)
    (hunl : ∀ key seq, .delivered key seq w.token ∈ v.events → v.Unleased w.token →
      v'.Unleased w.token)
    (hfnd : ∀ key seq, w.phase = .found key seq → v.Finds key seq w.token →
      v'.Finds key seq w.token) : v'.Stands done' w where
  task key seq htask := hevs (h.task htask)
  found key seq hph := hfnd key seq hph (h.found key seq hph)
  dropped key seq hph := hunl key seq (h.task (by rw [hph]; rfl)) (h.dropped hph)
  acked hfail key seq hph := map_subset _ (hdone key) (h.acked hfail key seq hph)

theorem Inv.exists_token_of_found (h : v.Inv enqueued done) (hw : v.worker id = some w)
    (hph : w.phase = .found key seq) (hrow : v.table key = some (leases, q)) :
    (∃ e ∈ q.inflight, e.seq = seq) ∧
      ∀ lease ∈ leases, lease.seq = seq → lease.token = w.token := by
  obtain ⟨leases', q', hrow', hfnd⟩ := (h.stands hw).found key seq hph
  cases hrow'.symm.trans hrow
  exact hfnd

/-! ## Moves of the table -/

theorem subset_update (h : done key ⊆ acked) (key' : String) :
    done key' ⊆ update done key acked key' := by
  by_cases hkey : key' = key
  · rwa [hkey, update_self]
  · rw [update_of_ne hkey]
    exact List.Subset.refl _

theorem Finds.setRow {key' : String} (h : v.Finds key' seq token)
    (hrow : v.table key = some (leases, q))
    (hmem : key' = key → (∃ e ∈ q.inflight, e.seq = seq) → (∃ e ∈ q'.inflight, e.seq = seq) ∧
      ∀ lease ∈ leases', lease.seq = seq → lease ∈ leases) :
    (v.setRow key leases' q').Finds key' seq token := by
  obtain ⟨leases₁, q₁, htab, hold, htok⟩ := h
  by_cases hkey : key' = key
  · subst hkey
    cases htab.symm.trans hrow
    obtain ⟨hnew, hlss⟩ := hmem rfl hold
    exact ⟨leases', q', table_setRow.mpr (.inl ⟨rfl, rfl, rfl⟩), hnew,
      fun lease hls hseq ↦ htok lease (hlss lease hls hseq) hseq⟩
  · exact ⟨leases₁, q₁, table_setRow.mpr (.inr ⟨hkey, htab⟩), hold, htok⟩

theorem unleased_setRow_of_subset (hrow : v.table key = some (leases, q))
    (hlss : leases' ⊆ leases) (h : v.Unleased token) :
    (v.setRow key leases' q').Unleased token :=
  h.setRow fun lease hls ↦ h key leases q hrow lease (hlss hls)

section

variable (h : v.Inv enqueued done) (hrow : v.table key = some (leases, q))

include h hrow

theorem Inv.setRow {acked : List QueueEntry} (hrow' : v.Row key leases' q' enq acked)
    (hlss : leases' ⊆ leases) (hacked : done key ⊆ acked)
    (hfnd : ∀ id w seq, v.worker id = some w → w.phase = .found key seq →
      ∃ e ∈ q'.inflight, e.seq = seq) :
    (v.setRow key leases' q').Inv (update enqueued key enq) (update done key acked) := by
  refine { h with row := ?_, stands := fun id w hw ↦ ?_, accepted := ?_ }
  · intro key' leases'' q'' htab
    rcases table_setRow.mp htab with ⟨rfl, rfl, rfl⟩ | ⟨hkey, htab⟩
    · rw [update_self, update_self]
      exact hrow'.mono (List.Subset.refl _) fun _ _ _ hw _ ↦ hw
    · rw [update_of_ne hkey, update_of_ne hkey]
      exact (h.row htab).mono (List.Subset.refl _) fun _ _ _ hw _ ↦ hw
  · refine (h.stands hw).mono (List.Subset.refl _) (subset_update hacked)
      (fun _ _ _ ↦ unleased_setRow_of_subset hrow hlss) fun key' seq hph hf ↦ hf.setRow hrow ?_
    rintro rfl -
    exact ⟨hfnd id w seq hw hph, fun lease hls _ ↦ hlss hls⟩
  · intro key' seq token failed hmem
    obtain ⟨hdel, hun, hidle, hack⟩ := h.accepted hmem
    exact ⟨hdel, unleased_setRow_of_subset hrow hlss hun, hidle, fun hfail ↦
      map_subset _ (subset_update hacked key') (hack hfail)⟩

theorem Inv.push (payload : Bytes) :
    (v.setRow key leases (q.push payload)).Inv
      (update enqueued key (enqueued key ++ [⟨q.seq, payload⟩])) done := by
  have hold := h.row hrow
  have hnew : v.Row key leases (q.push payload) (enqueued key ++ [⟨q.seq, payload⟩]) (done key) :=
    ⟨hold.tracks.push payload, hold.nodup, hold.delivered, hold.live⟩
  have hinv := h.setRow hrow hnew (List.Subset.refl _) (List.Subset.refl _)
    fun id w seq hw hph ↦ (h.exists_token_of_found hw hph hrow).1
  rwa [update_eq_self] at hinv

/-- Leases that no response holds expire. -/
theorem Inv.expire {order : List ℕ} (htr : q'.Tracks (enqueued key) (done key))
    (hinf : q'.inflight = q.inflight.filter fun e ↦ decide (e.seq ∉ order))
    (hord : ∀ seq ∈ order, ∃ lease ∈ leases, lease.seq = seq ∧
      ∀ id w, v.worker id = some w → ¬w.Holds lease.token) :
    (v.setRow key (leases.filter fun lease ↦ decide (lease.seq ∉ order)) q').Inv enqueued done := by
  have hold := h.row hrow
  have hkept : ∀ seq ∉ order, (∃ e ∈ q.inflight, e.seq = seq) → ∃ e ∈ q'.inflight, e.seq = seq := by
    rintro seq hseq ⟨e, he, rfl⟩
    refine ⟨e, ?_, rfl⟩
    rw [hinf, mem_filter, decide_eq_true_iff]
    exact ⟨he, hseq⟩
  have hsub : (leases.filter fun lease ↦ decide (lease.seq ∉ order)) ⊆ leases :=
    fun lease hls ↦ mem_of_mem_filter hls
  rw [← update_eq_self key enqueued, ← update_eq_self key done]
  refine h.setRow hrow ⟨htr, ?_, ?_, ?_⟩ hsub (List.Subset.refl _) ?_
  · exact hold.nodup.sublist (filter_sublist.map _)
  · exact fun lease hls ↦ hold.delivered lease (hsub hls)
  · intro lease hls
    rw [mem_filter, decide_eq_true_iff] at hls
    exact (hold.live lease hls.1).imp_left (hkept lease.seq hls.2)
  · intro id w seq hw hph
    obtain ⟨hmem, htok⟩ := h.exists_token_of_found hw hph hrow
    refine hkept seq (fun hseq ↦ ?_) hmem
    -- the lease of a swept message would be one the response holds
    obtain ⟨lease, hls, hleaseq, hfree⟩ := hord seq hseq
    exact hfree id w hw ⟨(htok lease hls hleaseq).symm, key, seq, .inl hph⟩

end

theorem Row.inflight_dequeue (h : v.Row key leases q enq acked) (hrdy : q.ready = e :: ready)
    (hseq : ∃ x ∈ q.inflight, x.seq = seq) :
    ∃ x ∈ q.dequeue.2.inflight, x.seq = seq := by
  obtain ⟨x, hx, rfl⟩ := hseq
  refine ⟨x, ?_, rfl⟩
  rw [h.tracks.dequeue_snd hrdy]
  exact mem_cons_of_mem e hx

/-- The row after the head of the queue was leased under a new token. -/
theorem Row.lease (h : v.Row key leases q enq acked) (hrdy : q.ready = e :: ready) (token : Bytes)
    (expiresAt : ℕ) :
    Row { v with events := v.events ++ [.delivered key e.seq token] } key
      (⟨e.seq, token, expiresAt⟩ :: leases.filter (·.seq != e.seq)) q.dequeue.2 enq acked where
  tracks := h.tracks.dequeue
  nodup := by
    rw [map_cons, nodup_cons]
    refine ⟨fun hmem ↦ ?_, h.nodup.sublist (filter_sublist.map _)⟩
    obtain ⟨lease, hls, heq⟩ := mem_map.mp hmem
    exact bne_iff_ne.mp (mem_filter.mp hls).2 heq
  delivered lease hls := by
    rcases mem_cons.mp hls with rfl | hls
    · exact mem_append_right _ mem_cons_self
    · exact mem_append_left _ (h.delivered lease (mem_of_mem_filter hls))
  live lease hls := by
    rcases mem_cons.mp hls with rfl | hls
    · rw [Queue.dequeue_cons hrdy]
      exact .inl ⟨e, mem_cons_self, rfl⟩
    · exact (h.live lease (mem_of_mem_filter hls)).imp_left (h.inflight_dequeue hrdy)

theorem Inv.token_inj_concat (h : v.Inv enqueued done)
    (hfr : ∀ key seq, .delivered key seq token ∉ v.events) {n : ℕ} {key₁ key₂ : String}
    {seq₁ seq₂ : ℕ} {token' : Bytes}
    (h₁ : .delivered key₁ seq₁ token' ∈ v.events ++ [.delivered key n token])
    (h₂ : .delivered key₂ seq₂ token' ∈ v.events ++ [.delivered key n token]) :
    key₁ = key₂ ∧ seq₁ = seq₂ := by
  rcases mem_append.mp h₁ with h₁ | h₁ <;> rcases mem_append.mp h₂ with h₂ | h₂
  · exact h.token_inj h₁ h₂
  · cases mem_singleton.mp h₂
    exact absurd h₁ (hfr key₁ seq₁)
  · cases mem_singleton.mp h₁
    exact absurd h₂ (hfr key₂ seq₂)
  · cases mem_singleton.mp h₁
    cases mem_singleton.mp h₂
    exact ⟨rfl, rfl⟩

/-- The task at the head of the queue is leased under a new token. -/
theorem Inv.lease (h : v.Inv enqueued done) (hrow : v.table key = some (leases, q))
    (hrdy : q.ready = e :: ready) (hfr : ∀ key seq, .delivered key seq token ∉ v.events)
    (expiresAt : ℕ) :
    Inv
      { v.setRow key (⟨e.seq, token, expiresAt⟩ :: leases.filter (·.seq != e.seq)) q.dequeue.2 with
        events := v.events ++ [.delivered key e.seq token] }
      enqueued done := by
  have hold := h.row hrow
  have hnew := hold.tracks.head_notMem hrdy
  have hsub : v.events ⊆ v.events ++ [.delivered key e.seq token] := subset_append_left _ _
  -- a token that was delivered is not the new one
  have hne : ∀ key' seq token', .delivered key' seq token' ∈ v.events → token ≠ token' := by
    rintro key' seq token' hmem rfl
    exact hfr key' seq hmem
  have hunl : ∀ token', token ≠ token' → v.Unleased token' →
      (v.setRow key (⟨e.seq, token, expiresAt⟩ :: leases.filter (·.seq != e.seq))
        q.dequeue.2).Unleased token' := by
    intro token' htok hun
    refine hun.setRow fun lease hls ↦ ?_
    rcases mem_cons.mp hls with rfl | hls
    · exact htok
    · exact hun key leases q hrow lease (mem_of_mem_filter hls)
  refine { h with
    row := ?_, token_inj := ?_, stands := fun id w hw ↦ ?_, accepted := ?_, history := ?_ }
  · intro key' leases' q' htab
    rcases table_setRow.mp htab with ⟨rfl, rfl, rfl⟩ | ⟨hkey, htab⟩
    · exact (hold.lease hrdy token expiresAt).mono (List.Subset.refl _) fun _ _ _ hw _ ↦ hw
    · exact (h.row htab).mono hsub fun _ _ _ hw _ ↦ hw
  · exact fun key₁ seq₁ key₂ seq₂ token' h₁ h₂ ↦ h.token_inj_concat hfr h₁ h₂
  · refine (h.stands hw).mono hsub (fun _ ↦ List.Subset.refl _)
      (fun key' seq hmem ↦ hunl _ (hne key' seq _ hmem)) fun key' seq hph hf ↦
        hf.setRow hrow fun _ hmem ↦ ⟨hold.inflight_dequeue hrdy hmem, fun lease hls hseq ↦ ?_⟩
    rcases mem_cons.mp hls with rfl | hls
    · obtain ⟨x, hx, hxseq⟩ := hmem
      exact absurd (mem_map.mpr ⟨x, hx, hxseq.trans hseq.symm⟩) hnew
    · exact mem_of_mem_filter hls
  · intro key' seq token' failed hmem
    have hmem' : .accepted key' seq token' failed ∈ v.events := by
      refine (mem_append.mp hmem).resolve_right fun hlast ↦ ?_
      cases mem_singleton.mp hlast
    obtain ⟨hdel, hun, hidle, hack⟩ := h.accepted hmem'
    exact ⟨hsub hdel, hunl token' (hne _ _ _ hdel) hun, hidle, hack⟩
  · refine h.history.concat fun token' hmem ↦ ?_
    -- a completed task is among the acknowledged ones, so it is not at the head of the queue
    obtain ⟨-, -, -, hack⟩ := h.accepted hmem
    have hpls := hold.tracks.nodup_places
    rw [hrdy, cons_append, map_cons, nodup_cons, map_append, map_append] at hpls
    exact hpls.1 (mem_append_right _ (mem_append_right _ (hack rfl)))

/-! ## Moves of a response -/

section

variable (h : v.Inv enqueued done) {lease : Inflight}

include h

/-- A lease that no response holds is on a message in flight, and no response is about it. -/
theorem Inv.not_found_of_free (hrow : v.table key = some (leases, q)) (hls : lease ∈ leases)
    (hfree : ∀ id w, v.worker id = some w → ¬w.Holds lease.token) :
    (∃ e ∈ q.inflight, e.seq = lease.seq) ∧
    (∀ id w, v.worker id = some w → w.phase ≠ .found key lease.seq) ∧
    ∀ id w, v.worker id = some w → w.token = lease.token → w.phase = .idle := by
  refine ⟨?_, ?_, ?_⟩
  · refine ((h.row hrow).live lease hls).resolve_right ?_
    rintro ⟨id, w, hw, htok, hph⟩
    exact hfree id w hw ⟨htok, key, lease.seq, .inr hph⟩
  · intro id w hw hph
    obtain ⟨-, htok⟩ := h.exists_token_of_found hw hph hrow
    exact hfree id w hw ⟨(htok lease hls rfl).symm, key, lease.seq, .inl hph⟩
  intro id w hw htok
  cases hph : w.phase with
  | idle => rfl
  | found key' seq => exact absurd ⟨htok, key', seq, .inl hph⟩ (hfree id w hw)
  | answered key' seq => exact absurd ⟨htok, key', seq, .inr hph⟩ (hfree id w hw)
  | dropped key' seq =>
    have hun := (h.stands hw).dropped hph
    exact absurd htok.symm (hun key leases q hrow lease hls)

/-- A response goes on. If it is past its lookup now, it is the only one with its token and its
task, and its token has a lease. -/
theorem Inv.setWorker (hold : ∀ w₀, v.worker id = some w₀ → w₀.phase = .idle)
    (hstd : v.Stands done w)
    (hoth : w.phase ≠ .idle → ∀ id' w', v.worker id' = some w' → w'.token = w.token →
      w'.phase = .idle)
    (hdist : ∀ key seq, w.phase = .found key seq → ∀ id' w', v.worker id' = some w' →
      w'.phase ≠ .found key seq) (hlsd : w.phase ≠ .idle → ¬v.Unleased w.token) :
    (v.setWorker id w).Inv enqueued done := by
  refine { h with
    row := ?_, stands := fun id' w' hw' ↦ ?_, distinct := ?_, sole := ?_, accepted := ?_ }
  · intro key leases q hrow
    refine (h.row hrow).mono (List.Subset.refl _) fun id' w' seq hw' hph' ↦ ?_
    refine worker_setWorker.mpr (.inr ⟨?_, hw'⟩)
    rintro rfl
    cases (hold w' hw').symm.trans hph'
  · rcases worker_setWorker.mp hw' with ⟨rfl, rfl⟩ | ⟨-, hw'⟩
    · exact { hstd with }
    · exact { h.stands hw' with }
  · intro id₁ id₂ w₁ w₂ key seq hw₁ hw₂ hph₁ hph₂
    rcases worker_setWorker.mp hw₁ with ⟨rfl, rfl⟩ | ⟨-, hv₁⟩ <;>
      rcases worker_setWorker.mp hw₂ with ⟨rfl, rfl⟩ | ⟨-, hv₂⟩
    · rfl
    · exact absurd hph₂ (hdist key seq hph₁ id₂ w₂ hv₂)
    · exact absurd hph₁ (hdist key seq hph₂ id₁ w₁ hv₁)
    · exact h.distinct hv₁ hv₂ hph₁ hph₂
  · intro id₁ id₂ w₁ w₂ hw₁ hw₂ htok hidle₁ hidle₂
    rcases worker_setWorker.mp hw₁ with ⟨rfl, rfl⟩ | ⟨-, hv₁⟩ <;>
      rcases worker_setWorker.mp hw₂ with ⟨rfl, rfl⟩ | ⟨-, hv₂⟩
    · rfl
    · exact absurd (hoth hidle₁ id₂ w₂ hv₂ htok.symm) hidle₂
    · exact absurd (hoth hidle₂ id₁ w₁ hv₁ htok) hidle₁
    · exact h.sole hv₁ hv₂ htok hidle₁ hidle₂
  · intro key seq token failed hmem
    obtain ⟨hdel, hun, hidle, hack⟩ := h.accepted hmem
    refine ⟨hdel, hun, fun id' w' hw' htok ↦ ?_, hack⟩
    rcases worker_setWorker.mp hw' with ⟨rfl, rfl⟩ | ⟨-, hw'⟩
    · by_contra hph
      exact hlsd hph (htok ▸ hun)
    · exact hidle id' w' hw' htok

/-- The response begins, or makes no progress that matters. -/
theorem Inv.rest (hold : ∀ w₀, v.worker id = some w₀ → w₀.phase = .idle) (token : Bytes)
    (failed : Bool) : (v.setWorker id ⟨token, failed, .idle⟩).Inv enqueued done :=
  h.setWorker hold ⟨nofun, nofun, nofun, fun _ _ _ hor ↦ by cases hor <;> contradiction⟩
    (fun hidle ↦ absurd rfl hidle) nofun fun hidle ↦ absurd rfl hidle

/-- The response finds a lease that nobody holds. -/
theorem Inv.find (hold : ∀ w₀, v.worker id = some w₀ → w₀.phase = .idle)
    (hrow : v.table key = some (leases, q)) (hls : lease ∈ leases)
    (hfree : ∀ id w, v.worker id = some w → ¬w.Holds lease.token) (failed : Bool) :
    (v.setWorker id ⟨lease.token, failed, .found key lease.seq⟩).Inv enqueued done := by
  obtain ⟨hmem, hdist, hoth⟩ := h.not_found_of_free hrow hls hfree
  have hold' := h.row hrow
  refine h.setWorker hold ⟨?_, ?_, nofun, fun _ _ _ hor ↦ by cases hor <;> contradiction⟩
    (fun _ ↦ hoth) ?_ fun _ hun ↦ hun key leases q hrow lease hls rfl
  · rintro _ _ ⟨⟩
    exact hold'.delivered lease hls
  · rintro _ _ ⟨⟩
    exact ⟨leases, q, hrow, hmem, fun lease' hls' hseq ↦
      congrArg _ (inj_on_of_nodup_map hold'.nodup hls' hls hseq)⟩
  · rintro _ _ ⟨⟩
    exact hdist

/-- A response past its lookup goes on with its task, or returns; the table may change under it. -/
theorem Inv.advance (v' : View) {done' : String → List QueueEntry}
    {phase : Phase} (hw : v.worker id = some w) (hidle : w.phase ≠ .idle)
    (hwrk : v'.worker = v.worker) (hevs : v'.events = v.events)
    (hdone : ∀ key, done key ⊆ done' key)
    (hunl : ∀ token, v.Unleased token → v'.Unleased token)
    (hnot : ∀ key seq, phase ≠ .found key seq)
    (hrow : ∀ key leases q, v'.table key = some (leases, q) →
      (v'.setWorker id { w with phase := phase }).Row key leases q (enqueued key) (done' key))
    (hfnd : ∀ id' w' key seq, id' ≠ id → v.worker id' = some w' → w'.phase = .found key seq →
      v.Finds key seq w'.token → v'.Finds key seq w'.token)
    (hstd : v'.Stands done' { w with phase := phase }) :
    (v'.setWorker id { w with phase := phase }).Inv enqueued done' := by
  have hcs : ∀ {id' w'}, (v'.setWorker id { w with phase := phase }).worker id' = some w' →
      (id' = id ∧ { w with phase := phase } = w') ∨ (id' ≠ id ∧ v.worker id' = some w') := by
    intro id' w' hw'
    rw [← hwrk]
    exact worker_setWorker.mp hw'
  constructor
  · exact hrow
  · intro key seq key' seq' token h₁ h₂
    exact h.token_inj (hevs ▸ h₁) (hevs ▸ h₂)
  · intro id' w' hw'
    rcases hcs hw' with ⟨rfl, rfl⟩ | ⟨hid, hv'⟩
    · exact { hstd with }
    · have hoth : v'.Stands done' w' := (h.stands hv').mono (hevs ▸ List.Subset.refl _) hdone
        (fun _ _ _ ↦ hunl _) fun key seq ↦ hfnd id' w' key seq hid hv'
      exact { hoth with }
  · intro id₁ id₂ w₁ w₂ key seq hw₁ hw₂ hph₁ hph₂
    rcases hcs hw₁ with ⟨rfl, rfl⟩ | ⟨-, hv₁⟩
    · exact absurd hph₁ (hnot key seq)
    rcases hcs hw₂ with ⟨rfl, rfl⟩ | ⟨-, hv₂⟩
    · exact absurd hph₂ (hnot key seq)
    exact h.distinct hv₁ hv₂ hph₁ hph₂
  · intro id₁ id₂ w₁ w₂ hw₁ hw₂ htok hidle₁ hidle₂
    rcases hcs hw₁ with ⟨rfl, rfl⟩ | ⟨-, hv₁⟩ <;> rcases hcs hw₂ with ⟨rfl, rfl⟩ | ⟨-, hv₂⟩
    · rfl
    · exact h.sole hw hv₂ htok hidle hidle₂
    · exact h.sole hv₁ hw htok hidle₁ hidle
    · exact h.sole hv₁ hv₂ htok hidle₁ hidle₂
  · intro key seq token failed hmem
    obtain ⟨hdel, hun, hrest, hack⟩ := h.accepted (hevs ▸ hmem)
    refine ⟨hevs.symm ▸ hdel, hunl token hun, fun id' w' hw' htok ↦ ?_,
      fun hfail ↦ map_subset _ (hdone key) (hack hfail)⟩
    rcases hcs hw' with ⟨rfl, rfl⟩ | ⟨-, hv'⟩
    · exact absurd (hrest id' w hw htok) hidle
    · exact hrest id' w' hv' htok
  · exact hevs.symm ▸ h.history

section

variable (hw : v.worker id = some w)

include hw

theorem Inv.answer (hph : w.phase = .found key seq) (hrow : v.table key = some (leases, q))
    (htr : q'.Tracks (enqueued key) acked) (hinf : q'.inflight = q.inflight.filter (·.seq != seq))
    (hsub : done key ⊆ acked) (hack : w.failed = false → seq ∈ acked.map QueueEntry.seq) :
    ((v.setRow key leases q').setWorker id { w with phase := .answered key seq }).Inv enqueued
      (update done key acked) := by
  have hold := h.row hrow
  have hkept : ∀ seq', seq' ≠ seq → (∃ e ∈ q.inflight, e.seq = seq') →
      ∃ e ∈ q'.inflight, e.seq = seq' := by
    rintro seq' hseq ⟨e, he, rfl⟩
    refine ⟨e, ?_, rfl⟩
    rw [hinf, mem_filter, bne_iff_ne]
    exact ⟨he, hseq⟩
  have hans : ∀ id' w' key' seq', v.worker id' = some w' → w'.phase = .answered key' seq' →
      ((v.setRow key leases q').setWorker id { w with phase := .answered key seq }).worker id' =
        some w' :=
    fun id' w' key' seq' hw' hph' ↦ worker_setWorker_of_ne hw hw' (by simp [hph, hph'])
  apply h.advance (v.setRow key leases q') hw (by simp [hph]) rfl rfl (subset_update hsub)
    (fun _ ↦ unleased_setRow_of_subset hrow (List.Subset.refl _))
  · nofun
  · intro key' leases' q'' htab
    rcases table_setRow.mp htab with ⟨rfl, rfl, rfl⟩ | ⟨hkey, htab⟩
    · rw [update_self]
      refine ⟨htr, hold.nodup, hold.delivered, fun lease hls ↦ ?_⟩
      by_cases hseq : lease.seq = seq
      · have htok := (h.exists_token_of_found hw hph hrow).2 lease hls hseq
        refine .inr ⟨id, _, worker_setWorker.mpr (.inl ⟨rfl, rfl⟩), htok.symm, ?_⟩
        rw [hseq]
      · rcases hold.live lease hls with hmem | ⟨id', w', hw', htok, hph'⟩
        · exact .inl (hkept lease.seq hseq hmem)
        · exact .inr ⟨id', w', hans id' w' _ _ hw' hph', htok, hph'⟩
    · rw [update_of_ne hkey]
      exact (h.row htab).mono (List.Subset.refl _)
        fun id' w' seq' hw' hph' ↦ hans id' w' key' seq' hw' hph'
  · intro id' w' key' seq' hid hw' hph' hf
    refine hf.setRow hrow ?_
    rintro rfl hmem
    refine ⟨hkept seq' ?_ hmem, fun _ hls _ ↦ hls⟩
    rintro rfl
    exact hid (h.distinct hw' hw hph' hph)
  · refine ⟨fun _ _ htask ↦ (h.stands hw).task (hph ▸ htask), nofun, nofun, ?_⟩
    rintro hfail key' seq' (heq | heq) <;> cases heq
    rw [update_self]
    exact hack hfail

theorem Inv.drop (hph : w.phase = .answered key seq) (hrow : v.table key = some (leases, q)) :
    ((v.setRow key (leases.filter (·.seq != seq)) q).setWorker id
      { w with phase := .dropped key seq }).Inv enqueued done := by
  have hold := h.row hrow
  have hsub : leases.filter (·.seq != seq) ⊆ leases := fun lease hls ↦ mem_of_mem_filter hls
  have hans : ∀ id' w' key' seq', v.worker id' = some w' → w'.phase = .answered key' seq' →
      (key' = key → seq' ≠ seq) →
      ((v.setRow key (leases.filter (·.seq != seq)) q).setWorker id
        { w with phase := .dropped key seq }).worker id' = some w' := by
    intro id' w' key' seq' hw' hph' hne
    refine worker_setWorker_of_ne hw hw' ?_
    rw [hph, hph']
    rintro ⟨⟩
    exact hne rfl rfl
  apply h.advance (v.setRow key _ q) hw (by simp [hph]) rfl rfl (fun _ ↦ List.Subset.refl _)
    (fun _ ↦ unleased_setRow_of_subset hrow hsub)
  · nofun
  · intro key' leases' q' htab
    rcases table_setRow.mp htab with ⟨rfl, rfl, rfl⟩ | ⟨hkey, htab⟩
    · refine ⟨hold.tracks, hold.nodup.sublist (filter_sublist.map _),
        fun lease hls ↦ hold.delivered lease (hsub hls), fun lease hls ↦ ?_⟩
      refine (hold.live lease (hsub hls)).imp_right ?_
      rintro ⟨id', w', hw', htok, hph'⟩
      refine ⟨id', w', hans id' w' _ _ hw' hph' fun _ ↦ ?_, htok, hph'⟩
      exact bne_iff_ne.mp (mem_filter.mp hls).2
    · exact (h.row htab).mono (List.Subset.refl _) fun id' w' seq' hw' hph' ↦
          hans id' w' key' seq' hw' hph' fun heq ↦ absurd heq hkey
  · exact fun id' w' key' seq' _ _ _ hf ↦ hf.setRow hrow fun _ hmem ↦ ⟨hmem, fun _ hls _ ↦ hsub hls⟩
  · have hstd := h.stands hw
    have hdel := hstd.task (by rw [hph]; rfl)
    refine ⟨fun _ _ htask ↦ hstd.task (hph ▸ htask), nofun, ?_, ?_⟩
    rotate_left
    · rintro hfail key' seq' (heq | heq) <;> cases heq
      exact hstd.acked hfail key seq (.inl hph)
    -- a lease of this token would be on the task just dropped
    intro _ _ _ key₁ leases₁ q₁ htab lease hls htok
    rcases table_setRow.mp htab with ⟨rfl, rfl, rfl⟩ | ⟨hkey, htab⟩
    · have hls' := hold.delivered lease (hsub hls)
      rw [htok] at hls'
      exact bne_iff_ne.mp (mem_filter.mp hls).2 (h.token_inj hls' hdel).2
    · have hls' := (h.row htab).delivered lease hls
      rw [htok] at hls'
      exact hkey (h.token_inj hls' hdel).1

theorem Inv.leave (hph : w.phase = .dropped key seq) :
    (v.setWorker id { w with phase := .idle }).Inv enqueued done := by
  apply h.advance v hw (by simp [hph]) rfl rfl (fun _ ↦ List.Subset.refl _) (fun _ hun ↦ hun)
  · nofun
  · intro key' leases' q' htab
    exact (h.row htab).mono (List.Subset.refl _) fun id' w' seq' hw' hph' ↦
      worker_setWorker_of_ne hw hw' (by simp [hph, hph'])
  · exact fun _ _ _ _ _ _ _ hf ↦ hf
  · refine ⟨nofun, nofun, nofun, ?_⟩
    rintro hfail key' seq' (heq | heq) <;> cases heq

theorem Inv.accept (hph : w.phase = .dropped key seq) : Inv
      { v.setWorker id { w with phase := .idle } with
        events := v.events ++ [.accepted key seq w.token w.failed] } enqueued done := by
  have hleft := h.leave hw hph
  have hidle : w.phase ≠ .idle := fun heq ↦ by cases hph.symm.trans heq
  have hsub : v.events ⊆ v.events ++ [.accepted key seq w.token w.failed] := subset_append_left _ _
  have hdel : ∀ key' seq' token,
      .delivered key' seq' token ∈ v.events ++ [.accepted key seq w.token w.failed] →
      .delivered key' seq' token ∈ v.events := by
    intro key' seq' token hmem
    refine (mem_append.mp hmem).resolve_right fun hlast ↦ ?_
    cases mem_singleton.mp hlast
  refine { hleft with
    row := ?_, token_inj := ?_, stands := fun id' w' hw' ↦ ?_, accepted := ?_, history := ?_ }
  · intro key' leases' q' htab
    exact (hleft.row htab).mono hsub fun _ _ _ hw' _ ↦ hw'
  · intro key₁ seq₁ key₂ seq₂ token h₁ h₂
    exact h.token_inj (hdel _ _ _ h₁) (hdel _ _ _ h₂)
  · exact (hleft.stands hw').mono hsub (fun _ ↦ List.Subset.refl _) (fun _ _ _ hun ↦ hun)
      fun _ _ _ hf ↦ hf
  · intro key' seq' token failed hmem
    rcases mem_append.mp hmem with hmem | hlast
    · obtain ⟨hdel', hrest⟩ := hleft.accepted hmem
      exact ⟨hsub hdel', hrest⟩
    cases mem_singleton.mp hlast
    have hstd := h.stands hw
    refine ⟨hsub (hstd.task (by rw [hph]; rfl)), hstd.dropped hph,
      fun id' w' hw' htok ↦ ?_, fun hfail ↦ hstd.acked hfail key seq (.inr hph)⟩
    rcases worker_setWorker.mp hw' with ⟨rfl, rfl⟩ | ⟨hid, hv'⟩
    · rfl
    · by_contra hidle'
      exact hid (h.sole hv' hw htok hidle' hidle)
  · refine h.history.concat fun key' seq' failed hmem ↦ ?_
    -- this response was still under way, so its token was not accepted before
    obtain ⟨-, -, hidle', -⟩ := h.accepted hmem
    exact hidle (hidle' id w hw rfl)

end

end

end View

end Synapse.Workflow
