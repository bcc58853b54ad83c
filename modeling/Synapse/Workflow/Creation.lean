import Synapse.Lib.Run
import Synapse.Workflow.Dispatch

/-!
# First use of a routed queue

`get_or_create` looks in the manager's table, asks the core for a queue of that name, creates one
if there is none, and enters a routed queue over it into the table. No lock is held from one of
these sections to the next. Here each of them is one step, as are the enqueue of `add_task` and the
lookup and the dispatch of `poll`, for any number of calls on one triple of tenant, task queue and
task type.

Two calls may both be told by the core that there is no queue. The one that creates second replaces
the queue of the first, both in the core and in the table, and with it the tasks that were added in
between (`second_creation_loses`). `kept_of_fresh` shows that this is the only way to lose a task.

A `TaskQueue` is shared by the table and by the calls that hold it, so `taskQueues` keeps all of
them by address and the table refers to addresses. The token index plays no part and is left out.
-/

namespace Synapse.Workflow

open Transition TaskQueueManager List Option

/-! ## The sections of a call -/

inductive QueueCall
  | addTask (payload : Bytes) (visibility : Option ℕ)
  | poll
deriving DecidableEq, Repr

inductive QueueStage
  | lookup
  | getQueue
  | createQueue
  | insert (inner : ℕ)
  /-- `add_task` has its routed queue. -/
  | enqueue (tq : ℕ)
  /-- `poll` looks the routed queue up again. -/
  | take
  | dispatch (tq : ℕ)
  | returned
deriving DecidableEq, Repr

structure PlacedTask where
  inner : ℕ
  entry : QueueEntry
deriving DecidableEq, Repr

/-- What the core, the manager and its routed queues hold, and the calls in progress. -/
structure Creation where
  core : SynapseCore
  taskQueues : List TaskQueue
  queues : String → Option ℕ
  calls : List (QueueCall × QueueStage)
  /-- The tasks whose `add_task` returned `Ok`. -/
  added : List PlacedTask
  /-- The tasks that a poll has returned. -/
  polled : List PlacedTask

inductive CreationOp
  | call (c : QueueCall)
  /-- A call takes its next section; `now` is the clock, if it reads it, `token` what it draws, and
  `again` whether a poll that got nothing tries once more. -/
  | advance (id now : ℕ) (token : Bytes) (again : Bool)
deriving DecidableEq, Repr

namespace Creation

def start (core : SynapseCore) : Creation := ⟨core, [], fun _ ↦ none, [], [], []⟩

/-- What a call does with the routed queue it was given. -/
def proceed (tq : ℕ) : QueueCall → QueueStage
  | .addTask .. => .enqueue tq
  | .poll => .take

def store (s : Creation) (tq : ℕ) (t : TaskQueue) (q : Queue) : Creation :=
  { s with
    core := { s.core with queues := s.core.queues.write t.inner q }
    taskQueues := s.taskQueues.set tq t }

variable (tenant taskQueue : String) (taskType : Option String)

/-- The tables after the next section of a call, and its next stage. -/
def runSection (s : Creation) (c : QueueCall) (stage : QueueStage) (now : ℕ) (token : Bytes)
    (again : Bool) : Option (Creation × QueueStage) :=
  let key := queueKey tenant taskQueue taskType
  match stage with
  | .lookup =>
    match s.queues key with
    | some tq => some (s, proceed tq c)
    | none => some (s, .getQueue)
  | .getQueue =>
    match s.core.getQueue tenant key with
    | .error _ => some (s, .returned)
    | .ok none => some (s, .createQueue)
    | .ok (some id) =>
      some ({ s with core := { s.core with queues := s.core.queues.clone id } }, .insert id)
  | .createQueue =>
    match s.core.createQueue tenant key with
    | (.error _, core) => some ({ s with core := core }, .returned)
    | (.ok id, core) => some ({ s with core := core }, .insert id)
  | .insert inner =>
    let tq := s.taskQueues.length
    some ({ s with
      taskQueues := s.taskQueues ++ [.new inner defaultVisibility]
      queues := Function.update s.queues key (some tq) }, proceed tq c)
  | .enqueue tq =>
    match c with
    | .poll => none
    | .addTask payload visibility => do
      let t ← s.taskQueues[tq]?
      let q ← s.core.queues.object t.inner
      let (r, q', wal) := q.enqueue s.core.wal payload now
      let s' := { s with core := { s.core with wal := wal } }.store tq
        (visibility.elim t t.setVisibility) q'
      match r with
      | .error _ => some (s', .returned)
      | .ok seq => some ({ s' with added := s.added ++ [⟨t.inner, seq, payload⟩] }, .returned)
  | .take =>
    match s.queues key with
    | none => some (s, if again then .take else .returned)
    | some tq => some (s, .dispatch tq)
  | .dispatch tq => do
    let t ← s.taskQueues[tq]?
    let q ← s.core.queues.object t.inner
    match t.dispatch q token now with
    | (none, _, _) => some (s, if again then .take else .returned)
    | (some _, t', q') =>
      some ({ s.store tq t' q' with polled := s.polled ++ (q.ready.take 1).map (.mk t.inner) },
        .returned)
  | .returned => none

def step (s : Creation) : CreationOp → Option Creation
  | .call c =>
    -- a call without a task queue is refused at once
    some { s with calls := s.calls ++ [(c, if taskQueue = "" then .returned else .lookup)] }
  | .advance id now token again => do
    let (c, stage) ← s.calls[id]?
    let (s', stage') ← s.runSection tenant taskQueue taskType c stage now token again
    some { s' with calls := s.calls.set id (c, stage') }

def known (s : Creation) : Bool :=
  match s.core.getQueue tenant (queueKey tenant taskQueue taskType) with
  | .ok (some _) => true
  | _ => false

/-- No queue is created under a name that the core knows. -/
def Fresh (s : Creation) : CreationOp → Prop
  | .call _ => True
  | .advance id .. => ∀ c ∈ s.calls[id]?, c.2 = .createQueue → ¬s.known tenant taskQueue taskType

instance (s : Creation) (op : CreationOp) : Decidable (s.Fresh tenant taskQueue taskType op) := by
  cases op <;> dsimp only [Fresh] <;> infer_instance

/-- The core queue that the next poll reads. -/
def pollReads (s : Creation) : Option Queue := do
  let tq ← s.queues (queueKey tenant taskQueue taskType)
  let t ← s.taskQueues[tq]?
  s.core.queues.object t.inner

/-- Every task that was added and not returned by a poll is ready for the next one. -/
def Kept (s : Creation) : Prop :=
  ∀ p ∈ s.added, p ∉ s.polled → ∃ q ∈ s.pollReads tenant taskQueue taskType, p.entry ∈ q.ready

/-! ## One core queue -/

/-- The core has this queue under the name. -/
def Homed (s : Creation) (id : ℕ) : Prop :=
  s.core.getQueue tenant (queueKey tenant taskQueue taskType) = .ok (some id)

/-- All routed queues are over the core's queue of that name. -/
structure Inv (s : Creation) : Prop where
  homed : ∀ t ∈ s.taskQueues, s.Homed tenant taskQueue taskType t.inner
  inserting : ∀ c ∈ s.calls, ∀ inner, c.2 = .insert inner → s.Homed tenant taskQueue taskType inner
  listed : s.taskQueues ≠ [] → ∃ tq t,
    s.queues (queueKey tenant taskQueue taskType) = some tq ∧ s.taskQueues[tq]? = some t
  kept : ∀ p ∈ s.added, s.taskQueues ≠ [] ∧ s.Homed tenant taskQueue taskType p.inner ∧
    ∃ q, s.core.queues.object p.inner = some q ∧ (p ∈ s.polled ∨ p.entry ∈ q.ready)

variable {tenant taskQueue taskType} {s s' : Creation}

variable {id : ℕ}

theorem known_of_homed (h : s.Homed tenant taskQueue taskType id) :
    s.known tenant taskQueue taskType := by
  rw [known, h]

theorem Homed.unique {id' : ℕ} (h : s.Homed tenant taskQueue taskType id)
    (h' : s.Homed tenant taskQueue taskType id') : id = id' :=
  some.inj (Except.ok.inj (h.symm.trans h'))

theorem homed_congr (h : s'.core.queues.table = s.core.queues.table) :
    s'.Homed tenant taskQueue taskType id ↔ s.Homed tenant taskQueue taskType id := by
  rw [Homed, Homed, SynapseCore.getQueue_eq_ok, SynapseCore.getQueue_eq_ok, h]

namespace Inv

section

variable (h : Inv tenant taskQueue taskType s)

include h

theorem kept_ready : s.Kept tenant taskQueue taskType := by
  intro p hp hpolled
  obtain ⟨hne, hhome, q, hq, hrdy⟩ := h.kept p hp
  obtain ⟨tq, t, htq, ht⟩ := h.listed hne
  have hinn : t.inner = p.inner := (h.homed t (mem_of_getElem? ht)).unique hhome
  refine ⟨q, ?_, hrdy.resolve_left hpolled⟩
  rw [pollReads, htq]
  change (s.taskQueues[tq]?).bind _ = some q
  rw [ht, bind_some, hinn, hq]

/-- A change of the core that leaves the queues alone. -/
theorem core {core : SynapseCore} (htab : core.queues.table = s.core.queues.table)
    (hobj : ∀ id, core.queues.object id = s.core.queues.object id) :
    Inv tenant taskQueue taskType { s with core := core } where
  homed t ht := (homed_congr htab).mpr (h.homed t ht)
  inserting c hc inner hsta := (homed_congr htab).mpr (h.inserting c hc inner hsta)
  listed := h.listed
  kept p hp := by
    obtain ⟨hne, hhome, q, hq, hrdy⟩ := h.kept p hp
    exact ⟨hne, (homed_congr htab).mpr hhome, q, (hobj p.inner).trans hq, hrdy⟩

theorem create (hnew : ¬s.known tenant taskQueue taskType)
    (core : SynapseCore) : Inv tenant taskQueue taskType { s with core := core } where
  homed t ht := absurd (known_of_homed (h.homed t ht)) hnew
  inserting c hc inner hsta := absurd (known_of_homed (h.inserting c hc inner hsta)) hnew
  listed := h.listed
  kept p hp := absurd (known_of_homed (h.kept p hp).2.1) hnew

theorem insert {inner : ℕ} (hhome : s.Homed tenant taskQueue taskType inner) :
    Inv tenant taskQueue taskType { s with
      taskQueues := s.taskQueues ++ [.new inner defaultVisibility]
      queues := Function.update s.queues (queueKey tenant taskQueue taskType)
        (some s.taskQueues.length) } where
  homed := forall_mem_append.mpr ⟨h.homed, forall_mem_singleton.mpr hhome⟩
  inserting := h.inserting
  listed _ := ⟨s.taskQueues.length, _, Function.update_self .., List.getElem?_concat_length⟩
  kept p hp := ⟨append_ne_nil_of_right_ne_nil _ (cons_ne_nil _ _), (h.kept p hp).2⟩

end

variable {tq now : ℕ} {stage' : QueueStage} {token : Bytes} {again : Bool}

variable (h : Inv tenant taskQueue taskType s) {stage : QueueStage}

include h

/-- A method of a routed queue: what leaves the ready list has been returned by a poll. -/
theorem store {t t' : TaskQueue}
    (ht : s.taskQueues[tq]? = some t) (hinn : t'.inner = t.inner) {q q' : Queue}
    (hq : s.core.queues.object t.inner = some q) {wal : TieredSegmentedLog}
    {added polled : List PlacedTask} (hpolled : s.polled ⊆ polled)
    (hrdy : ∀ e ∈ q.ready, ⟨t.inner, e⟩ ∈ polled ∨ e ∈ q'.ready)
    (hadd : ∀ p ∈ added, p ∈ s.added ∨ p.inner = t.inner ∧ p.entry ∈ q'.ready) :
    Inv tenant taskQueue taskType
      { Creation.store { s with core := { s.core with wal := wal } } tq t' q' with
        added := added, polled := polled } := by
  have hhome := h.homed t (mem_of_getElem? ht)
  have hne : s.taskQueues.set tq t' ≠ [] := by
    intro hnil
    rw [set_eq_nil_iff] at hnil
    rw [hnil] at ht
    cases ht
  have hobj : (s.core.queues.write t'.inner q').object t.inner = some q' := by
    rw [hinn, ArcTable.object_write, if_pos rfl, hq, map_some]
  constructor
  · intro t₁ ht₁
    change s.Homed tenant taskQueue taskType t₁.inner
    rcases mem_or_eq_of_mem_set ht₁ with hold | rfl
    · exact h.homed t₁ hold
    · rwa [hinn]
  · exact h.inserting
  · intro _
    obtain ⟨tq₁, t₁, htq₁, ht₁⟩ := h.listed fun hnil ↦ by rw [hnil] at ht; cases ht
    have hlt : tq₁ < (s.taskQueues.set tq t').length := by
      rw [length_set]
      exact (List.getElem?_eq_some_iff.mp ht₁).1
    exact ⟨tq₁, _, htq₁, getElem?_eq_getElem hlt⟩
  · rintro ⟨id, e⟩ hp
    rcases hadd ⟨id, e⟩ hp with hold | ⟨rfl, hsnd⟩
    · obtain ⟨-, hhome', q₁, hq₁, hkept⟩ := h.kept ⟨id, e⟩ hold
      obtain rfl : id = t.inner := hhome'.unique hhome
      obtain rfl : q = q₁ := some.inj (hq.symm.trans hq₁)
      refine ⟨hne, hhome, q', hobj, ?_⟩
      rcases hkept with hmem | hmem
      · exact .inl (hpolled hmem)
      · exact hrdy e hmem
    · exact ⟨hne, hhome, q', hobj, .inr hsnd⟩

theorem setStage (id : ℕ) (c : QueueCall)
    (hsta : ∀ inner, stage = .insert inner → s.Homed tenant taskQueue taskType inner) :
    Inv tenant taskQueue taskType { s with calls := s.calls.set id (c, stage) } where
  homed := h.homed
  inserting c' hc' inner heq := by
    rcases mem_or_eq_of_mem_set hc' with hold | rfl
    · exact h.inserting c' hold inner heq
    · exact hsta inner heq
  listed := h.listed
  kept := h.kept

theorem runEnqueue {payload : Bytes} {visibility : Option ℕ}
    (hrun : s.runSection tenant taskQueue taskType (.addTask payload visibility) (.enqueue tq) now
      token again = some (s', stage')) :
    Inv tenant taskQueue taskType s' ∧ s'.calls = s.calls ∧
      ∀ inner, stage' = .insert inner → s'.Homed tenant taskQueue taskType inner := by
  simp only [Creation.runSection, bind_eq_bind, bind_eq_some_iff] at hrun
  obtain ⟨t, ht, q, hq, hrun⟩ := hrun
  have hinn := elim_setVisibility_inner t visibility
  rw [Queue.enqueue] at hrun
  generalize s.core.wal.append payload now = appended at hrun
  obtain ⟨_ | _, wal⟩ := appended
  · obtain ⟨rfl, rfl⟩ := hrun
    exact ⟨h.store ht hinn hq (List.Subset.refl _) (fun _ he ↦ .inr he) (fun _ hp ↦ .inl hp),
      rfl, by rintro _ ⟨⟩⟩
  obtain ⟨rfl, rfl⟩ := hrun
  refine ⟨h.store ht hinn hq (List.Subset.refl _) (fun _ he ↦ ?_) (fun p hp ↦ ?_), rfl,
    by rintro _ ⟨⟩⟩
  · exact .inr (mem_append_left _ he)
  · refine (mem_append.mp hp).imp_right fun hlast ↦ ?_
    rw [mem_singleton.mp hlast]
    exact ⟨rfl, mem_append_right _ mem_cons_self⟩

theorem runDispatch {c : QueueCall}
    (hrun : s.runSection tenant taskQueue taskType c (.dispatch tq) now token again =
      some (s', stage')) :
    Inv tenant taskQueue taskType s' ∧ s'.calls = s.calls ∧
      ∀ inner, stage' = .insert inner → s'.Homed tenant taskQueue taskType inner := by
  simp only [Creation.runSection, bind_eq_bind, bind_eq_some_iff] at hrun
  obtain ⟨t, ht, q, hq, hrun⟩ := hrun
  cases hrdy : q.ready with
  | nil =>
    rw [TaskQueue.dispatch_nil hrdy] at hrun
    obtain ⟨rfl, rfl⟩ := hrun
    refine ⟨h, rfl, fun inner heq ↦ ?_⟩
    split_ifs at heq
  | cons e ready =>
    have hinn := t.dispatch_inner q token now
    rw [TaskQueue.dispatch_cons hrdy] at hinn
    rw [TaskQueue.dispatch_cons hrdy, hrdy] at hrun
    obtain ⟨rfl, rfl⟩ := hrun
    refine ⟨h.store ht hinn hq (subset_append_left _ _) (fun x hx ↦ ?_)
      (fun _ hp ↦ .inl hp), rfl, by rintro _ ⟨⟩⟩
    rw [hrdy] at hx
    refine (mem_cons.mp hx).imp (fun heq ↦ ?_) id
    rw [heq]
    exact mem_append_right _ mem_cons_self

theorem runSection {c : QueueCall}
    (hnew : stage = .createQueue → ¬s.known tenant taskQueue taskType)
    (hins : ∀ inner, stage = .insert inner → s.Homed tenant taskQueue taskType inner)
    (hrun : s.runSection tenant taskQueue taskType c stage now token again = some (s', stage')) :
    Inv tenant taskQueue taskType s' ∧ s'.calls = s.calls ∧
      ∀ inner, stage' = .insert inner → s'.Homed tenant taskQueue taskType inner := by
  have hproceed : ∀ tq inner, proceed tq c ≠ .insert inner := by
    intro tq inner heq
    cases c <;> cases heq
  have hagain : ∀ inner, (if again then QueueStage.take else .returned) ≠ .insert inner := by
    intro inner heq
    split_ifs at heq
  cases stage with
  | lookup =>
    simp only [Creation.runSection] at hrun
    split at hrun <;> obtain ⟨rfl, rfl⟩ := hrun
    · exact ⟨h, rfl, fun inner heq ↦ absurd heq (hproceed _ inner)⟩
    · exact ⟨h, rfl, by rintro _ ⟨⟩⟩
  | getQueue =>
    simp only [Creation.runSection] at hrun
    split at hrun <;> obtain ⟨rfl, rfl⟩ := hrun
    · exact ⟨h, rfl, by rintro _ ⟨⟩⟩
    · exact ⟨h, rfl, by rintro _ ⟨⟩⟩
    rename_i id hget
    refine ⟨h.core rfl (s.core.queues.object_modify_count id (· + 1)), rfl, ?_⟩
    rintro inner ⟨⟩
    exact (homed_congr rfl).mpr hget
  | createQueue =>
    have hkn := hnew rfl
    simp only [Creation.runSection] at hrun
    split at hrun <;> obtain ⟨rfl, rfl⟩ := hrun
    · exact ⟨h.create hkn _, rfl, by rintro _ ⟨⟩⟩
    rename_i id core hcr
    refine ⟨h.create hkn core, rfl, ?_⟩
    rintro inner ⟨⟩
    obtain ⟨t, ht, rfl, hqs, -⟩ := SynapseCore.createQueue_eq_ok hcr
    refine SynapseCore.getQueue_eq_ok.mpr ⟨t, ht, ?_⟩
    rw [hqs]
    exact Function.update_self ..
  | insert inner =>
    simp only [Creation.runSection, some.injEq, Prod.mk.injEq] at hrun
    obtain ⟨rfl, rfl⟩ := hrun
    exact ⟨h.insert (hins inner rfl), rfl, fun inner heq ↦ absurd heq (hproceed _ inner)⟩
  | enqueue tq =>
    cases c with
    | poll => cases hrun
    | addTask payload visibility => exact h.runEnqueue hrun
  | take =>
    simp only [Creation.runSection] at hrun
    split at hrun <;> obtain ⟨rfl, rfl⟩ := hrun
    · exact ⟨h, rfl, fun inner heq ↦ absurd heq (hagain inner)⟩
    · exact ⟨h, rfl, by rintro _ ⟨⟩⟩
  | dispatch tq => exact h.runDispatch hrun
  | returned => cases hrun

theorem step {op : CreationOp} (hfr : s.Fresh tenant taskQueue taskType op)
    (hstep : s.step tenant taskQueue taskType op = some s') : Inv tenant taskQueue taskType s' := by
  cases op with
  | call c =>
    cases hstep
    refine ⟨h.homed, fun c' hc' inner heq ↦ ?_, h.listed, h.kept⟩
    rcases mem_append.mp hc' with hold | hlast
    · exact h.inserting c' hold inner heq
    · rw [mem_singleton.mp hlast] at heq
      dsimp only at heq
      split_ifs at heq
  | advance id now token again =>
    simp only [Creation.step, bind_eq_bind, bind_eq_some_iff, some.injEq] at hstep
    obtain ⟨⟨c, stage⟩, hid, ⟨s₁, stage'⟩, hrun, rfl⟩ := hstep
    obtain ⟨hinv, hcl, hsta⟩ := h.runSection (hfr (c, stage) hid)
      (h.inserting (c, stage) (mem_of_getElem? hid)) hrun
    rw [← hcl]
    exact hinv.setStage id c hsta

end Inv

/-- **No task is lost** in a run in which no queue is created under a name that the core knows: a
task that was added and that no poll has returned is ready in the queue that the next poll reads. -/
theorem kept_of_fresh (tenant taskQueue : String) (taskType : Option String) (core : SynapseCore)
    {ops : List CreationOp} {s : Creation}
    (hrun : Steps (step tenant taskQueue taskType) (Fresh tenant taskQueue taskType) (start core)
      ops s) : s.Kept tenant taskQueue taskType := by
  have hinv := hrun.invariant (Inv tenant taskQueue taskType)
    (fun _ _ _ h hfresh hstep ↦ h.step hfresh hstep) ⟨nofun, nofun, absurd rfl, nofun⟩
  exact hinv.kept_ready

/-- Two producers and a worker arrive together, and the first creates the queue before the others
ask the core. -/
theorem kept_of_fresh_three :
    ∃ s, Steps (step "t" "q" none) (Fresh "t" "q" none) (start (.withObjectStore .empty))
        [.call (.addTask [1] none), .call (.addTask [2] (some 5)), .call .poll,
          .advance 0 0 [] false, .advance 1 0 [] false, .advance 2 0 [] false,
          .advance 0 0 [] false, .advance 0 0 [] false, .advance 1 0 [] false,
          .advance 0 0 [] false, .advance 2 0 [] false, .advance 0 0 [] false,
          .advance 1 0 [] false, .advance 1 0 [] false, .advance 2 0 [] false,
          .advance 2 0 [] false, .advance 2 0 [9] false] s ∧
      s.calls.all (fun c ↦ c.2 = .returned) ∧
      s.added = [⟨0, 0, [1]⟩, ⟨0, 1, [2]⟩] ∧ s.polled = [⟨0, 0, [1]⟩] ∧
      s.Kept "t" "q" none := by
  refine exists_steps_of_isSome (by decide +kernel) fun hrun ↦
    ⟨by decide +kernel, by decide +kernel, by decide +kernel, ?_⟩
  exact kept_of_fresh _ _ _ _ hrun

/-- **The race.** Both calls find no queue; the first creates one and adds its task, the second puts
another one in its place, which the next poll reads. -/
theorem second_creation_loses :
    ∃ s, Steps (step "t" "q" none) (fun _ _ ↦ True) (start (.withObjectStore .empty))
        [.call (.addTask [1] none), .call (.addTask [2] none),
          .advance 0 0 [] false, .advance 1 0 [] false, .advance 0 0 [] false,
          .advance 1 0 [] false, .advance 0 0 [] false, .advance 0 0 [] false,
          .advance 0 0 [] false, .advance 1 0 [] false, .advance 1 0 [] false,
          .advance 1 0 [] false] s ∧
      s.calls.all (fun c ↦ c.2 = .returned) ∧
      s.added = [⟨0, 0, [1]⟩, ⟨1, 0, [2]⟩] ∧ s.polled = [] ∧
      (s.pollReads "t" "q" none).toList.map Queue.ready = [[⟨0, [2]⟩]] ∧ ¬s.Kept "t" "q" none := by
  refine exists_steps_of_isSome (by decide +kernel) fun _ ↦ ⟨by decide +kernel, by decide +kernel,
    by decide +kernel, by decide +kernel, fun hkept ↦ ?_⟩
  obtain ⟨q, hq, hmem⟩ := hkept ⟨0, 0, [1]⟩ (by decide +kernel) (by decide +kernel)
  cases hq
  exact absurd hmem (by decide)

end Creation

end Synapse.Workflow
