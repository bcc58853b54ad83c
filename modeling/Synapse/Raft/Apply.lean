import Synapse.Engine.Replay
import Synapse.Lib.Run
import Synapse.Raft.Node

/-!
# The apply loop

`apply_pending` takes all committed entries that have not been applied yet out of the Raft node,
which advances `last_applied` over the whole batch, and only then replays them; the first command
that is rejected ends the batch, and the entries behind it are never replayed. `Cluster::apply` does
the same. Where a batch ends depends on when the commit index moved, so two replicas of one log can
end up with different commands applied (`batches_diverge`).

The reference is `replay`: the entries one at a time, going on after a rejected one. A batch is
*orderly* if nothing that the reference would do is lost with the entries behind a rejected command:
each of them is a command the engine would reject as well, without a trace. In runs of orderly
batches every replica has applied what the reference applies (`orderly_runs_converge`).

The JSON decoding of an entry's data is a parameter, `decode`. An entry that does not decode ends a
batch like a rejected command.
-/

namespace Synapse

open Transition List

/-- A server's Raft node and its engine, with the commands applied successfully so far. -/
structure Replica where
  node : RaftNode
  core : SynapseCore
  applied : List ReplicatedCommand

variable (decode : Bytes → EngineResult ReplicatedCommand)

def SynapseCore.applyEntry (core : SynapseCore) (e : Entry) (now : ℕ) :
    EngineResult ReplicatedCommand × SynapseCore :=
  match decode e.data with
  | .error err => (.error err, core)
  | .ok cmd => ((core.applyCommand cmd now).1.map fun _ ↦ cmd, (core.applyCommand cmd now).2)

/-- The loop over a batch: the commands applied before the first error, the outcome and the engine.
`clock` gives the time at which the entry with an index is applied. -/
def SynapseCore.applyEntries (clock : ℕ → ℕ) (core : SynapseCore) :
    List Entry → List ReplicatedCommand × EngineResult Unit × SynapseCore
  | [] => ([], .ok (), core)
  | e :: rest =>
    match core.applyEntry decode e (clock e.index) with
    | (.error err, core) => ([], .error err, core)
    | (.ok cmd, core) =>
      let (applied, r, core) := applyEntries clock core rest
      (cmd :: applied, r, core)

namespace Replica

def applyPending (r : Replica) (clock : ℕ → ℕ) : EngineResult Unit × Replica :=
  let (node, toApply) := r.node.applyCommitted
  let (applied, outcome, core) := r.core.applyEntries decode clock toApply
  (outcome, ⟨node, core, r.applied ++ applied⟩)

/-! ## Runs over a committed log -/

end Replica

inductive ReplicaOp
  /-- Raft activity between two batches, which leaves the node in this state. -/
  | raft (node : RaftNode)
  | applyPending (clock : ℕ → ℕ)

namespace Replica

def start (id : NodeId) (peers : List NodeId) (store : StateStore) (object : ObjectStore) :
    Replica :=
  ⟨.new id peers store, .withObjectStore object, []⟩

/-- Raft advances the commit index along the committed log; the entries behind it may change. -/
def step (committed : List Entry) (r : Replica) : ReplicaOp → Option Replica
  | .raft node =>
    if node.lastApplied = r.node.lastApplied ∧ r.node.commitIndex ≤ node.commitIndex ∧
        node.commitIndex ≤ node.log.length ∧
        node.log.take node.commitIndex = committed.take node.commitIndex then
      some { r with node := node }
    else none
  | .applyPending clock => some (r.applyPending decode clock).2

/-- The entry is applied successfully, decided from the state before it. -/
def acceptsEntry (core : SynapseCore) (e : Entry) : Bool :=
  match decode e.data with
  | .error _ => false
  | .ok cmd => core.accepts cmd

/-- The entry is rejected and leaves no trace, decided from the state before it. -/
def idleEntry (core : SynapseCore) (e : Entry) : Bool :=
  match decode e.data with
  | .error _ => true
  | .ok cmd => core.idle cmd

/-- Behind the first entry that is rejected, all entries of the batch are idle. -/
def orderlyBatch (clock : ℕ → ℕ) (core : SynapseCore) : List Entry → Bool
  | [] => true
  | e :: rest =>
    let core' := (core.applyEntry decode e (clock e.index)).2
    if acceptsEntry decode core e then orderlyBatch clock core' rest
    else rest.all (idleEntry decode core')

def Orderly (r : Replica) : ReplicaOp → Prop
  | .raft _ => True
  | .applyPending clock => orderlyBatch decode clock r.core
      ((r.node.log.take r.node.commitIndex).drop r.node.lastApplied) = true

instance (r : Replica) (op : ReplicaOp) : Decidable (r.Orderly decode op) := by
  cases op <;> dsimp only [Orderly] <;> infer_instance

/-! ## The reference -/

def replayStep (s : SynapseCore × List ReplicatedCommand) (e : Entry) :
    SynapseCore × List ReplicatedCommand :=
  match s.1.applyEntry decode e 0 with
  | (.error _, core) => (core, s.2)
  | (.ok cmd, core) => (core, s.2 ++ [cmd])

def replay (entries : List Entry) : SynapseCore × List ReplicatedCommand :=
  entries.foldl (replayStep decode) (.withObjectStore .empty, [])

/-! ## Orderly batches follow the reference -/

variable {decode} {core : SynapseCore} {s : SynapseCore × List ReplicatedCommand} {e : Entry}
  {cmd : ReplicatedCommand} {entries : List Entry}

theorem applyEntry_of_accepts (hkey : core.LogsKeyed) (hdec : decode e.data = .ok cmd)
    (hacc : core.accepts cmd = true) (now : ℕ) :
    core.applyEntry decode e now = (.ok cmd, (core.applyCommand cmd now).2) := by
  rw [← SynapseCore.isOk_applyCommand hkey cmd now] at hacc
  rw [SynapseCore.applyEntry, hdec]
  simp only
  cases hr : (core.applyCommand cmd now).1 with
  | error err => simp [hr, Except.isOk, Except.toBool] at hacc
  | ok _ => rfl

theorem applyEntry_of_rejects (hkey : core.LogsKeyed) (hdec : decode e.data = .ok cmd)
    (hrejects : core.accepts cmd = false) (now : ℕ) :
    ∃ err, core.applyEntry decode e now = (.error err, (core.applyCommand cmd now).2) := by
  rw [← SynapseCore.isOk_applyCommand hkey cmd now] at hrejects
  rw [SynapseCore.applyEntry, hdec]
  simp only
  cases hr : (core.applyCommand cmd now).1 with
  | error err => exact ⟨err, rfl⟩
  | ok _ => simp [hr, Except.isOk, Except.toBool] at hrejects

theorem applyEntry_of_error {err : EngineError} (hdec : decode e.data = .error err) (now : ℕ) :
    core.applyEntry decode e now = (.error err, core) := by
  rw [SynapseCore.applyEntry, hdec]

theorem replay_of_idle (h : entries.all (idleEntry decode s.1) = true) :
    entries.foldl (replayStep decode) s = s := by
  induction entries with
  | nil => rfl
  | cons e rest ih =>
    rw [all_cons, Bool.and_eq_true] at h
    have hsame : replayStep decode s e = s := by
      have hidle := h.1
      rw [idleEntry] at hidle
      rw [replayStep]
      cases hdec : decode e.data with
      | error err => rw [applyEntry_of_error hdec]
      | ok cmd =>
        rw [hdec] at hidle
        obtain ⟨err, herr⟩ := SynapseCore.applyCommand_of_idle hidle 0
        rw [SynapseCore.applyEntry, hdec]
        simp only [herr]
        rfl
    rw [foldl_cons, hsame]
    exact ih h.2

theorem idleEntry_eq {core' : SynapseCore} (h : core.Agree core') :
    idleEntry decode core = idleEntry decode core' := by
  funext e
  rw [idleEntry, idleEntry]
  cases decode e.data with
  | error err => rfl
  | ok cmd => exact h.idle_eq cmd

theorem applyEntries_replay (clock : ℕ → ℕ) (hagr : core.Agree s.1) (hkey : core.LogsKeyed)
    (hordl : orderlyBatch decode clock core entries = true) :
    (core.applyEntries decode clock entries).2.2.Agree (entries.foldl (replayStep decode) s).1 ∧
      (core.applyEntries decode clock entries).2.2.LogsKeyed ∧
      (entries.foldl (replayStep decode) s).2 =
        s.2 ++ (core.applyEntries decode clock entries).1 := by
  induction entries generalizing core s with
  | nil => exact ⟨hagr, hkey, (append_nil _).symm⟩
  | cons e rest ih =>
    rw [orderlyBatch] at hordl
    rw [SynapseCore.applyEntries, foldl_cons, replayStep]
    cases hdec : decode e.data with
    | error err =>
      simp only [acceptsEntry, hdec, Bool.false_eq_true, if_false,
        applyEntry_of_error hdec] at hordl ⊢
      rw [idleEntry_eq hagr] at hordl
      rw [replay_of_idle hordl]
      exact ⟨hagr, hkey, (append_nil _).symm⟩
    | ok cmd =>
      have hagr' := hagr.applyCommand cmd (clock e.index) 0
      have hkey' := hkey.applyCommand cmd (clock e.index)
      cases hacc : core.accepts cmd with
      | true =>
        have hrefn := hagr.accepts_eq cmd ▸ hacc
        simp only [acceptsEntry, hdec, hacc, if_true,
          applyEntry_of_accepts hkey hdec hacc] at hordl ⊢
        rw [applyEntry_of_accepts (hagr.logsKeyed hkey) hdec hrefn]
        obtain ⟨hcore, hlogs, hapl⟩ := ih (s := ((s.1.applyCommand cmd 0).2, s.2 ++ [cmd]))
          hagr' hkey' hordl
        exact ⟨hcore, hlogs, by rw [hapl, append_assoc]; rfl⟩
      | false =>
        have hrefn := hagr.accepts_eq cmd ▸ hacc
        obtain ⟨err, herr⟩ := applyEntry_of_rejects hkey hdec hacc (clock e.index)
        obtain ⟨err', herr'⟩ := applyEntry_of_rejects (hagr.logsKeyed hkey) hdec hrefn 0
        simp only [acceptsEntry, hdec, hacc, Bool.false_eq_true, if_false, herr] at hordl ⊢
        rw [herr']
        rw [idleEntry_eq hagr'] at hordl
        rw [replay_of_idle (s := ((s.1.applyCommand cmd 0).2, s.2)) hordl]
        exact ⟨hagr', hkey', (append_nil _).symm⟩

/-- The replica's committed entries are those of the committed log, and it has applied what the
reference applies to the entries up to `lastApplied`. -/
structure Inv (decode : Bytes → EngineResult ReplicatedCommand) (committed : List Entry)
    (r : Replica) : Prop where
  lastApplied_le : r.node.lastApplied ≤ r.node.commitIndex
  commit_le : r.node.commitIndex ≤ r.node.log.length
  log_eq : r.node.log.take r.node.commitIndex = committed.take r.node.commitIndex
  core : r.core.Agree (replay decode (committed.take r.node.lastApplied)).1
  logsKeyed : r.core.LogsKeyed
  applied : r.applied = (replay decode (committed.take r.node.lastApplied)).2

theorem Inv.step {committed : List Entry} {r r' : Replica} {op : ReplicaOp}
    (h : r.Inv decode committed) (hok : r.Orderly decode op)
    (hstep : r.step decode committed op = some r') : r'.Inv decode committed := by
  cases op with
  | raft node =>
    rw [Replica.step] at hstep
    split_ifs at hstep with hguard
    obtain ⟨hlast, hcom, hlen, hlog⟩ := hguard
    cases hstep
    exact ⟨hlast ▸ h.lastApplied_le.trans hcom, hlen, hlog, hlast ▸ h.core, h.logsKeyed,
      hlast ▸ h.applied⟩
  | applyPending clock =>
    cases hstep
    obtain ⟨hcore, hkey, hapl⟩ := applyEntries_replay clock h.core h.logsKeyed hok
    -- the reference goes on from `lastApplied` to the commit index
    have hbatch : (replay decode (committed.take r.node.commitIndex)) =
        ((r.node.log.take r.node.commitIndex).drop r.node.lastApplied).foldl (replayStep decode)
          (replay decode (committed.take r.node.lastApplied)) := by
      rw [replay, replay, ← foldl_append, h.log_eq, drop_take]
      congr 1
      rw [← take_add, Nat.add_sub_cancel' h.lastApplied_le]
    have hpending : (r.node.log.drop r.node.lastApplied).take
        (r.node.commitIndex - r.node.lastApplied) =
        (r.node.log.take r.node.commitIndex).drop r.node.lastApplied := drop_take.symm
    rw [applyPending, r.node.applyCommitted_eq h.lastApplied_le h.commit_le, hpending]
    exact
      { lastApplied_le := le_rfl
        commit_le := h.commit_le
        log_eq := h.log_eq
        core := hbatch ▸ hcore
        logsKeyed := hkey
        applied := by
          change r.applied ++ _ = (replay decode (committed.take r.node.commitIndex)).2
          rw [hbatch, hapl, h.applied] }

theorem inv_run {committed : List Entry} {id : NodeId} {peers : List NodeId} {store : StateStore}
    {object : ObjectStore} {ops : List ReplicaOp} {r : Replica}
    (hrun : Steps (step decode committed) (Orderly decode) (start id peers store object) ops r) :
    r.Inv decode committed :=
  hrun.invariant (Inv decode committed) (fun _ _ _ h hok hstep ↦ h.step hok hstep)
    { lastApplied_le := Nat.le_refl 0, commit_le := Nat.le_refl 0, log_eq := rfl, applied := rfl
      core := ⟨rfl, rfl, rfl, rfl, [], .new _ object, .new _ .empty⟩
      logsKeyed := fun _ _ _ htab ↦ by cases htab }

/-- **Replicas converge in orderly batches.** Two replicas of one committed log that apply it in any
batches, all of them orderly, have applied the same commands once `lastApplied` is the same: all
that succeed when the entries are replayed one at a time. -/
theorem orderly_runs_converge {committed : List Entry} {id₁ id₂ : NodeId}
    {peers₁ peers₂ : List NodeId} {store₁ store₂ : StateStore} {object₁ object₂ : ObjectStore}
    {ops₁ ops₂ : List ReplicaOp} {r₁ r₂ : Replica}
    (hrun₁ : Steps (step decode committed) (Orderly decode) (start id₁ peers₁ store₁ object₁)
      ops₁ r₁)
    (hrun₂ : Steps (step decode committed) (Orderly decode) (start id₂ peers₂ store₂ object₂)
      ops₂ r₂)
    (hsame : r₁.node.lastApplied = r₂.node.lastApplied) :
    r₁.applied = r₂.applied ∧ r₁.applied = (replay decode (committed.take r₁.node.lastApplied)).2 :=
  ⟨(inv_run hrun₁).applied.trans (hsame ▸ (inv_run hrun₂).applied.symm), (inv_run hrun₁).applied⟩

/-- **Engines agree** up to clock readings: they have the same tenants, logs and queues, the same
maps up to expiries, and shared logs with the same payloads. -/
theorem orderly_runs_agree {committed : List Entry} {id₁ id₂ : NodeId}
    {peers₁ peers₂ : List NodeId} {store₁ store₂ : StateStore} {object₁ object₂ : ObjectStore}
    {ops₁ ops₂ : List ReplicaOp} {r₁ r₂ : Replica}
    (hrun₁ : Steps (step decode committed) (Orderly decode) (start id₁ peers₁ store₁ object₁)
      ops₁ r₁)
    (hrun₂ : Steps (step decode committed) (Orderly decode) (start id₂ peers₂ store₂ object₂)
      ops₂ r₂)
    (hsame : r₁.node.lastApplied = r₂.node.lastApplied) : r₁.core.Agree r₂.core :=
  (inv_run hrun₁).core.of_common (hsame ▸ (inv_run hrun₂).core)

/-! ## Runs of two replicas -/

def nodeAt (id : NodeId) (log : List Entry) (lastApplied commitIndex : ℕ) : RaftNode :=
  { RaftNode.new id ["a", "b"] ⟨0, none⟩ with
    log := log, lastApplied := lastApplied, commitIndex := commitIndex }

/-- Data `[0]` stands for an append with an empty payload, which is rejected; any other data is
appended as it is. -/
def decodeDemo (data : Bytes) : EngineResult ReplicatedCommand :=
  .ok (.logAppend "acme" "events" (if data = [0] then [] else data))

def entriesOf (datas : List Bytes) : List Entry :=
  (Chunks.numbered 1 datas).map fun d ↦ ⟨1, d.1, d.2⟩

/-- One replica applies a rejected command at the end of a batch, the other one in a batch of its
own. -/
theorem orderly_runs_converge_three : let log := entriesOf [[7], [0], [8]]
    ∃ r₁ r₂, Steps (step decodeDemo log) (Orderly decodeDemo)
        (start "a" ["a", "b"] ⟨0, none⟩ .empty)
        [.raft (nodeAt "a" log 0 2), .applyPending id, .raft (nodeAt "a" log 2 3),
          .applyPending id] r₁ ∧
      Steps (step decodeDemo log) (Orderly decodeDemo) (start "b" ["a", "b"] ⟨0, none⟩ .empty)
        [.raft (nodeAt "b" log 0 1), .applyPending id, .raft (nodeAt "b" log 1 2),
          .applyPending id, .raft (nodeAt "b" log 2 3), .applyPending id] r₂ ∧
      r₁.applied = r₂.applied ∧
      r₁.applied = (replay decodeDemo (log.take r₁.node.lastApplied)).2 := by
  refine ⟨_, _, steps_exec (by decide +kernel), steps_exec (by decide +kernel), ?_⟩
  exact orderly_runs_converge (steps_exec _) (steps_exec _) (by decide +kernel)

theorem orderly_runs_agree_two : let log := entriesOf [[0], [8]]
    ∃ r₁ r₂, Steps (step decodeDemo log) (Orderly decodeDemo)
        (start "a" ["a", "b"] ⟨0, none⟩ .empty)
        [.raft (nodeAt "a" log 0 1), .applyPending id, .raft (nodeAt "a" log 1 2),
          .applyPending id] r₁ ∧
      Steps (step decodeDemo log) (Orderly decodeDemo) (start "b" ["a", "b"] ⟨0, none⟩ .empty)
        [.raft (nodeAt "b" log 0 1), .applyPending (· + 5), .raft (nodeAt "b" log 1 2),
          .applyPending id] r₂ ∧ r₁.core.Agree r₂.core := by
  refine ⟨_, _, steps_exec (by decide +kernel), steps_exec (by decide +kernel), ?_⟩
  exact orderly_runs_agree (steps_exec _) (steps_exec _) (by decide +kernel)

/-- The log is an append with an empty payload and an append of `[7]`. The replica that commits both
entries before it applies them skips the second one. -/
theorem batches_diverge : let log := entriesOf [[0], [7]]
    ∃ r₁ r₂, Steps (step decodeDemo log) (fun _ _ ↦ True) (start "a" ["a", "b"] ⟨0, none⟩ .empty)
        [.raft (nodeAt "a" log 0 2), .applyPending id] r₁ ∧
      Steps (step decodeDemo log) (fun _ _ ↦ True) (start "b" ["a", "b"] ⟨0, none⟩ .empty)
        [.raft (nodeAt "b" log 0 1), .applyPending id, .raft (nodeAt "b" log 1 2),
          .applyPending id] r₂ ∧
      (r₁.node.lastApplied = 2 ∧ r₁.applied = []) ∧
      (r₂.node.lastApplied = 2 ∧ r₂.applied = [.logAppend "acme" "events" [7]]) := by
  exact ⟨_, _, steps_exec (by decide +kernel), steps_exec (by decide +kernel), by decide +kernel,
    by decide +kernel⟩

end Replica

end Synapse
