import Synapse.Raft.Apply
import Synapse.Raft.LogMatching

/-!
# The in-process cluster

`cluster::Cluster` drives the Raft nodes of one process directly: an election asks every other node
for its vote, `replicate` commits the whole log of a node and pushes it to all others, and `apply`
replays what is committed on the node's own engine. A node is named by its id here and by its
position in the source; the ids are distinct.

The vote requests carry the term of the candidate's last entry and the id of the node that is
asked. A voter therefore neither learns the term of the election nor keeps to one candidate, two
nodes can lead the same term, and an existing entry of the same term is never compared with what
is pushed. And `replicate` commits before it has asked anybody. In `applied_diverge` two leaders of
the first term apply different commands.

`Careful` asks for what the elections should guarantee. Then the logs match, every committed entry
stays, and the nodes apply initial parts of one sequence (`careful_run_converges`).
-/

open Function

namespace Synapse.InProcess

open Transition List Option

/-- The nodes and engines of a process. Beside them stand the commands applied so far on each node,
and the node that has acted as leader in each term. -/
structure Cluster where
  ids : List NodeId
  nodes : NodeId → RaftNode
  cores : NodeId → SynapseCore
  applied : NodeId → List ReplicatedCommand
  actor : ℕ → Option NodeId

inductive ClusterCall
  | runElection (id : NodeId)
  | leaderAppend (id : NodeId) (cmd : ReplicatedCommand)
  | replicate (id : NodeId)
  | apply (id : NodeId) (clock : ℕ → ℕ)

namespace Cluster

def new (ids : List NodeId) : Cluster where
  ids := ids
  nodes id := .new id ids {}
  cores _ := .withObjectStore .empty
  applied _ := []
  actor _ := none

variable (c : Cluster)

def setNode (id : NodeId) (n : RaftNode) : Cluster :=
  { c with nodes := update c.nodes id n }

def act (id : NodeId) : Cluster :=
  { c with actor := update c.actor (c.nodes id).currentTerm (some id) }

/-- Ask the nodes of the list, except the candidate, for their votes. The request names the voter as
the candidate, and the last entry's term as the term. -/
def collectVotes (candidate : NodeId) (lastIndex lastTerm : ℕ) :
    List NodeId → Cluster × ℕ → Cluster × ℕ
  | [], r => r
  | peer :: rest, (c, votes) =>
    if peer = candidate then collectVotes candidate lastIndex lastTerm rest (c, votes)
    else
      let (n, _, granted) := (c.nodes peer).handleRequestVote lastTerm peer lastIndex lastTerm
      collectVotes candidate lastIndex lastTerm rest
        (c.setNode peer n, if granted then votes + 1 else votes)

def runElection (id : NodeId) : Cluster × ℕ :=
  let (n, lastIndex, lastTerm) := (c.nodes id).beginElection
  let (c', votes) := collectVotes id lastIndex lastTerm c.ids (c.setNode id n, 1)
  (c'.setNode id ((c'.nodes id).finalizeElection votes), votes)

def push (id : NodeId) (leader : RaftNode) : List NodeId → Cluster → Cluster
  | [], c => c
  | peer :: rest, c =>
    if peer = id then push id leader rest c
    else push id leader rest (c.setNode peer ((c.nodes peer).handleAppendEntries
      leader.currentTerm 0 0 leader.log leader.commitIndex).1)

/-- Commit the whole log of a node, and push it to all others. -/
def replicate (id : NodeId) : Cluster :=
  let leader := (c.nodes id).commitUpTo (c.nodes id).logLen
  push id leader c.ids (c.setNode id leader)

variable (encode : ReplicatedCommand → Bytes) (decode : Bytes → EngineResult ReplicatedCommand)

def leaderAppend (id : NodeId) (cmd : ReplicatedCommand) : Cluster :=
  c.setNode id ((c.nodes id).leaderAppend (encode cmd)).1

def apply (id : NodeId) (clock : ℕ → ℕ) : EngineResult Unit × Cluster :=
  let (node, toApply) := (c.nodes id).applyCommitted
  let (done, outcome, core) := (c.cores id).applyEntries decode clock toApply
  (outcome,
    { c.setNode id node with
      cores := update c.cores id core
      applied := update c.applied id (c.applied id ++ done) })

/-- The calls on nodes of the cluster; only a node whose role is leader appends and replicates. -/
def step (c : Cluster) : ClusterCall → Option Cluster
  | .runElection id => if id ∈ c.ids then some (c.runElection id).1 else none
  | .leaderAppend id cmd =>
    if id ∈ c.ids ∧ (c.nodes id).role = .leader then some ((c.act id).leaderAppend encode id cmd)
    else none
  | .replicate id =>
    if id ∈ c.ids ∧ (c.nodes id).role = .leader then some ((c.act id).replicate id) else none
  | .apply id clock => if id ∈ c.ids then some (c.apply decode id clock).2 else none

/-- The commands of an apply call are decoded and applied without an error. -/
def NeverFails (c : Cluster) : ClusterCall → Prop
  | .apply id clock => (c.apply decode id clock).1.isOk = true
  | _ => True

def committed (id : NodeId) : List Entry :=
  (c.nodes id).log.take (c.nodes id).commitIndex

/-- A node acts as leader only in a term no other node has acted in, and replicates only a log that
holds everything committed. -/
def Careful (c : Cluster) : ClusterCall → Prop
  | .leaderAppend id _ =>
    c.actor (c.nodes id).currentTerm = none ∨ c.actor (c.nodes id).currentTerm = some id
  | .replicate id =>
    (c.actor (c.nodes id).currentTerm = none ∨ c.actor (c.nodes id).currentTerm = some id) ∧
      ∀ peer ∈ c.ids, c.committed peer <+: (c.nodes id).log
  | _ => True

/-- Of the commands applied on two nodes, the ones are an initial part of the others. -/
def Convergent : Prop :=
  ∀ a ∈ c.ids, ∀ b ∈ c.ids, c.applied a <+: c.applied b ∨ c.applied b <+: c.applied a

/-! ## The invariant -/

def commandsOf (entries : List Entry) : List ReplicatedCommand :=
  entries.filterMap fun e ↦ (decode e.data).toOption

/-- The logs match, what any node has committed is an initial part of `all`, and each node has
applied an initial part of what it has committed. -/
structure Sound (c : Cluster) (termLog : ℕ → List Entry) (all : List Entry) : Prop where
  logs : LogInv c.nodes [] c.actor termLog
  commit_le : ∀ id, (c.nodes id).commitIndex ≤ (c.nodes id).log.length
  within : ∀ id ∈ c.ids, c.committed id <+: all
  lastApplied_le : ∀ id, (c.nodes id).lastApplied ≤ (c.nodes id).commitIndex
  applied_eq : ∀ id,
    c.applied id = commandsOf decode ((c.nodes id).log.take (c.nodes id).lastApplied)

namespace Sound

variable {decode} {c : Cluster} {termLog termLog' : ℕ → List Entry} {all all' : List Entry}
  {id : NodeId}

theorem new (ids : List NodeId) : Sound decode (new ids) (fun _ ↦ []) [] where
  logs := .init (fun _ ↦ ids) fun _ ↦ {}
  commit_le _ := Nat.zero_le _
  within _ _ := prefix_rfl
  lastApplied_le _ := Nat.zero_le _
  applied_eq _ := rfl

theorem convergent (h : Sound decode c termLog all) : c.Convergent := by
  have hpre : ∀ id ∈ c.ids, (c.nodes id).log.take (c.nodes id).lastApplied <+: all := fun id hid ↦
    ( take_prefix_take_left (h.lastApplied_le id)).trans (h.within id hid)
  intro a ha b hb
  rw [h.applied_eq, h.applied_eq]
  exact ( prefix_or_prefix_of_prefix (hpre a ha) (hpre b hb)).imp
    (fun hab ↦ hab.filterMap _) fun hba ↦ hba.filterMap _

variable {n : RaftNode} {sender : List Entry}

theorem move (h : Sound decode c termLog all) {actor : ℕ → Option NodeId}
    (hlogs : LogInv (update c.nodes id n) [] actor termLog') (hlen : n.commitIndex ≤ n.log.length)
    (hkeep : c.committed id <+: n.log.take n.commitIndex)
    (hall : ∀ v ∈ c.ids, c.committed v <+: all')
    (hwth : id ∈ c.ids → n.log.take n.commitIndex <+: all')
    (hapl : n.lastApplied = (c.nodes id).lastApplied) :
    Sound decode { c.setNode id n with actor := actor } termLog' all' where
  logs := hlogs
  commit_le := (forall_update_iff c.nodes fun _ n ↦ n.commitIndex ≤ n.log.length).mpr
    ⟨hlen, fun v _ ↦ h.commit_le v⟩
  within := (forall_update_iff c.nodes fun v n ↦ v ∈ c.ids →
    n.log.take n.commitIndex <+: all').mpr ⟨hwth, fun v _ ↦ hall v⟩
  lastApplied_le := (forall_update_iff c.nodes fun _ n ↦ n.lastApplied ≤ n.commitIndex).mpr ⟨by
      have hle := hkeep.length_le
      have hold := h.lastApplied_le id
      have hcom := h.commit_le id
      rw [committed, length_take, length_take] at hle
      omega, fun v _ ↦ h.lastApplied_le v⟩
  applied_eq := (forall_update_iff c.nodes fun v n ↦
    c.applied v = commandsOf decode (n.log.take n.lastApplied)).mpr
    ⟨by
      -- what has been applied is committed, and so it is still in the log
      have hpre := (hkeep.trans ( take_prefix _ _)).take (c.nodes id).lastApplied
      rw [committed, take_take, Nat.min_eq_left (h.lastApplied_le id)] at hpre
      have hleng : ((c.nodes id).log.take (c.nodes id).lastApplied).length =
          (c.nodes id).lastApplied :=
        length_take_of_le ((h.lastApplied_le id).trans (h.commit_le id))
      have heq := hpre.eq_of_length_le (by
        rw [hleng, length_take]
        exact Nat.min_le_left _ _)
      rw [hapl, ← heq]
      exact h.applied_eq id, fun v _ ↦ h.applied_eq v⟩

theorem setNode_of_eq (h : Sound decode c termLog all) (hlog : n.log = (c.nodes id).log)
    (hterm : (c.nodes id).currentTerm ≤ n.currentTerm)
    (hcom : n.commitIndex = (c.nodes id).commitIndex)
    (hapl : n.lastApplied = (c.nodes id).lastApplied) :
    Sound decode (c.setNode id n) termLog all := by
  have hcomd : n.log.take n.commitIndex = c.committed id := by rw [hlog, hcom, committed]
  refine h.move (h.logs.replace_of_log_eq id n hlog hterm) ?_ ?_ h.within ?_ hapl
  · rw [hlog, hcom]
    exact h.commit_le id
  · rw [hcomd]
  · rw [hcomd]
    exact h.within id

/-! ### Elections -/

theorem collectVotes (candidate : NodeId) (lastIndex lastTerm : ℕ) (peers : List NodeId)
    (h : Sound decode c termLog all) (votes : ℕ) :
    Sound decode (collectVotes candidate lastIndex lastTerm peers (c, votes)).1 termLog all := by
  induction peers generalizing c votes with
  | nil => exact h
  | cons peer peers ih =>
    rw [Cluster.collectVotes]
    by_cases heq : peer = candidate
    · rw [if_pos heq]
      exact ih h votes
    rw [if_neg heq]
    exact ih (h.setNode_of_eq (n := (RaftNode.handleRequestVote ..).1) (by simp)
      (RaftNode.handleRequestVote_follows ..).term_le (by simp) (by simp)) _

theorem runElection (h : Sound decode c termLog all) (id : NodeId) :
    Sound decode (c.runElection id).1 termLog all := by
  have hbegin : Sound decode (c.setNode id (c.nodes id).beginElection.1) termLog all :=
    h.setNode_of_eq rfl (Nat.le_succ _) rfl rfl
  have hset : ∀ {c : Cluster} votes, Sound decode c termLog all →
      Sound decode (c.setNode id ((c.nodes id).finalizeElection votes)) termLog all :=
    fun _ h ↦ h.setNode_of_eq (by simp) (by simp) (by simp) (by simp)
  exact hset _ (hbegin.collectVotes id (c.nodes id).lastLog.1 (c.nodes id).lastLog.2 c.ids 1)

/-! ### Replication -/

theorem leaderAppend (h : Sound decode c termLog all) (encode : ReplicatedCommand → Bytes)
    (cmd : ReplicatedCommand)
    (hfree : c.actor (c.nodes id).currentTerm = none ∨ c.actor (c.nodes id).currentTerm = some id) :
    ∃ termLog, Sound decode ((c.act id).leaderAppend encode id cmd) termLog all := by
  have hcom := h.commit_le id
  have hcomd : ((c.nodes id).leaderAppend (encode cmd)).1.log.take
      (c.nodes id).commitIndex = c.committed id :=
    take_append_of_le_length hcom
  refine ⟨_, h.move (h.logs.leaderAppend id (encode cmd) hfree) ?_ ?_ h.within ?_ rfl⟩
  · exact hcom.trans (prefix_append _ _).length_le
  · exact hcomd ▸ prefix_rfl
  · exact fun hid ↦ hcomd ▸ h.within id hid

/-- What a node has committed after a log `sender` was pushed to it that holds what it had committed
before: all of `sender`, or what it was. -/
theorem committed_of_push {term : ℕ} {n' : RaftNode}
    (hn : (n.handleAppendEntries term 0 0 sender sender.length).1 = n') (hlog : n'.log =
      if n.accepts term 0 0 then if sender <+: n.log then n.log else sender else n.log)
    (hlen : n.commitIndex ≤ n.log.length) (hold : n.log.take n.commitIndex <+: sender) :
    n'.commitIndex ≤ n'.log.length ∧
      n.log.take n.commitIndex <+: n'.log.take n'.commitIndex ∧
      n'.log.take n'.commitIndex <+: sender := by
  have hidx := n.handleAppendEntries_commitIndex term 0 0 sender sender.length
  have hloop := n.handleAppendEntries_log term 0 0 sender sender.length
  rw [hn] at hidx hloop
  by_cases hacc : n.accepts term 0 0 = true
  · rw [if_pos hacc] at hlog hloop
    have hpre : sender <+: n'.log := by
      rw [hlog]
      split_ifs with hsub
      · exact hsub
      · exact prefix_rfl
    have hcom : n'.commitIndex = sender.length := by
      rw [hidx, ← hloop]
      have hle := hpre.length_le
      have hle' := hold.length_le
      rw [length_take_of_le hlen] at hle'
      split_ifs with hlt
      · exact Nat.min_eq_left hle
      · rw [not_and, not_lt] at hlt
        exact le_antisymm hle' (hlt hacc)
    rw [hcom, ← prefix_iff_eq_take.mp hpre]
    exact ⟨hpre.length_le, hold, prefix_rfl⟩
  · rw [if_neg hacc] at hlog
    rw [if_neg fun hand ↦ hacc hand.1] at hidx
    rw [hlog, hidx]
    exact ⟨hlen, prefix_rfl, hold⟩

theorem push_node (h : Sound decode c termLog sender) {term : ℕ} (hpre : sender <+: termLog term)
    (hid : id ∈ c.ids) :
    Sound decode (c.setNode id ((c.nodes id).handleAppendEntries term 0 0 sender
      sender.length).1) termLog sender := by
  -- the message holds the whole log
  let m : AppendEntries := ⟨term, "", 0, 0, sender, sender.length⟩
  have hcut : m.CutFrom sender := ⟨Nat.zero_le _, rfl, fun _ hlt ↦ absurd hlt (lt_irrefl 0)⟩
  have hsend : LogInv c.nodes [⟨id, m⟩] c.actor termLog := { h.logs with
      message := fun e he ↦ by
        obtain rfl := mem_singleton.mp he
        exact ⟨sender, hpre, hcut⟩ }
  have hdlv := hsend.deliver id (mem_singleton_self _)
  obtain ⟨hlen, hkeep, hwth⟩ := committed_of_push rfl
    (h.logs.log_handleAppendEntries id hpre hcut) (h.commit_le id) (h.within id hid)
  exact h.move { hdlv with message := nofun } hlen hkeep
    h.within (fun _ ↦ hwth) (by simp)

theorem push (leader : RaftNode) (hlog : leader.log = sender)
    (hcom : leader.commitIndex = sender.length) (peers : List NodeId)
    (h : Sound decode c termLog sender) (hpre : sender <+: termLog leader.currentTerm)
    (hprs : ∀ peer ∈ peers, peer ∈ c.ids) :
    Sound decode (push id leader peers c) termLog sender := by
  induction peers generalizing c with
  | nil => exact h
  | cons peer peers ih =>
    obtain ⟨hpeer, hrest⟩ := forall_mem_cons.mp hprs
    rw [Cluster.push]
    by_cases heq : peer = id
    · rw [if_pos heq]
      exact ih h hrest
    · rw [if_neg heq, hlog, hcom]
      exact ih (h.push_node hpre hpeer) hrest

theorem replicate (h : Sound decode c termLog all)
    (hfree : c.actor (c.nodes id).currentTerm = none ∨ c.actor (c.nodes id).currentTerm = some id)
    (hall : ∀ peer ∈ c.ids, c.committed peer <+: (c.nodes id).log) (hid : id ∈ c.ids) :
    ∃ termLog, Sound decode ((c.act id).replicate id) termLog (c.nodes id).log := by
  set leader := (c.nodes id).commitUpTo (c.nodes id).logLen with hleader
  have hcom : leader.commitIndex = (c.nodes id).log.length := Nat.min_self _
  have hcomd : leader.log.take leader.commitIndex = (c.nodes id).log := by
    rw [hcom]
    exact take_length
  have hlead := h.logs.lead id leader hfree rfl rfl rfl
  have hst0 := h.move hlead hcom.le (by rw [hcomd]; exact hall id hid) hall
    (fun _ ↦ by rw [hcomd]) rfl
  have hterm : leader.currentTerm = (c.nodes id).currentTerm := rfl
  refine ⟨_, hst0.push _ rfl hcom c.ids ?_ fun _ hpeer ↦ hpeer⟩
  rw [hterm, update_self]

/-! ### Application -/

/-- A batch that is applied without an error is applied as a whole. -/
theorem applyEntries_of_isOk (clock : ℕ → ℕ) (entries : List Entry) (core : SynapseCore)
    (hok : (core.applyEntries decode clock entries).2.1.isOk = true) :
    (core.applyEntries decode clock entries).1 = commandsOf decode entries := by
  induction entries generalizing core with
  | nil => rfl
  | cons e rest ih =>
    rw [SynapseCore.applyEntries, SynapseCore.applyEntry] at hok ⊢
    cases hdec : decode e.data with
    | error err => simp [hdec, Except.isOk, Except.toBool] at hok
    | ok cmd =>
      have hcons : commandsOf decode (e :: rest) = cmd :: commandsOf decode rest := by
        rw [commandsOf, filterMap_cons, hdec]
        rfl
      rw [hcons]
      simp only [hdec] at hok ⊢
      cases hr : (core.applyCommand cmd (clock e.index)).1 with
      | error err => simp [hr, Except.map, Except.isOk, Except.toBool] at hok
      | ok _ =>
        simp only [hr, Except.map] at hok ⊢
        rw [ih _ hok]

theorem apply (h : Sound decode c termLog all) {clock : ℕ → ℕ}
    (hok : (c.apply decode id clock).1.isOk = true) :
    Sound decode (c.apply decode id clock).2 termLog all := by
  have hcomd := (c.nodes id).applyCommitted_eq (h.lastApplied_le id) (h.commit_le id)
  rw [Cluster.apply, hcomd] at hok ⊢
  have hdone := applyEntries_of_isOk clock _ (c.cores id) hok
  refine ⟨h.logs.replace_of_log_eq id _ rfl le_rfl, ?_, ?_, ?_, fun v ↦ ?_⟩
  · exact (forall_update_iff c.nodes fun _ n ↦ n.commitIndex ≤ n.log.length).mpr
      ⟨h.commit_le id, fun v _ ↦ h.commit_le v⟩
  · exact (forall_update_iff c.nodes fun v n ↦ v ∈ c.ids → n.log.take n.commitIndex <+: all).mpr
      ⟨h.within id, fun v _ ↦ h.within v⟩
  · exact (forall_update_iff c.nodes fun _ n ↦ n.lastApplied ≤ n.commitIndex).mpr
      ⟨le_rfl, fun v _ ↦ h.lastApplied_le v⟩
  · rcases eq_or_ne v id with rfl | hne
    · simp only [Cluster.setNode, update_self]
      have hsp : (c.nodes v).log.take (c.nodes v).commitIndex =
          (c.nodes v).log.take (c.nodes v).lastApplied ++ ((c.nodes v).log.drop
            (c.nodes v).lastApplied).take ((c.nodes v).commitIndex - (c.nodes v).lastApplied) := by
        rw [← take_add, Nat.add_sub_cancel' (h.lastApplied_le v)]
      rw [hdone, h.applied_eq v, hsp, commandsOf, commandsOf, commandsOf, filterMap_append]
    · simp only [Cluster.setNode, update_of_ne hne]
      exact h.applied_eq v

theorem step {encode : ReplicatedCommand → Bytes} {c' : Cluster} {op : ClusterCall}
    (h : Sound decode c termLog all) (hok : c.NeverFails decode op) (hcare : c.Careful op)
    (hstep : c.step encode decode op = some c') :
    ∃ termLog all, Sound decode c' termLog all := by
  cases op with
  | runElection id =>
    obtain ⟨-, heq⟩ := ite_none_right_eq_some.mp hstep
    cases heq
    exact ⟨termLog, all, h.runElection id⟩
  | leaderAppend id cmd =>
    obtain ⟨-, heq⟩ := ite_none_right_eq_some.mp hstep
    cases heq
    obtain ⟨termLog', h'⟩ := h.leaderAppend encode cmd hcare
    exact ⟨termLog', all, h'⟩
  | replicate id =>
    obtain ⟨⟨hid, -⟩, heq⟩ := ite_none_right_eq_some.mp hstep
    cases heq
    obtain ⟨termLog', h'⟩ := h.replicate hcare.1 hcare.2 hid
    exact ⟨termLog', _, h'⟩
  | apply id clock =>
    obtain ⟨-, heq⟩ := ite_none_right_eq_some.mp hstep
    cases heq
    exact ⟨termLog, all, h.apply hok⟩

end Sound

variable {encode decode}

/-- **Convergence.** In every run of careful calls whose commands never fail, the commands applied
on any two nodes are initial parts of one another. -/
theorem careful_run_converges {ids : List NodeId} {ops : List ClusterCall} {c : Cluster}
    (hrun : Steps (step encode decode) (fun c op ↦ c.NeverFails decode op ∧ c.Careful op)
      (new ids) ops c) : c.Convergent := by
  obtain ⟨termLog, all, h⟩ := hrun.invariant (fun c ↦ ∃ termLog all, Sound decode c termLog all)
    (fun _ _ _ ⟨_, _, h⟩ hok hstep ↦ h.step hok.1 hok.2 hstep) ⟨_, _, .new ids⟩
  exact h.convergent

instance (c : Cluster) : DecidablePred (c.NeverFails decode) := fun op ↦ by
  cases op <;> dsimp only [NeverFails] <;> infer_instance

instance (c : Cluster) : DecidablePred c.Careful := fun op ↦ by
  cases op <;> dsimp only [Careful] <;> infer_instance

def encodeDemo : ReplicatedCommand → Bytes
  | .logAppend _ _ payload => payload
  | _ => []

/-- A careful run with a change of leader: the second leader has the first one's entry, and its term
is a new one. -/
theorem careful_run_converges_two_leaders : ∃ c, Steps (step encodeDemo Replica.decodeDemo)
        (fun c op ↦ c.NeverFails Replica.decodeDemo op ∧ c.Careful op) (new ["a", "b", "c"])
        [.runElection "a", .leaderAppend "a" (.logAppend "acme" "events" [7]), .replicate "a",
          .apply "a" id, .runElection "b", .leaderAppend "b" (.logAppend "acme" "events" [8]),
          .replicate "b", .apply "b" id, .apply "a" id] c ∧
      c.applied "a" = [.logAppend "acme" "events" [7], .logAppend "acme" "events" [8]] ∧
      c.Convergent := by
  refine exists_steps_of_isSome (by decide +kernel) fun hrun ↦ ⟨by decide +kernel, ?_⟩
  exact careful_run_converges hrun

/-- **Two leaders of the first term**: the second election is won as well, and the two nodes apply
different commands. -/
theorem applied_diverge : ∃ c, Steps (step encodeDemo Replica.decodeDemo)
        (fun c op ↦ c.NeverFails Replica.decodeDemo op) (new ["a", "b", "c"])
        [.runElection "a", .runElection "b", .leaderAppend "a" (.logAppend "acme" "events" [7]),
          .leaderAppend "b" (.logAppend "acme" "events" [8]), .replicate "a", .replicate "b",
          .apply "a" id, .apply "b" id] c ∧
      c.applied "a" = [.logAppend "acme" "events" [7]] ∧
      c.applied "b" = [.logAppend "acme" "events" [8]] ∧ ¬c.Convergent := by
  refine exists_steps_of_isSome (by decide +kernel) fun _ ↦
    ⟨by decide +kernel, by decide +kernel, fun hconv ↦ ?_⟩
  exact absurd (hconv "a" (by decide +kernel) "b" (by decide +kernel)) (by decide +kernel)

end Cluster

end Synapse.InProcess
