import Synapse.Raft.CatchUp

/-!
# The driver loop

The driver reads the node's role. For a follower or a candidate it sleeps for a randomised time and
then runs an election; for a leader it runs a heartbeat round and pauses. Other tasks serve peer
connections, append proposals and apply committed entries in between, whenever they get the lock.

The driver looks at the role before the sleep, and after it begins an election whatever has
happened. An `AppendEntries` message that is accepted during the sleep therefore does not keep the
node from deposing its leader. `Drive.stable_iff` says that the driver is stable along a run exactly
if no sleep with such a message comes to its end, and that the leader stays in office exactly if the
driver calls nobody: what the driver of a node that hears its leader in each sleep sends is `Ahead`
of the leader's term.
-/

namespace Synapse

open Transition

inductive DrivePhase
  /-- At the head of the loop. -/
  | top
  /-- In the election sleep of so many milliseconds. -/
  | sleeping (millis : ℕ)
  /-- In `try_elect`, with the request to send, the peers still to call and the votes so far. -/
  | electing (term lastLogIndex lastLogTerm : ℕ) (todo : List NodeId) (votes : ℕ)
  /-- In `heartbeatAndReplicate`, with the peers still to visit and the call awaiting its answer. -/
  | beating (todo : List NodeId) (awaiting : Option NodeId)
  /-- In the pause after a heartbeat round. -/
  | pausing
deriving DecidableEq, Repr

/-- The peer that an election or a heartbeat round turns to next. -/
def DrivePhase.next : DrivePhase → Option NodeId
  | .electing _ _ _ todo _ | .beating todo _ => todo.head?
  | _ => none

def DrivePhase.IsCalling : DrivePhase → Prop
  | .electing .. | .beating .. => True
  | _ => False

/-- The end of an election sleep: the `AppendEntries` messages that were accepted during it, and the
node before and after. -/
structure SleepEnd where
  accepted : List AppendEntries
  before : RaftNode
  after : RaftNode

/-- The node has begun an election: it is a candidate of a new term. -/
def SleepEnd.Elects (e : SleepEnd) : Prop :=
  e.after.role = .candidate ∧ e.before.currentTerm < e.after.currentTerm

/-- A node and its driver. Beside them stands what has happened: the messages the driver has sent,
the `AppendEntries` messages accepted since the sleep began, and the sleeps that have ended. -/
structure Drive where
  node : RaftNode
  rng : ℕ
  phase : DrivePhase
  sent : List (NodeId × WireMessage)
  accepted : List AppendEntries
  ended : List SleepEnd

inductive DriveOp
  | serve (m : WireMessage)
  /-- A client proposes a command; only a leader appends it. -/
  | propose (data : Bytes)
  | apply
  | look
  | wake
  /-- The call to the next peer of an election returns, with an answer or without. -/
  | vote (answer : Option WireMessage)
  | tally
  /-- The heartbeat round moves to its next peer. -/
  | send
  /-- The heartbeat call returns, with an answer or without. -/
  | reply (answer : Option WireMessage)
  | rest
  | resume

/-- The `AppendEntries` message in `m`, if the node accepts it. -/
def RaftNode.acceptedFrom (n : RaftNode) : WireMessage → List AppendEntries
  | .appendEntries m => if n.accepts m.term m.prevLogIndex m.prevLogTerm then [m] else []
  | _ => []

namespace Drive

def start (n : RaftNode) : Drive where
  node := n
  rng := 0x9E3779B97F4A7C15
  phase := .top
  sent := []
  accepted := []
  ended := []

/-- Read the role: go to sleep, or start a heartbeat round. -/
def look (s : Drive) : Drive :=
  match s.node.role with
  | .follower | .candidate =>
    { s with
      rng := (s.rng * 6364136223846793005 + 1442695040888963407) % 2 ^ 64
      phase := .sleeping (150 + s.rng % 150)
      accepted := [] }
  | .leader => { s with phase := .beating s.node.peers none }

/-- The sleep is over: an election begins. -/
def wake (s : Drive) : Drive :=
  let (n, lastLogIndex, lastLogTerm) := s.node.beginElection
  { s with
    node := n
    phase := .electing n.currentTerm lastLogIndex lastLogTerm s.node.peers 1
    ended := s.ended ++ [⟨s.accepted, s.node, n⟩] }

def step (s : Drive) : DriveOp → Option Drive
  | .serve m =>
    some { s with node := s.node.serve m, accepted := s.accepted ++ s.node.acceptedFrom m }
  | .propose data =>
    some (if s.node.role = .leader then { s with node := (s.node.leaderAppend data).1 } else s)
  | .apply => some { s with node := s.node.applyCommitted.1 }
  | .look =>
    match s.phase with
    | .top => some s.look
    | _ => none
  | .wake =>
    match s.phase with
    | .sleeping _ => some s.wake
    | _ => none
  | .vote answer =>
    match s.phase with
    | .electing term lastLogIndex lastLogTerm (peer :: todo) votes =>
      if peer = s.node.id then
        some { s with phase := .electing term lastLogIndex lastLogTerm todo votes }
      else
        let votes := match answer with
          | some (.requestVoteResponse _ true) => votes + 1
          | _ => votes
        -- the candidate named in the request is the peer it goes to
        some { s with
          phase := .electing term lastLogIndex lastLogTerm todo votes
          sent := s.sent ++ [(peer, .requestVote ⟨term, peer, lastLogIndex, lastLogTerm⟩)] }
    | _ => none
  | .tally =>
    match s.phase with
    | .electing _ _ _ [] votes =>
      some { s with node := s.node.finalizeElection votes, phase := .top }
    | _ => none
  | .send =>
    match s.phase with
    | .beating (peer :: todo) none =>
      if peer = s.node.id then some { s with phase := .beating todo none }
      else
        some { s with
          phase := .beating todo (some peer)
          sent := s.sent ++
            [(peer, .appendEntries (s.node.buildAppendEntries (s.node.nextIndexOf peer)))] }
    | _ => none
  | .reply answer =>
    match s.phase with
    | .beating todo (some peer) =>
      some { s with node := s.node.recordAnswer peer answer, phase := .beating todo none }
    | _ => none
  | .rest =>
    match s.phase with
    | .beating [] none => some { s with phase := .pausing }
    | _ => none
  | .resume =>
    match s.phase with
    | .pausing => some { s with phase := .top }
    | _ => none

/-- No election was begun after a sleep in which the node had accepted an `AppendEntries`
message. -/
def Stable (s : Drive) : Prop := ∀ e ∈ s.ended, e.accepted ≠ [] → ¬e.Elects

/-- The step does not end a sleep in which the node has accepted an `AppendEntries` message. -/
def Unheard (s : Drive) : DriveOp → Prop
  | .wake => s.accepted = []
  | _ => True

/-- A sleep does not end before a message of the leader has been accepted. -/
def Reached (leader : RaftNode) (s : Drive) : DriveOp → Prop
  | .wake => ∃ m ∈ s.accepted, m.leaderId = leader.id ∧ m.term = leader.currentTerm
  | _ => True

/-- The driver calls no other peer. -/
def Silent (s : Drive) : DriveOp → Prop
  | .vote _ | .send => s.phase.next = some s.node.id
  | _ => True

instance : DecidableRel Unheard := fun _ op ↦ by
  cases op <;> dsimp only [Unheard] <;> infer_instance

instance (leader : RaftNode) : DecidableRel (Reached leader) := fun _ op ↦ by
  cases op <;> dsimp only [Reached] <;> infer_instance

instance : DecidableRel Silent := fun _ op ↦ by
  cases op <;> dsimp only [Silent] <;> infer_instance

variable {s s' : Drive} {op : DriveOp}

theorem step_wake (hstep : s.step .wake = some s') :
    s'.ended = s.ended ++ [⟨s.accepted, s.node, s.node.beginElection.1⟩] := by
  rw [step] at hstep
  split at hstep
  · cases hstep
    rfl
  · cases hstep

theorem ended_step (hop : op ≠ .wake) (hstep : s.step op = some s') : s'.ended = s.ended := by
  unfold step at hstep
  split at hstep
  all_goals first
    | exact absurd rfl hop
    | grind [look]

theorem stable_step_iff (hstep : s.step op = some s') : s'.Stable ↔ s.Stable ∧ s.Unheard op := by
  by_cases hop : op = .wake
  · rw [hop] at hstep ⊢
    have helects : SleepEnd.Elects ⟨s.accepted, s.node, s.node.beginElection.1⟩ :=
      ⟨rfl, Nat.lt_succ_self _⟩
    rw [Stable, step_wake hstep, List.forall_mem_append, List.forall_mem_singleton,
      imp_not_comm, imp_iff_right helects, not_not]
    rfl
  have hunheard : s.Unheard op := by
    unfold Unheard
    split
    · exact absurd rfl hop
    · trivial
  rw [Stable, ended_step hop hstep, and_iff_left hunheard, Stable]

/-- An election calls its next peer, unless that is the node itself. -/
theorem step_vote {answer : Option WireMessage} (hstep : s.step (.vote answer) = some s') :
    ∃ term lastLogIndex lastLogTerm peer todo votes votes',
      s.phase = .electing term lastLogIndex lastLogTerm (peer :: todo) votes ∧ s' = { s with
        phase := .electing term lastLogIndex lastLogTerm todo votes'
        sent := if peer = s.node.id then s.sent
          else s.sent ++ [(peer, .requestVote ⟨term, peer, lastLogIndex, lastLogTerm⟩)] } := by
  rw [step] at hstep
  split at hstep
  · rename_i hphase
    split_ifs at hstep with hself <;> cases hstep
    · exact ⟨_, _, _, _, _, _, _, hphase, by rw [if_pos hself]⟩
    · exact ⟨_, _, _, _, _, _, _, hphase, by rw [if_neg hself]⟩
  · cases hstep

theorem step_send (hstep : s.step .send = some s') :
    ∃ peer todo awaiting, s.phase = .beating (peer :: todo) none ∧ s' = { s with
      phase := .beating todo awaiting
      sent := if peer = s.node.id then s.sent else s.sent ++
        [(peer, .appendEntries (s.node.buildAppendEntries (s.node.nextIndexOf peer)))] } := by
  rw [step] at hstep
  split at hstep
  · rename_i hphase
    split_ifs at hstep with hself <;> cases hstep
    · exact ⟨_, _, _, hphase, by rw [if_pos hself]⟩
    · exact ⟨_, _, _, hphase, by rw [if_neg hself]⟩
  · cases hstep

theorem sent_step_iff (hstep : s.step op = some s') : s'.sent = [] ↔ s.sent = [] ∧ s.Silent op := by
  cases op with
  | vote answer =>
    obtain ⟨term, _, _, peer, todo, _, _, hphase, rfl⟩ := step_vote hstep
    rw [Silent, hphase, DrivePhase.next, List.head?_cons, Option.some.injEq]
    split_ifs with hself <;> simp [hself]
  | send =>
    obtain ⟨peer, todo, _, hphase, rfl⟩ := step_send hstep
    rw [Silent, hphase, DrivePhase.next, List.head?_cons, Option.some.injEq]
    split_ifs with hself <;> simp [hself]
  | _ =>
    refine Iff.trans ?_ (and_iff_left trivial).symm
    rw [step] at hstep
    grind [look, wake]

/-! ## The leader of a node that hears it -/

/-- What the driver sends, or will send without another sleep, is of a term after `t`. -/
structure Ahead (t : ℕ) (s : Drive) : Prop where
  sent : ∀ x ∈ s.sent, t < x.2.requestTerm
  accepted : ∀ m ∈ s.accepted, m.term ≤ s.node.currentTerm
  calling : s.node.role = .leader ∨ s.phase.IsCalling → t < s.node.currentTerm
  electing : ∀ term lastLogIndex lastLogTerm todo votes,
    s.phase = .electing term lastLogIndex lastLogTerm todo votes → t < term

variable {t : ℕ} {n : RaftNode}

theorem Ahead.setNode (h : s.Ahead t) (hle : s.node.currentTerm ≤ n.currentTerm)
    (hrole : n.role = .leader → s.node.role = .leader) : Ahead t { s with node := n } where
  sent := h.sent
  accepted m hm := (h.accepted m hm).trans hle
  calling hcalls := (h.calling (hcalls.imp_left hrole)).trans_le hle
  electing := h.electing

theorem Ahead.serve (h : s.Ahead t) (m : WireMessage) : Ahead t
    { s with node := s.node.serve m, accepted := s.accepted ++ s.node.acceptedFrom m } := by
  have hfollows := s.node.serve_follows m
  have h' := h.setNode hfollows.term_le fun hlead ↦
    (hfollows.of_role_ne (by rw [hlead]; decide)).2.symm.trans hlead
  refine ⟨h'.sent, List.forall_mem_append.mpr ⟨h'.accepted, fun m' hm' ↦ ?_⟩, h'.calling,
    h'.electing⟩
  cases m with
  | appendEntries m =>
    rw [RaftNode.acceptedFrom] at hm'
    split_ifs at hm'
    · rw [List.mem_singleton.mp hm', RaftNode.currentTerm_serve]
      exact Nat.le_max_right ..
    · cases hm'
  | _ => cases hm'

theorem Ahead.sent_call (h : s.Ahead t) (peer : NodeId) {m : WireMessage}
    (hm : t < m.requestTerm) :
    ∀ x ∈ if peer = s.node.id then s.sent else s.sent ++ [(peer, m)], t < x.2.requestTerm := by
  split_ifs
  · exact h.sent
  · exact List.forall_mem_append.mpr ⟨h.sent, List.forall_mem_singleton.mpr hm⟩

theorem Ahead.step {leader : RaftNode} (h : s.Ahead leader.currentTerm) (hok : s.Reached leader op)
    (hstep : s.step op = some s') : s'.Ahead leader.currentTerm := by
  cases op with
  | serve m =>
    cases hstep
    exact h.serve m
  | propose data =>
    cases hstep
    split_ifs
    · exact h.setNode le_rfl id
    · exact h
  | apply =>
    cases hstep
    exact h.setNode le_rfl id
  | look =>
    rw [Drive.step] at hstep
    split at hstep <;> cases hstep
    rw [look]
    split
    · exact ⟨h.sent, by rintro _ ⟨⟩, fun hcalls ↦ h.calling (hcalls.imp_right False.elim),
        by rintro _ _ _ _ _ ⟨⟩⟩
    · exact ⟨h.sent, by rintro _ ⟨⟩, fun hcalls ↦ h.calling (hcalls.imp_right False.elim),
        by rintro _ _ _ _ _ ⟨⟩⟩
    · rename_i hlead
      exact ⟨h.sent, h.accepted, fun _ ↦ h.calling (.inl hlead), by rintro _ _ _ _ _ ⟨⟩⟩
  | wake =>
    obtain ⟨m, hm, -, hterm⟩ := hok
    have hle := h.accepted m hm
    have hlt : leader.currentTerm < s.node.currentTerm + 1 := by omega
    rw [Drive.step] at hstep
    split at hstep <;> cases hstep
    refine ⟨h.sent, fun m' hm' ↦ (h.accepted m' hm').trans (Nat.le_succ _), fun _ ↦ hlt, ?_⟩
    rintro _ _ _ _ _ ⟨⟩
    exact hlt
  | vote answer =>
    obtain ⟨term, _, _, peer, todo, _, _, hphase, rfl⟩ := step_vote hstep
    have hlt := h.electing _ _ _ _ _ hphase
    refine ⟨h.sent_call peer hlt, h.accepted, fun _ ↦ h.calling (.inr (hphase ▸ trivial)), ?_⟩
    rintro _ _ _ _ _ ⟨⟩
    exact hlt
  | tally =>
    rw [Drive.step] at hstep
    split at hstep <;> cases hstep
    rename_i votes hphase
    have hterm := (s.node.finalizeElection_frame votes).2.2.1
    refine ⟨h.sent, fun m hm ↦ hterm ▸ h.accepted m hm, fun _ ↦ ?_, by rintro _ _ _ _ _ ⟨⟩⟩
    exact hterm ▸ h.calling (.inr (hphase ▸ trivial))
  | send =>
    obtain ⟨peer, todo, _, hphase, rfl⟩ := step_send hstep
    have hlt := h.calling (.inr (hphase ▸ trivial))
    exact ⟨h.sent_call peer hlt, h.accepted, fun _ ↦ hlt, by rintro _ _ _ _ _ ⟨⟩⟩
  | reply answer =>
    rw [Drive.step] at hstep
    split at hstep <;> cases hstep
    rename_i todo peer hphase
    have h' := h.setNode (s.node.recordAnswer_sameLog peer answer).currentTerm.ge
      fun hlead ↦ (s.node.role_recordAnswer peer answer).symm.trans hlead
    exact ⟨h'.sent, h'.accepted, fun _ ↦ h'.calling (.inr (hphase ▸ trivial)),
      by rintro _ _ _ _ _ ⟨⟩⟩
  | rest | resume =>
    rw [Drive.step] at hstep
    split at hstep <;> cases hstep
    exact ⟨h.sent, h.accepted, fun hcalls ↦ h.calling (hcalls.imp_right False.elim),
      by rintro _ _ _ _ _ ⟨⟩⟩

/-- **Leader stability.** Along a run of the driver no election is begun at the end of a sleep in
which the node accepted an `AppendEntries` message, exactly if no such sleep comes to its end. And a
leader whose messages reach the node within each sleep stays in office exactly if the driver calls
no other peer. -/
theorem stable_iff {n : RaftNode} {ops : List DriveOp} {s : Drive}
    (hrun : Steps step (fun _ _ ↦ True) (start n) ops s) :
    (s.Stable ↔ Steps step Unheard (start n) ops s) ∧
      ∀ leader : RaftNode, leader.role = .leader → n.role ≠ .leader →
        Steps step (Reached leader) (start n) ops s →
        ((leader.serveAll (s.sent.map Prod.snd)).role = .leader ↔
          Steps step Silent (start n) ops s) := by
  have hstable : (start n).Stable := nofun
  have hgood := hrun.good_iff (fun _ ↦ True) Stable
    (fun _ _ _ _ _ hstep ↦ ⟨trivial, stable_step_iff hstep⟩) trivial
  simp only [hstable, true_and] at hgood
  refine ⟨hgood, fun leader hlead hrole hreached ↦ ?_⟩
  have hahead : s.Ahead leader.currentTerm := hreached.invariant (Ahead leader.currentTerm)
    (fun _ _ _ h hok hstep ↦ h.step hok hstep)
    ⟨nofun, nofun, fun hcalls ↦ absurd (hcalls.resolve_right id) hrole, by rintro _ _ _ _ _ ⟨⟩⟩
  have hsilent := hrun.good_iff (fun _ ↦ True) (fun s ↦ s.sent = [])
    (fun _ _ _ _ _ hstep ↦ ⟨trivial, sent_step_iff hstep⟩) trivial
  simp only [show (start n).sent = [] from rfl, true_and] at hsilent
  rw [← hsilent]
  refine ⟨fun hstays ↦ List.eq_nil_iff_forall_not_mem.mpr fun x hx ↦ ?_, fun hnil ↦ ?_⟩
  · -- The first message of a later term makes the leader a follower.
    have hterm := ((leader.serveAll_follows _).of_role_ne (by rw [hstays]; decide)).1
    have hle := ((leader.currentTerm_serveAll_le_iff _ _).mp hterm.le).2 x.2
      (List.mem_map_of_mem hx)
    exact Nat.not_lt.mpr hle (hahead.sent x hx)
  · rwa [hnil]

def leaderOfTwo : RaftNode :=
  (RaftNode.new "a" ["a", "b"] {}).beginElection.1.finalizeElection 2

def followerOfLeader : RaftNode :=
  { RaftNode.new "b" ["a", "b"] {} with currentTerm := 1 }

/-- A sleep without a message comes to its end; and after one with a message of the leader, nobody
has been called yet. -/
theorem stable_iff_two_sleeps :
    (∃ s, Steps step Unheard (start followerOfLeader) [.look, .wake, .vote none] s ∧ s.Stable) ∧
      ∃ s, Steps step (fun s op ↦ s.Reached leaderOfTwo op ∧ s.Silent op) (start followerOfLeader)
        [.look, .serve (.appendEntries (leaderOfTwo.buildAppendEntries 1)), .wake] s ∧
        (leaderOfTwo.serveAll (s.sent.map Prod.snd)).role = .leader := by
  refine ⟨exists_steps_of_isSome (by decide +kernel) fun hrun ↦ ?_,
    exists_steps_of_isSome (by decide +kernel) fun hrun ↦ ?_⟩
  · exact (stable_iff (hrun.mono fun _ _ _ ↦ trivial)).1.mpr hrun
  · exact ((stable_iff (hrun.mono fun _ _ _ ↦ trivial)).2 leaderOfTwo rfl (by decide)
      (hrun.mono fun _ _ h ↦ h.1)).mpr (hrun.mono fun _ _ h ↦ h.2)

/-- The follower accepts a heartbeat while it sleeps, and calls an election at the end of the sleep
all the same. Its request makes the leader a follower. -/
theorem deposed_after_heartbeat : ∃ s, Steps step (fun _ _ ↦ True) (start followerOfLeader)
        [.look, .serve (.appendEntries (leaderOfTwo.buildAppendEntries 1)), .wake, .vote none] s ∧
      ¬s.Stable ∧ s.node.role = .candidate ∧ leaderOfTwo.role = .leader ∧
      (leaderOfTwo.serveAll (s.sent.map Prod.snd)).role = .follower := by
  refine exists_steps_of_isSome (by decide +kernel) fun _ ↦
    ⟨fun hstable ↦ ?_, by decide +kernel, by decide, by decide +kernel⟩
  exact hstable _ (List.mem_singleton.mpr rfl) (by decide +kernel) ⟨by decide +kernel,
    by decide +kernel⟩

end Drive

end Synapse
