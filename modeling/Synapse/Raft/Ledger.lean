import Synapse.Raft.Completeness

/-!
# The ledger of a run

`Ledger` puts the parts together: ballots, the logs of each term's leader, the logs candidates
stood with and what nodes have kept. Each protocol step that concerns them extends the history, and
the ledger holds of the extended one. Commitment is left to the next module; here only the
consequences for it are drawn: chosen logs are carried by later leaders, and are comparable.
-/

open Function

namespace Synapse

open Quorum List

structure Ledger (members : List NodeId) (nodes : NodeId → RaftNode) (requests : List RequestVote)
    (grants : List Grant) (sent : List Envelope) (H : History) : Prop where
  vote : VoteInv members nodes requests grants H
  log : LogInv nodes sent H.leader H.termLog
  cand : CandInv nodes requests H
  kept : Kept nodes H

namespace Ledger

variable {members : List NodeId} {nodes : NodeId → RaftNode} {requests : List RequestVote}
  {grants : List Grant} {sent : List Envelope} {H : History}

/-! ## Elections -/

variable {v : NodeId}

section

variable (h : Ledger members nodes requests grants sent H)

include h

theorem frame {n : RaftNode} (hfol : (nodes v).Follows n) (hlog : n.log = (nodes v).log)
    (hvote : n.currentTerm = (nodes v).currentTerm → n.votedFor = (nodes v).votedFor) :
    Ledger members (update nodes v n) requests grants sent H := by
  have hext := History.Extends.refl H
  exact ⟨h.vote.keep rfl rfl rfl hfol hvote, h.log.replace_of_log_eq v n hlog hfol.term_le,
    h.cand.follow rfl rfl rfl rfl hfol hlog,
    h.kept.move hext h.vote.ballot_le hfol.term_le (fun _ _ ↦ .inl rfl) h.kept.acked_le
      (fun _ X ↦ h.kept.held_of_log_eq hext hfol.term_le (hlog ▸ prefix_rfl) rfl X)
      (fun _ _ _ hb ↦ .inl ⟨hb, rfl⟩) (fun _ _ _ hl hw ↦ .inl ⟨hl, hw⟩)⟩

/-- A node stands for election: in a term it has not been in, so nothing recorded is touched. -/
theorem beginElection (hmem : v ∈ members) :
    Ledger members (update nodes v (nodes v).beginElection.1) (requests ++
          [⟨(nodes v).currentTerm + 1, v, (nodes v).lastLog.1, (nodes v).lastLog.2⟩])
        grants sent (H.stand ((nodes v).currentTerm + 1) v (nodes v).log) ∧
      H.Extends (H.stand ((nodes v).currentTerm + 1) v (nodes v).log) := by
  set n := (nodes v).beginElection.1 with hn
  have hterm : n.currentTerm = (nodes v).currentTerm + 1 := rfl
  have hrole : n.role = .candidate := rfl
  have hvot : n.votedFor = some v := congrArg some (h.vote.id_eq v)
  have hle : (nodes v).currentTerm ≤ n.currentTerm := Nat.le_succ _
  have hnew : ∀ {t c}, t ≤ (nodes c).currentTerm → ¬(t = n.currentTerm ∧ c = v) := by
    rintro t c ht ⟨rfl, rfl⟩
    omega
  have hext : H.Extends (H.stand n.currentTerm v n.log) :=
    ⟨fun _ _ hl ↦ hl, fun t c hl ↦ H.stand_candLog_of_ne _ (hnew (h.vote.leader_le t c hl)),
      fun _ ↦ prefix_rfl, fun _ _ ↦ le_rfl⟩
  have hheld : ∀ t X, (H.stand n.currentTerm v n.log).Held t v X →
      (H.stand n.currentTerm v n.log).Carried t n.currentTerm X → X <+: n.log :=
    fun _ X ↦ h.kept.held_of_log_eq hext hle prefix_rfl rfl X
  have hvote : VoteInv members (update nodes v n) requests grants
      (H.stand n.currentTerm v n.log) := by
    refine h.vote.move rfl rfl (fun t w c hb ↦ ?_) (fun t w c hb ↦ ?_) rfl rfl hle
      (fun heq ↦ absurd heq (by omega))
      (.inr ⟨by omega, by simp [hrole], fun _ ↦ ⟨hmem, setAt_self ..⟩⟩)
    · refine setAt_of_some (fun c' hc' ↦ ?_) hb
      exact absurd ⟨rfl, rfl⟩ (hnew (h.vote.ballot_le _ v c' hc'))
    · rcases setAt_eq_some hb with hold | ⟨rfl, rfl, rfl⟩
      · exact .inl hold
      · exact .inr ⟨rfl, rfl, hvot, by rw [update_self]⟩
  refine ⟨⟨hvote.addRequest (by rw [update_self]; exact hterm.ge),
    h.log.replace_of_log_eq v n rfl hle,
    (h.cand.stand h.vote h.log hterm rfl rfl).addRequest
      (congrArg lastOf (H.stand_candLog_self n.log).symm), ?_⟩, hext⟩
  refine h.kept.move hext h.vote.ballot_le hle (fun _ _ ↦ .inl rfl) h.kept.acked_le
    hheld (fun t' w c hb ↦ ?_) (fun t' c w hl hw ↦ .inl ⟨hl, hw⟩)
  rcases setAt_eq_some hb with hold | ⟨rfl, rfl, rfl⟩
  · exact .inl ⟨hold, H.stand_candLog_of_ne _ (hnew (h.vote.ballot_cand_le t' w c hold))⟩
  · refine .inr fun t X _ hX _ hc ↦ ?_
    rw [History.stand_candLog_self]
    exact hheld t X hX hc

theorem grant {m : RequestVote} (hm : m ∈ requests) (hgrt : (nodes v).grantsTo m = true) :
    Ledger members (update nodes v ((nodes v).asked m)) requests
        (grants ++ [⟨m.term, v, m.candidateId⟩]) sent (H.cast m.term v m.candidateId) ∧
      H.Extends (H.cast m.term v m.candidateId) := by
  have hfol := (nodes v).asked_follows m
  have hterm := (nodes v).handleRequestVote_currentTerm m.term m.candidateId m.lastLogIndex
    m.lastLogTerm
  have hvot := (nodes v).handleRequestVote_votedFor m.term m.candidateId m.lastLogIndex
    m.lastLogTerm
  have hlog : ((nodes v).asked m).log = (nodes v).log := by simp
  set n := (nodes v).asked m
  obtain ⟨htle, hfree, hup⟩ := (RaftNode.grants_iff _ _ _ _ _).mp hgrt
  rw [if_pos hgrt] at hvot
  rw [Nat.max_eq_right htle] at hterm
  -- a vote of the term that is taken is taken by the same candidate
  have htaken : ∀ c, (nodes v).currentTerm = m.term → (nodes v).votedFor = some c →
      c = m.candidateId := by
    intro c heq hc
    rcases hfree with hlt | hnone | hsome
    · omega
    · rw [hnone] at hc
      exact absurd hc (by simp)
    · exact Option.some.inj (hc.symm.trans hsome)
  have hkeep : ∀ c, H.ballot m.term v = some c → c = m.candidateId := by
    intro c hc
    have heq : (nodes v).currentTerm = m.term := le_antisymm htle (h.vote.ballot_le _ v c hc)
    exact htaken c heq (h.vote.ballot_vote v c (heq ▸ hc))
  have hext : H.Extends (H.cast m.term v m.candidateId) :=
    ⟨fun _ _ hl ↦ hl, fun _ _ _ ↦ rfl, fun _ ↦ prefix_rfl, fun _ _ ↦ le_rfl⟩
  have hvote : VoteInv members (update nodes v n) requests grants
      (H.cast m.term v m.candidateId) := by
    refine h.vote.move rfl rfl (fun t w c hb ↦ setAt_of_some hkeep hb)
      (fun t w c hb ↦ ?_) hfol.id_eq hfol.peers_eq hfol.term_le (fun heq c hc ↦ ?_) ?_
    · rcases setAt_eq_some hb with hold | ⟨rfl, rfl, rfl⟩
      · exact .inl hold
      · exact .inr ⟨rfl, hterm.symm, hvot,
          (h.vote.request_le m hm).trans (VoteInv.le_update_currentTerm hfol.term_le _)⟩
    · rw [hvot, htaken c (heq.symm.trans hterm) hc]
    · rcases Nat.eq_or_lt_of_le hfol.term_le with heq | hlt
      · exact .inl ⟨heq.symm, hfol.role_eq heq.symm⟩
      · have hrole := hfol.role_follower hlt
        exact .inr ⟨hlt, by simp [hrole], by simp [hrole]⟩
  refine ⟨⟨hvote.addGrant (setAt_self ..), h.log.replace_of_log_eq v n hlog hfol.term_le,
    h.cand.follow rfl rfl rfl rfl hfol hlog, ?_⟩, hext⟩
  refine h.kept.move hext h.vote.ballot_le hfol.term_le (fun _ _ ↦ .inl rfl) h.kept.acked_le
    (fun _ X ↦ h.kept.held_of_log_eq hext hfol.term_le (hlog ▸ prefix_rfl) rfl X)
    (fun t' w c hb ↦ ?_) (fun t' c w hl hw ↦ .inl ⟨hl, hw⟩)
  rcases setAt_eq_some hb with hold | ⟨rfl, rfl, rfl⟩
  · exact .inl ⟨hold, rfl⟩
  -- the voter holds `X`, and the candidate's log is as up to date as the voter's
  refine .inr fun t X _ hX hlast hc ↦ ?_
  obtain ⟨hidx, hlastTerm⟩ := Prod.ext_iff.mp (h.cand.request m hm)
  simp only at hidx hlastTerm
  rw [hidx, hlastTerm] at hup
  exact h.cand.isPrefix_candLog_of_isLogUpToDate h.log
    (h.kept.held t w X hX (hc.of_le htle)) hX.1 hlast hc hup

theorem elect {votes : ℕ} (hrole : (nodes v).role = .candidate) (hwin : (nodes v).majority ≤ votes)
    (hmaj : Majority members fun w ↦ decide (H.ballot (nodes v).currentTerm w = some v)) :
    Ledger members (update nodes v ((nodes v).finalizeElection votes)) requests grants sent
        (H.elect (nodes v).currentTerm v (nodes v).log) ∧
      H.Extends (H.elect (nodes v).currentTerm v (nodes v).log) := by
  have hnone := h.vote.leader_eq_none hrole hmaj
  obtain ⟨hid, hprs, hterm, hvot, hlog, -⟩ := (nodes v).finalizeElection_frame votes
  have hlead := ((nodes v).finalizeElection_role_eq_leader votes).mpr (.inl hwin)
  generalize (nodes v).finalizeElection votes = n at *
  set T := (nodes v).currentTerm with hT
  -- nobody has held anything in a term without a leader
  have hzero : ∀ w, H.acked T w = 0 := fun w ↦ by
    simpa [h.log.idle T hnone] using h.kept.acked_le T w
  have hgrow := h.log.termLog_grows (v := v) (.inl hnone) rfl prefix_rfl
  have hext : H.Extends (H.elect T v (nodes v).log) := by
    refine ⟨fun t c hl ↦ ?_, fun _ _ _ ↦ rfl, hgrow, fun t w ↦ ?_⟩
    · rw [History.elect_leader_of_ne]
      · exact hl
      · rintro rfl
        rw [hnone] at hl
        exact absurd hl (by simp)
    · exact le_setAt ((hzero v).le.trans (Nat.zero_le _)) t w
  refine ⟨⟨h.vote.elect _ hrole hmaj hid hprs hterm hvot hlead, ?_, ?_, ?_⟩, hext⟩
  · have hlead := h.log.lead v n (.inl hnone) rfl hterm hlog
    rwa [hlog] at hlead
  · refine h.cand.extend (v := v) (n := n) ?_ ?_ ?_ rfl ?_ hgrow ?_ hlead ?_
    · intro t c hl
      rw [hterm]
      exact H.elect_leader_eq_some v _ hl
    · intro t hl
      rw [History.elect_leader_of_ne] at hl
      · exact hl
      · rintro rfl
        simp at hl
    · intro w _ hr heq
      rw [h.vote.leader_iff, heq, hterm, hnone] at hr
      exact absurd hr (by simp)
    · rw [hterm, hlog]
      rfl
    · rw [hterm, hlog]
      rfl
    · rw [hterm, hlog, h.cand.candidate_log v hrole hnone]
  · refine h.kept.extend (v := v) (n := n) hext h.vote.ballot_le hterm (hlog ▸ prefix_rfl) rfl
      rfl (by rw [hterm, hlog]; rfl) (by rw [hterm, hlog]; rfl) fun t' c w hl hw ↦ ?_
    rcases H.elect_leader_eq_some v _ hl with ⟨rfl, rfl⟩ | ⟨hne, hold⟩
    · -- the quorum of the new leader: what its voters held is in the log it stood with
      rw [History.elect_quorum_self, decide_eq_true_iff] at hw
      refine .inr ⟨(h.vote.ballot_le _ w c hw).trans
        (VoteInv.le_update_currentTerm hterm.ge w), fun t X hlt hX hlast hc ↦ ?_⟩
      have hsame : (H.elect T c (nodes c).log).acked t w = H.acked t w :=
        setAt_of_ne _ _ fun heq ↦ absurd heq.1 (Nat.ne_of_lt hlt)
      refine h.kept.voted _ w c hw t X hlt (hX.of_extends hext hsame (h.kept.acked_le t w)) hlast
        fun u d htu huT hd ↦ ?_
      have hne : u ≠ T := by
        rintro rfl
        rw [hnone] at hd
        exact absurd hd (by simp)
      exact hc.of_extends hext u d htu (by omega) hd
    · rw [H.elect_quorum_of_ne v _ hne] at hw
      exact .inl ⟨hold, hw⟩

end

/-! ## Replication -/

theorem leaderAppend (h : Ledger members nodes requests grants sent H)
    (hrole : (nodes v).role = .leader) (data : Bytes) :
    Ledger members (update nodes v ((nodes v).leaderAppend data).1) requests grants sent
        (H.append (nodes v).currentTerm v ((nodes v).leaderAppend data).1.log) ∧
      H.Extends (H.append (nodes v).currentTerm v ((nodes v).leaderAppend data).1.log) := by
  have hl := (h.vote.leader_iff v).mp hrole
  have hpre : (nodes v).log <+: ((nodes v).leaderAppend data).1.log := prefix_append _ _
  have hgrow := h.log.termLog_grows (.inr hl) rfl hpre
  set n := ((nodes v).leaderAppend data).1 with hn
  have hext : H.Extends (H.append n.currentTerm v n.log) := by
    refine ⟨fun _ _ hl ↦ hl, fun _ _ _ ↦ rfl, hgrow, le_setAt ?_⟩
    exact (h.cand.leader_acked v hrole).le.trans hpre.length_le
  refine ⟨⟨h.vote.keep rfl rfl rfl (.of_term_eq rfl rfl rfl rfl) fun _ ↦ rfl, ?_, ?_, ?_⟩, hext⟩
  · have happ := h.log.leaderAppend v data (.inr hl)
    rwa [← hl, Function.update_eq_self] at happ
  · refine h.cand.extend (v := v) (n := n) ?_ (fun _ ht ↦ ht) ?_ rfl rfl hgrow rfl hrole ?_
    · intro t c hc
      by_cases ht : t = n.currentTerm
      · subst ht
        exact .inl ⟨rfl, Option.some.inj (hc.symm.trans hl)⟩
      · exact .inr ⟨ht, hc⟩
    · intro w hw hr heq
      have hlw := (h.vote.leader_iff w).mp hr
      rw [heq] at hlw
      exact hw (Option.some.inj (hlw.symm.trans hl))
    · have hstood := h.cand.isPrefix _ v hl
      rw [← h.cand.leader_log v hrole] at hstood
      exact hstood.trans hpre
  · exact h.kept.extend (v := v) (n := n) hext h.vote.ballot_le rfl hpre rfl rfl rfl rfl
      fun _ _ _ hc hw ↦ .inl ⟨hc, hw⟩

section Deliver

variable {v : NodeId} {m : AppendEntries} {sender : List Entry}

section

variable (h : Ledger members nodes requests grants sent H) (hpre : sender <+: H.termLog m.term)
  (hcut : m.CutFrom sender) (hacc : (nodes v).takes m = true)

include h hpre hcut hacc

theorem log_of_accepts :
    ((nodes v).told m).log = if sender <+: (nodes v).log then (nodes v).log else sender := by
  rw [h.log.log_handleAppendEntries v hpre hcut, if_pos hacc]

theorem isPrefix_sender_of_accepts : sender <+: ((nodes v).told m).log := by
  rw [h.log_of_accepts hpre hcut hacc]
  split_ifs with hsub
  · exact hsub
  · exact prefix_rfl

/-- An accepted message does not take away what the receiver shares with the leader. -/
theorem isPrefix_log_of_accepts {Y : List Entry} (hY : Y <+: (nodes v).log)
    (hsh : ∀ c, H.leader m.term = some c → Y <+: H.termLog m.term) :
    Y <+: ((nodes v).told m).log := by
  rw [h.log_of_accepts hpre hcut hacc]
  split_ifs with hsub
  · exact hY
  cases hl : H.leader m.term with
  | none =>
    rw [h.log.idle _ hl] at hpre
    exact absurd (prefix_nil.mp hpre ▸ nil_prefix) hsub
  | some c =>
    rcases prefix_or_prefix_of_prefix (hsh c hl) hpre with hle | hge
    · exact hle
    · exact absurd (hge.trans hY) hsub

end

/-- A node accepts a message of the leader of its term, and holds what the message was cut from. -/
theorem deliver (h : Ledger members nodes requests grants sent H)
    {e : Envelope} (he : e ∈ sent) (hpre : sender <+: H.termLog e.msg.term)
    (hcut : e.msg.CutFrom sender) (hacc : (nodes v).takes e.msg = true) :
    Ledger members (update nodes v ((nodes v).told e.msg)) requests grants sent
        (H.ack e.msg.term v sender.length) ∧
      H.Extends (H.ack e.msg.term v sender.length) := by
  have hfol := (nodes v).told_follows e.msg
  have hterm := (nodes v).told_currentTerm e.msg
  have hvot : ((nodes v).told e.msg).votedFor = (nodes v).votedFor := by simp
  have hlog := h.log_of_accepts hpre hcut hacc
  have hkeeps := fun {Y} ↦ h.isPrefix_log_of_accepts (Y := Y) hpre hcut hacc
  have hsen := h.isPrefix_sender_of_accepts hpre hcut hacc
  have hdlv := h.log.deliver v he
  generalize (nodes v).told e.msg = n at *
  have htle := RaftNode.term_le_of_takes hacc
  rw [Nat.max_eq_right htle] at hterm
  set T := e.msg.term
  have hcs : ∀ t w, (H.ack T v sender.length).acked t w = H.acked t w ∨ t = T ∧ w = v :=
    setAt_eq_or H.acked T v _
  have hself : (H.ack T v sender.length).acked T v = max (H.acked T v) sender.length :=
    setAt_self ..
  have hext : H.Extends (H.ack T v sender.length) :=
    ⟨fun _ _ hl ↦ hl, fun _ _ _ ↦ rfl, fun _ ↦ prefix_rfl, le_setAt (le_max_left _ _)⟩
  -- a candidate of an open election and a leader have nothing to learn from the message
  have hopen : H.leader n.currentTerm = none → n.log = (nodes v).log := by
    intro hl
    rw [hterm] at hl
    rw [h.log.idle T hl] at hpre
    rw [hlog, if_pos (prefix_nil.mp hpre ▸ nil_prefix)]
  have hlead : (nodes v).role = .leader → n.currentTerm = (nodes v).currentTerm →
      sender <+: (nodes v).log := by
    intro hr heq
    rwa [h.cand.leader_log v hr, ← heq, hterm]
  refine ⟨⟨h.vote.keep rfl rfl rfl hfol fun _ ↦ hvot, hdlv, ?_, ?_⟩, hext⟩
  · refine h.cand.keep rfl rfl rfl (fun w hr ↦ ?_) (fun hr hl ↦ ?_) (fun hr ↦ ?_)
    · rcases hcs (nodes w).currentTerm w with heq | ⟨heq, rfl⟩
      · exact heq
      · have hle := (hlead hr (hterm.trans heq.symm)).length_le
        have hack := h.cand.leader_acked w hr
        rw [heq] at hack ⊢
        omega
    · obtain ⟨heq, hrole⟩ := hfol.of_role_ne (by simp [hr])
      exact ⟨heq, hrole ▸ hr, hopen hl⟩
    · obtain ⟨heq, hrole⟩ := hfol.of_role_ne (by simp [hr])
      rw [hrole] at hr
      exact ⟨heq, hr, by rw [hlog, if_pos (hlead hr heq)]⟩
  · refine h.kept.move hext h.vote.ballot_le hfol.term_le (fun t w ↦ hterm ▸ hcs t w)
      (fun t w ↦ ?_) (fun t X hX hc ↦ ?_) (fun _ _ _ hb ↦ .inl ⟨hb, rfl⟩)
      (fun _ _ _ hl hw ↦ .inl ⟨hl, hw⟩)
    · rcases hcs t w with heq | ⟨rfl, rfl⟩
      · exact heq ▸ h.kept.acked_le t w
      · rw [hself]
        exact Nat.max_le.mpr ⟨h.kept.acked_le T w, hpre.length_le⟩
    · by_cases hold : X.length ≤ H.acked t v
      · -- held before: carried by the leader of `T` too, so the message does not take it away
        refine hkeeps (h.kept.held t v X ⟨hX.1, hold⟩ ((hc.of_extends hext).of_le hfol.term_le))
          fun c hl ↦ ?_
        rcases Nat.lt_trichotomy t T with hlt | rfl | hgt
        · exact (hc T c hlt hterm.ge hl).trans (h.cand.isPrefix T c hl)
        · exact hX.1
        have hzero : H.acked t v = 0 := by
          by_contra hne
          have := h.kept.acked_term_le t v hne
          omega
        rw [hzero, Nat.le_zero, length_eq_zero_iff] at hold
        exact hold ▸ nil_prefix
      · obtain ⟨rfl, -⟩ := (hcs t v).resolve_left fun heq ↦ hold (heq ▸ hX.2)
        have hlen := hX.2
        rw [hself] at hlen
        exact (prefix_of_prefix_length_le hX.1 hpre (by omega)).trans hsen

end Deliver

end Ledger

/-! ## Chosen and settled logs -/

/-- `X` ends with an entry of term `t` and a majority has held it for the leader of `t`. -/
structure Chosen (members : List NodeId) (H : History) (t : ℕ) (X : List Entry) : Prop where
  isPrefix : X <+: H.termLog t
  endsIn : EndsIn t X
  majority : Majority members fun w ↦ decide (X.length ≤ H.acked t w)

/-- `Y` is an initial part of a log chosen in a term up to `T`. -/
def Settled (members : List NodeId) (H : History) (T : ℕ) (Y : List Entry) : Prop :=
  Y = [] ∨ ∃ t X, Chosen members H t X ∧ t ≤ T ∧ Y <+: X

section Settled

variable {members : List NodeId} {nodes : NodeId → RaftNode} {requests : List RequestVote}
  {grants : List Grant} {sent : List Envelope} {H H' : History} {t t' T T' : ℕ}
  {X X' Y Y' : List Entry}

theorem Chosen.mono (h : Chosen members H t X) (hext : H.Extends H') : Chosen members H' t X where
  isPrefix := h.isPrefix.trans (hext.termLog t)
  endsIn := h.endsIn
  majority := h.majority.mono fun w _ hw ↦ by
    rw [decide_eq_true_iff] at hw ⊢
    exact hw.trans (hext.acked t w)

theorem Settled.mono (h : Settled members H T Y) (hext : H.Extends H') (hle : T ≤ T') :
    Settled members H' T' Y := by
  rcases h with rfl | ⟨t, X, hX, ht, hpre⟩
  · exact .inl rfl
  · exact .inr ⟨t, X, hX.mono hext, ht.trans hle, hpre⟩

namespace Ledger

variable (h : Ledger members nodes requests grants sent H)

include h

/-- **Leader completeness.** A chosen log is carried by every later leader. -/
theorem carried_of_chosen (hX : Chosen members H t X) (hi : ℕ) : H.Carried t hi X := by
  -- by induction on the term up to which it is carried; the quorum of the next leader meets the
  -- majority that holds `X`
  induction hi with
  | zero => intro u c ht hu; omega
  | succ hi ih =>
    intro u c ht hu hl
    rcases Nat.lt_or_ge hi u with hlt | hge
    · obtain rfl : u = hi + 1 := by omega
      obtain ⟨w, -, hack, hq⟩ := hX.majority.inter (h.vote.quorum_majority _ c hl)
      rw [decide_eq_true_iff] at hack
      exact h.kept.elected _ c w hl hq t X ht ⟨hX.isPrefix, hack⟩ hX.endsIn ih
    · exact ih u c ht hge hl

/-- What is settled is in the log of every leader of a later term. -/
theorem isPrefix_termLog_of_settled
    (hY : Settled members H T Y) {c : NodeId} (hle : T ≤ t') (hl : H.leader t' = some c) :
    Y <+: H.termLog t' := by
  rcases hY with rfl | ⟨t, X, hX, ht, hpre⟩
  · exact nil_prefix
  · rcases Nat.eq_or_lt_of_le (ht.trans hle) with rfl | hlt
    · exact hpre.trans hX.isPrefix
    · have hcarried := h.carried_of_chosen hX t' t' c hlt le_rfl hl
      exact hpre.trans (hcarried.trans (h.cand.isPrefix t' c hl))

theorem comparable_of_chosen
    (hX : Chosen members H t X) (hX' : Chosen members H t' X') (hle : t ≤ t') :
    X <+: X' ∨ X' <+: X := by
  cases hl : H.leader t' with
  | none =>
    have hnil := hX'.isPrefix
    rw [h.log.idle t' hl] at hnil
    exact absurd (prefix_nil.mp hnil) hX'.endsIn.ne_nil
  | some c =>
    have hset : Settled members H t X := .inr ⟨t, X, hX, le_rfl, prefix_rfl⟩
    exact prefix_or_prefix_of_prefix (h.isPrefix_termLog_of_settled hset hle hl) hX'.isPrefix

theorem comparable_of_settled
    (hY : Settled members H T Y) (hY' : Settled members H T' Y') : Y <+: Y' ∨ Y' <+: Y := by
  rcases hY with rfl | ⟨t, X, hX, -, hpre⟩
  · exact .inl nil_prefix
  rcases hY' with rfl | ⟨t', X', hX', -, hpre'⟩
  · exact .inr nil_prefix
  have hcompare : X <+: X' ∨ X' <+: X := by
    rcases Nat.le_total t t' with hle | hle
    · exact h.comparable_of_chosen hX hX' hle
    · exact (h.comparable_of_chosen hX' hX hle).symm
  rcases hcompare with hsub | hsub
  · exact prefix_or_prefix_of_prefix (hpre.trans hsub) hpre'
  · exact prefix_or_prefix_of_prefix hpre (hpre'.trans hsub)

end Ledger

end Settled

end Synapse
