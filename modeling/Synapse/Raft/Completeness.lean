import Synapse.Raft.Votes

/-!
# Leader completeness

What a majority has acknowledged to the leader of a term is in the log of every later leader.

The argument follows a list `X` of entries that ends with an entry of term `t` and that a node has
held for the leader of `t` (`History.Held`). As long as every leader since has stood with `X` in
its log (`History.Carried`), the node's own log keeps `X` (`Kept.held`). When the node then votes,
the candidate's log is at least as up to date as its own, and so has `X` as well (`Kept.voted`), and
so does the leader a majority of such votes elects (`Kept.elected`). Every such majority meets one
that has held `X`, and `X` is carried from leader to leader (`Ledger.carried_of_chosen`).
-/

open Function

namespace Synapse

open Quorum List

/-! ## Last entries -/

def lastOf (log : List Entry) : ℕ × ℕ :=
  match log.getLast? with
  | some e => (e.index, e.term)
  | none => (0, 0)

def EndsIn (t : ℕ) (log : List Entry) : Prop := ∃ e, log.getLast? = some e ∧ e.term = t

variable {t : ℕ} {log : List Entry} {termLog : ℕ → List Entry}

theorem EndsIn.ne_nil (h : EndsIn t log) : log ≠ [] := by
  obtain ⟨e, he, -⟩ := h
  rintro rfl
  simp at he

theorem Backed.isPrefix_of_endsIn (h : Backed termLog log) (hlast : EndsIn t log) :
    log <+: termLog t := by
  obtain ⟨e, he, rfl⟩ := hlast
  rw [List.getLast?_eq_getElem?] at he
  have hlt := (List.getElem?_eq_some_iff.mp he).1
  have hback := (h _ e he).2
  rwa [take_of_length_le (by omega)] at hback

theorem Backed.lastOf_eq (h : Backed termLog log) (hlast : EndsIn t log) :
    lastOf log = (log.length, t) := by
  obtain ⟨e, he, rfl⟩ := hlast
  rw [lastOf, he]
  rw [List.getLast?_eq_getElem?] at he
  have hlt := (List.getElem?_eq_some_iff.mp he).1
  simp only [(h _ e he).1]
  rw [Nat.sub_add_cancel (by omega)]

theorem exists_endsIn (h : log ≠ []) : ∃ t, EndsIn t log := by
  cases he : log.getLast? with
  | none => exact absurd (List.getLast?_eq_none_iff.mp he) h
  | some e => exact ⟨e.term, e, he, rfl⟩

/-! ## Held and carried -/

namespace History

/-- `w` has held `X`, an initial part of the log of the leader of `t`, in term `t`. -/
def Held (H : History) (t : ℕ) (w : NodeId) (X : List Entry) : Prop :=
  X <+: H.termLog t ∧ X.length ≤ H.acked t w

/-- Every leader after `t` and up to `hi` stood with `X` in its log. -/
def Carried (H : History) (t hi : ℕ) (X : List Entry) : Prop :=
  ∀ u c, t < u → u ≤ hi → H.leader u = some c → X <+: H.candLog u c

/-- The later history `H'` keeps the leaders of `H` and the logs they stood with. -/
structure Extends (H H' : History) : Prop where
  leader : ∀ t c, H.leader t = some c → H'.leader t = some c
  candLog : ∀ t c, H.leader t = some c → H'.candLog t c = H.candLog t c
  termLog : ∀ t, H.termLog t <+: H'.termLog t
  acked : ∀ t w, H.acked t w ≤ H'.acked t w

theorem Extends.refl (H : History) : H.Extends H :=
  ⟨fun _ _ h ↦ h, fun _ _ _ ↦ rfl, fun _ ↦ prefix_rfl, fun _ _ ↦ le_rfl⟩

variable {H H' : History} {t hi hi' : ℕ} {w : NodeId} {X : List Entry}

theorem Carried.of_le (h : H.Carried t hi X) (hle : hi' ≤ hi) : H.Carried t hi' X :=
  fun u c ht hu hl ↦ h u c ht (hu.trans hle) hl

theorem Carried.of_extends (h : H'.Carried t hi X) (hext : H.Extends H') : H.Carried t hi X :=
  fun u c ht hu hl ↦ hext.candLog u c hl ▸ h u c ht hu (hext.leader u c hl)

theorem Held.of_extends (h : H'.Held t w X) (hext : H.Extends H')
    (hack : H'.acked t w = H.acked t w) (hle : H.acked t w ≤ (H.termLog t).length) :
    H.Held t w X := by
  have hlen : X.length ≤ H.acked t w := hack ▸ h.2
  exact ⟨prefix_of_prefix_length_le h.1 (hext.termLog t) (hlen.trans hle), hlen⟩

end History

/-! ## The logs of candidates and leaders -/

/-- Candidates keep the log they stood with until their term has a leader, vote requests describe
it, and leaders hold the whole log of their term. -/
structure CandInv (nodes : NodeId → RaftNode) (requests : List RequestVote) (H : History) :
    Prop where
  candidate_log : ∀ v, (nodes v).role = .candidate → H.leader (nodes v).currentTerm = none →
    (nodes v).log = H.candLog (nodes v).currentTerm v
  leader_log : ∀ v, (nodes v).role = .leader → (nodes v).log = H.termLog (nodes v).currentTerm
  leader_acked : ∀ v, (nodes v).role = .leader →
    H.acked (nodes v).currentTerm v = (nodes v).log.length
  request : ∀ m ∈ requests,
    (m.lastLogIndex, m.lastLogTerm) = lastOf (H.candLog m.term m.candidateId)
  backed : ∀ t c, Backed H.termLog (H.candLog t c)
  term_lt : ∀ t c, ∀ e ∈ H.candLog t c, e.term < t
  isPrefix : ∀ t c, H.leader t = some c → H.candLog t c <+: H.termLog t

namespace CandInv

variable {nodes : NodeId → RaftNode} {requests : List RequestVote} {H H' : History}

theorem addRequest (h : CandInv nodes requests H) {m : RequestVote}
    (hm : (m.lastLogIndex, m.lastLogTerm) = lastOf (H.candLog m.term m.candidateId)) :
    CandInv nodes (requests ++ [m]) H :=
  { h with request := forall_mem_append.mpr ⟨h.request, forall_mem_singleton.mpr hm⟩ }

variable {v : NodeId} {n : RaftNode}

variable (h : CandInv nodes requests H) {sent : List Envelope}

include h

/-- A step that neither starts nor ends an election: a node that is a candidate in an open
election, or a leader, has been so before and keeps its log. -/
theorem keep (hlea : H'.leader = H.leader)
    (hclog : H'.candLog = H.candLog) (htlog : H'.termLog = H.termLog)
    (hack : ∀ w, (nodes w).role = .leader →
      H'.acked (nodes w).currentTerm w = H.acked (nodes w).currentTerm w)
    (hcand : n.role = .candidate → H.leader n.currentTerm = none →
      n.currentTerm = (nodes v).currentTerm ∧ (nodes v).role = .candidate ∧
        n.log = (nodes v).log) (hlead : n.role = .leader →
      n.currentTerm = (nodes v).currentTerm ∧ (nodes v).role = .leader ∧ n.log = (nodes v).log) :
    CandInv (update nodes v n) requests H' where
  candidate_log := by
    rw [hlea, hclog]
    refine (forall_update_iff nodes fun w n ↦ n.role = .candidate →
      H.leader n.currentTerm = none → n.log = H.candLog n.currentTerm w).mpr
        ⟨fun hr hl ↦ ?_, fun w _ ↦ h.candidate_log w⟩
    obtain ⟨hterm, hrole, hlog⟩ := hcand hr hl
    rw [hterm] at hl
    rw [hterm, hlog, h.candidate_log v hrole hl]
  leader_log := by
    rw [htlog]
    refine (forall_update_iff nodes fun _ n ↦ n.role = .leader →
      n.log = H.termLog n.currentTerm).mpr ⟨fun hr ↦ ?_, fun w _ ↦ h.leader_log w⟩
    obtain ⟨hterm, hrole, hlog⟩ := hlead hr
    rw [hterm, hlog, h.leader_log v hrole]
  leader_acked := by
    refine (forall_update_iff nodes fun w n ↦ n.role = .leader →
      H'.acked n.currentTerm w = n.log.length).mpr ⟨fun hr ↦ ?_, fun w _ hr ↦ ?_⟩
    · obtain ⟨hterm, hrole, hlog⟩ := hlead hr
      rw [hterm, hlog, hack v hrole, h.leader_acked v hrole]
    · rw [hack w hr, h.leader_acked w hr]
  request := hclog ▸ h.request
  backed := by rw [htlog, hclog]; exact h.backed
  term_lt := hclog ▸ h.term_lt
  isPrefix := by rw [hlea, htlog, hclog]; exact h.isPrefix

theorem follow (hlead : H'.leader = H.leader)
    (hclog : H'.candLog = H.candLog) (htlog : H'.termLog = H.termLog)
    (hack : H'.acked = H.acked) (hfol : (nodes v).Follows n) (hlog : n.log = (nodes v).log) :
    CandInv (update nodes v n) requests H' := by
  have hrole : ∀ {r : Role}, r ≠ .follower → n.role = r →
      n.currentTerm = (nodes v).currentTerm ∧ (nodes v).role = r ∧ n.log = (nodes v).log := by
    intro r hr hn
    obtain ⟨hterm, hrole⟩ := hfol.of_role_ne (hn ▸ hr)
    exact ⟨hterm, hrole.symm.trans hn, hlog⟩
  exact h.keep hlead hclog htlog (fun _ _ ↦ by rw [hack])
    (fun hr _ ↦ hrole (by decide) hr) fun hr ↦ hrole (by decide) hr

/-- A vote is granted only to a candidate whose log holds whatever the voter's log holds and every
leader in between has carried. -/
theorem isPrefix_candLog_of_isLogUpToDate (hlog : LogInv nodes sent H.leader H.termLog) {c : NodeId}
    {t' : ℕ} {X : List Entry} (hX : X <+: (nodes v).log) (hterm : X <+: H.termLog t)
    (hlast : EndsIn t X) (hcarried : H.Carried t t' X)
    (hup : (nodes v).isLogUpToDate (lastOf (H.candLog t' c)).1 (lastOf (H.candLog t' c)).2 = true) :
    X <+: H.candLog t' c := by
  set C := H.candLog t' c with hC
  have hne : (nodes v).log ≠ [] := fun hnil ↦ hlast.ne_nil (prefix_nil.mp (hnil ▸ hX))
  obtain ⟨s, hs⟩ := exists_endsIn hne
  have hlastLog : (nodes v).lastLog = ((nodes v).log.length, s) := (hlog.log v).lastOf_eq hs
  have hts : t ≤ s := by
    obtain ⟨e, he, rfl⟩ := hlast
    exact hlog.termLog_term_le s e
      (((hlog.log v).isPrefix_of_endsIn hs).mem (hX.mem (mem_of_getLast? he)))
  simp only [RaftNode.isLogUpToDate, hlastLog, Bool.or_eq_true, Bool.and_eq_true,
    decide_eq_true_eq, beq_iff_eq] at hup
  have hlenPos : 0 < (nodes v).log.length := length_pos_iff.mpr hne
  have hCne : C ≠ [] := by
    intro hnil
    rw [hnil] at hup
    simp only [lastOf, List.getLast?_nil] at hup
    omega
  obtain ⟨u, hu⟩ := exists_endsIn hCne
  have hCback : Backed H.termLog C := h.backed t' c
  rw [hCback.lastOf_eq hu] at hup
  simp only at hup
  have hCpre : C <+: H.termLog u := hCback.isPrefix_of_endsIn hu
  obtain ⟨e, he, heu⟩ := hu
  have heC : e ∈ C := mem_of_getLast? he
  have hut' : u < t' := heu ▸ h.term_lt t' c e heC
  rcases Nat.lt_or_ge t u with htu | hut
  · -- the last entry of `C` is of a term in between, whose leader stood with a shorter log
    cases hl : H.leader u with
    | none =>
      rw [hlog.idle u hl] at hCpre
      exact absurd (prefix_nil.mp hCpre) hCne
    | some c' =>
      rcases prefix_or_prefix_of_prefix hCpre (h.isPrefix u c' hl) with hsub | hsub
      · exact absurd (h.term_lt u c' e (hsub.mem heC)) (by omega)
      · exact (hcarried u c' htu hut'.le hl).trans hsub
  · obtain rfl : u = t := by omega
    exact prefix_of_prefix_length_le hterm hCpre (hX.length_le.trans (by omega))

theorem stand {members : List NodeId} {grants : List Grant}
    (hvote : VoteInv members nodes requests grants H) (hlog : LogInv nodes sent H.leader H.termLog)
    (hterm : n.currentTerm = (nodes v).currentTerm + 1) (hrole : n.role = .candidate)
    (hn : n.log = (nodes v).log) :
    CandInv (update nodes v n) requests (H.stand n.currentTerm v n.log) := by
  have hoth : ∀ t c, t ≤ (nodes c).currentTerm →
      (H.stand n.currentTerm v n.log).candLog t c = H.candLog t c := by
    intro t c hle
    refine setAt_of_ne H.candLog n.log ?_
    rintro ⟨rfl, rfl⟩
    omega
  have hcs : ∀ t c, (H.stand n.currentTerm v n.log).candLog t c = H.candLog t c ∨
      t = n.currentTerm ∧ (H.stand n.currentTerm v n.log).candLog t c = n.log := by
    intro t c
    rcases setAt_eq_or H.candLog n.currentTerm v n.log t c with heq | ⟨rfl, rfl⟩
    · exact .inl heq
    · exact .inr ⟨rfl, setAt_self ..⟩
  refine ⟨?_, ?_, ?_, fun m hm ↦ ?_, fun t c ↦ ?_, fun t c ↦ ?_, fun t c hl ↦ ?_⟩
  · refine (forall_update_iff nodes fun w n' ↦ n'.role = .candidate →
      H.leader n'.currentTerm = none →
        n'.log = (H.stand n.currentTerm v n.log).candLog n'.currentTerm w).mpr
        ⟨fun _ _ ↦ (setAt_self ..).symm, fun w _ hr hl ↦ ?_⟩
    rw [hoth _ w le_rfl, h.candidate_log w hr hl]
  · exact (forall_update_iff nodes fun _ n ↦ n.role = .leader →
      n.log = H.termLog n.currentTerm).mpr ⟨by simp [hrole], fun w _ ↦ h.leader_log w⟩
  · exact (forall_update_iff nodes fun w n ↦ n.role = .leader →
      H.acked n.currentTerm w = n.log.length).mpr ⟨by simp [hrole], fun w _ ↦ h.leader_acked w⟩
  · rw [hoth _ _ (hvote.request_le m hm)]
    exact h.request m hm
  · rcases hcs t c with heq | ⟨-, heq⟩
    · rw [heq]
      exact h.backed t c
    · rw [heq, hn]
      exact hlog.log v
  · rcases hcs t c with heq | ⟨rfl, heq⟩
    · rw [heq]
      exact h.term_lt t c
    · rw [heq, hn, hterm]
      exact fun e he ↦ Nat.lt_succ_of_le (hlog.log_term_le v e he)
  · rw [hoth t c (hvote.leader_le t c hl)]
    exact h.isPrefix t c hl

/-- A candidate wins an open election, or the leader of a term extends its log. -/
theorem extend (hlea : ∀ t c, H'.leader t = some c →
      t = n.currentTerm ∧ c = v ∨ t ≠ n.currentTerm ∧ H.leader t = some c)
    (hnone : ∀ t, H'.leader t = none → H.leader t = none)
    (hothers : ∀ w, w ≠ v → (nodes w).role = .leader → (nodes w).currentTerm ≠ n.currentTerm)
    (hclog : H'.candLog = H.candLog)
    (htlog : H'.termLog = update H.termLog n.currentTerm n.log)
    (hgrow : ∀ t, H.termLog t <+: H'.termLog t)
    (hack : H'.acked = setAt H.acked n.currentTerm v n.log.length) (hlead : n.role = .leader)
    (hstood : H.candLog n.currentTerm v <+: n.log) : CandInv (update nodes v n) requests H' where
  candidate_log := by
    rw [hclog]
    refine (forall_update_iff nodes fun w n ↦ n.role = .candidate →
      H'.leader n.currentTerm = none → n.log = H.candLog n.currentTerm w).mpr
        ⟨by simp [hlead], fun w _ hr hl ↦ h.candidate_log w hr (hnone _ hl)⟩
  leader_log := by
    rw [htlog]
    refine (forall_update_iff nodes fun _ n' ↦ n'.role = .leader →
      n'.log = update H.termLog n.currentTerm n.log n'.currentTerm).mpr
        ⟨fun _ ↦ by rw [update_self], fun w hw hr ↦ ?_⟩
    rw [update_of_ne (hothers w hw hr), h.leader_log w hr]
  leader_acked := by
    rw [hack]
    refine (forall_update_iff nodes fun w n' ↦ n'.role = .leader →
      setAt H.acked n.currentTerm v n.log.length n'.currentTerm w = n'.log.length).mpr
        ⟨fun _ ↦ setAt_self .., fun w hw hr ↦ ?_⟩
    rw [setAt_of_ne H.acked _ fun heq ↦ hw heq.2, h.leader_acked w hr]
  request := hclog ▸ h.request
  backed t c := by rw [hclog]; exact (h.backed t c).mono hgrow
  term_lt := hclog ▸ h.term_lt
  isPrefix t c hl := by
    rw [hclog, htlog]
    rcases hlea t c hl with ⟨rfl, rfl⟩ | ⟨hne, hold⟩
    · rwa [update_self]
    · rw [update_of_ne hne]
      exact h.isPrefix t c hold

end CandInv

/-! ## What nodes keep -/

/-- Nodes keep what they have held and every leader since has carried, and pass it on through the
elections they vote in. -/
structure Kept (nodes : NodeId → RaftNode) (H : History) : Prop where
  acked_term_le : ∀ t w, H.acked t w ≠ 0 → t ≤ (nodes w).currentTerm
  acked_le : ∀ t w, H.acked t w ≤ (H.termLog t).length
  quorum_term_le : ∀ t c w, H.leader t = some c → H.quorum t w = true → t ≤ (nodes w).currentTerm
  held : ∀ t w X, H.Held t w X → H.Carried t (nodes w).currentTerm X → X <+: (nodes w).log
  voted : ∀ t' w c, H.ballot t' w = some c → ∀ t X, t < t' → H.Held t w X → EndsIn t X →
    H.Carried t t' X → X <+: H.candLog t' c
  elected : ∀ t' c w, H.leader t' = some c → H.quorum t' w = true → ∀ t X, t < t' →
    H.Held t w X → EndsIn t X → H.Carried t (t' - 1) X → X <+: H.candLog t' c

namespace Kept

variable {nodes : NodeId → RaftNode} {H H' : History}

variable {v : NodeId} {n : RaftNode}

/-- One node moves on. What has to be checked is the log of that node, and the ballots and
elections that are new. -/
theorem move (h : Kept nodes H) (hext : H.Extends H')
    (hballot_le : ∀ t w c, H.ballot t w = some c → t ≤ (nodes w).currentTerm)
    (hterm : (nodes v).currentTerm ≤ n.currentTerm)
    (hack : ∀ t w, H'.acked t w = H.acked t w ∨ t = n.currentTerm ∧ w = v)
    (hacked_le : ∀ t w, H'.acked t w ≤ (H'.termLog t).length)
    (hheld : ∀ t X, H'.Held t v X → H'.Carried t n.currentTerm X → X <+: n.log)
    (hvot : ∀ t' w c, H'.ballot t' w = some c →
      H.ballot t' w = some c ∧ H'.candLog t' c = H.candLog t' c ∨
      ∀ t X, t < t' → H'.Held t w X → EndsIn t X → H'.Carried t t' X → X <+: H'.candLog t' c)
    (helec : ∀ t' c w, H'.leader t' = some c → H'.quorum t' w = true →
      H.leader t' = some c ∧ H.quorum t' w = true ∨
      t' ≤ (update nodes v n w).currentTerm ∧ ∀ t X, t < t' → H'.Held t w X → EndsIn t X →
        H'.Carried t (t' - 1) X → X <+: H'.candLog t' c) : Kept (update nodes v n) H' := by
  have htms : ∀ w, (nodes w).currentTerm ≤ (update nodes v n w).currentTerm :=
    VoteInv.le_update_currentTerm hterm
  -- what was held in a term before the present one of the node is held no differently now
  have hback : ∀ t w X t', t < t' → t' ≤ (nodes w).currentTerm → H'.Held t w X → H.Held t w X := by
    intro t w X t' hlt hle hX
    rcases hack t w with heq | ⟨rfl, rfl⟩
    · exact hX.of_extends hext heq (h.acked_le t w)
    · omega
  refine ⟨fun t w hne ↦ ?_, hacked_le, fun t c w hl hw ↦ ?_, fun t ↦ ?_, ?_, ?_⟩
  · rcases hack t w with heq | ⟨rfl, rfl⟩
    · exact (h.acked_term_le t w (heq ▸ hne)).trans (htms w)
    · rw [update_self]
  · rcases helec t c w hl hw with ⟨hl', hw'⟩ | ⟨hle, -⟩
    · exact (h.quorum_term_le t c w hl' hw').trans (htms w)
    · exact hle
  · refine (forall_update_iff nodes fun w n ↦ ∀ X, H'.Held t w X →
      H'.Carried t n.currentTerm X → X <+: n.log).mpr ⟨hheld t, fun w hw X hX hc ↦ ?_⟩
    have heq := (hack t w).resolve_right fun heq ↦ hw heq.2
    exact h.held t w X (hX.of_extends hext heq (h.acked_le t w)) (hc.of_extends hext)
  · intro t' w c hb
    rcases hvot t' w c hb with ⟨hb', hlog⟩ | hnew
    · intro t X hlt hX hlast hc
      rw [hlog]
      exact h.voted t' w c hb' t X hlt (hback t w X t' hlt (hballot_le t' w c hb') hX) hlast
        (hc.of_extends hext)
    · exact hnew
  · intro t' c w hl hw
    rcases helec t' c w hl hw with ⟨hl', hw'⟩ | ⟨-, hnew⟩
    · intro t X hlt hX hlast hc
      rw [hext.candLog t' c hl']
      exact h.elected t' c w hl' hw' t X hlt
        (hback t w X t' hlt (h.quorum_term_le t' c w hl' hw') hX) hlast (hc.of_extends hext)
    · exact hnew

theorem held_of_log_eq (h : Kept nodes H) (hext : H.Extends H')
    (hterm : (nodes v).currentTerm ≤ n.currentTerm) (hlog : (nodes v).log <+: n.log)
    (hack : H'.acked t v = H.acked t v) (X : List Entry) (hX : H'.Held t v X)
    (hc : H'.Carried t n.currentTerm X) : X <+: n.log :=
  (h.held t v X (hX.of_extends hext hack (h.acked_le t v))
    ((hc.of_le hterm).of_extends hext)).trans hlog

theorem extend (h : Kept nodes H) (hext : H.Extends H')
    (hballot_le : ∀ t w c, H.ballot t w = some c → t ≤ (nodes w).currentTerm)
    (hterm : n.currentTerm = (nodes v).currentTerm) (hlog : (nodes v).log <+: n.log)
    (hballot : H'.ballot = H.ballot) (hclog : H'.candLog = H.candLog)
    (htlog : H'.termLog = update H.termLog n.currentTerm n.log)
    (hack : H'.acked = setAt H.acked n.currentTerm v n.log.length)
    (helec : ∀ t' c w, H'.leader t' = some c → H'.quorum t' w = true →
      H.leader t' = some c ∧ H.quorum t' w = true ∨
      t' ≤ (update nodes v n w).currentTerm ∧ ∀ t X, t < t' → H'.Held t w X → EndsIn t X →
        H'.Carried t (t' - 1) X → X <+: H'.candLog t' c) : Kept (update nodes v n) H' := by
  have hcs : ∀ t w, H'.acked t w = H.acked t w ∨ t = n.currentTerm ∧ w = v := fun t w ↦
    hack ▸ setAt_eq_or H.acked n.currentTerm v n.log.length t w
  refine h.move hext hballot_le hterm.ge hcs (fun t w ↦ ?_) (fun t X hX hc ↦ ?_)
    (fun t' w c hb ↦ .inl ⟨hballot ▸ hb, by rw [hclog]⟩) helec
  · rcases hcs t w with heq | ⟨rfl, rfl⟩
    · rw [heq]
      exact (h.acked_le t w).trans (hext.termLog t).length_le
    · rw [hack, htlog, setAt_self, update_self]
  · by_cases ht : t = n.currentTerm
    · subst ht
      have hpre := hX.1
      rwa [htlog, update_self] at hpre
    · exact h.held_of_log_eq hext hterm.ge hlog ((hcs t v).resolve_right fun heq ↦ ht heq.1) X hX hc

end Kept

end Synapse
