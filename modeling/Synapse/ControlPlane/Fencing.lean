import Synapse.ControlPlane.Cluster
import Synapse.Lib.Run

/-!
# One leader in a term

A reader of the status endpoint sees a term and a leader. The pair fences stale leaders if a term
never shows two of them. The pairs shown along a run are kept beside the cluster, in `seen`, and
`Fenced` says that they have one leader in each term.

Only `stepElection` moves the term, so two other calls can show a second leader in the same term:
removing the leader while there are other members, and registering a node in a cluster that was
emptied after another leader was seen. `Kept` excludes the two, and nothing more:
`fenced_iff` says that a run is fenced exactly if each of its calls is kept.
-/

open Transition

namespace Synapse.ControlPlane

open List

/-- A cluster with the pairs of term and leader it has shown, one after each call. -/
structure Watched where
  cluster : Cluster
  seen : List (ℕ × String)

def Watched.start (name : String) (now : ℕ) : Watched where
  cluster := newCluster name now
  seen := []

def Watched.step (w : Watched) (op : ClusterOp) : Option Watched :=
  some ⟨w.cluster.step op,
    w.seen ++ [((w.cluster.step op).status.term, (w.cluster.step op).status.leader)]⟩

/-- No term shows two leaders. -/
def Fenced (seen : List (ℕ × String)) : Prop :=
  ∀ p ∈ seen, ∀ q ∈ seen, p.1 = q.1 → p.2 ≠ "" → q.2 ≠ "" → p.2 = q.2

/-- The ids are not empty, and the term does not wrap around. -/
def Sane (w : Watched) (op : ClusterOp) : Prop :=
  op.Named ∧ w.cluster.term + 1 < 2 ^ 64

/-- The call does not replace a leader within the term: a leader that is removed is the last
member, and the first member of an empty cluster is the only leader its term has seen. -/
def Kept (w : Watched) : ClusterOp → Prop
  | .addNode id _ _ =>
    w.cluster.nodes = [] → ∀ p ∈ w.seen, p.1 = w.cluster.term → p.2 ≠ "" → p.2 = id
  | .removeNode id _ => id = w.cluster.leader → ∀ n ∈ w.cluster.nodes, n.id = id
  | .stepElection _ => True

instance : DecidableRel Sane :=
  fun _ _ ↦ inferInstanceAs (Decidable (_ ∧ _))

instance (w : Watched) : DecidablePred (Kept w)
  | .addNode .. => inferInstanceAs (Decidable (_ → ∀ p ∈ w.seen, _ → _ → _))
  | .removeNode .. => inferInstanceAs (Decidable (_ → ∀ n ∈ w.cluster.nodes, _))
  | .stepElection _ => isTrue trivial

/-! ## Who leads after a call -/

namespace Cluster

variable {c : Cluster} {id : String}

theorem leader_addNode (id addr : String) (now : ℕ) :
    (c.addNode id addr now).2.leader = if c.nodes = [] then id else c.leader := by
  by_cases hmem : id ∈ c.ids
  · have hne : c.nodes ≠ [] := fun hnil ↦ by simp [ids, hnil] at hmem
    rw [addNode_of_mem hmem, if_neg hne]
    rfl
  · rw [addNode_of_not_mem hmem]

theorem leader_removeNode_of_ne (h : Led c) (hne : id ≠ c.leader) (now : ℕ) :
    (c.removeNode id now).2.leader = c.leader := by
  by_cases hmem : id ∈ c.ids
  · have hin : c.leader ∈ c.ids := h.leader_mem fun hnil ↦ by simp [ids, hnil] at hmem
    have hkeep : (c.without id now).leader = c.leader := if_neg hne.symm
    have hfull : ¬(c.without id now).leader = "" := fun hemp ↦ h.empty_not_mem (hemp ▸ hkeep ▸ hin)
    rwa [removeNode_of_mem hmem, if_neg hfull]
  · rw [removeNode_of_not_mem hmem]

theorem leader_removeNode_self (hin : c.leader ∈ c.ids) (now : ℕ) :
    (c.removeNode c.leader now).2.leader = "" ∧ (∀ n ∈ c.nodes, n.id = c.leader) ∨
      (c.removeNode c.leader now).2.leader ∈ c.ids ∧
        (c.removeNode c.leader now).2.leader ≠ c.leader := by
  have hvacant : (c.without c.leader now).leader = "" := if_pos rfl
  rw [removeNode_of_mem hin, if_pos hvacant]
  rcases (c.without c.leader now).stepElectionLocked_eq now with ⟨hnil, heq⟩ | ⟨new, hnew, -, heq⟩
  · refine .inl ⟨by rw [heq], fun n hn ↦ ?_⟩
    by_contra hne
    have hmem : n.id ∈ (c.without c.leader now).ids := mem_ids_without.mpr ⟨mem_map_of_mem hn, hne⟩
    rw [hnil] at hmem
    exact not_mem_nil hmem
  · rw [heq]
    exact .inr (mem_ids_without.mp hnew)

end Cluster

/-! ## The history of a run -/

/-- A pair can be shown after the pairs `seen` without a second leader in its term. -/
def Agrees (seen : List (ℕ × String)) (x : ℕ × String) : Prop :=
  ∀ p ∈ seen, p.1 = x.1 → p.2 ≠ "" → x.2 ≠ "" → p.2 = x.2

theorem fenced_concat {seen : List (ℕ × String)} {x : ℕ × String} :
    Fenced (seen ++ [x]) ↔ Fenced seen ∧ Agrees seen x := by
  constructor
  · intro h
    exact ⟨fun p hp q hq ↦ h p (mem_append_left _ hp) q (mem_append_left _ hq),
      fun p hp ↦ h p (mem_append_left _ hp) x mem_concat_self⟩
  rintro ⟨hseen, hx⟩ p hp q hq hterm hpne hqne
  rw [mem_append, mem_singleton] at hp hq
  rcases hp with hp | rfl <;> rcases hq with hq | rfl
  · exact hseen p hp q hq hterm hpne hqne
  · exact hx p hp hterm hpne hqne
  · exact (hx q hq hterm.symm hqne hpne).symm
  · rfl

/-- What has been seen: nothing of a later term, and the current leader. -/
structure Shown (w : Watched) : Prop where
  led : Led w.cluster
  term_le : ∀ p ∈ w.seen, p.1 ≤ w.cluster.term
  current : w.cluster.leader ≠ "" → (w.cluster.term, w.cluster.leader) ∈ w.seen

namespace Shown

variable {w w' : Watched} {op : ClusterOp}

theorem term_le_step (hsane : Sane w op) : w.cluster.term ≤ (w.cluster.step op).term := by
  cases op with
  | addNode id addr now => exact (w.cluster.term_addNode id addr now).ge
  | removeNode id now => exact (w.cluster.term_removeNode id now).ge
  | stepElection now =>
    rw [Cluster.step, Cluster.term_stepElection]
    split_ifs
    · exact le_rfl
    · rw [Nat.mod_eq_of_lt hsane.2]
      exact Nat.le_succ _

variable (h : Shown w)

include h

theorem step (hsane : Sane w op) (hstep : w.step op = some w') : Shown w' := by
  cases hstep
  refine ⟨h.led.step hsane.1, forall_mem_append.mpr ⟨fun p hp ↦ ?_, ?_⟩, fun _ ↦ mem_concat_self⟩
  · exact (h.term_le p hp).trans (term_le_step hsane)
  · exact forall_mem_singleton.mpr le_rfl

theorem agrees_current (hf : Fenced w.seen) {term : ℕ} {leader : String}
    (hterm : term = w.cluster.term) (hlead : leader = w.cluster.leader) :
    Agrees w.seen (term, leader) := by
  subst hterm hlead
  exact fun p hp heq hpne hne ↦ hf p hp _ (h.current hne) heq hpne hne

theorem agrees_addNode_iff (hf : Fenced w.seen) {id : String} (hid : id ≠ "")
    (addr : String) (now : ℕ) :
    Agrees w.seen ((w.cluster.step (.addNode id addr now)).term,
      (w.cluster.step (.addNode id addr now)).leader) ↔ Kept w (.addNode id addr now) := by
  have hterm := w.cluster.term_addNode id addr now
  have hlead := w.cluster.leader_addNode id addr now
  by_cases hnil : w.cluster.nodes = []
  · rw [if_pos hnil] at hlead
    rw [Cluster.step, hterm, hlead]
    exact ⟨fun hag _ p hp hpt hpne ↦ hag p hp hpt hpne hid,
      fun hkept p hp hpt hpne _ ↦ hkept hnil p hp hpt hpne⟩
  · rw [if_neg hnil] at hlead
    exact iff_of_true (h.agrees_current hf hterm hlead) fun heq ↦ absurd heq hnil

/-- The leader is removed: it was the last member, or another one leads in the same term. -/
theorem agrees_removeLeader_iff (hin : w.cluster.leader ∈ w.cluster.ids) (now : ℕ) :
    Agrees w.seen ((w.cluster.step (.removeNode w.cluster.leader now)).term,
        (w.cluster.step (.removeNode w.cluster.leader now)).leader) ↔
      Kept w (.removeNode w.cluster.leader now) := by
  have hterm := w.cluster.term_removeNode w.cluster.leader now
  have hne : w.cluster.leader ≠ "" := fun heq ↦ h.led.empty_not_mem (heq ▸ hin)
  rcases Cluster.leader_removeNode_self hin now with ⟨hemp, hall⟩ | ⟨hnew, hoth⟩
  · exact iff_of_true (fun p _ _ _ hne' ↦ absurd hemp hne') fun _ ↦ hall
  refine iff_of_false (fun hag ↦ hoth ?_) fun hkept ↦ ?_
  · exact (hag _ (h.current hne) hterm.symm hne fun heq ↦ h.led.empty_not_mem (heq ▸ hnew)).symm
  · obtain ⟨n, hn, heq⟩ := mem_map.mp hnew
    exact hoth (heq.symm.trans (hkept rfl n hn))

theorem agrees_removeNode_iff (hf : Fenced w.seen) (id : String) (now : ℕ) :
    Agrees w.seen ((w.cluster.step (.removeNode id now)).term,
      (w.cluster.step (.removeNode id now)).leader) ↔ Kept w (.removeNode id now) := by
  have hterm := w.cluster.term_removeNode id now
  by_cases hid : id = w.cluster.leader
  · subst hid
    by_cases hin : w.cluster.leader ∈ w.cluster.ids
    · exact h.agrees_removeLeader_iff hin now
    have hnil : w.cluster.nodes = [] := by
      by_contra hne
      exact hin (h.led.leader_mem hne)
    have hsame := Cluster.removeNode_of_not_mem hin now
    refine iff_of_true (h.agrees_current hf hterm ?_) fun _ n hn ↦ ?_
    · rw [Cluster.step, hsame]
    · rw [hnil] at hn
      exact nomatch hn
  · have hlead := Cluster.leader_removeNode_of_ne h.led hid now
    exact iff_of_true (h.agrees_current hf hterm hlead) fun heq ↦ absurd heq hid

theorem agrees_stepElection (hf : Fenced w.seen) {now : ℕ} (hsane : Sane w (.stepElection now)) :
    Agrees w.seen ((w.cluster.step (.stepElection now)).term,
      (w.cluster.step (.stepElection now)).leader) := by
  have hterm := w.cluster.term_stepElection now
  by_cases hnil : w.cluster.nodes = []
  · have hsame : w.cluster.stepElection now = ("", w.cluster) := if_pos hnil
    rw [Cluster.step, hsame]
    exact h.agrees_current hf rfl rfl
  -- nothing was seen in the new term
  rw [if_neg hnil, Nat.mod_eq_of_lt hsane.2] at hterm
  intro p hp heq
  have hle := h.term_le p hp
  rw [Cluster.step, hterm] at heq
  omega

/-- **One call.** What a call shows agrees with what was seen exactly if the call is kept. -/
theorem agrees_iff_kept (hf : Fenced w.seen) (hsane : Sane w op) :
    Agrees w.seen ((w.cluster.step op).term, (w.cluster.step op).leader) ↔ Kept w op := by
  cases op with
  | addNode id addr now => exact h.agrees_addNode_iff hf hsane.1 addr now
  | removeNode id now => exact h.agrees_removeNode_iff hf id now
  | stepElection now => exact iff_of_true (h.agrees_stepElection hf hsane) trivial

end Shown

/-- **Term fencing.** Along a run with non-empty ids whose term does not wrap around, no term shows
two leaders if and only if no call replaces a leader within the term. -/
theorem fenced_iff (name : String) (now : ℕ) (ops : List ClusterOp) (w : Watched)
    (hrun : Steps Watched.step Sane (.start name now) ops w) :
    Fenced w.seen ↔
      Steps Watched.step (fun w op ↦ Sane w op ∧ Kept w op) (.start name now) ops w := by
  have hstart : Fenced (Watched.start name now).seen := nofun
  refine (hrun.good_iff Shown (fun w ↦ Fenced w.seen) (fun w op w' h hsane hstep ↦ ?_)
    ⟨.newCluster name now, nofun, absurd rfl⟩).trans (and_iff_right hstart)
  refine ⟨h.step hsane hstep, ?_⟩
  cases hstep
  exact fenced_concat.trans (and_congr_right fun hf ↦ h.agrees_iff_kept hf hsane)

/-- A fenced run: leadership moves with a new term, and the leader leaves as the last member. -/
theorem fenced_iff_of_election : ∃ w, Steps Watched.step Sane (.start "c" 0)
        [.addNode "n2" "a2" 1, .addNode "n1" "a1" 2, .stepElection 3, .removeNode "n2" 4,
          .removeNode "n1" 5, .addNode "n1" "a1" 6] w ∧
      w.seen = [(1, "n2"), (1, "n2"), (2, "n1"), (2, "n1"), (2, ""), (2, "n1")] ∧
      Fenced w.seen := by
  refine exists_steps_of_isSome (by decide +kernel) fun hrun ↦ ⟨by decide +kernel, ?_⟩
  exact (fenced_iff "c" 0 _ _ hrun).mpr (steps_exec (by decide +kernel))

/-- **The first term has two leaders.** The leader of two members leaves, and the other one leads
in the same term. -/
theorem not_fenced_of_removal : ∃ w, Steps Watched.step Sane (.start "c" 0)
        [.addNode "n1" "a1" 1, .addNode "n2" "a2" 2, .removeNode "n1" 3] w ∧
      w.seen = [(1, "n1"), (1, "n1"), (1, "n2")] ∧ ¬Fenced w.seen := by
  refine exists_steps_of_isSome (by decide +kernel) fun _ ↦ ⟨by decide +kernel, fun hf ↦ ?_⟩
  exact absurd (hf (1, "n1") (by decide +kernel) (1, "n2") (by decide +kernel) rfl (by decide)
    (by decide)) (by decide)

end Synapse.ControlPlane
