import Mathlib.Data.List.Infix
import Synapse.Raft.Transport

/-!
# Logs backed by the leaders of their terms

The log of a term's leader only grows while the term lasts. Writing `termLog t` for it, a log is
*backed* when every entry sits at its own index and the log up to an entry of term `t` is an
initial part of `termLog t`. Log matching is then immediate: two backed logs with entries of the
same term at the same position are both cut from one list.

The two operations that move entries between nodes are characterised here for backed logs.
`buildAppendEntries` cuts a slice out of the sender's log, and the append loop of the receiver,
which compares terms only, leaves either its own log or the sender's.
-/

namespace Synapse

open List

/-- Every entry sits at its own index, and the log up to it is an initial part of the log of the
leader of its term. -/
def Backed (termLog : ℕ → List Entry) (log : List Entry) : Prop :=
  ∀ (k : ℕ) (e : Entry), log[k]? = some e → e.index = k + 1 ∧ log.take (k + 1) <+: termLog e.term

theorem getElem?_of_isPrefix {log log' : List Entry} (h : log <+: log') {k : ℕ} {e : Entry}
    (he : log[k]? = some e) : log'[k]? = some e := by
  obtain ⟨rest, rfl⟩ := h
  rw [List.getElem?_append_left (List.getElem?_eq_some_iff.mp he).1, he]

namespace Backed

variable {termLog termLog' : ℕ → List Entry} {log log' : List Entry}

theorem nil (termLog : ℕ → List Entry) : Backed termLog [] := by
  intro k e h
  simp at h

section

variable (h : Backed termLog log)

include h

theorem mono (hgrow : ∀ t, termLog t <+: termLog' t) : Backed termLog' log :=
  fun k e hk ↦ ⟨(h k e hk).1, (h k e hk).2.trans (hgrow _)⟩

theorem of_isPrefix (hpre : log' <+: log) : Backed termLog log' := by
  intro k e hk
  have hlt : k < log'.length := (List.getElem?_eq_some_iff.mp hk).1
  have hback := h k e (getElem?_of_isPrefix hpre hk)
  obtain ⟨rest, rfl⟩ := hpre
  rwa [take_append_of_le_length hlt] at hback

theorem concat {e : Entry} (hidx : e.index = log.length + 1)
    (hterm : log ++ [e] <+: termLog e.term) : Backed termLog (log ++ [e]) := by
  intro k x hk
  rw [List.getElem?_append] at hk
  split_ifs at hk with hlt
  · rw [take_append_of_le_length hlt]
    exact h k x hk
  obtain ⟨hk0, rfl⟩ : k - log.length = 0 ∧ e = x := by simpa [List.getElem?_singleton] using hk
  have hlen : k = log.length := by omega
  rw [hlen, take_of_length_le (by simp)]
  exact ⟨hidx, hterm⟩

/-- Entries of the same term at the same position: the logs agree up to there. -/
theorem agree (h' : Backed termLog log') {k : ℕ} {e e' : Entry} (he : log[k]? = some e)
    (he' : log'[k]? = some e') (hterm : e.term = e'.term) :
    log.take (k + 1) = log'.take (k + 1) := by
  have hlen : k < log.length := (List.getElem?_eq_some_iff.mp he).1
  have hlen' : k < log'.length := (List.getElem?_eq_some_iff.mp he').1
  have hpre := (h k e he).2
  have hpre' := hterm ▸ (h' k e' he').2
  exact (prefix_of_prefix_length_le hpre hpre' (by simp; omega)).eq_of_length (by simp; omega)

end

end Backed

/-! ## The append loop -/

namespace RaftNode

variable {log : List Entry} {start : ℕ}

theorem appendLoop_keep {x e : Entry} (entries : List Entry) (hx : log[start]? = some x)
    (hterm : x.term = e.term) :
    appendLoop log start (e :: entries) = appendLoop log (start + 1) entries := by
  have hlt : start < log.length := (List.getElem?_eq_some_iff.mp hx).1
  simp [appendLoop, hx, hterm, Nat.not_le.mpr hlt]

theorem appendLoop_cut {e : Entry} (entries : List Entry)
    (hterm : ∀ x, log[start]? = some x → x.term ≠ e.term) : appendLoop log start (e :: entries) =
      appendLoop (log.take start ++ [e]) (start + 1) entries := by
  cases hx : log[start]? with
  | none =>
    have hlen : log.length ≤ start := List.getElem?_eq_none_iff.mp hx
    simp [appendLoop, hlen, take_of_length_le hlen]
  | some x =>
    simp [appendLoop, hx, hterm x hx]

/-- The append loop, on the part of the sender's log past a position up to which the logs agree:
entries of the same term agree, so keeping an existing one is right. -/
theorem appendLoop_drop (log sender : List Entry) (start : ℕ)
    (hagr : ∀ k e e', log[k]? = some e → sender[k]? = some e' → e.term = e'.term →
      log.take (k + 1) = sender.take (k + 1))
    (hst0 : log.take start = sender.take start) (hle : start ≤ log.length)
    (hle' : start ≤ sender.length) :
    appendLoop log start (sender.drop start) = if sender <+: log then log else sender := by
  induction hent : sender.drop start generalizing log start with
  | nil =>
    have hlen : start = sender.length := le_antisymm hle' (drop_eq_nil_iff.mp hent)
    rw [hlen, take_length] at hst0
    rw [appendLoop, if_pos (prefix_iff_eq_take.mpr hst0.symm)]
  | cons e entries ih =>
    have hsend : sender[start]? = some e := by rw [← List.head?_drop, hent, List.head?_cons]
    have hrest : sender.drop (start + 1) = entries := by rw [← drop_drop, hent, drop_one, tail_cons]
    have hlt : start < sender.length := (List.getElem?_eq_some_iff.mp hsend).1
    by_cases hsame : ∃ x, log[start]? = some x ∧ x.term = e.term
    · obtain ⟨x, hx, hterm⟩ := hsame
      have hltLog : start < log.length := (List.getElem?_eq_some_iff.mp hx).1
      rw [appendLoop_keep entries hx hterm]
      exact ih log (start + 1) hagr (hagr start x e hx hsend hterm) hltLog hlt hrest
    · -- the log is cut: from here on it is an initial part of the sender's, and ends up equal
      have hnot : ¬sender <+: log := by
        rintro ⟨rest, rfl⟩
        exact hsame ⟨e, by rw [List.getElem?_append_left hlt, hsend], rfl⟩
      have hcut : log.take start ++ [e] = sender.take (start + 1) := by
        rw [take_add_one, hsend, hst0]; rfl
      rw [if_neg hnot, appendLoop_cut entries fun x hx hterm ↦ hsame ⟨x, hx, hterm⟩, hcut,
        ih (sender.take (start + 1)) (start + 1) _ (by rw [take_take, Nat.min_self])
          (by rw [length_take]; omega) hlt hrest]
      · split_ifs with hpre
        · exact ( take_prefix _ _).eq_of_length_le hpre.length_le
        · rfl
      · intro k x x' hx _ _
        have hk : k < (sender.take (start + 1)).length := (List.getElem?_eq_some_iff.mp hx).1
        rw [length_take] at hk
        rw [take_take, Nat.min_eq_left (by omega)]

end RaftNode

/-! ## Messages -/

/-- The message holds the part of `log` past its consistency check, and the check is the entry of
`log` before that part. -/
structure AppendEntries.CutFrom (m : AppendEntries) (log : List Entry) : Prop where
  prev_le : m.prevLogIndex ≤ log.length
  entries : m.entries = log.drop m.prevLogIndex
  prevTerm : ∀ e, 0 < m.prevLogIndex → log[m.prevLogIndex - 1]? = some e → e.term = m.prevLogTerm

theorem AppendEntries.CutFrom.matchIndex_eq {m : AppendEntries} {log : List Entry}
    (h : m.CutFrom log) (hidx : ∀ k e, log[k]? = some e → e.index = k + 1) :
    m.matchIndex = log.length := by
  rw [AppendEntries.matchIndex, h.entries, List.getLast?_drop]
  split_ifs with hle
  · exact le_antisymm h.prev_le hle
  cases hlast : log.getLast? with
  | none => simp_all
  | some e =>
    rw [List.getLast?_eq_getElem?] at hlast
    simp only [hidx _ e hlast]
    omega

private theorem dropWhile_index_lt (start : ℕ) (log : List Entry) (offset : ℕ)
    (hidx : ∀ k e, log[k]? = some e → e.index = offset + k + 1) :
    log.dropWhile (fun e ↦ decide (e.index < start)) = log.drop (start - 1 - offset) := by
  induction log generalizing offset with
  | nil => simp
  | cons x xs ih =>
    have hx : x.index = offset + 1 := hidx 0 x rfl
    by_cases hlt : x.index < start
    · rw [dropWhile_cons_of_pos (by simpa using hlt), ih (offset + 1) fun k e hk ↦ by
        rw [hidx (k + 1) e (by simpa using hk)]; omega]
      have hsub : start - 1 - offset = start - 1 - (offset + 1) + 1 := by omega
      rw [hsub, drop_succ_cons]
    · rw [dropWhile_cons_of_neg (by simpa using hlt)]
      have hsub : start - 1 - offset = 0 := by omega
      rw [hsub, drop_zero]

private theorem find?_index_eq (log : List Entry) (k : ℕ) (e : Entry)
    (hidx : ∀ k e, log[k]? = some e → e.index = k + 1) (he : log[k]? = some e) :
    log.find? (fun x ↦ x.index == k + 1) = some e := by
  rw [List.find?_eq_some_iff_getElem]
  obtain ⟨hlt, hget⟩ := List.getElem?_eq_some_iff.mp he
  refine ⟨by simpa using hidx k e he, k, hlt, hget, fun j hj ↦ ?_⟩
  have hj' := hidx j log[j] (getElem?_eq_getElem (by omega))
  simp [hj']
  omega

namespace RaftNode

theorem buildAppendEntries_cutFrom (n : RaftNode)
    (hidx : ∀ k e, n.log[k]? = some e → e.index = k + 1) (next : ℕ) :
    (n.buildAppendEntries next).CutFrom n.log := by
  have hent : n.entriesFrom (max next 1) = n.log.drop (max next 1 - 1) := by
    rw [entriesFrom, if_neg (by omega), dropWhile_index_lt _ _ 0 (by simpa using hidx)]
    rfl
  rw [buildAppendEntries, hent, List.head?_drop]
  cases hfst : n.log[max next 1 - 1]? with
  | some first =>
    have hprev : first.index - 1 = max next 1 - 1 := by rw [hidx _ first hfst]; omega
    have hlt := (List.getElem?_eq_some_iff.mp hfst).1
    refine ⟨?_, ?_, ?_⟩
    · simp only [hprev]
      omega
    · simp only [hprev]
    intro e hpos he
    simp only [hprev] at hpos he ⊢
    have hfind := find?_index_eq n.log _ e hidx he
    rw [Nat.sub_add_cancel hpos] at hfind
    rw [hfind]
    rfl
  | none =>
    have hlen : n.log.length ≤ max next 1 - 1 := List.getElem?_eq_none_iff.mp hfst
    rw [drop_eq_nil_of_le hlen]
    cases hlast : n.log.getLast? with
    | none =>
      obtain hnil : n.log = [] := List.getLast?_eq_none_iff.mp hlast
      simp only [lastLog, hnil]
      exact ⟨Nat.le_refl 0, rfl, fun e hpos ↦ absurd hpos (lt_irrefl 0)⟩
    | some e =>
      rw [List.getLast?_eq_getElem?] at hlast
      have hpos := (List.getElem?_eq_some_iff.mp hlast).1
      have hind : e.index = n.log.length := by rw [hidx _ e hlast]; omega
      simp only [lastLog, List.getLast?_eq_getElem?, hlast, hind]
      refine ⟨le_rfl, (drop_length).symm, fun x _ hx ↦ ?_⟩
      rw [Option.some.inj (hx.symm.trans hlast)]

/-- An accepted message leaves the receiver with its own log, if that holds all of the sender's,
and with the sender's otherwise. -/
theorem appendLoop_of_cutFrom {termLog : ℕ → List Entry} {sender : List Entry}
    (n : RaftNode) (m : AppendEntries) (hlog : Backed termLog n.log)
    (hsen : Backed termLog sender) (hcut : m.CutFrom sender) (hacc : n.takes m = true) :
    appendLoop n.log m.prevLogIndex m.entries = if sender <+: n.log then n.log else sender := by
  rw [takes, accepts, Bool.and_eq_true, prevOk] at hacc
  have hprev : m.prevLogIndex ≤ n.log.length ∧
      n.log.take m.prevLogIndex = sender.take m.prevLogIndex := by
    rcases Nat.eq_zero_or_pos m.prevLogIndex with hzero | hpos
    · rw [hzero]
      exact ⟨Nat.zero_le _, rfl⟩
    rw [if_neg (Nat.ne_of_gt hpos)] at hacc
    cases hx : n.log[m.prevLogIndex - 1]? with
    | none => simp [hx] at hacc
    | some x =>
      have hlt := (List.getElem?_eq_some_iff.mp hx).1
      have hlt' : m.prevLogIndex - 1 < sender.length := by
        have := hcut.prev_le
        omega
      have hy := getElem?_eq_getElem hlt'
      have hterm : x.term = sender[m.prevLogIndex - 1].term := by
        rw [hcut.prevTerm _ hpos hy]
        simpa [hx] using hacc.2
      have htake := hlog.agree hsen hx hy hterm
      rw [Nat.sub_add_cancel hpos] at htake
      exact ⟨by omega, htake⟩
  rw [hcut.entries]
  exact appendLoop_drop n.log sender m.prevLogIndex
    (fun k e e' he he' hterm ↦ hlog.agree hsen he he' hterm) hprev.2 hprev.1 hcut.prev_le

end RaftNode

end Synapse
