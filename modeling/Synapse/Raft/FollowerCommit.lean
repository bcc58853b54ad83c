import Synapse.Raft.Log

/-!
# What a follower commits

An accepted `AppendEntries` message vouches for the follower's log up to the last entry it carries:
the consistency check covers the entries up to `prevLogIndex`, and the entries of the message cover
the positions after it. The handler clamps the leader's commit index to the length of the whole
log, and the log may be longer than that: without a conflict it keeps whatever it held beyond
(`length_appendLoop`). `commitIndex_within_iff` is the exact condition under which an accepted
message keeps the commit index within what it vouches for and does not lower it.
-/

namespace Synapse

open List

namespace RaftNode

/-! ## The length of the log -/

/-- Some received entry meets an entry of another term at its position. -/
def Conflicts (log : List Entry) (start : ℕ) (entries : List Entry) : Prop :=
  ∃ p ∈ (log.drop start).zip entries, p.1.term ≠ p.2.term

instance (log : List Entry) (start : ℕ) (entries : List Entry) :
    Decidable (Conflicts log start entries) :=
  inferInstanceAs (Decidable (∃ p ∈ _, _))

variable {log : List Entry} {start : ℕ}

theorem not_conflicts_of_length_le (h : log.length ≤ start) (entries : List Entry) :
    ¬Conflicts log start entries := by
  rw [Conflicts, drop_eq_nil_of_le h, zip_nil_left]
  rintro ⟨p, hp, -⟩
  exact not_mem_nil hp

theorem conflicts_cons {x : Entry} (hx : log[start]? = some x) (e : Entry) (entries : List Entry) :
    Conflicts log start (e :: entries) ↔ x.term ≠ e.term ∨ Conflicts log (start + 1) entries := by
  obtain ⟨hlt, rfl⟩ := List.getElem?_eq_some_iff.mp hx
  rw [Conflicts, drop_eq_getElem_cons hlt, zip_cons_cons, exists_mem_cons_iff, Conflicts]

/-- The append loop leaves a log that ends with the message if it was cut, and the longer of the
two otherwise. -/
theorem length_appendLoop (log : List Entry) (start : ℕ) (entries : List Entry)
    (hst0 : start ≤ log.length) :
    (appendLoop log start entries).length =
      if Conflicts log start entries then start + entries.length
      else max log.length (start + entries.length) := by
  induction entries generalizing log start with
  | nil =>
    have hnone : ¬Conflicts log start [] := by simp [Conflicts]
    rw [if_neg hnone, appendLoop, length_nil, add_zero, Nat.max_eq_left hst0]
  | cons e entries ih =>
    have hcutLength : (log.take start ++ [e]).length = start + 1 := by simp [hst0]
    have hcut : (appendLoop (log.take start ++ [e]) (start + 1) entries).length =
        start + (e :: entries).length := by
      rw [ih _ _ hcutLength.ge, if_neg (not_conflicts_of_length_le hcutLength.le entries),
        hcutLength, length_cons]
      omega
    rcases hst0.lt_or_eq with hlt | hend
    · have hx := getElem?_eq_getElem hlt
      by_cases hterm : log[start].term = e.term
      · -- the entry is kept, and the loop goes on behind it
        have hiff : Conflicts log start (e :: entries) ↔ Conflicts log (start + 1) entries := by
          rw [conflicts_cons hx, or_iff_right (not_not_intro hterm)]
        rw [appendLoop_keep entries hx hterm, ih log (start + 1) hlt, length_cons]
        simp only [hiff]
        split_ifs <;> omega
      · have hcfl : Conflicts log start (e :: entries) :=
          (conflicts_cons hx e entries).mpr (.inl hterm)
        have hoth : ∀ x, log[start]? = some x → x.term ≠ e.term := fun x hx' ↦
          Option.some.inj (hx.symm.trans hx') ▸ hterm
        rw [appendLoop_cut entries hoth, hcut, if_pos hcfl]
    · have hnone : log[start]? = none := List.getElem?_eq_none_iff.mpr hend.ge
      rw [appendLoop_cut entries (by simp [hnone]), hcut,
        if_neg (not_conflicts_of_length_le hend.ge _), length_cons]
      omega

/-! ## The commit index -/

theorem le_length_of_prevOk {n : RaftNode} {prevLogIndex prevLogTerm : ℕ}
    (h : n.prevOk prevLogIndex prevLogTerm = true) : prevLogIndex ≤ n.log.length := by
  rcases Nat.eq_zero_or_pos prevLogIndex with hzero | hpos
  · exact hzero ▸ Nat.zero_le _
  · rw [prevOk, if_neg hpos.ne'] at h
    by_contra hlt
    rw [List.getElem?_eq_none_iff.mpr (by omega)] at h
    cases h

/-- **The follower's commit index.** When a node accepts an `AppendEntries` message, its commit
index stays within the entries the message vouches for and is not lowered exactly if the leader's
commit index is not ahead of the node's; or the message cuts the log, at no loss of committed
entries; or it does not, and of the leader's commit index and the length of the log one is not
beyond those entries. -/
theorem commitIndex_within_iff (n : RaftNode) (leaderTerm prevLogIndex prevLogTerm : ℕ)
    (entries : List Entry) (leaderCommit : ℕ)
    (hsuccess : (n.handleAppendEntries leaderTerm prevLogIndex prevLogTerm entries
      leaderCommit).2.2 = true) :
    ((n.handleAppendEntries leaderTerm prevLogIndex prevLogTerm entries
          leaderCommit).1.commitIndex ≤ max n.commitIndex (prevLogIndex + entries.length) ∧
        n.commitIndex ≤ (n.handleAppendEntries leaderTerm prevLogIndex prevLogTerm entries
          leaderCommit).1.commitIndex) ↔
      leaderCommit ≤ n.commitIndex ∨ if Conflicts n.log prevLogIndex entries then
          n.commitIndex ≤ prevLogIndex + entries.length
        else
          n.commitIndex ≤ max n.log.length (prevLogIndex + entries.length) ∧
            min leaderCommit n.log.length ≤ max n.commitIndex (prevLogIndex + entries.length) := by
  rw [handleAppendEntries_reply] at hsuccess
  have hprev : prevLogIndex ≤ n.log.length := by
    rw [accepts, Bool.and_eq_true] at hsuccess
    exact le_length_of_prevOk hsuccess.2
  have hlength := length_appendLoop n.log prevLogIndex entries hprev
  rw [handleAppendEntries_commitIndex, hlength]
  by_cases hahead : n.commitIndex < leaderCommit
  · rw [if_pos ⟨hsuccess, hahead⟩, or_iff_right (Nat.not_le.mpr hahead)]
    by_cases hconflict : Conflicts n.log prevLogIndex entries
    · rw [if_pos hconflict, if_pos hconflict]
      omega
    · rw [if_neg hconflict, if_neg hconflict]
      omega
  · rw [if_neg fun h ↦ hahead h.2]
    exact iff_of_true ⟨le_max_left _ _, le_rfl⟩ (.inl (Nat.not_lt.mp hahead))

/-- A follower of term one that holds two entries of it, the second of which its leader never
managed to commit. -/
def followerOfTwo (commitIndex : ℕ) : RaftNode :=
  { new "b" ["a", "b", "c"] {} with
    currentTerm := 1
    log := [⟨1, 1, [7]⟩, ⟨1, 2, [8]⟩]
    commitIndex := commitIndex }

theorem commitIndex_within_one_entry :
    ((followerOfTwo 0).handleAppendEntries 2 1 1 [⟨2, 2, [9]⟩] 2).1.commitIndex ≤ max 0 (1 + 1) ∧
      0 ≤ ((followerOfTwo 0).handleAppendEntries 2 1 1 [⟨2, 2, [9]⟩] 2).1.commitIndex :=
  (commitIndex_within_iff (followerOfTwo 0) 2 1 1 [⟨2, 2, [9]⟩] 2 (by decide)).mpr (by decide)

/-- A heartbeat that only vouches for the first entry commits the second one too; and a message
that replaces the log lowers the commit index. -/
theorem commitIndex_beyond_message : ((followerOfTwo 0).handleAppendEntries 2 1 1 [] 2).2.2 = true ∧
      ¬((followerOfTwo 0).handleAppendEntries 2 1 1 [] 2).1.commitIndex ≤ max 0 (1 + 0) ∧
      ((followerOfTwo 2).handleAppendEntries 2 0 0 [⟨2, 1, [9]⟩] 3).2.2 = true ∧
      ((followerOfTwo 2).handleAppendEntries 2 0 0 [⟨2, 1, [9]⟩] 3).1.commitIndex < 2 := by
  decide

end RaftNode

end Synapse
