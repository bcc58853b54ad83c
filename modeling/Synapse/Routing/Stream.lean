import Mathlib.Data.List.AList
import Synapse.Lib.RoundRobin
import Synapse.Routing.Graph

/-!
# The stream router

Topics with a number of partitions, and consumer groups with the offset they have committed in each
partition. The offsets of a group live in the group's entry, which `leaveGroup` removes together
with them when the last member goes.

A rebalance deals out the partitions of all topics to the members of a group in turn. The table of
topics, which it iterates over, is an association list; the other tables are only looked up. The
member list has one entry for each join whose member has not left since (`membersOf_run`), so that
a member that joins again has more turns than others (`rebalance_balanced_iff`).
-/

namespace Synapse

open List Function RoundRobin

structure PartitionKey where
  topic : String
  partition : ℕ
deriving DecidableEq, Repr

/-- A consumer group: its members in the order they joined, and the committed offsets. -/
structure ConsumerGroup where
  members : List String
  offsets : PartitionKey → Option ℕ

/-- The group that `or_default` creates. -/
def ConsumerGroup.empty : ConsumerGroup := ⟨[], fun _ ↦ none⟩

structure StreamRouter where
  partitions : AList fun _ : String ↦ ℕ
  groups : String → Option ConsumerGroup

namespace StreamRouter

def new : StreamRouter := ⟨∅, fun _ ↦ none⟩

def createTopic (r : StreamRouter) (topic : String) (partitions : ℕ) :
    Except RoutingError Unit × StreamRouter :=
  if partitions = 0 then (.error ⟨"partitions must be > 0"⟩, r)
  else if (r.partitions.lookup topic).any (· ≠ partitions) then
    (.error ⟨"topic partition count changed"⟩, r)
  else (.ok (), { r with partitions := r.partitions.insert topic partitions })

def partitionCount (r : StreamRouter) (topic : String) : Option ℕ := r.partitions.lookup topic

/-- Change a group, which is created if it is missing. -/
def onGroup (r : StreamRouter) (group : String) (f : ConsumerGroup → ConsumerGroup) :
    StreamRouter :=
  { r with groups := Function.update r.groups group (some (f ((r.groups group).getD .empty))) }

def joinGroup (r : StreamRouter) (group member : String) : StreamRouter :=
  r.onGroup group fun g ↦ { g with members := g.members ++ [member] }

def leaveGroup (r : StreamRouter) (group member : String) : StreamRouter :=
  match r.groups group with
  | none => r
  | some g =>
    let members := g.members.filter (· ≠ member)
    { r with
      groups := Function.update r.groups group
        (if members = [] then none else some { g with members := members }) }

def commit (r : StreamRouter) (group topic : String) (partition offset : ℕ) : StreamRouter :=
  r.onGroup group fun g ↦
    { g with offsets := Function.update g.offsets ⟨topic, partition⟩ (some offset) }

/-- The next offset a group should fetch from; zero if it has committed none. -/
def nextFetch (r : StreamRouter) (group topic : String) (partition : ℕ) : ℕ :=
  ((r.groups group).bind fun g ↦ g.offsets ⟨topic, partition⟩).getD 0

theorem nextFetch_onGroup (r : StreamRouter) (group : String) (f : ConsumerGroup → ConsumerGroup)
    (group' topic : String) (partition : ℕ) : (r.onGroup group f).nextFetch group' topic partition =
      if group' = group then ((f ((r.groups group).getD .empty)).offsets ⟨topic, partition⟩).getD 0
      else r.nextFetch group' topic partition := by
  rw [nextFetch, onGroup]
  dsimp only
  split_ifs with hgr
  · rw [hgr, update_self]
    rfl
  · rw [update_of_ne hgr]
    rfl

theorem getD_offsets (r : StreamRouter) (group topic : String) (partition : ℕ) :
    (((r.groups group).getD .empty).offsets ⟨topic, partition⟩).getD 0 =
      r.nextFetch group topic partition := by
  rw [nextFetch]
  cases r.groups group <;> rfl

/-- The committed offset is where the next fetch starts, in this partition of this group only. -/
theorem nextFetch_commit (r : StreamRouter) (group topic : String) (partition offset : ℕ)
    (group' topic' : String) (partition' : ℕ) :
    (r.commit group topic partition offset).nextFetch group' topic' partition' =
      if group' = group ∧ topic' = topic ∧ partition' = partition then offset
      else r.nextFetch group' topic' partition' := by
  rw [commit, nextFetch_onGroup]
  by_cases hgr : group' = group
  · rw [if_pos hgr, hgr, ← getD_offsets]
    simp only [update_apply, PartitionKey.mk.injEq, true_and]
    split_ifs <;> rfl
  · rw [if_neg hgr, if_neg fun h ↦ hgr h.1]

/-! ## Committed offsets -/

inductive StreamOp
  | createTopic (topic : String) (partitions : ℕ)
  | joinGroup (group member : String)
  | leaveGroup (group member : String)
  | commit (group topic : String) (partition offset : ℕ)
deriving DecidableEq, Repr

def perform (r : StreamRouter) : StreamOp → StreamRouter
  | .createTopic topic partitions => (r.createTopic topic partitions).2
  | .joinGroup group member => r.joinGroup group member
  | .leaveGroup group member => r.leaveGroup group member
  | .commit group topic partition offset => r.commit group topic partition offset

section Offsets

variable (group topic : String) (partition : ℕ)

/-- The offset that a call commits for the partition. -/
def committed : StreamOp → Option ℕ
  | .commit g t p offset => if group = g ∧ topic = t ∧ partition = p then some offset else none
  | _ => none

/-- The call takes the last member out of the group. -/
def empties (r : StreamRouter) : StreamOp → Bool
  | .leaveGroup g member => group = g && (r.groups g).any (·.members.filter (· ≠ member) = [])
  | _ => false

/-- The router, the latest offset committed for the partition, zero if there was none, and whether
the last member has left the group since. -/
structure Watched where
  router : StreamRouter
  latest : ℕ
  forgotten : Bool

def Watched.perform (s : Watched) (op : StreamOp) : Watched where
  router := s.router.perform op
  latest := (committed group topic partition op).getD s.latest
  forgotten := (committed group topic partition op).isNone &&
    (s.forgotten || empties group s.router op)

variable {group topic partition}

/-- What one call does to the next fetch. -/
theorem nextFetch_perform (r : StreamRouter) (op : StreamOp) :
    (r.perform op).nextFetch group topic partition =
      bif empties group r op then 0
      else (committed group topic partition op).getD (r.nextFetch group topic partition) := by
  cases op with
  | createTopic t n =>
    change (r.createTopic t n).2.nextFetch _ _ _ = _
    rw [createTopic]
    split_ifs <;> rfl
  | joinGroup g m =>
    change (r.joinGroup g m).nextFetch _ _ _ = r.nextFetch _ _ _
    rw [joinGroup, nextFetch_onGroup]
    split_ifs with hg
    · rw [hg, ← getD_offsets]
    · rfl
  | leaveGroup g m =>
    change (r.leaveGroup g m).nextFetch _ _ _ =
      bif decide (group = g) && _ then 0 else r.nextFetch _ _ _
    rw [leaveGroup]
    cases hgrp : r.groups g with
    | none => simp
    | some e =>
      rw [nextFetch, nextFetch]
      simp only [update_apply]
      by_cases hg : group = g
      · rw [if_pos hg, hg, hgrp, Option.any_some, decide_eq_true rfl, Bool.true_and]
        split_ifs with hnil
        · rw [decide_eq_true hnil]
          rfl
        · rw [decide_eq_false hnil]
          rfl
      · rw [if_neg hg, decide_eq_false hg]
        rfl
  | commit g t p offset =>
    change (r.commit g t p offset).nextFetch _ _ _ = Option.getD (if _ then _ else _) _
    rw [nextFetch_commit]
    split_ifs <;> rfl

theorem nextFetch_foldl (ops : List StreamOp) {s : Watched}
    (h : s.router.nextFetch group topic partition = bif s.forgotten then 0 else s.latest) :
    let s' := ops.foldl (Watched.perform group topic partition) s
    s'.router.nextFetch group topic partition = bif s'.forgotten then 0 else s'.latest := by
  induction ops generalizing s with
  | nil => exact h
  | cons op ops ih =>
    refine ih ?_
    rw [Watched.perform, nextFetch_perform, h]
    cases hop : committed group topic partition op with
    | none => cases s.forgotten <;> cases empties group s.router op <;> rfl
    | some offset =>
      have hkept : empties group s.router op = false := by
        cases op <;> first | rfl | cases hop
      rw [hkept]
      rfl

/-- **Offsets across membership changes.** The next fetch starts at the offset of the latest commit
if and only if that is zero or the group has kept a member since. -/
theorem nextFetch_eq_latest_iff (ops : List StreamOp) (group topic : String) (partition : ℕ) :
    let s := ops.foldl (Watched.perform group topic partition) ⟨new, 0, false⟩
    s.router.nextFetch group topic partition = s.latest ↔
      s.latest = 0 ∨ s.forgotten = false := by
  intro s
  have h : s.router.nextFetch group topic partition = bif s.forgotten then 0 else s.latest :=
    nextFetch_foldl ops rfl
  rw [h]
  cases s.forgotten <;> simp [eq_comm]

/-- The only member of a group commits and leaves, and another one joins. -/
theorem nextFetch_after_leave :
    let s := [.joinGroup "g" "a", .commit "g" "t" 0 42, .leaveGroup "g" "a",
      .joinGroup "g" "b"].foldl (Watched.perform "g" "t" 0) ⟨new, 0, false⟩
    s.router.nextFetch "g" "t" 0 = 0 ∧ s.latest = 42 := by
  decide

end Offsets

/-! ## Rebalancing -/

def membersOf (r : StreamRouter) (group : String) : List String :=
  ((r.groups group).getD .empty).members

/-- One partition goes to the member whose turn it is. -/
def assign (members : List String) (s : ℕ × (String → List (String × ℕ))) (part : String × ℕ) :
    ℕ × (String → List (String × ℕ)) :=
  match members[s.1 % members.length]? with
  | none => s
  | some m => (s.1 + 1, update s.2 m (s.2 m ++ [part]))

/-- Each partition of each topic is assigned to a member, round-robin; the topics are visited in
some order. A member without partitions has an empty entry here. -/
def rebalance (r : StreamRouter) (group : String) (topics : List (String × ℕ)) :
    String → List (String × ℕ) :=
  if r.membersOf group = [] then fun _ ↦ []
  else
    (topics.foldl (fun s t ↦ (range t.2).foldl
      (fun s p ↦ assign (r.membersOf group) s (t.1, p)) s) (0, fun _ ↦ [])).2

def partitionsOf (topics : List (String × ℕ)) : List (String × ℕ) :=
  topics.flatMap fun t ↦ (range t.2).map (t.1, ·)

/-- A member has the partitions that came up when it was its turn. -/
theorem foldl_assign {members : List String} (hne : members ≠ []) (parts : List (String × ℕ))
    (s : ℕ × (String → List (String × ℕ))) (m : String) :
    (parts.foldl (assign members) s).2 m = s.2 m ++
      ((parts.zip (picks members s.1 parts.length)).filter (·.2 = m)).map Prod.fst := by
  induction parts generalizing s with
  | nil => simp
  | cons part parts ih =>
    have hlt : s.1 % members.length < members.length := Nat.mod_lt _ (length_pos_iff.mpr hne)
    rw [foldl_cons, ih, assign, length_cons, picks, getElem?_eq_getElem hlt]
    simp only [update_apply, Option.toList_some, singleton_append, zip_cons_cons,
      filter_cons, decide_eq_true_eq]
    by_cases hm : m = members[s.1 % members.length]
    · rw [if_pos hm, if_pos hm.symm, map_cons, append_assoc, singleton_append, hm]
    · rw [if_neg hm, if_neg (Ne.symm hm)]

section

variable {r : StreamRouter} {topics : List (String × ℕ)}
  (horder : topics.Perm (r.partitions.entries.map fun e ↦ (e.1, e.2)))

include horder

theorem mem_partitionsOf {t : String} {p : ℕ} :
    (t, p) ∈ partitionsOf topics ↔ ∃ n ∈ r.partitionCount t, p < n := by
  simp [partitionsOf, horder.mem_iff, partitionCount, ← AList.mem_lookup_iff]

theorem nodup_partitionsOf : (partitionsOf topics).Nodup := by
  have hkeys : (topics.map Prod.fst).Nodup := by
    rw [(horder.map Prod.fst).nodup_iff, map_map]
    exact r.partitions.nodupKeys
  refine nodup_flatMap.mpr ⟨fun t _ ↦ nodup_range.map fun _ _ h ↦ (Prod.mk.inj h).2, ?_⟩
  refine (pairwise_map.mp hkeys).imp fun hne x hx hx' ↦ ?_
  obtain ⟨_, -, rfl⟩ := mem_map.mp hx
  obtain ⟨_, -, heq⟩ := mem_map.mp hx'
  exact hne (congrArg Prod.fst heq).symm

end

theorem rebalance_eq {r : StreamRouter} {group : String} (hne : r.membersOf group ≠ [])
    (topics : List (String × ℕ)) (m : String) : r.rebalance group topics m =
      (((partitionsOf topics).zip (picks (r.membersOf group) 0
        (partitionsOf topics).length)).filter (·.2 = m)).map Prod.fst := by
  have hfold := foldl_assign hne (partitionsOf topics) (0, fun _ ↦ []) m
  rw [partitionsOf, foldl_flatMap] at hfold
  simp only [foldl_map] at hfold
  rw [rebalance, if_neg hne]
  exact hfold

/-- Exactly the partitions of the topics are assigned, each to one member and once; and a member has
as many as it has turns. -/
theorem rebalance_spec {r : StreamRouter} {group : String} (hne : r.membersOf group ≠ [])
    {topics : List (String × ℕ)}
    (horder : topics.Perm (r.partitions.entries.map fun e ↦ (e.1, e.2))) :
    (∀ t p, (∃ m, (t, p) ∈ r.rebalance group topics m) ↔ ∃ n ∈ r.partitionCount t, p < n) ∧
    (∀ m, ∀ x ∈ r.rebalance group topics m, m ∈ r.membersOf group ∧
      (r.rebalance group topics m).count x = 1 ∧
      ∀ m', x ∈ r.rebalance group topics m' → m' = m) ∧
    ∀ m, (r.rebalance group topics m).length =
      (picks (r.membersOf group) 0 (topics.map Prod.snd).sum).count m := by
  have hlen := length_picks hne 0 (partitionsOf topics).length
  have hpair := rebalance_eq hne topics
  have hfst := map_fst_zip hlen.ge
  have hsnd := map_snd_zip hlen.le
  have htotal : (partitionsOf topics).length = (topics.map Prod.snd).sum := by
    simp [partitionsOf, length_flatMap]
  rw [← htotal]
  set picked := picks (r.membersOf group) 0 (partitionsOf topics).length
  set pairs := (partitionsOf topics).zip picked
  have hnd : (pairs.map Prod.fst).Nodup := hfst ▸ nodup_partitionsOf horder
  have hmem : ∀ m x, x ∈ r.rebalance group topics m ↔ (x, m) ∈ pairs := by
    intro m x
    rw [hpair]
    simp
  refine ⟨fun t p ↦ ?_, fun m x hx ↦ ⟨?_, ?_, fun m' hx' ↦ ?_⟩, fun m ↦ ?_⟩
  · rw [← mem_partitionsOf horder, ← hfst]
    simp [hmem]
  · exact mem_of_mem_picks (of_mem_zip ((hmem m x).mp hx)).2
  · refine count_eq_one_of_mem ?_ hx
    rw [hpair]
    exact hnd.sublist (filter_sublist.map _)
  · exact congrArg Prod.snd
      (inj_on_of_nodup_map hnd ((hmem m' x).mp hx') ((hmem m x).mp hx) rfl)
  · rw [hpair, length_map, ← countP_eq_length_filter, ← hsnd, count, countP_map]
    rfl

/-! ## Members -/

/-- The members whose joins are in force after the calls: one entry for each join of the group that
no leave of the same member follows. -/
def joined (group : String) : List StreamOp → List String
  | [] => []
  | .joinGroup g m :: ops =>
    if g = group ∧ .leaveGroup g m ∉ ops then m :: joined group ops else joined group ops
  | _ :: ops => joined group ops

theorem joined_append_leave (group m : String) (ops : List StreamOp) :
    joined group (ops ++ [.leaveGroup group m]) = (joined group ops).filter (· ≠ m) := by
  fun_induction joined group ops <;> grind [joined]

/-- Any other call takes nobody out. -/
theorem joined_append {group : String} {op : StreamOp} (hop : ∀ m, op ≠ .leaveGroup group m)
    (ops : List StreamOp) : joined group (ops ++ [op]) = joined group ops ++ joined group [op] := by
  fun_induction joined group ops <;> grind [joined]

theorem membersOf_onGroup (r : StreamRouter) (group : String) (f : ConsumerGroup → ConsumerGroup)
    (group' : String) : (r.onGroup group f).membersOf group' =
      if group' = group then (f ((r.groups group).getD .empty)).members
      else r.membersOf group' := by
  rw [membersOf, onGroup]
  dsimp only
  split_ifs with hgr
  · rw [hgr, update_self, Option.getD_some]
  · rw [update_of_ne hgr, membersOf]

theorem membersOf_leaveGroup (r : StreamRouter) (group m group' : String) :
    (r.leaveGroup group m).membersOf group' =
      if group' = group then (r.membersOf group).filter (· ≠ m) else r.membersOf group' := by
  rw [leaveGroup, membersOf, membersOf, membersOf]
  cases hg : r.groups group with
  | none => grind [ConsumerGroup.empty]
  | some g => grind [ConsumerGroup.empty]

/-- A group has one entry for each join that is in force. -/
theorem membersOf_run (group : String) (ops : List StreamOp) :
    (ops.foldl perform new).membersOf group = joined group ops := by
  induction ops using List.reverseRecOn with
  | nil => rfl
  | append_singleton ops op ih =>
    rw [foldl_concat]
    cases op with
    | createTopic t n =>
      have hsame (r : StreamRouter) :
          (r.createTopic t n).2.membersOf group = r.membersOf group := by
        rw [createTopic]
        split_ifs <;> rfl
      rw [perform, hsame, ih, joined_append (by rintro _ ⟨⟩)]
      exact (append_nil _).symm
    | joinGroup g m =>
      rw [perform, joinGroup, membersOf_onGroup, joined_append (by rintro _ ⟨⟩), ← ih]
      split_ifs with hg
      · rw [hg, membersOf, joined, if_pos ⟨rfl, not_mem_nil⟩, joined]
      · rw [joined, if_neg fun h ↦ hg h.1.symm, joined, append_nil]
    | leaveGroup g m =>
      rw [perform, membersOf_leaveGroup]
      split_ifs with hg
      · rw [← hg, ih, joined_append_leave]
      · rw [ih, joined_append (by rintro _ ⟨⟩; exact hg rfl)]
        exact (append_nil _).symm
    | commit g t p offset =>
      rw [perform, commit, membersOf_onGroup, joined_append (by rintro _ ⟨⟩), ← ih]
      split_ifs with hg
      · rw [hg, membersOf]
        exact (append_nil _).symm
      · exact (append_nil _).symm

/-- **Rebalancing.** After any calls that leave the group a member, exactly the partitions of the
topics are assigned, each to one member and once. Any two members get equally many up to one exactly
if their turns do; this is so if no member has joined again. -/
theorem rebalance_balanced_iff {ops : List StreamOp} {r : StreamRouter}
    (hr : ops.foldl perform new = r) {group : String} (hne : joined group ops ≠ [])
    {topics : List (String × ℕ)}
    (horder : topics.Perm (r.partitions.entries.map fun e ↦ (e.1, e.2))) :
    (∀ t p, (∃ m, (t, p) ∈ r.rebalance group topics m) ↔ ∃ n ∈ r.partitionCount t, p < n) ∧
    (∀ m, ∀ x ∈ r.rebalance group topics m, m ∈ joined group ops ∧
      (r.rebalance group topics m).count x = 1 ∧
      ∀ m', x ∈ r.rebalance group topics m' → m' = m) ∧
    ((∀ m ∈ joined group ops, ∀ m' ∈ joined group ops,
        (r.rebalance group topics m).length ≤ (r.rebalance group topics m').length + 1) ↔
      ∀ m ∈ joined group ops, ∀ m' ∈ joined group ops,
        turns (joined group ops) (topics.map Prod.snd).sum m ≤
          turns (joined group ops) (topics.map Prod.snd).sum m' + 1) ∧
    ((joined group ops).Nodup → ∀ m ∈ joined group ops, ∀ m' ∈ joined group ops,
      (r.rebalance group topics m).length ≤ (r.rebalance group topics m').length + 1) := by
  have hmembers : r.membersOf group = joined group ops := hr ▸ membersOf_run group ops
  rw [← hmembers] at hne ⊢
  obtain ⟨hall, hone, hlen⟩ := rebalance_spec hne horder
  simp only [hlen, ← count_picks_zero hne]
  exact ⟨hall, hone, trivial, fun hnd m hm m' hm' ↦ count_picks_le hnd hm hm' 0 _⟩

/-- One member leaves and another one joins again, and two partitions go to two members. -/
theorem rebalance_balanced_iff_two : ∃ ops r, ops.foldl perform new = r ∧
      joined "g" ops = ["a", "b", "a"] ∧ (∃ m, ("t", 1) ∈ r.rebalance "g" [("t", 2)] m) ∧
      ∀ m ∈ joined "g" ops, ∀ m' ∈ joined "g" ops,
        (r.rebalance "g" [("t", 2)] m).length ≤ (r.rebalance "g" [("t", 2)] m').length + 1 := by
  refine ⟨[.createTopic "t" 2, .joinGroup "g" "a", .joinGroup "g" "c", .joinGroup "g" "b",
    .leaveGroup "g" "c", .joinGroup "g" "a"], _, rfl, by decide,
    ((rebalance_balanced_iff rfl ?_ (.refl _)).1 "t" 1).mpr ⟨2, ?_, ?_⟩,
    (rebalance_balanced_iff rfl ?_ (.refl _)).2.2.1.mpr ?_⟩ <;> decide

/-- A member that has joined twice has two turns in each round. -/
theorem rebalance_unbalanced :
    let r := (((new.createTopic "t" 6).2.joinGroup "g" "a").joinGroup "g" "a").joinGroup "g" "b"
    (r.rebalance "g" [("t", 6)] "a").length = 4 ∧ (r.rebalance "g" [("t", 6)] "b").length = 2 := by
  decide

end StreamRouter

end Synapse
