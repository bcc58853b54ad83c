import Synapse.Lib.Decimal
import Synapse.Lib.Text
import Synapse.Routing.Stream

/-!
# Topics and partitions of the Kafka broker

Two tables hold the number of partitions of a topic: the broker's own, which grows with the
partitions produced to, and that of the stream router, which refuses to change a number once it is
there. `ensureTopic` ignores the refusal, so the router keeps the number of the first produce.

A partition has a log of its own, named after the topic and the partition with a hyphen between
them. A negative partition brings a second hyphen along.

What `do_produce` does with the log of a partition does not touch the tables and is left out.
-/

namespace Synapse.Kafka

open List

/-! ## Names of logs -/

def logName (topic : String) (partition : Int) : String := s!"{topic}-{partition}"

theorem toList_logName (topic : String) (n : ℕ) :
    (logName topic n).toList = topic.toList ++ '-' :: Nat.toDigits 10 n := by
  change (topic ++ "-" ++ Nat.repr n).toList = _
  simp [String.toList_append, Nat.toList_repr]

/-- The hyphen before a natural number is the last one of the name. -/
theorem logName_natCast_inj {t t' : String} {n n' : ℕ} (h : logName t n = logName t' n') :
    t = t' ∧ n = n' := by
  have hcut : ∀ (t : String) (n : ℕ), Text.cut '-' (logName t n).toList.reverse =
      some ((Nat.toDigits 10 n).reverse, t.toList.reverse) := by
    intro t n
    rw [toList_logName, Text.cut_eq_some]
    refine ⟨fun hmem ↦ ?_, by simp⟩
    exact absurd (Decimal.isDigit_of_mem_toDigits (mem_reverse.mp hmem)) (by decide)
  have heq := (hcut t n).symm.trans ((congrArg _ (congrArg _ (congrArg _ h))).trans (hcut t' n'))
  obtain ⟨hn, ht⟩ := Prod.mk.inj (Option.some.inj heq)
  have hdig := congrArg Decimal.digits (reverse_injective hn)
  rw [Decimal.digits_toDigits, Decimal.digits_toDigits] at hdig
  exact ⟨String.toList_inj.mp (reverse_injective ht), Option.some.inj hdig⟩

/-- The sign of a negative partition might as well belong to the topic. -/
theorem logName_negSucc (topic : String) (n : ℕ) :
    logName topic (.negSucc n) = logName (topic ++ "-") (n + 1 : ℕ) := by
  change topic ++ "-" ++ ("-" ++ Nat.repr (n + 1)) = topic ++ "-" ++ "-" ++ Nat.repr (n + 1)
  exact String.append_assoc.symm

/-- **Collisions.** Two partitions share a log if and only if they are the same, or one is the
negative of the other and its topic lacks a hyphen at the end. -/
theorem logName_eq_iff (t t' : String) (p p' : Int) : logName t p = logName t' p' ↔
    t = t' ∧ p = p' ∨ p < 0 ∧ t ++ "-" = t' ∧ p' = -p ∨ p' < 0 ∧ t = t' ++ "-" ∧ p = -p' := by
  constructor
  · intro h
    obtain n | n := p <;> obtain n' | n' := p'
    · obtain ⟨rfl, rfl⟩ := logName_natCast_inj h
      exact .inl ⟨rfl, rfl⟩
    · rw [logName_negSucc] at h
      obtain ⟨rfl, rfl⟩ := logName_natCast_inj h
      exact .inr (.inr ⟨Int.negSucc_lt_zero n', rfl, rfl⟩)
    · rw [logName_negSucc] at h
      obtain ⟨rfl, rfl⟩ := logName_natCast_inj h
      exact .inr (.inl ⟨Int.negSucc_lt_zero n, rfl, rfl⟩)
    · rw [logName_negSucc, logName_negSucc] at h
      obtain ⟨ht, hn⟩ := logName_natCast_inj h
      obtain rfl := String.append_left_inj _ |>.mp ht
      cases hn
      exact .inl ⟨rfl, rfl⟩
  · have hneg : ∀ t (p : Int), p < 0 → logName t p = logName (t ++ "-") (-p) := by
      intro t p hp
      obtain n | n := p
      · exact absurd hp (Int.not_lt.mpr (Int.natCast_nonneg n))
      · exact logName_negSucc t n
    rintro (⟨rfl, rfl⟩ | ⟨hp, rfl, rfl⟩ | ⟨hp, rfl, rfl⟩)
    · rfl
    · exact hneg t p hp
    · exact (hneg t' p' hp).symm

theorem logName_collides : logName "t" (-1) = logName "t-" 1 := rfl

/-! ## Numbers of partitions -/

/-- The numbers of partitions: those of the broker, which `Metadata` reports, and those of the
router. -/
structure Topics where
  topics : String → Option ℕ
  router : StreamRouter

namespace Topics

def new : Topics := ⟨fun _ ↦ none, .new⟩

def need (partition : Int32) : ℕ := (max (partition.toInt + 1) 1).toNat

/-- Make room for the partition. Its successor may overflow. -/
def ensureTopic (b : Topics) (topic : String) (partition : Int32) : Option Topics :=
  if partition = .maxValue then none
  else
    let count := max ((b.topics topic).getD 0) (need partition)
    some
      { topics := Function.update b.topics topic (some count)
        router := (b.router.createTopic topic count).2 }

def produceAll (parts : List (String × Int32)) : Option Topics :=
  parts.foldl (fun b x ↦ b.bind (·.ensureTopic x.1 x.2)) (some new)

theorem produceAll_concat (parts : List (String × Int32)) (x : String × Int32) :
    produceAll (parts ++ [x]) = (produceAll parts).bind (·.ensureTopic x.1 x.2) :=
  foldl_concat ..

def needs (topic : String) (parts : List (String × Int32)) : List ℕ :=
  (parts.filter (·.1 = topic)).map (need ·.2)

theorem needs_concat (topic : String) (parts : List (String × Int32)) (x : String × Int32) :
    needs topic (parts ++ [x]) = needs topic parts ++ if x.1 = topic then [need x.2] else [] := by
  rw [needs, filter_append, map_append, filter_singleton]
  split_ifs with h <;> simp [h, needs]

theorem max?_concat (l : List ℕ) (n : ℕ) : (l ++ [n]).max? = some (max (l.max?.getD 0) n) := by
  cases l with
  | nil => simp
  | cons a l => rw [cons_append, max?_cons', max?_cons', foldl_append]; rfl

/-- The router keeps the number a topic began with. -/
theorem partitionCount_createTopic (r : StreamRouter) (topic : String) {count : ℕ}
    (hcount : count ≠ 0) (topic' : String) :
    (r.createTopic topic count).2.partitionCount topic' =
      if topic = topic' then some ((r.partitionCount topic).getD count)
      else r.partitionCount topic' := by
  rw [StreamRouter.createTopic, if_neg hcount]
  simp only [StreamRouter.partitionCount]
  by_cases htop : topic = topic'
  · subst htop
    cases hold : r.partitions.lookup topic with
    | none => simp
    | some n => by_cases hn : n = count <;> simp [hn, hold]
  · rw [if_neg htop]
    split_ifs
    · rfl
    · exact AList.lookup_insert_ne (Ne.symm htop)

/-- The broker has the largest number needed so far, the router the first one. -/
theorem tables_of_produceAll {parts : List (String × Int32)} {b : Topics}
    (h : produceAll parts = some b) (topic : String) :
    b.topics topic = (needs topic parts).max? ∧
      b.router.partitionCount topic = (needs topic parts).head? := by
  induction parts using reverseRecOn generalizing b topic with
  | nil =>
    cases h
    exact ⟨rfl, rfl⟩
  | append_singleton parts x ih =>
    rw [produceAll_concat] at h
    obtain ⟨b₀, hb₀, h⟩ := Option.bind_eq_some_iff.mp h
    rw [ensureTopic] at h
    split_ifs at h
    cases h
    obtain ⟨htop, hrtr⟩ := ih hb₀ x.1
    have hpos : max ((b₀.topics x.1).getD 0) (need x.2) ≠ 0 := by
      have hneed : 0 < need x.2 := by
        rw [need]
        omega
      omega
    rw [needs_concat, partitionCount_createTopic _ _ hpos]
    simp only [Function.update_apply]
    by_cases hx : x.1 = topic
    · subst hx
      rw [if_pos rfl, if_pos rfl, if_pos rfl, max?_concat, htop, hrtr, head?_append]
      refine ⟨rfl, ?_⟩
      cases needs x.1 parts <;> simp
    · rw [if_neg (Ne.symm hx), if_neg hx, if_neg hx, List.append_nil]
      exact ih hb₀ topic

theorem isSome_produceAll (parts : List (String × Int32)) :
    (produceAll parts).isSome ↔ ∀ x ∈ parts, x.2 ≠ .maxValue := by
  induction parts using reverseRecOn with
  | nil => simp [produceAll]
  | append_singleton parts x ih =>
    rw [produceAll_concat, forall_mem_append, forall_mem_singleton, ← ih]
    cases produceAll parts with
    | none => simp
    | some b => simp [ensureTopic]

/-- **Two tables.** Both tables have the partitions needed for every topic, and nothing has
overflowed, if and only if no partition is the largest of its type and the first partition of a
topic needs no fewer than the others. -/
theorem tables_agree_iff (parts : List (String × Int32)) :
    (∃ b, produceAll parts = some b ∧ ∀ topic, b.topics topic = (needs topic parts).max? ∧
      b.router.partitionCount topic = (needs topic parts).max?) ↔
    (∀ x ∈ parts, x.2 ≠ .maxValue) ∧
      ∀ topic, ∀ n ∈ needs topic parts, n ≤ (needs topic parts).headD 0 := by
  have hhead : ∀ l : List ℕ, l.head? = l.max? ↔ ∀ n ∈ l, n ≤ l.headD 0 := by
    intro l
    cases l with
    | nil => simp
    | cons a l => rw [head?_cons, eq_comm, max?_eq_some_iff]; simp
  rw [← isSome_produceAll, Option.isSome_iff_exists]
  constructor
  · rintro ⟨b, hb, hagree⟩
    refine ⟨⟨b, hb⟩, fun topic ↦ (hhead _).mp ?_⟩
    rw [← (hagree topic).2, (tables_of_produceAll hb topic).2]
  · rintro ⟨⟨b, hb⟩, hfirst⟩
    refine ⟨b, hb, fun topic ↦ ?_⟩
    obtain ⟨htop, hrtr⟩ := tables_of_produceAll hb topic
    exact ⟨htop, hrtr.trans ((hhead _).mpr (hfirst topic))⟩

/-- Producing to partition 0 and then to partition 1; and the largest partition. -/
theorem tables_disagree : (∃ b, produceAll [("t", 0), ("t", 1)] = some b ∧ b.topics "t" = some 2 ∧
      b.router.partitionCount "t" = some 1) ∧
    produceAll [("t", .maxValue)] = none := by
  exact ⟨⟨_, rfl, rfl, by decide⟩, by decide⟩

end Topics

end Synapse.Kafka
