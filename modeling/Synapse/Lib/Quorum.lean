import Mathlib.Data.List.Count
import Mathlib.Order.Basic

/-!
# Majorities of a list

Members are the entries of a list, counted with multiplicity, and a set of members is a Boolean
predicate. A *majority* holds at more than half of the entries. Counting entries rather than
distinct members is what makes the results below hold for lists with repetitions: two majorities
meet because their counts add up to more than the length.
-/

namespace Quorum

open List

variable {α β : Type*} {l : List α} {p q : α → Bool}

/-- `p` holds at more than half of the entries of `l`. -/
def Majority (l : List α) (p : α → Bool) : Prop := l.length / 2 + 1 ≤ l.countP p

theorem Majority.mono (h : Majority l p) (himp : ∀ a ∈ l, p a = true → q a = true) : Majority l q :=
  Nat.le_trans h (countP_mono_left himp)

/-- **Quorum intersection.** Two majorities of one list share an entry. -/
theorem Majority.inter (hp : Majority l p) (hq : Majority l q) :
    ∃ a ∈ l, p a = true ∧ q a = true := by
  by_contra hne
  -- what has one property lacks the other
  have hrest : l.countP q ≤ l.countP fun a ↦ ¬p a = true := by
    refine countP_mono_left fun a ha hqa ↦ decide_eq_true fun hpa ↦ hne ⟨a, ha, hpa, hqa⟩
  have hlen := length_eq_countP_add_countP p (l := l)
  rw [Majority] at hp hq
  omega

theorem succ_countP_ne_le [DecidableEq α] {a : α} (ha : a ∈ l) (hpa : p a = true) :
    l.countP (fun x ↦ p x && decide (x ≠ a)) + 1 ≤ l.countP p := by
  rw [countP_eq_countP_filter_add l p fun x ↦ decide (x ≠ a), countP_filter]
  refine Nat.add_le_add_left (countP_pos_iff.mpr ⟨a, ?_, hpa⟩) _
  simpa using ha

/-- The counted entries of a parallel list name members other than `a` with property `p`, one each.
-/
theorem succ_countP_le_of_forall₂ [DecidableEq α] {a : α} {ms : List β} {r : β → Bool}
    (hpar : List.Forall₂ (fun x m ↦ r m = true → p x = true ∧ x ≠ a) l ms)
    (ha : a ∈ l) (hpa : p a = true) : ms.countP r + 1 ≤ l.countP p := by
  refine Nat.le_trans (Nat.succ_le_succ ?_) (succ_countP_ne_le ha hpa)
  clear ha
  induction hpar with
  | nil => simp
  | @cons x m l' ms' hxm _ ih =>
    rw [countP_cons, countP_cons]
    by_cases hr : r m = true
    · obtain ⟨hpx, hne⟩ := hxm hr
      simp [hr, hpx, hne]
      simpa using ih
    · simp only [hr]
      exact Nat.le_trans ih (Nat.le_add_right _ _)

/-! ## Ballots -/

section SetAt

variable {ι κ : Type*} [DecidableEq ι] [DecidableEq κ]

/-- Set the value for one term and one voter. -/
def setAt (f : ι → κ → α) (t : ι) (v : κ) (x : α) : ι → κ → α :=
  fun u w ↦ if u = t ∧ w = v then x else f u w

variable {f : ι → κ → α} {t u : ι} {v w : κ} {x : α}

@[simp] theorem setAt_self (f : ι → κ → α) (t : ι) (v : κ) (x : α) : setAt f t v x t v = x :=
  if_pos ⟨rfl, rfl⟩

theorem setAt_of_ne (f : ι → κ → α) (x : α) (h : ¬(u = t ∧ w = v)) : setAt f t v x u w = f u w :=
  if_neg h

theorem setAt_eq_or (f : ι → κ → α) (t : ι) (v : κ) (x : α) (u : ι) (w : κ) :
    setAt f t v x u w = f u w ∨ u = t ∧ w = v := by
  by_cases h : u = t ∧ w = v
  · exact .inr h
  · exact .inl (setAt_of_ne f x h)

theorem le_setAt [Preorder α] (h : f t v ≤ x) (u : ι) (w : κ) : f u w ≤ setAt f t v x u w := by
  rcases setAt_eq_or f t v x u w with heq | ⟨rfl, rfl⟩
  · exact heq.ge
  · exact h.trans_eq (setAt_self f u w x).symm

variable {ballot : ι → κ → Option α} {c d : α}

theorem setAt_eq_some (h : setAt ballot t v (some c) u w = some d) :
    ballot u w = some d ∨ u = t ∧ w = v ∧ d = c := by
  rcases setAt_eq_or ballot t v (some c) u w with heq | ⟨rfl, rfl⟩
  · exact .inl (heq.symm.trans h)
  · exact .inr ⟨rfl, rfl, Option.some.inj (h.symm.trans (setAt_self ..))⟩

/-- Ballots are not revised. -/
theorem setAt_of_some (hkeep : ∀ c', ballot t v = some c' → c' = c) (h : ballot u w = some d) :
    setAt ballot t v (some c) u w = some d := by
  rcases setAt_eq_or ballot t v (some c) u w with heq | ⟨rfl, rfl⟩
  · exact heq.trans h
  · rw [hkeep d h, setAt_self]

end SetAt

end Quorum
