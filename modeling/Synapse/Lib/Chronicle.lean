import Mathlib.Data.List.Basic

/-!
# Histories

A history is a list of events in the order they happened. `Chronicle P` says that every event of it
stands in the relation `P` to the events before it. This is how a property of whole runs that talks
about earlier and later events is kept step by step: an event that is recorded has to be compared
with the past only.
-/

variable {α : Type*} {P : List α → α → Prop} {l : List α}

/-- Every event of the history is in relation `P` with what happened before it. -/
def Chronicle (P : List α → α → Prop) (l : List α) : Prop :=
  ∀ past a future, l = past ++ a :: future → P past a

namespace Chronicle

open List

theorem nil : Chronicle P [] := by
  intro past a future h
  exact absurd h.symm (by simp)

theorem concat (h : Chronicle P l) {a : α} (ha : P l a) : Chronicle P (l ++ [a]) := by
  intro past b future hsp
  rcases eq_nil_or_concat future with rfl | ⟨future', c, rfl⟩
  · obtain ⟨rfl, hb⟩ := append_inj' hsp rfl
    obtain rfl : a = b := head_eq_of_cons_eq hb
    exact ha
  · rw [concat_eq_append, ← cons_append, ← append_assoc] at hsp
    exact h past b future' (append_inj' hsp rfl).1

theorem append (h : Chronicle P l) {l' : List α} (hl' : ∀ a ∈ l', ∀ past, P past a) :
    Chronicle P (l ++ l') := by
  induction l' generalizing l with
  | nil => rwa [append_nil]
  | cons a l' ih =>
    rw [← singleton_append, ← append_assoc]
    exact ih (h.concat (hl' a mem_cons_self l)) fun b hb ↦ hl' b (mem_cons_of_mem a hb)

/-- The last value recorded, after one more event. -/
theorem getLast?_filterMap_concat {β : Type*} (f : α → Option β) (l : List α) (a : α) :
    ((l ++ [a]).filterMap f).getLast? = (f a).or (l.filterMap f).getLast? := by
  rw [filterMap_append, getLast?_append]
  cases h : f a <;> simp [h]

end Chronicle
