import Mathlib.Data.List.Nodup
import Mathlib.Data.List.Perm.Basic

/-!
# Lists with distinct keys

A list whose members have distinct keys is a finite map. Looking up, removing and selecting by key
then concern exactly one member: removing it leaves a list that is the rest up to order
(`perm_cons_filter`), and selecting it yields that member alone (`filter_key`).
-/

namespace Keyed

open List

variable {β κ : Type*} [DecidableEq κ] (key : β → κ) {l : List β} {b : β} {k : κ}

section

variable (hnd : (l.map key).Nodup)

include hnd

/-- Distinct keys: looking up the key of a member finds that member. -/
theorem find?_key (hb : b ∈ l) : l.find? (fun x ↦ key x == key b) = some b := by
  induction l with
  | nil => simp at hb
  | cons a l ih =>
    rw [map_cons, nodup_cons] at hnd
    rcases mem_cons.mp hb with rfl | hmem
    · simp
    · have hne : key a ≠ key b := fun heq ↦ hnd.1 (heq ▸ mem_map_of_mem hmem)
      rw [List.find?_cons_of_neg (by simpa using hne)]
      exact ih hnd.2 hmem

omit [DecidableEq κ] in
theorem nodup_concat (hne : ∀ x ∈ l, key x ≠ key b) : ((l ++ [b]).map key).Nodup := by
  rw [map_append, map_singleton, ← concat_eq_append]
  refine hnd.concat fun hmem ↦ ?_
  obtain ⟨x, hx, heq⟩ := mem_map.mp hmem
  exact hne x hx heq

/-- Distinct keys: removing the first member that has the key of `b` removes every such member. -/
theorem eraseP_key {p : β → Bool} (hp : ∀ x ∈ l, p x = true ↔ key x = key b) :
    l.eraseP p = l.filter fun x ↦ decide (key x ≠ key b) := by
  induction l with
  | nil => rfl
  | cons a l ih =>
    rw [map_cons, nodup_cons] at hnd
    by_cases ha : key a = key b
    · have hall : ∀ x ∈ l, decide (key x ≠ key b) = true := fun x hx ↦ by
        rw [decide_eq_true_iff, ← ha]
        exact fun heq ↦ hnd.1 (heq ▸ mem_map_of_mem hx)
      rw [eraseP_cons_of_pos ((hp a mem_cons_self).mpr ha),
        filter_cons_of_neg (by simpa using ha), filter_eq_self.mpr hall]
    · have hneg : ¬p a = true := fun h ↦ ha ((hp a mem_cons_self).mp h)
      rw [eraseP_cons_of_neg hneg, filter_cons_of_pos (by simpa using ha),
        ih hnd.2 fun x hx ↦ hp x (mem_cons_of_mem a hx)]

theorem perm_cons_filter (hb : b ∈ l) : l.Perm (b :: l.filter fun x ↦ key x != key b) := by
  induction l with
  | nil => simp at hb
  | cons a l ih =>
    rw [map_cons, nodup_cons] at hnd
    rcases mem_cons.mp hb with rfl | hmem
    · have hall : ∀ x ∈ l, (key x != key b) = true := by
        intro x hx
        rw [bne_iff_ne]
        exact fun heq ↦ hnd.1 (heq ▸ mem_map_of_mem hx)
      rw [filter_cons_of_neg (by simp), filter_eq_self.mpr hall]
    · have hne : key a ≠ key b := fun heq ↦ hnd.1 (heq ▸ mem_map_of_mem hmem)
      rw [filter_cons_of_pos (by simpa using hne)]
      exact ((ih hnd.2 hmem).cons a).trans (.swap b a _)

theorem filter_key (hb : b ∈ l) : (l.filter fun x ↦ key x == key b) = [b] := by
  have hperm := (perm_cons_filter key hnd hb).filter fun x ↦ key x == key b
  rw [filter_cons_of_pos (by simp), filter_filter] at hperm
  have hnone : (l.filter fun x ↦ (key x == key b) && key x != key b) = [] := by
    rw [filter_eq_nil_iff]
    intro x _
    simp
  rw [hnone] at hperm
  exact perm_singleton.mp hperm

end

theorem filter_key_of_not_mem (h : k ∉ l.map key) : (l.filter fun x ↦ key x == k) = [] := by
  rw [filter_eq_nil_iff]
  intro x hx
  rw [beq_iff_eq]
  exact fun heq ↦ h (heq ▸ mem_map_of_mem hx)

theorem filter_ne_of_not_mem (h : k ∉ l.map key) : (l.filter fun x ↦ key x != k) = l := by
  rw [filter_eq_self]
  intro x hx
  rw [bne_iff_ne]
  exact fun heq ↦ h (heq ▸ mem_map_of_mem hx)

/-- Distinct keys: a list of pairs finds under each key its one value. -/
theorem lookup_eq_some_iff {α : Type*} {l : List (κ × α)} (hnd : (l.map Prod.fst).Nodup) {a : α} :
    l.lookup k = some a ↔ (k, a) ∈ l := by
  induction l with
  | nil => simp
  | cons p l ih =>
    obtain ⟨k', a'⟩ := p
    rw [map_cons, nodup_cons] at hnd
    by_cases hk : k = k'
    · subst hk
      have hnot : (k, a) ∉ l := fun hmem ↦ hnd.1 (mem_map.mpr ⟨_, hmem, rfl⟩)
      rw [lookup_cons_self, mem_cons, or_iff_left hnot, Option.some_inj, Prod.mk.injEq,
        eq_self, true_and, eq_comm]
    · have hne : (k, a) ≠ (k', a') := fun heq ↦ hk (Prod.mk.inj heq).1
      rw [lookup_cons, beq_false_of_ne hk, mem_cons, or_iff_right hne]
      exact ih hnd.2

end Keyed
