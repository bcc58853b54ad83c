import Mathlib.Data.Int.CardIntervalMod

/-!
# Taking turns

The elements of a list are picked in rotation, from some position on. From the start of the list
they are picked as often as whole rounds and the rest of a round say (`count_picks_zero`). Whatever
the position, any two elements of a list without duplicates are picked equally often up to one
(`count_picks_le`): the turns of an element are the numbers of one residue class, and an interval
holds as many numbers of one class as of another, up to one.
-/

namespace RoundRobin

variable {α : Type*} {xs : List α}

/-- The elements picked in `k` turns from position `s` on. -/
def picks (xs : List α) : ℕ → ℕ → List α
  | _, 0 => []
  | s, k + 1 => xs[s % xs.length]?.toList ++ picks xs (s + 1) k

theorem picks_congr {s s' : ℕ} (h : s ≡ s' [MOD xs.length]) (k : ℕ) :
    picks xs s k = picks xs s' k := by
  induction k generalizing s s' with
  | zero => rfl
  | succ k ih => rw [picks, picks, h, ih (h.add_right 1)]

theorem mem_of_mem_picks {x : α} {s k : ℕ} (h : x ∈ picks xs s k) : x ∈ xs := by
  induction k generalizing s with
  | zero => cases h
  | succ k ih =>
    rcases List.mem_append.mp h with h | h
    · exact List.mem_of_getElem? (Option.mem_toList.mp h)
    · exact ih h

theorem length_picks (hne : xs ≠ []) (s k : ℕ) : (picks xs s k).length = k := by
  induction k generalizing s with
  | zero => rfl
  | succ k ih =>
    have hlt : s % xs.length < xs.length := Nat.mod_lt s (List.length_pos_iff.mpr hne)
    rw [picks, List.getElem?_eq_getElem hlt, List.length_append, ih, Nat.add_comm]
    rfl

theorem picks_add (s j k : ℕ) : picks xs s (j + k) = picks xs s j ++ picks xs (s + j) k := by
  induction j generalizing s with
  | zero => rw [Nat.zero_add, picks, List.nil_append, Nat.add_zero]
  | succ j ih =>
    rw [Nat.add_right_comm, picks, ih, picks, List.append_assoc, Nat.add_assoc s 1, Nat.add_comm 1]

theorem picks_of_le {s k : ℕ} (h : s + k ≤ xs.length) : picks xs s k = (xs.drop s).take k := by
  induction k generalizing s with
  | zero => rfl
  | succ k ih =>
    have hs : s < xs.length := by omega
    rw [picks, ih (by omega), Nat.mod_eq_of_lt hs, List.getElem?_eq_getElem hs,
      List.drop_eq_getElem_cons hs]
    rfl

/-- The turns of an element in `k` turns from the start: those of the whole rounds, and those of the
round that is not complete. -/
def turns [DecidableEq α] (xs : List α) (k : ℕ) (x : α) : ℕ :=
  k / xs.length * xs.count x + (xs.take (k % xs.length)).count x

theorem count_picks_zero [DecidableEq α] (hne : xs ≠ []) (k : ℕ) (x : α) :
    (picks xs 0 k).count x = turns xs k x := by
  have hpos : 0 < xs.length := List.length_pos_iff.mpr hne
  have hback : 0 + xs.length ≡ 0 [MOD xs.length] := by simp [Nat.ModEq]
  have hround : ∀ j, picks xs 0 (xs.length + j) = xs ++ picks xs 0 j := by
    intro j
    rw [picks_add, picks_of_le (by omega), List.drop_zero, List.take_length, picks_congr hback]
  rw [turns]
  induction k using Nat.strong_induction_on with
  | _ k ih =>
    rcases Nat.lt_or_ge k xs.length with hlt | hge
    · rw [picks_of_le (by omega), Nat.div_eq_of_lt hlt, Nat.mod_eq_of_lt hlt]
      simp
    · obtain ⟨j, rfl⟩ := Nat.exists_eq_add_of_le hge
      rw [hround, List.count_append, ih j (by omega), Nat.add_div_left j hpos, Nat.add_mod_left,
        Nat.succ_mul]
      omega

/-- How often the element at position `j` is picked. -/
theorem count_picks [DecidableEq α] (hnd : xs.Nodup) {j : ℕ} {x : α} (hx : xs[j]? = some x)
    (s k : ℕ) : (picks xs s k).count x = k.count fun i ↦ (s + i) % xs.length = j := by
  induction k generalizing s with
  | zero => simp [picks]
  | succ k ih =>
    obtain ⟨hj, rfl⟩ := List.getElem?_eq_some_iff.mp hx
    have hlt : s % xs.length < xs.length := Nat.mod_lt s (Nat.zero_lt_of_lt hj)
    have hfst : (xs[s % xs.length]?.toList).count xs[j] =
        if (s + 0) % xs.length = j then 1 else 0 := by
      rw [List.getElem?_eq_getElem hlt, Option.toList_some, List.count_singleton, Nat.add_zero]
      simp only [beq_iff_eq, hnd.getElem_inj_iff]
    have hrest : ∀ i, s + 1 + i = s + (i + 1) := fun i ↦ by omega
    rw [picks, List.count_append, ih, Nat.count_succ', hfst, Nat.add_comm]
    simp only [hrest]

/-- The turns of a position are the numbers of one residue class. -/
theorem add_mod_eq_iff {n s j : ℕ} (hj : j < n) (i : ℕ) :
    (s + i) % n = j ↔ i ≡ j + (n - s % n) [MOD n] := by
  have hback : s + (j + (n - s % n)) ≡ j [MOD n] := by
    have hs : s % n < n := Nat.mod_lt s (Nat.zero_lt_of_lt hj)
    have hsum : s + (j + (n - s % n)) = j + n * (s / n + 1) := by
      have hdiv := Nat.div_add_mod s n
      rw [Nat.mul_add, Nat.mul_one]
      omega
    rw [hsum, Nat.ModEq, Nat.add_mul_mod_self_left]
  constructor
  · intro h
    have hi : s + i ≡ j [MOD n] := by rw [Nat.ModEq, h, Nat.mod_eq_of_lt hj]
    exact (hi.trans hback.symm).add_left_cancel' s
  · intro h
    have hi := (h.add_left s).trans hback
    rwa [Nat.ModEq, Nat.mod_eq_of_lt hj] at hi

/-- **Rotation is fair.** Any two elements are picked equally often up to one. -/
theorem count_picks_le [DecidableEq α] (hnd : xs.Nodup) {x y : α} (hx : x ∈ xs) (hy : y ∈ xs)
    (s k : ℕ) : (picks xs s k).count x ≤ (picks xs s k).count y + 1 := by
  obtain ⟨i, hi⟩ := List.mem_iff_getElem?.mp hx
  obtain ⟨j, hj⟩ := List.mem_iff_getElem?.mp hy
  have hi' := (List.getElem?_eq_some_iff.mp hi).1
  have hj' := (List.getElem?_eq_some_iff.mp hj).1
  rw [count_picks hnd hi, count_picks hnd hj]
  simp only [add_mod_eq_iff hi', add_mod_eq_iff hj', Nat.count_modEq_card _ (Nat.zero_lt_of_lt hi')]
  split_ifs <;> omega

end RoundRobin
