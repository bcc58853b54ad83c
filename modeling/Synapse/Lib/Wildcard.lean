import Mathlib.Data.List.Infix

/-!
# Separated strings and wildcard patterns

A string over any alphabet is cut into *levels* at each separator. A separator at the very end does
not open another level: `levels` drops the empty level `List.splitOn` puts there, and the empty
string has no level at all. Proofs about scanners follow `splitInduction`: a string is a level
without a separator, or such a level, a separator and the rest.

A *pattern* is a list of segments: an exact level, a wildcard for one level, and a wildcard for any
number of levels. `accepts` is its meaning on a list of levels.
-/

namespace Wildcard

open List

/-! ## Levels -/

section Split

variable {α : Type*} [DecidableEq α] {sep : α}

/-- The levels of a string; a trailing separator does not open a level. -/
def levels (sep : α) (s : List α) : List (List α) :=
  if (s.splitOn sep).getLast? = some [] then (s.splitOn sep).dropLast else s.splitOn sep

/-- Cut off one level after the other. -/
theorem splitInduction (sep : α) {P : List α → Prop} (last : ∀ tok, sep ∉ tok → P tok)
    (more : ∀ tok rest, sep ∉ tok → P rest → P (tok ++ sep :: rest)) (s : List α) : P s := by
  induction h : s.length using Nat.strong_induction_on generalizing s with
  | _ n ih =>
    by_cases hsep : sep ∈ s
    · obtain ⟨tok, rest, rfl, htok⟩ := eq_append_cons_of_mem hsep
      refine more tok rest htok (ih rest.length ?_ rest rfl)
      rw [← h, length_append, length_cons]
      omega
    · exact last s hsep

@[simp] theorem levels_nil : levels sep [] = [] := by simp [levels]

variable {tok s : List α}

theorem levels_of_not_mem (hsep : sep ∉ tok) (hne : tok ≠ []) : levels sep tok = [tok] := by
  rw [levels, splitOn_eq_singleton hsep, if_neg]
  simpa using hne

theorem levels_append (hsep : sep ∉ tok) (rest : List α) :
    levels sep (tok ++ sep :: rest) = tok :: levels sep rest := by
  obtain ⟨l, ls, hls⟩ := exists_cons_of_ne_nil (splitOn_ne_nil sep rest)
  rw [levels, levels, splitOn_append_cons_self_of_not_mem hsep, hls, List.getLast?_cons_cons,
    dropLast_cons_cons]
  split_ifs <;> rfl

theorem levels_ne_nil (sep : α) (hne : s ≠ []) : levels sep s ≠ [] := by
  induction s using splitInduction sep with
  | last tok hsep => rw [levels_of_not_mem hsep hne]; simp
  | more tok rest hsep => rw [levels_append hsep]; simp

theorem levels_eq_nil_iff : levels sep s = [] ↔ s = [] :=
  ⟨fun h ↦ by_contra fun hne ↦ levels_ne_nil sep hne h, fun h ↦ h ▸ levels_nil⟩

theorem sep_not_mem_of_mem_levels {l : List α} (hl : l ∈ levels sep s) : sep ∉ l := by
  induction s using splitInduction sep with
  | last tok hsep =>
    by_cases hne : tok = []
    · simp [hne] at hl
    · rw [levels_of_not_mem hsep hne, mem_singleton] at hl
      exact hl ▸ hsep
  | more tok rest hsep ih =>
    rw [levels_append hsep, mem_cons] at hl
    exact hl.elim (fun h ↦ h ▸ hsep) ih

/-- `List.splitOn` and `levels` differ by the empty level at the end. -/
theorem splitOn_eq_levels (sep : α) (s : List α) :
    s.splitOn sep = levels sep s ++ if s = [] ∨ s.getLast? = some sep then [[]] else [] := by
  induction s using splitInduction sep with
  | last tok hsep =>
    rw [splitOn_eq_singleton hsep]
    by_cases hne : tok = []
    · simp [hne]
    · have hlast : tok.getLast? ≠ some sep := fun h ↦ hsep (mem_of_getLast? h)
      simp [levels_of_not_mem hsep hne, hne, hlast]
  | more tok rest hsep ih =>
    rw [splitOn_append_cons_self_of_not_mem hsep, levels_append hsep, ih, cons_append]
    cases rest with
    | nil => simp
    | cons a rest => simp [List.getLast?_append]

theorem splitOn_of_open (hne : s ≠ []) (hend : s.getLast? ≠ some sep) :
    s.splitOn sep = levels sep s := by
  rw [splitOn_eq_levels, if_neg (not_or.mpr ⟨hne, hend⟩), append_nil]

/-! ## Levels with their last separator -/

/-- The levels of a string, where the last one keeps a separator that follows it. -/
def marked (sep : α) (s : List α) : List (List α) :=
  if s.getLast? = some sep then
    (levels sep s).dropLast ++ [(levels sep s).getLastD [] ++ [sep]]
  else levels sep s

theorem marked_of_open (hend : s.getLast? ≠ some sep) : marked sep s = levels sep s := by
  rw [marked, if_neg hend]

@[simp] theorem marked_nil : marked sep [] = [] := by simp [marked]

theorem marked_of_not_mem (hsep : sep ∉ tok) (hne : tok ≠ []) : marked sep tok = [tok] := by
  rw [marked_of_open fun h ↦ hsep (mem_of_getLast? h), levels_of_not_mem hsep hne]

theorem marked_append_singleton (hsep : sep ∉ tok) :
    marked sep (tok ++ [sep]) = [tok ++ [sep]] := by
  rw [marked, if_pos (by simp), levels_append hsep, levels_nil]
  rfl

theorem marked_append {rest : List α} (hsep : sep ∉ tok) (hne : rest ≠ []) :
    marked sep (tok ++ sep :: rest) = tok :: marked sep rest := by
  obtain ⟨l, ls, hls⟩ := exists_cons_of_ne_nil (levels_ne_nil sep hne)
  have hlast : (tok ++ sep :: rest).getLast? = rest.getLast? := by
    rw [← singleton_append, ← append_assoc]
    exact List.getLast?_append_of_ne_nil _ hne
  rw [marked, marked, hlast, levels_append hsep, hls]
  split_ifs <;> simp

theorem getLast?_marked_ne (sep : α) (s : List α) : (marked sep s).getLast? ≠ some [] := by
  induction s using splitInduction sep with
  | last tok hsep =>
    by_cases hne : tok = []
    · simp [hne]
    · simpa [marked_of_not_mem hsep hne] using hne
  | more tok rest hsep ih =>
    by_cases hne : rest = []
    · simp [hne, marked_append_singleton hsep]
    rw [marked_append hsep hne]
    cases hm : marked sep rest with
    | nil =>
      have hlevels := levels_ne_nil sep hne
      rw [marked] at hm
      split_ifs at hm
      · simp at hm
      · exact absurd hm hlevels
    | cons l ls => simpa [hm] using ih

/-! ## Offsets -/

/-- Where each level begins, if the first begins at `o` and separators stand between them. -/
def offsets (o : ℕ) : List (List α) → List ℕ
  | [] => []
  | l :: ls => o :: offsets (o + l.length + 1) ls

omit [DecidableEq α] in
@[simp] theorem length_offsets (o : ℕ) (ls : List (List α)) :
    (offsets o ls).length = ls.length := by
  induction ls generalizing o with
  | nil => rfl
  | cons l ls ih => rw [offsets, length_cons, ih, length_cons]

/-! ## Remainders -/

/-- What is left of a string after each of its separators. -/
def afterSeps (sep : α) : List α → List (List α)
  | [] => []
  | a :: s => if a = sep then s :: afterSeps sep s else afterSeps sep s

theorem afterSeps_of_not_mem (hsep : sep ∉ tok) (rest : List α) :
    afterSeps sep (tok ++ rest) = afterSeps sep rest := by
  induction tok with
  | nil => rfl
  | cons a tok ih =>
    rw [mem_cons, not_or] at hsep
    rw [cons_append, afterSeps, if_neg (Ne.symm hsep.1), ih hsep.2]

/-- What holds of any list of levels if it holds of the empty one can be searched for in the
remainders of a string. -/
theorem any_remainders (p : List (List α) → Bool) (hp : p [] = true → ∀ ls, p ls = true)
    (s : List α) :
    (s :: afterSeps sep s).any (fun s ↦ p (levels sep s)) = (levels sep s).tails.any p := by
  induction s using splitInduction sep with
  | last tok hsep =>
    have haft : afterSeps sep tok = [] := by simpa [afterSeps] using afterSeps_of_not_mem hsep []
    rw [haft]
    by_cases hne : tok = []
    · simp [hne]
    · cases hnil : p [] with
      | false => simp [levels_of_not_mem hsep hne, hnil]
      | true => simp [levels_of_not_mem hsep hne, hp hnil]
  | more tok rest hsep ih =>
    rw [afterSeps_of_not_mem hsep, afterSeps, if_pos rfl, any_cons, ih, levels_append hsep,
      tails_cons, any_cons]

/-! ## Encodings -/

/-- An encoding that keeps the separator apart from every other symbol keeps the cuts. -/
theorem splitOn_flatMap {β : Type*} [DecidableEq β] (enc : β → List α) {c : β} (hc : enc c = [sep])
    (henc : ∀ b, b ≠ c → sep ∉ enc b) (s : List β) :
    (s.flatMap enc).splitOn sep = (s.splitOn c).map (List.flatMap enc) := by
  have hflat : ∀ tok : List β, c ∉ tok → sep ∉ tok.flatMap enc := by
    intro tok htok hmem
    obtain ⟨b, hb, hsep⟩ := mem_flatMap.mp hmem
    exact henc b (fun h ↦ htok (h ▸ hb)) hsep
  induction s using splitInduction c with
  | last tok htok =>
    rw [splitOn_eq_singleton htok, splitOn_eq_singleton (hflat tok htok)]
    rfl
  | more tok rest htok ih =>
    rw [flatMap_append, flatMap_cons, hc, singleton_append,
      splitOn_append_cons_self_of_not_mem (hflat tok htok), ih,
      splitOn_append_cons_self_of_not_mem htok, map_cons]

end Split

/-! ## Patterns -/

/-- A segment of a pattern: a given level, any one level, or any number of levels. -/
inductive Segment (β : Type*)
  | exact (level : β)
  | one
  | many
  deriving DecidableEq, Repr

section Accepts

variable {β : Type*} [DecidableEq β]

/-- A pattern accepts a list of levels. -/
def accepts : List (Segment β) → List β → Bool
  | [], ls => ls.isEmpty
  | .many :: ps, ls => ls.tails.any fun ls ↦ accepts ps ls
  | .one :: ps, _ :: ls => accepts ps ls
  | .exact a :: ps, l :: ls => decide (l = a) && accepts ps ls
  | .one :: _, [] => false
  | .exact _ :: _, [] => false

variable {ps : List (Segment β)} {ls : List β}

theorem accepts_many_iff :
    accepts (.many :: ps) ls = true ↔ ∃ ls', ls' <:+ ls ∧ accepts ps ls' = true := by
  simp [accepts]

theorem accepts_of_accepts_nil (hne : ps ≠ []) (h : accepts ps [] = true) (ls : List β) :
    accepts ps ls = true := by
  match ps, h with
  | .many :: ps, h =>
    obtain ⟨ls', hsuff, h⟩ := accepts_many_iff.mp h
    rw [suffix_nil] at hsuff
    exact accepts_many_iff.mpr ⟨[], nil_suffix, hsuff ▸ h⟩

/-- A pattern that ends in an exact level accepts only lists that end in it. -/
theorem getLast?_of_accepts {a : β} (h : accepts (ps ++ [.exact a]) ls = true) :
    ls.getLast? = some a := by
  have hcons : ∀ {l : β} {ls : List β}, ls.getLast? = some a → (l :: ls).getLast? = some a := by
    intro l ls hls
    rw [List.getLast?_cons, hls]
    rfl
  induction ps generalizing ls with
  | nil =>
    match ls with
    | [l] => simpa [accepts] using h
    | _ :: _ :: _ => simp [accepts] at h
  | cons p ps ih =>
    match p, ls with
    | .many, ls =>
      obtain ⟨ls', ⟨front, rfl⟩, hls⟩ := accepts_many_iff.mp h
      rw [List.getLast?_append, ih hls]
      rfl
    | .one, l :: ls => exact hcons (ih h)
    | .exact b, l :: ls => exact hcons (ih (Bool.and_eq_true_iff.mp h).2)

/-- A last level that no exact segment names is taken by a wildcard, which takes any level. -/
theorem accepts_replace_last {y : β} (hy : Segment.exact y ∉ ps) {front : List β}
    (h : accepts ps (front ++ [y]) = true) (x : β) : accepts ps (front ++ [x]) = true := by
  induction ps generalizing front with
  | nil => simp [accepts] at h
  | cons p ps ih =>
    rw [mem_cons, not_or] at hy
    match p, front with
    | .many, front =>
      obtain ⟨ls, hsuff, hls⟩ := accepts_many_iff.mp h
      rcases suffix_concat_iff.mp hsuff with rfl | ⟨front', rfl, pre, rfl⟩
      · exact accepts_many_iff.mpr ⟨[], nil_suffix, hls⟩
      · exact accepts_many_iff.mpr ⟨front' ++ [x], ⟨pre, by simp⟩, ih hy.2 hls⟩
    | .one, [] => exact h
    | .one, _ :: front => exact ih hy.2 h
    | .exact a, [] =>
      obtain ⟨ha, -⟩ := Bool.and_eq_true_iff.mp h
      exact absurd (congrArg Segment.exact (of_decide_eq_true ha)) hy.1
    | .exact a, l :: front =>
      obtain ⟨ha, h⟩ := Bool.and_eq_true_iff.mp h
      exact Bool.and_eq_true_iff.mpr ⟨ha, ih hy.2 h⟩

theorem accepts_marked_iff {α : Type*} [DecidableEq α] {sep : α} {s : List α}
    (hs : s.getLast? = some sep) {ps : List (Segment (List α))}
    (hps : ∀ a, Segment.exact a ∈ ps → sep ∉ a) :
    accepts ps (marked sep s) = true ↔ ∀ l, accepts ps ((levels sep s).dropLast ++ [l]) = true := by
  rw [marked, if_pos hs]
  exact ⟨accepts_replace_last fun h ↦ hps _ h (by simp), fun h ↦ h _⟩

theorem accepts_levels_of_marked {α : Type*} [DecidableEq α] {sep : α} {s : List α}
    (hs : s.getLast? = some sep) {ps : List (Segment (List α))}
    (hps : ∀ a, Segment.exact a ∈ ps → sep ∉ a) (h : accepts ps (marked sep s) = true) :
    accepts ps (levels sep s) = true := by
  have hne : levels sep s ≠ [] := by
    refine levels_ne_nil sep ?_
    rintro rfl
    simp at hs
  have hlast := (accepts_marked_iff hs hps).mp h ((levels sep s).getLast hne)
  rwa [dropLast_append_getLast hne] at hlast

/-- The levels left to the rest of the pattern, counted from the front. -/
theorem accepts_many_eq_range (ps : List (Segment β)) (ls : List β) : accepts (.many :: ps) ls =
      (accepts ps ls || (List.range' 1 ls.length).any fun k ↦ accepts ps (ls.drop k)) := by
  rw [Bool.eq_iff_iff, accepts_many_iff, Bool.or_eq_true_iff, any_eq_true]
  constructor
  · rintro ⟨ls', hsuff, h⟩
    have hdrop := suffix_iff_eq_drop.mp hsuff
    rcases Nat.eq_zero_or_pos (ls.length - ls'.length) with hk | hk
    · rw [hk, drop_zero] at hdrop
      exact Or.inl (hdrop ▸ h)
    · refine Or.inr ⟨ls.length - ls'.length, ?_, hdrop ▸ h⟩
      rw [mem_range'_1]
      omega
  · rintro (h | ⟨k, -, h⟩)
    · exact ⟨ls, suffix_rfl, h⟩
    · exact ⟨ls.drop k, drop_suffix k ls, h⟩

end Accepts

end Wildcard
