import Mathlib.Data.List.Basic

/-!
# Text joined by a separator

Two texts can be kept in one, joined by a character that the first of them does not hold. Cutting
at the first separator then gives both parts back (`splitOnce_join`), and the joined text determines
them (`join_inj`).
-/

namespace Text

/-- What follows `pre` in `s`, if `s` starts with it. -/
def stripPrefix (pre s : String) : Option String :=
  (s.toList.dropPrefix? pre.toList).map String.ofList

/-- The characters before and after the first separator. -/
def cut (sep : Char) : List Char → Option (List Char × List Char)
  | [] => none
  | c :: s => if c = sep then some ([], s) else (cut sep s).map fun p ↦ (c :: p.1, p.2)

/-- The text before and after the first separator. -/
def splitOnce (sep : Char) (s : String) : Option (String × String) :=
  (cut sep s.toList).map fun p ↦ (String.ofList p.1, String.ofList p.2)

def join (sep : Char) (a b : String) : String := a ++ String.singleton sep ++ b

variable {sep : Char} {a b x y s pre r : String}

theorem toList_join : (join sep a b).toList = a.toList ++ sep :: b.toList := by
  rw [join, String.toList_append, String.toList_append, String.toList_singleton]
  simp

theorem stripPrefix_eq_some : stripPrefix pre s = some r ↔ s = pre ++ r := by
  rw [stripPrefix, Option.map_eq_some_iff]
  constructor
  · rintro ⟨l, hl, rfl⟩
    obtain ⟨front, hs, hfrt⟩ := List.dropPrefix?_eq_some_iff.mp hl
    rw [← String.toList_inj, String.toList_append, String.toList_ofList, hs, eq_of_beq hfrt]
  · rintro rfl
    exact ⟨r.toList, List.dropPrefix?_eq_some_iff.mpr ⟨_, String.toList_append, beq_self_eq_true _⟩,
      String.ofList_toList⟩

theorem cut_eq_some {s u v : List Char} :
    cut sep s = some (u, v) ↔ sep ∉ u ∧ s = u ++ sep :: v := by
  induction s generalizing u with
  | nil => simp [cut]
  | cons c s ih =>
    rw [cut]
    split_ifs with hc
    · subst hc
      cases u with
      | nil => simp
      | cons d u => simp +contextual [eq_comm]
    · cases u with
      | nil => simp [hc]
      | cons d u =>
        simp only [Option.map_eq_some_iff, Prod.mk.injEq, List.cons.injEq, List.cons_append,
          List.mem_cons, not_or]
        constructor
        · rintro ⟨p, hp, ⟨rfl, rfl⟩, rfl⟩
          obtain ⟨hu, hs⟩ := ih.mp hp
          exact ⟨⟨Ne.symm hc, hu⟩, rfl, hs⟩
        · rintro ⟨⟨-, hu⟩, rfl, hs⟩
          exact ⟨(u, v), ih.mpr ⟨hu, hs⟩, ⟨rfl, rfl⟩, rfl⟩

theorem splitOnce_eq_some : splitOnce sep s = some (a, b) ↔ sep ∉ a.toList ∧ s = join sep a b := by
  rw [splitOnce, Option.map_eq_some_iff, ← String.toList_inj, toList_join]
  constructor
  · rintro ⟨⟨u, v⟩, hcut, hp⟩
    obtain ⟨rfl, rfl⟩ := Prod.mk.inj hp
    rw [String.toList_ofList, String.toList_ofList]
    exact cut_eq_some.mp hcut
  · intro h
    exact ⟨(a.toList, b.toList), cut_eq_some.mpr h, by simp⟩

theorem splitOnce_join (h : sep ∉ a.toList) : splitOnce sep (join sep a b) = some (a, b) :=
  splitOnce_eq_some.mpr ⟨h, rfl⟩

theorem join_inj (ha : sep ∉ a.toList) (hx : sep ∉ x.toList) (h : join sep a b = join sep x y) :
    a = x ∧ b = y := by
  have hsp := splitOnce_join (b := b) ha
  rw [h, splitOnce_join hx] at hsp
  exact Prod.mk.inj (Option.some.inj hsp).symm

end Text
