import Mathlib.Data.List.Sort
import Mathlib.Data.List.Destutter
import Mathlib.Data.List.Infix

/-!
# Sequences cut into consecutive chunks

A sequence is stored as a list of chunks, each with the position of its first item. Only the last
chunk, the one still being filled, may be empty, so positions increase strictly and identify a
chunk. A reader that visits the chunks in order, skips in each what lies before the position asked
for and stops once it has enough, sees a window of the sequence (`flatMap_window`,
`take_append_take_append`). One that misses some of the chunks sees the same if and only if what it
was going to see is not in them (`take_eq_take_iff`).
-/

namespace Chunks

open List

variable {α β : Type*}

/-- Consecutive chunks from position `start` on; only the last may be empty. -/
def Contiguous : ℕ → List (ℕ × List α) → Prop
  | _, [] => True
  | start, (base, xs) :: rest =>
    base = start ∧ (rest ≠ [] → xs ≠ []) ∧ Contiguous (start + xs.length) rest

/-- The sequence the chunks make up. -/
def items (chunks : List (ℕ × List α)) : List α := chunks.flatMap Prod.snd

@[simp] theorem items_nil : items ([] : List (ℕ × List α)) = [] := rfl

@[simp] theorem items_cons (c : ℕ × List α) (chunks : List (ℕ × List α)) :
    items (c :: chunks) = c.2 ++ items chunks := rfl

@[simp] theorem items_append (chunks chunks' : List (ℕ × List α)) :
    items (chunks ++ chunks') = items chunks ++ items chunks' := flatMap_append

/-- The items with their positions, the first at `start`. -/
def numbered (start : ℕ) (xs : List α) : List (ℕ × α) := (xs.zipIdx start).map Prod.swap

variable (start : ℕ)

@[simp] theorem numbered_nil : numbered start ([] : List α) = [] := rfl

@[simp] theorem numbered_cons (x : α) (xs : List α) :
    numbered start (x :: xs) = (start, x) :: numbered (start + 1) xs := rfl

@[simp] theorem length_numbered (xs : List α) : (numbered start xs).length = xs.length := by
  simp [numbered]

@[simp] theorem map_snd_numbered (xs : List α) : (numbered start xs).map Prod.snd = xs := by
  induction xs generalizing start with
  | nil => rfl
  | cons x xs ih => rw [numbered_cons, map_cons, ih]

theorem numbered_append (xs ys : List α) :
    numbered start (xs ++ ys) = numbered start xs ++ numbered (start + xs.length) ys := by
  rw [numbered, zipIdx_append, map_append]
  rfl

theorem getElem?_numbered (xs : List α) (k : ℕ) :
    (numbered start xs)[k]? = (xs[k]?).map fun x ↦ (start + k, x) := by
  rw [numbered, List.getElem?_map, List.getElem?_zipIdx, Option.map_map]
  rfl

/-! ## Growing -/

section Growing

variable {start base : ℕ} {chunks : List (ℕ × List α)} {xs : List α} {x : α}

variable (h : Contiguous start (chunks ++ [(base, xs)]))

include h

theorem Contiguous.base_last : base = start + (items chunks).length := by
  induction chunks generalizing start with
  | nil => exact h.1
  | cons c chunks ih =>
    obtain ⟨b, ys⟩ := c
    rw [ih h.2.2, items_cons, length_append, Nat.add_assoc]

/-- The last chunk is filled further. -/
theorem Contiguous.push (ys : List α) : Contiguous start (chunks ++ [(base, ys)]) := by
  induction chunks generalizing start with
  | nil => exact ⟨h.1, fun hne ↦ absurd rfl hne, trivial⟩
  | cons c chunks ih =>
    obtain ⟨b, zs⟩ := c
    exact ⟨h.1, fun _ ↦ h.2.1 (by simp), ih h.2.2⟩

theorem Contiguous.roll (hne : xs ≠ []) (ys : List α) :
    Contiguous start (chunks ++ [(base, xs), (base + xs.length, ys)]) := by
  induction chunks generalizing start with
  | nil =>
    obtain ⟨rfl, -, -⟩ := h
    exact ⟨rfl, fun _ ↦ hne, rfl, fun h ↦ absurd rfl h, trivial⟩
  | cons c chunks ih =>
    obtain ⟨b, zs⟩ := c
    exact ⟨h.1, fun _ ↦ h.2.1 (by simp), ih h.2.2⟩

end Growing

/-! ## Positions -/

variable {chunks : List (ℕ × List α)} {c : ℕ × List α} {xs : List α} {e : ℕ × α} {lo : ℕ}

theorem Contiguous.le_base {start : ℕ} (h : Contiguous start chunks) (hc : c ∈ chunks) :
    start ≤ c.1 := by
  induction chunks generalizing start with
  | nil => simp at hc
  | cons d chunks ih =>
    obtain ⟨b, ys⟩ := d
    rcases mem_cons.mp hc with rfl | hc
    · exact h.1.ge
    · exact Nat.le_of_add_right_le (ih h.2.2 hc)

theorem Contiguous.pairwise_lt {start : ℕ} (h : Contiguous start chunks) :
    (chunks.map Prod.fst).Pairwise (· < ·) := by
  induction chunks generalizing start with
  | nil => simp
  | cons d chunks ih =>
    obtain ⟨b, ys⟩ := d
    refine pairwise_cons.mpr ⟨fun b' hb' ↦ ?_, ih h.2.2⟩
    obtain ⟨c, hc, rfl⟩ := mem_map.mp hb'
    have hle := h.2.2.le_base hc
    have hpos := length_pos_iff.mpr (h.2.1 (ne_nil_of_mem hc))
    have hbase := h.1
    simp only at hbase ⊢
    omega

/-- Positions in any order, sorted and with repetitions dropped, are the positions in order. -/
theorem destutter_insertionSort {bases sorted : List ℕ} (hperm : bases.Perm sorted)
    (hsrtd : sorted.Pairwise (· < ·)) :
    (bases.insertionSort (· ≤ ·)).destutter (· ≠ ·) = sorted := by
  have heq : bases.insertionSort (· ≤ ·) = sorted :=
    ((perm_insertionSort _ bases).trans hperm).eq_of_pairwise'
      (pairwise_insertionSort (· ≤ ·) bases) (hsrtd.imp Nat.le_of_lt)
  rw [heq]
  exact destutter_of_isChain _ _ (hsrtd.imp Nat.ne_of_lt).isChain

/-! ## Reading -/

/-- What a reader asking for positions from `lo` on takes from a chunk. -/
def window (lo : ℕ) (c : ℕ × List α) : List (ℕ × α) := (numbered c.1 c.2).drop (lo - c.1)

theorem window_of_le (h : c.1 + c.2.length ≤ lo) : window lo c = [] :=
  drop_of_length_le (by rw [length_numbered]; omega)

theorem flatMap_window {start : ℕ} (h : Contiguous start chunks) (lo : ℕ) :
    chunks.flatMap (window lo) = (numbered start (items chunks)).drop (lo - start) := by
  induction chunks generalizing start with
  | nil => simp
  | cons c chunks ih =>
    obtain ⟨b, xs⟩ := c
    obtain ⟨rfl, -, hrest⟩ := h
    rw [flatMap_cons, ih hrest, items_cons, numbered_append, drop_append, length_numbered, window]
    congr 2
    simp only
    omega

theorem take_append_take_append (max : ℕ) (out w rest : List β) (hout : out.length ≤ max) :
    (out ++ w.take (max - out.length) ++ rest).take max = (out ++ (w ++ rest)).take max := by
  rcases Nat.le_total w.length (max - out.length) with hle | hge
  · rw [take_of_length_le hle, append_assoc]
  · have hlen : (out ++ w.take (max - out.length)).length = max := by simp; omega
    rw [take_left' hlen, take_append, take_of_length_le hout, take_append_of_le_length hge]

/-! ## Which items are read -/

theorem mem_numbered {start : ℕ} :
    e ∈ numbered start xs ↔ ∃ i, xs[i]? = some e.2 ∧ e.1 = start + i := by
  rw [mem_iff_getElem?]
  refine exists_congr fun i ↦ ?_
  rw [getElem?_numbered, Option.map_eq_some_iff]
  constructor
  · rintro ⟨x, hx, rfl⟩
    exact ⟨hx, rfl⟩
  · rintro ⟨hx, he⟩
    exact ⟨e.2, hx, Prod.ext he.symm rfl⟩

theorem nodup_numbered (start : ℕ) (xs : List α) : (numbered start xs).Nodup := by
  refine List.Nodup.of_map Prod.fst ?_
  have hfst : (numbered start xs).map Prod.fst = List.range' start xs.length := by
    rw [numbered, map_map]
    exact zipIdx_map_snd start xs
  rw [hfst]
  exact nodup_range'

theorem mem_drop_numbered {start k : ℕ} :
    e ∈ (numbered start xs).drop k ↔ e ∈ numbered start xs ∧ start + k ≤ e.1 := by
  rw [mem_numbered, mem_iff_getElem?]
  constructor
  · rintro ⟨i, hi⟩
    rw [List.getElem?_drop, getElem?_numbered, Option.map_eq_some_iff] at hi
    obtain ⟨x, hx, rfl⟩ := hi
    exact ⟨⟨k + i, hx, rfl⟩, by simp only; omega⟩
  · rintro ⟨⟨i, hi, he⟩, hle⟩
    refine ⟨i - k, ?_⟩
    rw [List.getElem?_drop, Nat.add_sub_cancel' (by omega), getElem?_numbered, hi, ← Prod.eta e,
      ← he]
    rfl

theorem mem_window : e ∈ window lo c ↔ e ∈ numbered c.1 c.2 ∧ lo ≤ e.1 := by
  rw [window, mem_drop_numbered]
  refine and_congr_right fun he ↦ ?_
  obtain ⟨i, -, hi⟩ := mem_numbered.mp he
  omega

theorem mem_take_drop_numbered {start k n : ℕ} : e ∈ ((numbered start xs).drop k).take n ↔
      e ∈ (numbered start xs).drop k ∧ e.1 < start + k + n := by
  have hat (i : ℕ) (hi : ((numbered start xs).drop k)[i]? = some e) : e.1 = start + k + i := by
    rw [List.getElem?_drop, getElem?_numbered, Option.map_eq_some_iff] at hi
    obtain ⟨x, -, rfl⟩ := hi
    exact (Nat.add_assoc ..).symm
  rw [mem_iff_getElem?, mem_iff_getElem?]
  constructor
  · rintro ⟨i, hi⟩
    rw [List.getElem?_take] at hi
    split_ifs at hi with hin
    exact ⟨⟨i, hi⟩, by have := hat i hi; omega⟩
  · rintro ⟨⟨i, hi⟩, hlt⟩
    have hin : i < n := by have := hat i hi; omega
    exact ⟨i, by rw [List.getElem?_take_of_lt hin, hi]⟩

/-- A selection of the items has the same first `n` as all of them exactly if it contains these. -/
theorem take_eq_take_iff {l l' : List β} (hsub : l'.Sublist l) (hnd : l.Nodup) (n : ℕ) :
    l'.take n = l.take n ↔ ∀ x ∈ l.take n, x ∈ l' := by
  constructor
  · intro heq x hx
    rw [← heq] at hx
    exact mem_of_mem_take hx
  intro hall
  induction hsub generalizing n with
  | slnil => rfl
  | @cons l' l a hsub ih =>
    cases n with
    | zero => rfl
    | succ n =>
      -- the item that is left out is one of the first
      have ha : a ∈ l' := hall a (by simp)
      exact absurd (hsub.subset ha) (nodup_cons.mp hnd).1
  | @cons_cons l' l a hsub ih =>
    cases n with
    | zero => rfl
    | succ n =>
      rw [nodup_cons] at hnd
      rw [take_succ_cons, take_succ_cons, ih hnd.2 n fun x hx ↦ ?_]
      have hx' := hall x (by rw [take_succ_cons]; exact mem_cons_of_mem a hx)
      refine (mem_cons.mp hx').resolve_left ?_
      rintro rfl
      exact hnd.1 (mem_of_mem_take hx)

end Chunks
