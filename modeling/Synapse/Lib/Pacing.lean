import Mathlib.Order.Nat
import Mathlib.Data.Nat.Notation

/-!
# One job per turn

A receiver gets a stream of jobs cut into chunks that need not respect the boundaries of the jobs.
Each chunk gives it one turn, and in a turn it finishes at most one job, the first one that has
arrived completely and is not finished. Jobs and chunks count by their sizes only.

`length_le_handled_iff` says when all jobs are finished in the end: at the start and after every
chunk, the jobs that have not arrived completely are no more than the chunks to come. A receiver
that works on the parts of a job as they arrive (`Turn`) finishes the same jobs in the same turns.
-/

namespace Pacing

open List

/-- The number of jobs that are complete among the first `r` units of the stream. -/
def completed : List ℕ → ℕ → ℕ
  | [], _ => 0
  | size :: sizes, r => if size ≤ r then completed sizes (r - size) + 1 else 0

/-- What has arrived after each chunk, when `r` had arrived before. -/
def totals : ℕ → List ℕ → List ℕ
  | _, [] => []
  | r, c :: cs => (r + c) :: totals (r + c) cs

/-- The number of jobs finished in the turns of these chunks, with `buffered` units of the first
job waiting. -/
def handled : List ℕ → ℕ → List ℕ → ℕ
  | _, _, [] => 0
  | [], _, _ :: _ => 0
  | size :: sizes, buffered, c :: cs =>
    if size ≤ buffered + c then handled sizes (buffered + c - size) cs + 1
    else handled (size :: sizes) (buffered + c) cs

/-- The number of jobs finished when `counts` are complete at the turns and `n` are finished. -/
def served : List ℕ → ℕ → ℕ
  | [], n => n
  | count :: counts, n => served counts (min count (n + 1))

/-- The `k` jobs keep the pace of the turns: whenever `count` of them are complete, there is a turn
to come for each of the others. -/
def Paced (k : ℕ) : List ℕ → Prop
  | [] => True
  | count :: counts => k ≤ count + counts.length ∧ Paced k counts

instance decidablePaced (k : ℕ) : DecidablePred (Paced k)
  | [] => isTrue trivial
  | count :: counts =>
    have := decidablePaced k counts
    inferInstanceAs (Decidable (k ≤ count + counts.length ∧ Paced k counts))

theorem le_served_iff {k n : ℕ} {counts : List ℕ} :
    k ≤ served counts n ↔ Paced k (n :: counts) := by
  induction counts generalizing n with
  | nil => exact (and_iff_left trivial).symm
  | cons count counts ih =>
    rw [served, ih, Paced, Paced, Paced, length_cons]
    constructor
    · rintro ⟨h, hall⟩
      exact ⟨by omega, by omega, hall⟩
    · rintro ⟨h, hct, hall⟩
      exact ⟨by omega, hall⟩

theorem served_map_succ (counts : List ℕ) (n : ℕ) :
    served (counts.map (· + 1)) (n + 1) = served counts n + 1 := by
  induction counts generalizing n with
  | nil => rfl
  | cons count counts ih => rw [map_cons, served, served, Nat.add_min_add_right, ih]

variable {r size x : ℕ} {sizes chunks sizes' : List ℕ}

theorem le_of_mem_totals {t : ℕ} (h : t ∈ totals r chunks) : r ≤ t := by
  induction chunks generalizing r with
  | nil => cases h
  | cons c cs ih =>
    obtain rfl | h := mem_cons.mp h
    · omega
    · exact (Nat.le_add_right r c).trans (ih h)

theorem totals_sub (h : size ≤ r) (chunks : List ℕ) :
    totals (r - size) chunks = (totals r chunks).map (· - size) := by
  induction chunks generalizing r with
  | nil => rfl
  | cons c cs ih =>
    rw [totals, totals, map_cons, ← ih (by omega), Nat.sub_add_comm h]

theorem handled_eq_served (sizes : List ℕ) (r : ℕ) (chunks : List ℕ) :
    handled sizes r chunks = served ((totals r chunks).map (completed sizes)) 0 := by
  induction chunks generalizing sizes r with
  | nil => rfl
  | cons c cs ih =>
    rw [totals, map_cons, served]
    cases sizes with
    | nil =>
      have hzero := ih [] (r + c)
      rw [completed, Nat.zero_min, ← hzero]
      cases cs <;> rfl
    | cons size sizes =>
      rw [handled, completed]
      split_ifs with h
      · have hshift : (totals (r + c) cs).map (completed (size :: sizes)) =
            ((totals (r + c - size) cs).map (completed sizes)).map (· + 1) := by
          rw [totals_sub h, map_map, map_map]
          refine map_congr_left fun t ht ↦ ?_
          exact if_pos (h.trans (le_of_mem_totals ht))
        rw [hshift, ih, Nat.min_eq_right (Nat.succ_le_succ (Nat.zero_le _)), served_map_succ]
      · rw [Nat.zero_min, ih]

theorem length_le_handled_iff : sizes.length ≤ handled sizes r chunks ↔
      Paced sizes.length (0 :: (totals r chunks).map (completed sizes)) := by
  rw [handled_eq_served, le_served_iff]

/-! ## Working on parts -/

/-- The first job becomes larger by `k`. -/
def grow (k : ℕ) : List ℕ → List ℕ
  | [] => [k]
  | size :: sizes => (k + size) :: sizes

/-- `Turn x x' sizes sizes'`: in one turn, with `x` units waiting, the first job is finished, or a
part of it is done and it is not complete; `x'` units and the jobs `sizes'` are left. -/
inductive Turn : ℕ → ℕ → List ℕ → List ℕ → Prop
  | idle (x : ℕ) : Turn x x [] []
  | whole (x size : ℕ) (sizes : List ℕ) : Turn (size + x) x (size :: sizes) sizes
  | part {x size : ℕ} (done : ℕ) (sizes : List ℕ) (h : x < size) :
    Turn (done + x) x ((done + size) :: sizes) (size :: sizes)

theorem Turn.grow {x' : ℕ} (k : ℕ) (h : Turn x x' sizes sizes') :
    Turn (k + x) x' (grow k sizes) sizes' := by
  cases h with
  | idle => exact .whole x k []
  | whole _ size =>
    rw [← Nat.add_assoc]
    exact .whole _ (k + size) _
  | part done _ h =>
    rw [Pacing.grow, ← Nat.add_assoc, ← Nat.add_assoc]
    exact .part (k + done) _ h

theorem handled_part (done x size : ℕ) (sizes chunks : List ℕ) :
    handled ((done + size) :: sizes) (done + x) chunks = handled (size :: sizes) x chunks := by
  induction chunks generalizing x with
  | nil => rfl
  | cons c cs ih =>
    rw [handled, handled, Nat.add_assoc, Nat.add_sub_add_left, ih]
    simp only [Nat.add_le_add_iff_left]

/-- The turn of a chunk does not change whether all jobs are finished in the end. -/
theorem Turn.handled {c x' : ℕ} (h : Turn (r + c) x' sizes sizes') (chunks : List ℕ) :
    sizes.length ≤ handled sizes r (c :: chunks) ↔ sizes'.length ≤ handled sizes' x' chunks := by
  generalize hx : r + c = x at h
  cases h with
  | idle => simp
  | whole x' size sizes =>
    rw [Pacing.handled, hx, if_pos (Nat.le_add_right _ _), Nat.add_sub_cancel_left,
      length_cons, Nat.add_le_add_iff_right]
  | part done sizes h =>
    rw [Pacing.handled, hx, if_neg (by omega), handled_part]
    rfl

end Pacing
