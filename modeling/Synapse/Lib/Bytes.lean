import Mathlib.Algebra.Group.Nat.Defs
import Mathlib.Data.List.Basic
import Mathlib.Tactic.SplitIfs

/-!
# Fixed-width integers and length-prefixed frames

Numbers are written in a fixed number of bytes, least significant first (`leBytes`) or most
significant first (`beBytes`); what does not fit is cut off, as a cast to a machine integer does.
A *frame* is a payload preceded by its length in four bytes. A sequence of frames is read back by
`unframe`, which stops where the remaining bytes hold no complete frame; on what `frames` writes it
recovers every payload whose length fits (`unframe_frames`).
-/

namespace ByteCode

open List

/-- The low `width` bytes of `n`, least significant first. -/
def leBytes : ℕ → ℕ → List UInt8
  | 0, _ => []
  | width + 1, n => UInt8.ofNat n :: leBytes width (n / 256)

/-- The number written in these bytes, least significant first. -/
def leNat : List UInt8 → ℕ
  | [] => 0
  | b :: bs => b.toNat + 256 * leNat bs

@[simp] theorem length_leBytes (width n : ℕ) : (leBytes width n).length = width := by
  induction width generalizing n with
  | zero => rfl
  | succ width ih => rw [leBytes, length_cons, ih]

theorem leNat_leBytes (width n : ℕ) : leNat (leBytes width n) = n % 256 ^ width := by
  induction width generalizing n with
  | zero => rw [leBytes, leNat, Nat.pow_zero, Nat.mod_one]
  | succ width ih =>
    rw [leBytes, leNat, ih, Nat.pow_succ', Nat.mod_mul]
    simp

/-- The low `width` bytes of `n`, most significant first. -/
def beBytes (width n : ℕ) : List UInt8 := (leBytes width n).reverse

@[simp] theorem length_beBytes (width n : ℕ) : (beBytes width n).length = width := by
  rw [beBytes, length_reverse, length_leBytes]

/-- The number written in these bytes, most significant first. -/
def beNat (bs : List UInt8) : ℕ := leNat bs.reverse

theorem beNat_beBytes (width n : ℕ) : beNat (beBytes width n) = n % 256 ^ width := by
  rw [beNat, beBytes, reverse_reverse, leNat_leBytes]

theorem beNat_beBytes_of_lt {width n : ℕ} (h : n < 256 ^ width) : beNat (beBytes width n) = n := by
  rw [beNat_beBytes, Nat.mod_eq_of_lt h]

theorem beNat_beBytes_toNat (x : UInt32) : beNat (beBytes 4 x.toNat) = x.toNat :=
  beNat_beBytes_of_lt (Nat.lt_of_lt_of_eq x.toNat_lt (by decide))

/-! ## Frames -/

def frame (payload : List UInt8) : List UInt8 := leBytes 4 payload.length ++ payload

def frames (payloads : List (List UInt8)) : List UInt8 := payloads.flatMap frame

/-- Read frames for as long as a complete one is there, at most `fuel` of them. -/
def unframeLoop : ℕ → List UInt8 → List (List UInt8)
  | 0, _ => []
  | fuel + 1, buf =>
    if buf.length < 4 then []
    else
      let len := leNat (buf.take 4)
      let rest := buf.drop 4
      if rest.length < len then []
      else rest.take len :: unframeLoop fuel (rest.drop len)

/-- Read frames for as long as a complete one is there. A frame takes at least one byte, so the
number of bytes bounds the number of frames. -/
def unframe (buf : List UInt8) : List (List UInt8) := unframeLoop buf.length buf

theorem unframeLoop_frames (payloads : List (List UInt8)) (fuel : ℕ)
    (hfuel : payloads.length ≤ fuel) (hlen : ∀ p ∈ payloads, p.length < 256 ^ 4) :
    unframeLoop fuel (frames payloads) = payloads := by
  induction payloads generalizing fuel with
  | nil => cases fuel <;> simp [unframeLoop, frames]
  | cons p ps ih =>
    cases fuel with
    | zero => simp at hfuel
    | succ fuel =>
      have hp : p.length < 256 ^ 4 := hlen p mem_cons_self
      have hrest : frames (p :: ps) = leBytes 4 p.length ++ (p ++ frames ps) := by
        simp [frames, frame]
      have htake : (leBytes 4 p.length ++ (p ++ frames ps)).take 4 = leBytes 4 p.length :=
        take_left' (length_leBytes ..)
      have hdrop : (leBytes 4 p.length ++ (p ++ frames ps)).drop 4 = p ++ frames ps :=
        drop_left' (length_leBytes ..)
      rw [hrest, unframeLoop, htake, hdrop, leNat_leBytes, Nat.mod_eq_of_lt hp, if_neg (by simp),
        if_neg (by simp), take_left, drop_left]
      rw [ih fuel (by simpa using hfuel) fun q hq ↦ hlen q (mem_cons_of_mem p hq)]

/-- **Round trip.** Frames are read back, as long as every length fits its four bytes. -/
theorem unframe_frames (payloads : List (List UInt8)) (hlen : ∀ p ∈ payloads, p.length < 256 ^ 4) :
    unframe (frames payloads) = payloads := by
  refine unframeLoop_frames payloads _ ?_ hlen
  induction payloads with
  | nil => simp
  | cons p ps ih =>
    have hcons : (frames (p :: ps)).length = 4 + (p.length + (frames ps).length) := by
      simp [frames, frame]
    have := ih fun q hq ↦ hlen q (mem_cons_of_mem p hq)
    rw [hcons, length_cons]
    omega

end ByteCode
