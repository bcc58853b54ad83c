import Mathlib.Data.String.Basic
import Synapse.Lib.Wildcard

/-!
# The byte-scanning topic matcher

`topic_matches` walks a filter and a topic byte by byte: it cuts one level off each, compares them,
and goes on with what is left. The wildcard `#` in front of more levels tries every position after
a separator. The matcher is translated with its indices and slices; `topicMatchesSep_eq` says what
it decides: the pattern of the filter's levels accepts the levels of the topic. A separator at the
end of either string opens no level, because the scan stops on an empty remainder.
-/

namespace Synapse

open Wildcard List

/-! ## Strings as bytes -/

def asBytes (s : String) : List UInt8 := s.toList.flatMap String.utf8EncodeChar

/-- The string with these UTF-8 bytes, if they are valid. -/
def fromUtf8 (bs : List UInt8) : Option String := String.fromUTF8? bs.toByteArray

@[simp] theorem fromUtf8_asBytes (s : String) : fromUtf8 (asBytes s) = some s := by
  have hbs : (asBytes s).toByteArray = s.toByteArray := String.utf8Encode_toList
  rw [fromUtf8, hbs, String.fromUTF8?, dif_pos s.isValidUTF8]
  rfl

theorem asBytes_of_fromUtf8 {bs : List UInt8} {s : String} (h : fromUtf8 bs = some s) :
    asBytes s = bs := by
  rw [fromUtf8, String.fromUTF8?] at h
  split at h
  · cases h
    have hbs : (asBytes (String.fromUTF8 bs.toByteArray ‹_›)).toByteArray = bs.toByteArray :=
      String.utf8Encode_toList
    simpa using congrArg (fun b ↦ b.data.toList) hbs
  · cases h

theorem asBytes_injective : Function.Injective asBytes := by
  intro s t h
  have hsome := congrArg fromUtf8 h
  rwa [fromUtf8_asBytes, fromUtf8_asBytes, Option.some_inj] at hsome

theorem val_ofUInt8 (b : UInt8) : (Char.ofUInt8 b).val.toNat = b.toNat := UInt8.toNat_toUInt32 b

theorem utf8EncodeChar_ofUInt8 {b : UInt8} (hb : b.toNat ≤ 127) :
    String.utf8EncodeChar (Char.ofUInt8 b) = [b] := by
  rw [String.utf8EncodeChar]
  simp only [val_ofUInt8, if_pos hb, UInt8.ofNat_toNat]

/-- An ASCII byte occurs in the encoding of its own character only. -/
theorem not_mem_utf8EncodeChar {b : UInt8} (hb : b.toNat ≤ 127) {c : Char}
    (hc : c ≠ Char.ofUInt8 b) : b ∉ String.utf8EncodeChar c := by
  have hself : c.val.toNat ≤ 127 → b ≠ UInt8.ofNat c.val.toNat := by
    rintro hn rfl
    refine hc (Char.ext (UInt32.toNat_inj.mp ?_))
    rw [val_ofUInt8, UInt8.toNat_ofNat', Nat.mod_eq_of_lt (by omega)]
  -- every byte of a longer encoding is at least 128
  have hlrg : ∀ n : ℕ, 128 ≤ n % 256 → b ≠ UInt8.ofNat n := by
    rintro n hn rfl
    rw [UInt8.toNat_ofNat'] at hb
    omega
  rw [String.utf8EncodeChar]
  split_ifs with h1 h2 h3 <;> simp only [mem_cons, not_mem_nil, or_false, not_or]
  · exact hself h1
  · exact ⟨hlrg _ (by omega), hlrg _ (by omega)⟩
  · exact ⟨hlrg _ (by omega), hlrg _ (by omega), hlrg _ (by omega)⟩
  · exact ⟨hlrg _ (by omega), hlrg _ (by omega), hlrg _ (by omega), hlrg _ (by omega)⟩

theorem splitOn_asBytes {sep : UInt8} (hsep : sep.toNat ≤ 127) (s : String) :
    (asBytes s).splitOn sep =
      (s.toList.splitOn (Char.ofUInt8 sep)).map (asBytes ∘ String.ofList) := by
  rw [asBytes, splitOn_flatMap String.utf8EncodeChar (utf8EncodeChar_ofUInt8 hsep)
    fun c hc ↦ not_mem_utf8EncodeChar hsep hc]
  exact map_congr_left fun l _ ↦ by simp [asBytes]

/-! ## Scanning -/

/-- The first position from `p` on that holds the separator, or the length. -/
def scan (s : List UInt8) (sep : UInt8) (p : ℕ) : ℕ :=
  if h : p < s.length then
    if s[p] = sep then p else scan s sep (p + 1)
  else p
termination_by s.length - p

/-- The level that begins at `i`, and where the next one begins. -/
def nextLevel (s : List UInt8) (i : ℕ) (sep : UInt8) : List UInt8 × ℕ :=
  let p := scan s sep i
  if p < s.length then ((s.drop i).take (p - i), p + 1) else (s.drop i, s.length)

/-- The position after the next separator, if there is one. -/
def consumeLevel (t : List UInt8) (i : ℕ) (sep : UInt8) : Option ℕ :=
  match (t.drop i).findIdx? (· == sep) with
  | some p => some (i + p + 1)
  | none => none

section Scan

variable {sep : UInt8} {tok s : List UInt8}

theorem scan_skip (hsep : sep ∉ tok) (pre rest : List UInt8) :
    scan (pre ++ (tok ++ rest)) sep pre.length =
      scan (pre ++ (tok ++ rest)) sep (pre.length + tok.length) := by
  induction tok generalizing pre with
  | nil => rfl
  | cons a tok ih =>
    rw [mem_cons, not_or] at hsep
    have hstep : scan (pre ++ (a :: tok ++ rest)) sep pre.length =
        scan (pre ++ (a :: tok ++ rest)) sep (pre.length + 1) := by
      rw [scan, dif_pos (by simp), if_neg (by simpa using Ne.symm hsep.1)]
    have hrest := ih hsep.2 (pre ++ [a])
    rw [length_append, length_singleton, append_assoc] at hrest
    rwa [hstep, length_cons, add_comm tok.length, ← add_assoc]

theorem le_scan (s : List UInt8) (sep : UInt8) (p : ℕ) : p ≤ scan s sep p := by
  fun_induction scan s sep p with
  | case1 => exact le_rfl
  | case2 p _ _ ih => exact Nat.le_of_succ_le ih
  | case3 => exact le_rfl

section

variable (hsep : sep ∉ tok)

include hsep

theorem scan_sep (pre rest : List UInt8) :
    scan (pre ++ (tok ++ sep :: rest)) sep pre.length = pre.length + tok.length := by
  rw [scan_skip hsep, scan, dif_pos (by simp), if_pos]
  simp [← append_assoc, ← length_append]

theorem scan_last (pre : List UInt8) :
    scan (pre ++ tok) sep pre.length = pre.length + tok.length := by
  have hskip := scan_skip hsep pre []
  rw [append_nil] at hskip
  rw [hskip, scan, dif_neg (by simp)]

theorem nextLevel_sep (rest : List UInt8) :
    nextLevel (tok ++ sep :: rest) 0 sep = (tok, tok.length + 1) := by
  have hscan : scan (tok ++ sep :: rest) sep 0 = tok.length := by simpa using scan_sep hsep [] rest
  simp [nextLevel, hscan]

theorem nextLevel_last : nextLevel tok 0 sep = (tok, tok.length) := by
  have hscan : scan tok sep 0 = tok.length := by simpa using scan_last hsep []
  simp [nextLevel, hscan]

private theorem findIdx?_of_not_mem : tok.findIdx? (· == sep) = none := by
  refine List.findIdx?_eq_none_iff.mpr fun a ha ↦ ?_
  simpa using fun h : a = sep ↦ hsep (h ▸ ha)

theorem consumeLevel_sep (pre rest : List UInt8) :
    consumeLevel (pre ++ (tok ++ sep :: rest)) pre.length sep =
      some (pre.length + tok.length + 1) := by
  have hfind : (tok ++ sep :: rest).findIdx? (· == sep) = some tok.length := by
    rw [List.findIdx?_append, findIdx?_of_not_mem hsep]
    simp [List.findIdx?_cons]
  rw [consumeLevel, drop_left, hfind]

end

theorem levels_eq_nextLevel (sep : UInt8) (hne : s ≠ []) :
    levels sep s = (nextLevel s 0 sep).1 :: levels sep (s.drop (nextLevel s 0 sep).2) := by
  induction s using splitInduction sep with
  | last tok hsep => simp [nextLevel_last hsep, levels_of_not_mem hsep hne]
  | more tok rest hsep =>
    have hdrop : (tok ++ sep :: rest).drop (tok.length + 1) = rest := by
      rw [← drop_drop, drop_left, drop_one, tail_cons]
    rw [nextLevel_sep hsep, levels_append hsep, hdrop]

theorem nextLevel_pos (sep : UInt8) (hne : s ≠ []) : 0 < (nextLevel s 0 sep).2 := by
  rw [nextLevel]
  split_ifs
  · exact Nat.succ_pos _
  · exact length_pos_iff.mpr hne

theorem consumeLevel_bounds {t : List UInt8} {i next : ℕ}
    (h : consumeLevel t i sep = some next) : i < next ∧ next ≤ t.length := by
  rw [consumeLevel] at h
  split at h
  next p hp =>
    obtain ⟨hlt, -⟩ := List.findIdx?_eq_some_iff_findIdx_eq.mp hp
    rw [length_drop] at hlt
    cases h
    omega
  next => exact absurd h (by simp)

end Scan

/-! ## The matcher -/

/-- The loop of `#`: the rest of the filter is tried at `j` and after every later separator. -/
def hashLoop (rest : List UInt8 → Bool) (t : List UInt8) (sep : UInt8) (j : ℕ) : Bool :=
  if rest (t.drop j) then true
  else
    match _h : consumeLevel t j sep with
    | some next => hashLoop rest t sep next
    | none => false
termination_by t.length - j
decreasing_by
  have hnext := consumeLevel_bounds ‹_›
  omega

/-- The matcher on what remains of the filter and of the topic. -/
def matchLevelsAt (f t : List UInt8) (sep : UInt8) : Bool :=
  if f = [] then t.isEmpty
  else
    let ftok := (nextLevel f 0 sep).1
    let fnext := (nextLevel f 0 sep).2
    if ftok = asBytes "#" then
      if f.length ≤ fnext then true
      else hashLoop (fun t ↦ matchLevelsAt (f.drop fnext) t sep) t sep 0
    else if t.isEmpty then false
    else
      let ttok := (nextLevel t 0 sep).1
      let tnext := (nextLevel t 0 sep).2
      if ftok = asBytes "+" then matchLevelsAt (f.drop fnext) (t.drop tnext) sep
      else if ftok = ttok then matchLevelsAt (f.drop fnext) (t.drop tnext) sep
      else false
termination_by f.length
decreasing_by
  all_goals
    have hpos := nextLevel_pos sep ‹¬f = []›
    have hlen := List.length_pos_iff.mpr ‹¬f = []›
    simp only [List.length_drop]
    omega

/-- The matcher on the whole filter and topic: the same steps as `matchLevelsAt`. -/
def matchLevels (f t : List UInt8) (sep : UInt8) : Bool :=
  if f = [] then t.isEmpty
  else
    let ftok := (nextLevel f 0 sep).1
    let fnext := (nextLevel f 0 sep).2
    if ftok = asBytes "#" then
      if f.length ≤ fnext then true
      else hashLoop (fun t ↦ matchLevelsAt (f.drop fnext) t sep) t sep 0
    else if t.isEmpty then false
    else
      let ttok := (nextLevel t 0 sep).1
      let tnext := (nextLevel t 0 sep).2
      if ftok = asBytes "+" then matchLevelsAt (f.drop fnext) (t.drop tnext) sep
      else if ftok = ttok then matchLevelsAt (f.drop fnext) (t.drop tnext) sep
      else false

def topicMatchesSep (filter topic : String) (sep : UInt8) : Bool :=
  matchLevels (asBytes filter) (asBytes topic) sep

def slash : UInt8 := 0x2F

def topicMatches (filter topic : String) : Bool := topicMatchesSep filter topic slash

/-! ## What the matcher decides -/

abbrev TopicSegment := Wildcard.Segment (List UInt8)

/-- A level of a filter as a segment of a pattern. -/
def segment (level : List UInt8) : TopicSegment :=
  if level = asBytes "#" then .many
  else if level = asBytes "+" then .one
  else .exact level

/-- The pattern a filter stands for. -/
def filterPattern (sep : UInt8) (f : List UInt8) : List TopicSegment :=
  (levels sep f).map segment

theorem hashLoop_eq (rest : List UInt8 → Bool) (sep : UInt8) (s pre : List UInt8) :
    hashLoop rest (pre ++ s) sep pre.length = (s :: afterSeps sep s).any rest := by
  induction s using splitInduction sep generalizing pre with
  | last tok hsep =>
    have haft : afterSeps sep tok = [] := by simpa [afterSeps] using afterSeps_of_not_mem hsep []
    rw [hashLoop, drop_left, consumeLevel, drop_left, findIdx?_of_not_mem hsep, haft]
    simp
  | more tok more hsep ih =>
    have hlen : pre.length + tok.length + 1 = (pre ++ (tok ++ [sep])).length := by simp [add_assoc]
    have hstr : pre ++ (tok ++ sep :: more) = pre ++ (tok ++ [sep]) ++ more := by simp
    rw [hashLoop, drop_left, consumeLevel_sep hsep, afterSeps_of_not_mem hsep, afterSeps,
      if_pos rfl, any_cons, ← ih (pre ++ (tok ++ [sep])), ← hlen, ← hstr]
    cases rest (tok ++ sep :: more) <;> rfl

/-- The byte-scanning matcher decides whether the filter's pattern accepts the topic's levels. -/
theorem matchLevelsAt_eq (f t : List UInt8) (sep : UInt8) :
    matchLevelsAt f t sep = accepts (filterPattern sep f) (levels sep t) := by
  induction hn : f.length using Nat.strong_induction_on generalizing f t with
  | _ n ih =>
    rw [matchLevelsAt]
    by_cases hf : f = []
    · subst hf
      rw [if_pos rfl, filterPattern, levels_nil, map_nil, accepts, Bool.eq_iff_iff,
        List.isEmpty_iff, List.isEmpty_iff, levels_eq_nil_iff]
    have hpos := nextLevel_pos sep hf
    have hlen := length_pos_iff.mpr hf
    have hrec : ∀ t, matchLevelsAt (f.drop (nextLevel f 0 sep).2) t sep =
        accepts (filterPattern sep (f.drop (nextLevel f 0 sep).2)) (levels sep t) := by
      intro t
      refine ih _ ?_ _ t rfl
      rw [length_drop]
      omega
    have hpattern : filterPattern sep f = segment (nextLevel f 0 sep).1 ::
        filterPattern sep (f.drop (nextLevel f 0 sep).2) := by
      rw [filterPattern, levels_eq_nextLevel sep hf, map_cons, ← filterPattern]
    have hend : filterPattern sep (f.drop (nextLevel f 0 sep).2) = [] ↔
        f.length ≤ (nextLevel f 0 sep).2 := by
      rw [filterPattern, map_eq_nil_iff, levels_eq_nil_iff, drop_eq_nil_iff]
    rw [if_neg hf, hpattern]
    simp only [hrec]
    generalize filterPattern sep (f.drop (nextLevel f 0 sep).2) = ps at hend
    rw [segment]
    by_cases hhash : (nextLevel f 0 sep).1 = asBytes "#"
    · rw [if_pos hhash, if_pos hhash]
      by_cases hlast : f.length ≤ (nextLevel f 0 sep).2
      · rw [if_pos hlast, hend.mpr hlast]
        exact (accepts_many_iff.mpr ⟨[], nil_suffix, rfl⟩).symm
      · rw [if_neg hlast, accepts,
          ← any_remainders (accepts ps) (accepts_of_accepts_nil (mt hend.mp hlast)) t]
        exact hashLoop_eq _ sep t []
    · rw [if_neg hhash, if_neg hhash]
      by_cases ht : t = []
      · subst ht
        rw [if_pos isEmpty_nil, levels_nil]
        split_ifs <;> rfl
      rw [if_neg (by simpa using ht), levels_eq_nextLevel sep ht]
      by_cases hplus : (nextLevel f 0 sep).1 = asBytes "+"
      · rw [if_pos hplus, if_pos hplus, accepts]
      · rw [if_neg hplus, if_neg hplus, accepts]
        by_cases heq : (nextLevel f 0 sep).1 = (nextLevel t 0 sep).1
        · rw [if_pos heq, decide_eq_true heq.symm, Bool.true_and]
        · rw [if_neg heq, decide_eq_false (Ne.symm heq), Bool.false_and]

theorem topicMatchesSep_eq (filter topic : String) (sep : UInt8) :
    topicMatchesSep filter topic sep =
      accepts (filterPattern sep (asBytes filter)) (levels sep (asBytes topic)) := by
  rw [topicMatchesSep, matchLevels, ← matchLevelsAt, matchLevelsAt_eq]

end Synapse
