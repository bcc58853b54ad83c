import Synapse.Routing.Topic

/-!
# The router's matcher

`TopicRouter::route` does not scan filters. A filter is split once, at subscribe time, into
segments (`compile`); a published topic is split once per call into a table of at most sixteen
level starts (`splitLevels`). `matchesLevels` compares the two, and falls back to the byte-scanning
matcher for a topic with more levels than the table holds.

The two splits treat a separator at the end of the string differently from the byte scan. `compile`
keeps the empty level after it, and the table ends its last level at the end of the topic, so that
this level keeps the separator. `matchesLevels_eq_topicMatches_iff` says for which filters and
topics the router decides what `topicMatches` decides.
-/

namespace Synapse

open Wildcard List

/-! ## Compiled filters -/

/-- A compiled filter; the flag says whether one of its segments is `#`. -/
structure CompiledFilter where
  segs : List TopicSegment
  hasMulti : Bool
  hasMulti_eq : hasMulti = segs.any (· = .many)

def segmentOf (lvl : String) : TopicSegment :=
  match lvl with
  | "+" => .one
  | "#" => .many
  | other => .exact (asBytes other)

def compile (filter : String) (sep : UInt8) : CompiledFilter :=
  let segs := (filter.toList.splitOn (Char.ofUInt8 sep)).map (segmentOf ∘ String.ofList)
  { segs := segs, hasMulti := segs.any (· = .many), hasMulti_eq := rfl }

theorem segmentOf_eq (lvl : String) : segmentOf lvl = segment (asBytes lvl) := by
  simp only [segment, asBytes_injective.eq_iff]
  unfold segmentOf
  split
  · rfl
  · rfl
  next hplus hhash => rw [if_neg hhash, if_neg hplus]

theorem segs_compile {sep : UInt8} (hsep : sep.toNat ≤ 127) (filter : String) :
    (compile filter sep).segs = ((asBytes filter).splitOn sep).map segment := by
  rw [splitOn_asBytes hsep, map_map]
  exact map_congr_left fun l _ ↦ segmentOf_eq (String.ofList l)

/-- The text of a segment, as the fallback joins it. A segment made by `compile` holds the bytes of
a string, so the replacement for other bytes is never used. -/
def segmentText : TopicSegment → String
  | .exact e => (fromUtf8 e).getD "�"
  | .one => "+"
  | .many => "#"

theorem segmentText_segmentOf (lvl : String) : segmentText (segmentOf lvl) = lvl := by
  unfold segmentOf
  split
  · rfl
  · rfl
  · rw [segmentText, fromUtf8_asBytes, Option.getD_some]

/-! ## The table of levels -/

/-- A topic with the starts of its levels, sixteen at most. -/
structure Levels where
  topic : List UInt8
  starts : List ℕ
  overflow : Bool
  starts_length : starts.length ≤ 16

namespace Levels

def n (lv : Levels) : ℕ := lv.starts.length

/-- Level `k`: up to the separator before the next start, or up to the end of the topic. -/
def get (lv : Levels) (k : ℕ) : List UInt8 :=
  let stop := if k + 1 < lv.n then lv.starts.getD (k + 1) 0 - 1 else lv.topic.length
  (lv.topic.take stop).drop (lv.starts.getD k 0)

def sub (lv : Levels) (k : ℕ) : Levels where
  topic := lv.topic
  starts := lv.starts.drop k
  overflow := false
  starts_length := by
    rw [List.length_drop]
    exact (Nat.sub_le _ _).trans lv.starts_length

def toList (lv : Levels) : List (List UInt8) := (List.range lv.n).map lv.get

@[simp] theorem length_toList (lv : Levels) : lv.toList.length = lv.n := by simp [toList]

theorem n_sub (lv : Levels) (k : ℕ) : (lv.sub k).n = lv.n - k := length_drop

theorem get_sub (lv : Levels) (k j : ℕ) : (lv.sub k).get j = lv.get (k + j) := by
  have hcond : (j + 1 < (lv.sub k).n) = (k + j + 1 < lv.n) := by
    rw [n_sub, eq_iff_iff]
    omega
  simp only [get, hcond]
  simp only [sub, getD_eq_getElem?_getD, List.getElem?_drop, add_assoc]

theorem toList_sub (lv : Levels) (k : ℕ) : (lv.sub k).toList = lv.toList.drop k := by
  refine ext_getElem (by simp [n_sub]) fun j h₁ h₂ ↦ ?_
  simp [toList, get_sub]

variable {lv : Levels} {os : List ℕ}

theorem toList_eq_nil (h : lv.n = 0) : lv.toList = [] := by rw [toList, h, range_zero, map_nil]

theorem drop_toList {k : ℕ} (h : k < lv.n) :
    lv.toList.drop k = lv.get k :: lv.toList.drop (k + 1) := by
  rw [drop_eq_getElem_cons (by simpa using h)]
  simp [toList]

theorem toList_eq_cons (h : lv.n ≠ 0) : lv.toList = lv.get 0 :: (lv.sub 1).toList := by
  rw [toList_sub]
  exact drop_toList (Nat.pos_of_ne_zero h)

/-- The table before the first level is entered. -/
def blank (topic : List UInt8) : Levels where
  topic := topic
  starts := []
  overflow := false
  starts_length := Nat.zero_le 16

/-- Enter a level that begins at `i`. -/
def push (lv : Levels) (i : ℕ) : Levels :=
  if h : lv.n < 16 then
    { lv with
      starts := lv.starts ++ [i]
      starts_length := by
        rw [List.length_append, List.length_singleton]
        exact h }
  else { lv with overflow := true }

@[simp] theorem topic_push (lv : Levels) (i : ℕ) : (lv.push i).topic = lv.topic := by
  rw [push]
  split_ifs <;> rfl

theorem topic_foldl_push (lv : Levels) (os : List ℕ) : (os.foldl push lv).topic = lv.topic := by
  induction os generalizing lv with
  | nil => rfl
  | cons o os ih => rw [foldl_cons, ih, topic_push]

theorem foldl_push_of_le (h : lv.n + os.length ≤ 16) :
    (os.foldl push lv).starts = lv.starts ++ os ∧ (os.foldl push lv).overflow = lv.overflow := by
  induction os generalizing lv with
  | nil => simp
  | cons o os ih =>
    rw [length_cons] at h
    have hn : lv.n < 16 := by omega
    have hpush : (lv.push o).starts = lv.starts ++ [o] ∧ (lv.push o).overflow = lv.overflow := by
      rw [push, dif_pos hn]
      exact ⟨rfl, rfl⟩
    have hlen : (lv.push o).n + os.length ≤ 16 := by
      rw [n, hpush.1, length_append, length_singleton, ← n]
      omega
    rw [foldl_cons, (ih hlen).1, (ih hlen).2, hpush.1, hpush.2, append_assoc]
    exact ⟨rfl, rfl⟩

theorem overflow_foldl_push (h : lv.overflow = true ∨ 16 < lv.n + os.length) :
    (os.foldl push lv).overflow = true := by
  induction os generalizing lv with
  | nil =>
    refine h.resolve_right fun hlt ↦ ?_
    exact absurd lv.starts_length (Nat.not_le_of_lt hlt)
  | cons o os ih =>
    refine ih ?_
    rw [push]
    split_ifs with hn
    · refine h.imp_right fun hlt ↦ ?_
      simp only [n, length_append, length_cons, length_nil] at hlt ⊢
      omega
    · exact Or.inl rfl

end Levels

/-- The loop of `split_levels` from position `i` on. -/
def splitLoop (sep : UInt8) (lv : Levels) (i : ℕ) : Levels :=
  if i < lv.topic.length then
    let p := scan lv.topic sep i
    splitLoop sep (lv.push i) (if p < lv.topic.length then p + 1 else lv.topic.length)
  else lv
termination_by lv.topic.length - i
decreasing_by
  have hscan := le_scan lv.topic sep i
  rw [Levels.topic_push]
  split_ifs <;> omega

def splitLevels (topic : List UInt8) (sep : UInt8) : Levels := splitLoop sep (.blank topic) 0

theorem splitLoop_eq (sep : UInt8) (s pre : List UInt8) (lv : Levels) (htop : lv.topic = pre ++ s) :
    splitLoop sep lv pre.length = (offsets pre.length (levels sep s)).foldl Levels.push lv := by
  induction s using splitInduction sep generalizing pre lv with
  | last tok hsep =>
    by_cases hne : tok = []
    · rw [splitLoop, if_neg (by simp [htop, hne]), hne, levels_nil]
      rfl
    have hlen := length_pos_iff.mpr hne
    rw [splitLoop, if_pos (by simpa [htop] using hlen)]
    simp only [htop, scan_last hsep, length_append, lt_irrefl, if_false]
    rw [levels_of_not_mem hsep hne, splitLoop, if_neg (by simp [htop])]
    rfl
  | more tok rest hsep ih =>
    have hnext : pre.length + tok.length + 1 = (pre ++ (tok ++ [sep])).length := by simp [add_assoc]
    rw [splitLoop, if_pos (by simp [htop])]
    simp only [htop, scan_sep hsep]
    rw [if_pos (by simp), levels_append hsep, offsets, foldl_cons, hnext]
    exact ih _ _ (by simp [htop])

variable {lv : Levels} {filter : String}

/-- The table of a topic holds its levels, the last one with a separator that ends the topic. -/
theorem toList_of_offsets {sep : UInt8} (s pre : List UInt8) (htop : lv.topic = pre ++ s)
    (hsts : lv.starts = offsets pre.length (levels sep s)) : lv.toList = marked sep s := by
  induction s using splitInduction sep generalizing pre lv with
  | last tok hsep =>
    by_cases hne : tok = []
    · simp [hne, Levels.toList, Levels.n, hsts, offsets]
    · rw [levels_of_not_mem hsep hne] at hsts
      rw [marked_of_not_mem hsep hne]
      simp [Levels.toList, Levels.n, Levels.get, hsts, htop, offsets, take_append]
  | more tok rest hsep ih =>
    rw [levels_append hsep, offsets] at hsts
    by_cases hne : rest = []
    · subst hne
      rw [marked_append_singleton hsep]
      simp [Levels.toList, Levels.n, Levels.get, hsts, htop, offsets, take_append]
    have hsub : (lv.sub 1).toList = marked sep rest := by
      refine ih (pre ++ (tok ++ [sep])) (by simp [Levels.sub, htop]) ?_
      simp [Levels.sub, hsts, add_assoc]
    have hget : lv.get 0 = tok := by
      obtain ⟨l, ls, hls⟩ := exists_cons_of_ne_nil (levels_ne_nil sep hne)
      rw [hls, offsets] at hsts
      simp [Levels.get, Levels.n, hsts, htop, take_append]
    have hn : lv.n ≠ 0 := by simp [Levels.n, hsts]
    rw [Levels.toList_eq_cons hn, hsub, hget, marked_append hsep hne]

section SplitLevels

variable {topic : List UInt8} {sep : UInt8}

private theorem splitLevels_eq_foldl (topic : List UInt8) (sep : UInt8) :
    splitLevels topic sep = (offsets 0 (levels sep topic)).foldl Levels.push (.blank topic) :=
  splitLoop_eq sep topic [] _ rfl

theorem topic_splitLevels (topic : List UInt8) (sep : UInt8) :
    (splitLevels topic sep).topic = topic := by
  rw [splitLevels_eq_foldl, Levels.topic_foldl_push, Levels.blank]

theorem overflow_splitLevels (topic : List UInt8) (sep : UInt8) :
    (splitLevels topic sep).overflow = true ↔ 16 < (levels sep topic).length := by
  rw [splitLevels_eq_foldl]
  constructor
  · intro h
    by_contra hle
    rw [(Levels.foldl_push_of_le (by simpa [Levels.n, Levels.blank] using hle)).2] at h
    exact Bool.false_ne_true h
  · intro h
    exact Levels.overflow_foldl_push (Or.inr (by simpa [Levels.n, Levels.blank] using h))

theorem toList_splitLevels (h : (levels sep topic).length ≤ 16) :
    (splitLevels topic sep).toList = marked sep topic := by
  refine toList_of_offsets topic [] (topic_splitLevels topic sep) ?_
  rw [splitLevels_eq_foldl, (Levels.foldl_push_of_le (by simpa [Levels.n, Levels.blank] using h)).1]
  rfl

end SplitLevels

/-! ## The matchers over the table -/

/-- The matcher for filters with `#`. -/
def matchSegsLevels : List TopicSegment → Levels → Bool
  | [], lv => lv.n == 0
  | .many :: rest, lv =>
    if rest.isEmpty then true
    else if matchSegsLevels rest lv then true
    else (List.range' 1 lv.n).any fun k ↦ matchSegsLevels rest (lv.sub k)
  | .one :: rest, lv => if lv.n == 0 then false else matchSegsLevels rest (lv.sub 1)
  | .exact e :: rest, lv =>
    if lv.n == 0 then false
    else if lv.get 0 = e then matchSegsLevels rest (lv.sub 1)
    else false

/-- The loop of the forward matcher over the segments that are left, at level `k`. -/
def forwardLoop (segs : List TopicSegment) (lv : Levels) :
    List TopicSegment → ℕ → Bool
  | [], k => k == lv.n
  | .many :: _, _ => matchSegsLevels segs lv
  | .one :: rest, k => if lv.n ≤ k then false else forwardLoop segs lv rest (k + 1)
  | .exact e :: rest, k =>
    if lv.n ≤ k then false
    else if lv.get k ≠ e then false
    else forwardLoop segs lv rest (k + 1)

/-- The matcher for filters without `#`. -/
def matchForwardLevels (segs : List TopicSegment) (lv : Levels) : Bool :=
  forwardLoop segs lv segs 0

theorem matchSegsLevels_eq (segs : List TopicSegment) (lv : Levels) :
    matchSegsLevels segs lv = accepts segs lv.toList := by
  induction segs generalizing lv with
  | nil =>
    rw [matchSegsLevels, accepts, Bool.eq_iff_iff, beq_iff_eq, isEmpty_iff_length_eq_zero,
      Levels.length_toList]
  | cons p rest ih =>
    cases p with
    | many =>
      by_cases hrest : rest = []
      · subst hrest
        rw [matchSegsLevels, if_pos isEmpty_nil]
        exact (accepts_many_iff.mpr ⟨[], nil_suffix, rfl⟩).symm
      · rw [matchSegsLevels, if_neg (by simpa using hrest), accepts_many_eq_range, ih,
          Levels.length_toList]
        simp only [ih, Levels.toList_sub]
        cases accepts rest lv.toList <;> rfl
    | one =>
      by_cases h : lv.n = 0
      · simp [matchSegsLevels, h, Levels.toList_eq_nil h, accepts]
      · simp [matchSegsLevels, h, Levels.toList_eq_cons h, accepts, ih]
    | exact e =>
      by_cases h : lv.n = 0
      · simp [matchSegsLevels, h, Levels.toList_eq_nil h, accepts]
      · simp [matchSegsLevels, h, Levels.toList_eq_cons h, accepts, ih]

theorem forwardLoop_eq (segs : List TopicSegment) (lv : Levels)
    {rest : List TopicSegment} (hmany : Wildcard.Segment.many ∉ rest) {k : ℕ} (hk : k ≤ lv.n) :
    forwardLoop segs lv rest k = accepts rest (lv.toList.drop k) := by
  induction rest generalizing k with
  | nil =>
    rw [forwardLoop, accepts, Bool.eq_iff_iff, beq_iff_eq, List.isEmpty_iff, drop_eq_nil_iff,
      Levels.length_toList]
    omega
  | cons p rest ih =>
    rw [mem_cons, not_or] at hmany
    have hend : lv.n ≤ k → lv.toList.drop k = [] := by
      intro h
      rwa [drop_eq_nil_iff, Levels.length_toList]
    cases p with
    | many => exact absurd rfl hmany.1
    | one =>
      by_cases h : lv.n ≤ k
      · simp [forwardLoop, h, hend h, accepts]
      · rw [forwardLoop, if_neg h, Levels.drop_toList (lt_of_not_ge h), accepts,
          ih hmany.2 (lt_of_not_ge h)]
    | exact e =>
      by_cases h : lv.n ≤ k
      · simp [forwardLoop, h, hend h, accepts]
      · rw [forwardLoop, if_neg h, Levels.drop_toList (lt_of_not_ge h), accepts,
          ih hmany.2 (lt_of_not_ge h)]
        by_cases heq : lv.get k = e <;> simp [heq]

def CompiledFilter.matchesLevels (c : CompiledFilter) (lv : Levels) : Bool :=
  if lv.overflow then
    topicMatches ("/".intercalate (c.segs.map segmentText)) ((fromUtf8 lv.topic).getD "")
  else if c.hasMulti then matchSegsLevels c.segs lv
  else matchForwardLevels c.segs lv

/-! ## What the router decides -/

theorem matchesLevels_of_table (c : CompiledFilter) (h : lv.overflow = false) :
    c.matchesLevels lv = accepts c.segs lv.toList := by
  rw [CompiledFilter.matchesLevels, h]
  cases hmulti : c.hasMulti with
  | true => exact matchSegsLevels_eq c.segs lv
  | false =>
    rw [c.hasMulti_eq, any_eq_false] at hmulti
    exact forwardLoop_eq c.segs lv (fun h ↦ hmulti _ h (by simp)) (Nat.zero_le _)

theorem matchesLevels_of_overflow (filter topic : String) (h : lv.overflow = true)
    (htop : lv.topic = asBytes topic) :
    (compile filter slash).matchesLevels lv = topicMatches filter topic := by
  have hjoin : "/".intercalate ((compile filter slash).segs.map segmentText) = filter := by
    have htext : (compile filter slash).segs.map segmentText =
        (filter.toList.splitOn '/').map String.ofList := by
      rw [compile, map_map]
      exact map_congr_left fun l _ ↦ segmentText_segmentOf (String.ofList l)
    have hlists : String.toList ∘ String.ofList = id := funext fun l ↦ String.toList_ofList
    rw [htext, ← String.toList_inj, String.toList_intercalate, map_map, hlists, map_id]
    exact intercalate_splitOn '/'
  rw [CompiledFilter.matchesLevels, if_pos h, hjoin, htop, fromUtf8_asBytes, Option.getD_some]

theorem matchesLevels_compile (filter topic : String) :
    (compile filter slash).matchesLevels (splitLevels (asBytes topic) slash) =
      if 16 < (levels slash (asBytes topic)).length then topicMatches filter topic
      else
        accepts (((asBytes filter).splitOn slash).map segment) (marked slash (asBytes topic)) := by
  by_cases h : 16 < (levels slash (asBytes topic)).length
  · rw [if_pos h]
    exact matchesLevels_of_overflow filter topic ((overflow_splitLevels _ _).mpr h)
      (topic_splitLevels _ _)
  have hover : (splitLevels (asBytes topic) slash).overflow = false := by
    rwa [Bool.eq_false_iff, ne_eq, overflow_splitLevels]
  rw [if_neg h, matchesLevels_of_table _ hover, segs_compile (by decide),
    toList_splitLevels (Nat.le_of_not_lt h)]

def EndsInSlash (s : String) : Prop := (asBytes s).getLast? = some slash

instance (s : String) : Decidable (EndsInSlash s) := inferInstanceAs (Decidable (_ = _))

theorem slash_not_mem_of_exact_mem {f : List UInt8} {a : List UInt8}
    (ha : Wildcard.Segment.exact a ∈ filterPattern slash f) : slash ∉ a := by
  obtain ⟨l, hl, hseg⟩ := mem_map.mp ha
  rw [segment] at hseg
  split_ifs at hseg
  obtain rfl := Wildcard.Segment.exact.inj hseg
  exact sep_not_mem_of_mem_levels hl

theorem map_segment_splitOn (hne : filter ≠ "") (hend : ¬EndsInSlash filter) :
    ((asBytes filter).splitOn slash).map segment = filterPattern slash (asBytes filter) := by
  have hbs : asBytes filter ≠ [] := fun h ↦ hne (asBytes_injective h)
  rw [splitOn_of_open hbs hend, filterPattern]

/-- Any other filter ends, for `compile`, in an empty level. No last level of a table is empty. -/
theorem not_accepts_of_empty_level (h : filter = "" ∨ EndsInSlash filter) (t : List UInt8) :
    accepts (((asBytes filter).splitOn slash).map segment) (marked slash t) = false := by
  have hbs : asBytes filter = [] ∨ (asBytes filter).getLast? = some slash :=
    h.imp_left (congrArg asBytes)
  rw [splitOn_eq_levels, if_pos hbs, map_append, Bool.eq_false_iff]
  exact fun hacc ↦ getLast?_marked_ne slash t (getLast?_of_accepts hacc)

/-- The router and the byte-scanning matcher agree on a filter and a topic exactly if the topic has
more than sixteen levels, or the filter's pattern does not accept the topic's levels, or the filter
is not empty and does not end in a separator, and neither does the topic unless the pattern accepts
any last level. -/
theorem matchesLevels_eq_topicMatches_iff (filter topic : String) :
    (compile filter slash).matchesLevels (splitLevels (asBytes topic) slash) =
        topicMatches filter topic ↔
      16 < (levels slash (asBytes topic)).length ∨
      ¬accepts (filterPattern slash (asBytes filter)) (levels slash (asBytes topic)) ∨
      (filter ≠ "" ∧ ¬EndsInSlash filter ∧ (¬EndsInSlash topic ∨
          ∀ l, accepts (filterPattern slash (asBytes filter))
            ((levels slash (asBytes topic)).dropLast ++ [l]))) := by
  rw [matchesLevels_compile]
  by_cases h16 : 16 < (levels slash (asBytes topic)).length
  · simp [h16]
  rw [if_neg h16, topicMatches, topicMatchesSep_eq]
  by_cases hlevel : filter ≠ "" ∧ ¬EndsInSlash filter
  · obtain ⟨hne, hend⟩ := hlevel
    rw [map_segment_splitOn hne hend]
    by_cases htopic : EndsInSlash topic
    · have hexact := fun a ↦ slash_not_mem_of_exact_mem (f := asBytes filter) (a := a)
      rw [← accepts_marked_iff htopic hexact, Bool.eq_iff_iff]
      have hle := accepts_levels_of_marked htopic hexact
      simp only [h16, hne, hend, htopic, ne_eq, not_false_eq_true, not_true_eq_false, true_and,
        false_or]
      exact ⟨fun h ↦ (Classical.em _).symm.imp_right h.mpr,
        fun h ↦ ⟨hle, fun hacc ↦ h.resolve_left (not_not_intro hacc)⟩⟩
    · rw [marked_of_open htopic]
      simp [hne, hend, htopic]
  · have himproper := not_and_or.mp hlevel
    rw [not_not, not_not] at himproper
    rw [not_accepts_of_empty_level himproper, eq_comm, Bool.eq_false_iff]
    exact ⟨fun h ↦ Or.inr (Or.inl h), fun h ↦ (h.resolve_left h16).resolve_right
      fun hproper ↦ hlevel ⟨hproper.1, hproper.2.1⟩⟩

/-- A separator at the end of the filter or of the topic, and the empty filter: the byte-scanning
matcher accepts what the router does not. -/
theorem router_misses_trailing_slash :
    ((compile "a/" slash).matchesLevels (splitLevels (asBytes "a") slash) = false ∧
        topicMatches "a/" "a" = true) ∧
      ((compile "a" slash).matchesLevels (splitLevels (asBytes "a/") slash) = false ∧
        topicMatches "a" "a/" = true) ∧
      ((compile "" slash).matchesLevels (splitLevels (asBytes "") slash) = false ∧
        topicMatches "" "" = true) := by
  decide +kernel

end Synapse
