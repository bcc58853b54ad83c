import Synapse.Resp.Codec

/-!
# Reading back what was written

A value whose texts hold no CR LF is read back from the front of its encoding, whatever follows.
A proper prefix of the encoding is answered by "nothing yet", with one exception: `read_line`
reports an error when nothing at all follows the marker, so that a prefix that ends right after
the type marker of the value, or of one nested in it, is rejected.

Both facts go by the same induction on the value and its list of items. What they need of the
decoder is its own recursion (`decodeValue_eq`) and what it makes of one line, whole or cut.
-/

namespace Synapse.Resp

open List

/-! ## The recursion of the decoder -/

theorem bind_congr_right {α β : Type} {x : Decode α} {f g : α → Decode β}
    (h : ∀ a, x = pure a → f a = g a) : x >>= f = x >>= g := by
  obtain e | _ | a := x
  · rfl
  · rfl
  · exact h a rfl

theorem bind_eq_pure {α β : Type} {x : Decode α} {f : α → Decode β} {b : β}
    (h : x >>= f = pure b) : ∃ a, x = pure a ∧ f a = pure b := by
  obtain e | _ | a := x
  · cases h
  · cases h
  · exact ⟨a, rfl, h⟩

theorem expect_eq_pure {α : Type} {reason : String} {o : Option α} {a : α}
    (h : expect reason o = pure a) : o = some a := by
  cases o with
  | none => cases h
  | some a' =>
    cases h
    rfl

/-- There is no CR LF before the first one. -/
theorem crlf_free_of_findCrlf {xs : Bytes} {i p : ℕ} (h : findCrlf xs i = some p) :
    i ≤ p ∧ ¬crlf <:+: xs.take (p - i) := by
  induction xs generalizing i with
  | nil => cases h
  | cons a xs ih =>
    cases xs with
    | nil => cases h
    | cons b rest =>
      rw [findCrlf] at h
      split_ifs at h with hab
      · cases h
        refine ⟨le_rfl, ?_⟩
        rw [Nat.sub_self, take_zero]
        decide
      · obtain ⟨hle, hfree⟩ := ih h
        refine ⟨by omega, fun hin ↦ ?_⟩
        obtain ⟨k, hk⟩ : ∃ k, p - i = k + 1 := ⟨p - i - 1, by omega⟩
        rw [hk, take_succ_cons, infix_cons_iff] at hin
        obtain hpre | hin := hin
        · obtain ⟨ha, hlf⟩ := cons_prefix_cons.mp hpre
          have hb : [(0x0A : UInt8)] <+: b :: rest := hlf.trans ( take_prefix k _)
          exact hab ⟨ha.symm, (cons_prefix_cons.mp hb).1.symm⟩
        · rw [show k = p - (i + 1) by omega] at hin
          exact hfree hin

variable {buf line : Bytes} {s : String} {n k : ℕ} {P : Value → Prop} {vs : List Value} {v : Value}

theorem crlf_free_of_lineText {next : ℕ} (h : lineText buf = pure (s, next)) :
    2 ≤ next ∧ ¬crlf <:+: asBytes s := by
  rw [lineText] at h
  obtain ⟨r, hline, h⟩ := bind_eq_pure h
  obtain ⟨text, htext, h⟩ := bind_eq_pure h
  cases h
  rw [readLine] at hline
  cases hfind : findCrlf (buf.drop 1) 1 with
  | none =>
    rw [hfind] at hline
    dsimp only at hline
    split_ifs at hline <;> cases hline
  | some pos =>
    rw [hfind] at hline
    cases hline
    obtain ⟨hle, hfree⟩ := crlf_free_of_findCrlf hfind
    rw [asBytes_of_fromUtf8 (expect_eq_pure htext), drop_take]
    exact ⟨by omega, hfree⟩

theorem decodeItems_congr {f g : Bytes → Decode (Value × ℕ)}
    (h : ∀ pos, 0 < pos → f (buf.drop pos) = g (buf.drop pos)) (count : ℕ) :
    ∀ pos, 0 < pos → decodeItems f buf count pos = decodeItems g buf count pos := by
  induction count with
  | zero => exact fun _ _ ↦ rfl
  | succ count ih =>
    intro pos hpos
    rw [decodeItems, decodeItems, h pos hpos]
    refine bind_congr_right fun r _ ↦ ?_
    dsimp only
    rw [ih (pos + r.2) (by omega)]

theorem decodeWith_congr {f g : Bytes → Decode (Value × ℕ)}
    (h : ∀ pos, 0 < pos → f (buf.drop pos) = g (buf.drop pos)) :
    decodeWith f buf = decodeWith g buf := by
  cases buf with
  | nil => rfl
  | cons marker rest =>
    unfold decodeWith
    dsimp only
    -- the decoder of the elements is used in the last branch only
    refine if_congr .rfl rfl (if_congr .rfl rfl (if_congr .rfl rfl (if_congr .rfl rfl
      (if_congr .rfl (bind_congr_right fun r hr ↦ bind_congr_right fun count _ ↦ ?_) rfl))))
    have hnext : 2 ≤ r.2 := (crlf_free_of_lineText hr).1
    rw [decodeItems_congr h _ r.2 (by omega)]

theorem decodeFuel_eq {m : ℕ} (hn : buf.length < n) (hm : buf.length < m) :
    decodeFuel n buf = decodeFuel m buf := by
  induction n generalizing m buf with
  | zero => omega
  | succ n ih =>
    obtain _ | m := m
    · omega
    cases buf with
    | nil => rfl
    | cons a rest =>
      rw [length_cons] at hn hm
      refine decodeWith_congr fun pos hpos ↦ ih ?_ ?_ <;> rw [length_drop, length_cons] <;> omega

/-- The decoder satisfies the recursion of the source. -/
theorem decodeValue_eq (buf : Bytes) : decodeValue buf = decodeWith decodeValue buf := by
  cases buf with
  | nil => rfl
  | cons a rest =>
    rw [decodeValue, length_cons, decodeFuel]
    refine decodeWith_congr fun pos hpos ↦ ?_
    refine decodeFuel_eq ?_ (Nat.lt_succ_self _)
    rw [length_drop, length_cons]
    omega

/-! ## Texts in lines -/

/-- A text without CR holds no CR LF, whatever is put next to it. -/
def Plain (s : String) : Prop := '\r' ∉ s.toList

instance (s : String) : Decidable (Plain s) := inferInstanceAs (Decidable (¬_))

theorem Plain.not_mem (h : Plain s) : (0x0D : UInt8) ∉ asBytes s := by
  intro hmem
  obtain ⟨c, hc, hb⟩ := mem_flatMap.mp hmem
  refine not_mem_utf8EncodeChar (by decide) ?_ hb
  rintro rfl
  exact h hc

theorem Plain.crlf_free (h : Plain s) : ¬crlf <:+: asBytes s :=
  fun hin ↦ h.not_mem (hin.subset (by decide))

theorem plain_toString (n : Int) : Plain (toString n) := by
  intro hmem
  obtain h | h := Decimal.mem_toString hmem <;> cases h

theorem parseI64_toString (n : Int64) : parseI64 (toString n.toInt) = some n := by
  have hmin : Int64.minValue.toInt ≤ n.toInt := n.le_toInt
  have hmax : n.toInt ≤ Int64.maxValue.toInt := Int.le_of_lt_add_one n.toInt_lt
  rw [parseI64, Decimal.signed_toString, Option.bind_some, if_pos ⟨hmin, hmax⟩, Int64.ofInt_toInt]

theorem parseI64_length (hn : n < 2 ^ 63) :
    ∃ len : Int64, parseI64 (toString n) = some len ∧ ¬len < 0 ∧ len.toInt.toNat = n := by
  have hint : (Int64.ofInt n).toInt = n := Int64.toInt_ofInt_of_le (by omega) (by omega)
  refine ⟨Int64.ofInt n, ?_, ?_, ?_⟩
  · have h := parseI64_toString (Int64.ofInt n)
    rwa [hint] at h
  · rw [Int64.lt_iff_toInt_lt, hint]
    exact not_lt.mpr (Int.natCast_nonneg n)
  · rw [hint, Int.toNat_natCast]

/-! ## Lines -/

theorem findCrlf_eq_none {xs : Bytes} (h : ¬crlf <:+: xs) (i : ℕ) : findCrlf xs i = none := by
  induction xs generalizing i with
  | nil => rfl
  | cons a xs ih =>
    cases xs with
    | nil => rfl
    | cons b rest =>
      rw [findCrlf, if_neg, ih fun hin ↦ h (hin.trans (suffix_cons a _).isInfix)]
      rintro ⟨rfl, rfl⟩
      exact h (prefix_append crlf rest).isInfix

/-- The search stops at the terminator of a line without CR LF, also if the line ends in CR. -/
theorem findCrlf_line (h : ¬crlf <:+: line) (rest : Bytes) (i : ℕ) :
    findCrlf (line ++ (crlf ++ rest)) i = some (i + line.length) := by
  induction line generalizing i with
  | nil => exact if_pos ⟨rfl, rfl⟩
  | cons a line ih =>
    have hline : ¬crlf <:+: line := fun hin ↦ h (hin.trans (suffix_cons a _).isInfix)
    cases line with
    | nil =>
      change (if a = 0x0D ∧ (0x0D : UInt8) = 0x0A then _ else _) = _
      rw [if_neg fun heq ↦ absurd heq.2 (by decide)]
      exact ih hline (i + 1)
    | cons b line =>
      change (if a = 0x0D ∧ b = 0x0A then _ else findCrlf (b :: line ++ (crlf ++ rest)) _) = _
      rw [if_neg, ih hline, length_cons (a := a), add_assoc, add_comm 1]
      · rintro ⟨rfl, rfl⟩
        exact h (prefix_append crlf line).isInfix

theorem not_infix_cut (h : ¬crlf <:+: line) (hk : k < line.length + 2) :
    ¬crlf <:+: (line ++ crlf).take k := by
  intro hin
  have hsp : line ++ crlf = (line ++ [0x0D]) ++ [0x0A] := by rw [append_assoc]; rfl
  have hle : k ≤ (line ++ [0x0D]).length := by
    rw [length_append, length_singleton]
    omega
  rw [hsp, take_append_of_le_length hle] at hin
  have hwhole : crlf <:+: line ++ [0x0D] := hin.trans ( take_prefix _ _).isInfix
  obtain hsuf | hin := infix_concat_iff.mp hwhole
  · obtain ⟨pre, hpre⟩ := hsuf
    have hlast : some 0x0A = some (0x0D : UInt8) := by
      have h := congrArg List.getLast? hpre
      rwa [List.getLast?_append, List.getLast?_concat] at h
    exact absurd hlast (by decide)
  · exact h hin

theorem length_encodeLine (m : UInt8) (s : String) :
    (encodeLine m s).length = (asBytes s).length + 3 := by
  rw [encodeLine, length_cons, length_append]
  rfl

theorem lineText_encodeLine (hs : ¬crlf <:+: asBytes s) (m : UInt8) (t : Bytes) :
    lineText (encodeLine m s ++ t) = pure (s, (encodeLine m s).length) := by
  have hbuf : encodeLine m s ++ t = m :: (asBytes s ++ (crlf ++ t)) := by
    rw [encodeLine, cons_append, append_assoc]
  have hslice : ((m :: (asBytes s ++ (crlf ++ t))).take (1 + (asBytes s).length)).drop 1 =
      asBytes s := by
    rw [add_comm, take_succ_cons, drop_one, tail_cons, take_left]
  rw [hbuf, lineText, readLine, drop_one, tail_cons, findCrlf_line hs]
  dsimp only
  rw [pure_bind]
  dsimp only
  rw [hslice, fromUtf8_asBytes, length_encodeLine]
  change (pure (s, 1 + (asBytes s).length + 2) : Decode (String × ℕ)) = _
  congr 2
  omega

/-- The answer to a value that is cut short: an error right after a marker, nothing yet
elsewhere. -/
def short {α : Type} (atMarker : Bool) : Decode α :=
  if atMarker then reject .incomplete else failure

@[simp] theorem short_bind {α β : Type} (b : Bool) (f : α → Decode β) :
    (short b : Decode α) >>= f = short b := by
  cases b <;> rfl

theorem lineText_cut (hs : ¬crlf <:+: asBytes s) {m : UInt8}
    (hk : k + 1 < (encodeLine m s).length) :
    lineText ((encodeLine m s).take (k + 1)) = short (k == 0) := by
  rw [length_encodeLine] at hk
  have hlen : (m :: (asBytes s ++ crlf).take k).length = k + 1 := by
    rw [length_cons, length_take, length_append]
    change min k ((asBytes s).length + 2) + 1 = k + 1
    omega
  rw [encodeLine, take_succ_cons, lineText, readLine, drop_one, tail_cons,
    findCrlf_eq_none (not_infix_cut hs (by omega)), hlen]
  cases k <;> rfl

/-! ## Well-formed values

Every value is written as one line, with a text that depends on its kind, and a body. -/

namespace Value

def marker : Value → UInt8
  | simpleString _ => 0x2B
  | error _ => 0x2D
  | integer _ => 0x3A
  | bulkString _ => 0x24
  | nullBulk => 0x24
  | array _ => 0x2A
  | nullArray => 0x2A

def head : Value → String
  | simpleString s => s
  | error s => s
  | integer n => toString n.toInt
  | bulkString b => toString b.length
  | nullBulk => "-1"
  | array items => toString items.length
  | nullArray => "-1"

def body : Value → Bytes
  | bulkString b => b ++ crlf
  | array items => encodeItems items
  | _ => []

end Value

mutual

/-- A property of a value and of every value nested in it. -/
def Everywhere (P : Value → Prop) : Value → Prop
  | .array items => P (.array items) ∧ EverywhereIn P items
  | v => P v

def EverywhereIn (P : Value → Prop) : List Value → Prop
  | [] => True
  | v :: vs => Everywhere P v ∧ EverywhereIn P vs

end

/-- A text that is written as a line holds no CR LF. -/
def OneLine : Value → Prop
  | .simpleString s => ¬crlf <:+: asBytes s
  | .error s => ¬crlf <:+: asBytes s
  | _ => True

/-- Lengths and counts are below `2 ^ 63`, as those of every `Vec` are. -/
def Fits : Value → Prop
  | .bulkString b => b.length < 2 ^ 63
  | .array items => items.length < 2 ^ 63
  | _ => True

def WellFormed : Value → Prop := Everywhere fun v ↦ OneLine v ∧ Fits v

instance : DecidablePred OneLine := fun v ↦ by cases v <;> dsimp only [OneLine] <;> infer_instance

instance : DecidablePred Fits := fun v ↦ by cases v <;> dsimp only [Fits] <;> infer_instance

mutual

instance decidableEverywhere (P : Value → Prop) [h : DecidablePred P] :
    DecidablePred (Everywhere P)
  | .array items =>
    have := decidableEverywhereIn P items
    inferInstanceAs (Decidable (P (.array items) ∧ EverywhereIn P items))
  | .simpleString s => h (.simpleString s)
  | .error s => h (.error s)
  | .integer n => h (.integer n)
  | .bulkString b => h (.bulkString b)
  | .nullBulk => h .nullBulk
  | .nullArray => h .nullArray

instance decidableEverywhereIn (P : Value → Prop) [DecidablePred P] :
    DecidablePred (EverywhereIn P)
  | [] => isTrue trivial
  | v :: vs =>
    have := decidableEverywhere P v
    have := decidableEverywhereIn P vs
    inferInstanceAs (Decidable (Everywhere P v ∧ EverywhereIn P vs))

end

instance : DecidablePred WellFormed :=
  inferInstanceAs (DecidablePred (Everywhere fun v ↦ OneLine v ∧ Fits v))

theorem everywhereIn_iff : EverywhereIn P vs ↔ ∀ v ∈ vs, Everywhere P v := by
  induction vs with
  | nil => exact ⟨nofun, fun _ ↦ trivial⟩
  | cons v vs ih => rw [EverywhereIn, ih, forall_mem_cons]

theorem everywhere_array {items : List Value} :
    Everywhere P (.array items) ↔ P (.array items) ∧ ∀ v ∈ items, Everywhere P v := by
  rw [Everywhere, everywhereIn_iff]

theorem Everywhere.self (h : Everywhere P v) : P v := by
  cases v with
  | array items => exact h.1
  | _ => exact h

theorem encodeValue_eq (v : Value) : encodeValue v = encodeLine v.marker v.head ++ v.body := by
  cases v <;> rw [encodeValue] <;> first | rfl | exact (append_nil _).symm

theorem crlf_free_head (hv : WellFormed v) : ¬crlf <:+: asBytes v.head := by
  cases v with
  | simpleString s => exact hv.self.1
  | error s => exact hv.self.1
  | integer n => exact (plain_toString n.toInt).crlf_free
  | bulkString b => exact (plain_toString b.length).crlf_free
  | nullBulk => exact (plain_toString (-1)).crlf_free
  | array items => exact (plain_toString items.length).crlf_free
  | nullArray => exact (plain_toString (-1)).crlf_free

theorem lineText_head (hv : WellFormed v) (t : Bytes) : lineText (encodeLine v.marker v.head ++ t) =
      pure (v.head, (encodeLine v.marker v.head).length) :=
  lineText_encodeLine (crlf_free_head hv) v.marker t

theorem decodeValue_head_cut (hv : WellFormed v)
    (hk : k + 1 < (encodeLine v.marker v.head).length) :
    decodeValue ((encodeLine v.marker v.head).take (k + 1)) = short (k == 0) := by
  have hline := lineText_cut (m := v.marker) (crlf_free_head hv) hk
  rw [decodeValue_eq]
  cases v <;> exact (congrArg (· >>= _) hline).trans (short_bind _ _)

/-! ## The round trip -/

/-- Induction over a value and the items nested in it. -/
theorem Value.induction (simpleString : ∀ s, P (.simpleString s)) (error : ∀ s, P (.error s))
    (integer : ∀ n, P (.integer n)) (bulkString : ∀ b, P (.bulkString b)) (nullBulk : P .nullBulk)
    (array : ∀ items, (∀ v ∈ items, P v) → P (.array items)) (nullArray : P .nullArray)
    (v : Value) : P v :=
  v.rec simpleString error integer bulkString nullBulk array nullArray nofun
    fun _ _ hv hvs ↦ forall_mem_cons.mpr ⟨hv, hvs⟩

theorem decodeBulk_append (pre b t : Bytes) :
    decodeBulk (pre ++ (b ++ crlf ++ t)) pre.length b.length =
      pure (.bulkString b, pre.length + b.length + 2) := by
  have hbuf : pre ++ (b ++ crlf ++ t) = (pre ++ b) ++ (crlf ++ t) := by simp only [append_assoc]
  have hlen : pre.length + b.length + 2 ≤ (pre ++ (b ++ crlf ++ t)).length := by
    simp only [length_append, crlf, length_cons, length_nil]
    omega
  rw [decodeBulk, if_neg (not_lt.mpr hlen), hbuf, ← length_append, drop_left,
    if_neg (by rw [not_not]; rfl), take_left, drop_left]

/-- The value is read back from the front of its encoding. -/
def Reads (v : Value) : Prop :=
  ∀ t, decodeValue (encodeValue v ++ t) = pure (v, (encodeValue v).length)

theorem decodeItems_append (hvs : ∀ v ∈ vs, Reads v) (pre t : Bytes) :
    decodeItems decodeValue (pre ++ (encodeItems vs ++ t)) vs.length pre.length =
      pure (vs, pre.length + (encodeItems vs).length) := by
  -- `pre` is what has been consumed: the decoder keeps a position into the whole buffer
  induction vs generalizing pre with
  | nil => rfl
  | cons v vs ih =>
    obtain ⟨hv, hvs⟩ := forall_mem_cons.mp hvs
    rw [length_cons, decodeItems, drop_left, encodeItems, append_assoc, hv, pure_bind]
    dsimp only
    rw [← append_assoc, ← length_append, ih hvs, pure_bind, length_append, length_append, add_assoc]

variable {next : ℕ} {rest : Bytes}

/-- A line with a length is read, and the length is not negative. -/
theorem bind_length (hn : n < 2 ^ 63) (hline : lineText buf = pure (toString n, next))
    (reason : String) (null body : ℕ → ℕ → Decode (Value × ℕ)) :
    (lineText buf >>= fun (s, next) ↦ expect reason (parseI64 s) >>= fun len ↦
      if len < 0 then null next len.toInt.toNat else body next len.toInt.toNat) = body next n := by
  obtain ⟨len, hpar, hlen, rfl⟩ := parseI64_length hn
  rw [hline, pure_bind]
  change expect _ (parseI64 _) >>= _ = _
  rw [hpar]
  exact if_neg hlen

theorem decodeValue_bulk (hn : n < 2 ^ 63)
    (hline : lineText (0x24 :: rest) = pure (toString n, next)) :
    decodeValue (0x24 :: rest) = decodeBulk (0x24 :: rest) next n := by
  rw [decodeValue_eq]
  exact bind_length hn hline "bad bulk length" (fun next _ ↦ pure (.nullBulk, next))
    (decodeBulk (0x24 :: rest))

theorem decodeValue_array (hn : n < 2 ^ 63)
    (hline : lineText (0x2A :: rest) = pure (toString n, next)) : decodeValue (0x2A :: rest) =
      decodeItems decodeValue (0x2A :: rest) n next >>= fun r ↦ pure (.array r.1, r.2) := by
  rw [decodeValue_eq]
  exact bind_length hn hline "bad array count" (fun next _ ↦ pure (.nullArray, next))
    fun next n ↦ decodeItems decodeValue (0x2A :: rest) n next >>= fun r ↦ pure (.array r.1, r.2)

theorem reads_of_wellFormed (hv : WellFormed v) : Reads v := by
  induction v using Value.induction with
  | integer n =>
    intro t
    rw [decodeValue_eq]
    refine (congrArg (· >>= _) (lineText_head hv t)).trans ?_
    change expect _ (parseI64 (toString n.toInt)) >>= _ = _
    rw [parseI64_toString]
    rfl
  | bulkString b =>
    intro t
    rw [encodeValue, append_assoc]
    refine (decodeValue_bulk hv.self.2 (lineText_head hv _)).trans ?_
    refine (decodeBulk_append (encodeLine 0x24 (toString b.length)) b t).trans ?_
    simp only [length_append, add_assoc]
    rfl
  | array items ih =>
    intro t
    obtain ⟨⟨-, hlen⟩, hits⟩ := everywhere_array.mp hv
    rw [encodeValue, append_assoc]
    refine (decodeValue_array hlen (lineText_head hv _)).trans ?_
    have hall := decodeItems_append (fun v hmem ↦ ih v hmem (hits v hmem))
      (encodeLine 0x2A (toString items.length)) t
    refine (congrArg (· >>= _) hall).trans ?_
    rw [length_append]
    rfl
  -- the other values are their line
  | _ =>
    intro t
    rw [decodeValue_eq]
    exact (congrArg (· >>= _) (lineText_head hv t)).trans (pure_bind _ _)

/-- What the encoder writes is read back, whatever follows it. -/
theorem decodeValue_encodeValue {v : Value} (hv : WellFormed v) (t : Bytes) :
    (decodeValue (encodeValue v ++ t)).run = .ok (some (v, (encodeValue v).length)) :=
  congrArg OptionT.run (reads_of_wellFormed hv t)

theorem decodeValue_encodeValue_nested :
    let v : Value := .array [.simpleString "a\r", .array [.integer (-5), .bulkString crlf]]
    WellFormed v ∧
      (decodeValue (encodeValue v ++ [0x2B])).run = .ok (some (v, (encodeValue v).length)) :=
  ⟨by decide, decodeValue_encodeValue (by decide) [0x2B]⟩

/-! ## Values cut short -/

mutual

/-- The first `n` bytes of a value end right after the type marker of the value or of one nested
in it. -/
def afterMarker : Value → ℕ → Bool
  | .array items, n =>
    let line := (encodeLine 0x2A (toString items.length)).length
    if n < line then n == 1 else afterItemMarker items (n - line)
  | _, n => n == 1

/-- The same for the first `n` bytes of the items of an array. -/
def afterItemMarker : List Value → ℕ → Bool
  | [], _ => false
  | v :: vs, n =>
    if n < (encodeValue v).length then afterMarker v n
    else afterItemMarker vs (n - (encodeValue v).length)

end

theorem afterMarker_line (hn : n < (encodeLine v.marker v.head).length) :
    afterMarker v n = (n == 1) := by
  cases v with
  | array items => exact if_pos hn
  | _ => rfl

/-- Every proper prefix of the value is answered as `afterMarker` says. -/
def Cuts (v : Value) : Prop :=
  ∀ n, n < (encodeValue v).length →
    decodeValue ((encodeValue v).take n) = short (afterMarker v n)

theorem decodeItems_cut (hvs : ∀ v ∈ vs, Reads v ∧ Cuts v) (pre : Bytes)
    (hn : n < (encodeItems vs).length) :
    decodeItems decodeValue (pre ++ (encodeItems vs).take n) vs.length pre.length =
      short (afterItemMarker vs n) := by
  induction vs generalizing pre n with
  | nil => cases hn
  | cons v vs ih =>
    obtain ⟨⟨hread, hcut⟩, hvs⟩ := forall_mem_cons.mp hvs
    rw [encodeItems, length_append] at hn
    rw [length_cons, decodeItems, drop_left, afterItemMarker, encodeItems]
    by_cases hlt : n < (encodeValue v).length
    · rw [if_pos hlt, take_append_of_le_length hlt.le, hcut n hlt, short_bind]
    -- the item is whole: go on behind it
    rw [not_lt] at hlt
    rw [if_neg (not_lt.mpr hlt), take_append, take_of_length_le hlt, hread, pure_bind]
    dsimp only
    rw [← append_assoc, ← length_append, ih hvs _ (by omega), short_bind]

theorem decodeBulk_cut (pre b : Bytes) (hn : n < (b ++ crlf).length) :
    decodeBulk (pre ++ (b ++ crlf).take n) pre.length b.length = failure := by
  refine if_pos ?_
  rw [length_append] at hn
  rw [length_append, length_take, length_append]
  change n < b.length + 2 at hn
  omega

theorem take_encodeValue (hn : (encodeLine v.marker v.head).length ≤ n) :
    (encodeValue v).take n = encodeLine v.marker v.head ++
      v.body.take (n - (encodeLine v.marker v.head).length) := by
  rw [encodeValue_eq, take_append, take_of_length_le hn]

theorem cuts_of_line (hv : WellFormed v) (hn : n < (encodeLine v.marker v.head).length) :
    decodeValue ((encodeValue v).take n) = short (afterMarker v n) := by
  rw [encodeValue_eq, take_append_of_le_length hn.le, afterMarker_line hn]
  cases n with
  | zero => rfl
  | succ k =>
    rw [decodeValue_head_cut hv hn]
    cases k <;> rfl

theorem cuts_of_wellFormed (hv : WellFormed v) : Cuts v := by
  induction v using Value.induction with
  | bulkString b =>
    intro n hn
    -- cut in the line with the length, or in the bytes and the line end behind it
    by_cases hline : n < (encodeLine 0x24 (toString b.length)).length
    · exact cuts_of_line hv hline
    rw [not_lt] at hline
    rw [encodeValue, length_append] at hn
    have hmark : afterMarker (.bulkString b) n = false := by
      rw [length_encodeLine] at hline
      exact beq_eq_false_iff_ne.mpr (by omega)
    rw [take_encodeValue (v := .bulkString b) hline, hmark]
    refine (decodeValue_bulk hv.self.2 (lineText_head hv _)).trans ?_
    have hcut : n - (encodeLine 0x24 (toString b.length)).length < (b ++ crlf).length := by omega
    exact decodeBulk_cut (encodeLine 0x24 (toString b.length)) b hcut
  | array items ih =>
    intro n hn
    obtain ⟨⟨-, hlen⟩, hits⟩ := everywhere_array.mp hv
    by_cases hline : n < (encodeLine 0x2A (toString items.length)).length
    · exact cuts_of_line hv hline
    rw [encodeValue, length_append] at hn
    rw [take_encodeValue (v := .array items) (not_lt.mp hline), afterMarker, if_neg hline]
    refine (decodeValue_array hlen (lineText_head hv _)).trans ?_
    have hcut : n - (encodeLine 0x2A (toString items.length)).length <
        (encodeItems items).length := by omega
    have hall := decodeItems_cut
      (fun v hmem ↦ ⟨reads_of_wellFormed (hits v hmem), ih v hmem (hits v hmem)⟩)
      (encodeLine 0x2A (toString items.length)) hcut
    exact (congrArg (· >>= _) hall).trans (short_bind _ _)
  -- the other values are one line
  | _ =>
    intro n hn
    rw [encodeValue_eq] at hn
    exact cuts_of_line hv (by simpa [Value.body] using hn)

/-- A proper prefix of an encoding is "nothing yet" or, right after a type marker, an error, on
which the server closes the connection. -/
theorem decodeValue_cut_short {v : Value} (hv : WellFormed v) {p : Bytes}
    (hp : p <+: encodeValue v) (hne : p ≠ encodeValue v) :
    (decodeValue p).run = if afterMarker v p.length then .error .incomplete else .ok none := by
  have hlt : p.length < (encodeValue v).length :=
    lt_of_le_of_ne hp.length_le fun h ↦ hne (hp.eq_of_length h)
  rw [prefix_iff_eq_take.mp hp, cuts_of_wellFormed hv _ hlt, length_take, Nat.min_eq_left hlt.le]
  cases afterMarker v p.length <;> rfl

theorem decodeValue_cut_short_digit :
    afterMarker (.integer 5) 2 = false ∧ (decodeValue [0x3A, 0x35]).run = .ok none :=
  ⟨rfl, decodeValue_cut_short (v := .integer 5) (by decide) ⟨[0x0D, 0x0A], by decide⟩ (by decide)⟩

theorem decodeValue_marker_only : WellFormed (.integer 5) ∧ [0x3A] <+: encodeValue (.integer 5) ∧
    [0x3A] ≠ encodeValue (.integer 5) ∧
    (decodeValue [0x3A]).run = .error .incomplete :=
  ⟨by decide, ⟨[0x35, 0x0D, 0x0A], by decide⟩, by decide, rfl⟩

/-! ## What is accepted -/

theorem toNat_toInt_lt (n : Int64) : n.toInt.toNat < 2 ^ 63 := by
  have h := n.toInt_lt
  omega

theorem of_decodeItems {count pos : ℕ} (hpos : 0 < pos)
    (h : decodeItems decodeValue buf count pos = pure (vs, next)) :
    vs.length = count ∧ ∀ v ∈ vs, ∃ k, 0 < k ∧ ∃ n, decodeValue (buf.drop k) = pure (v, n) := by
  induction count generalizing pos vs with
  | zero =>
    cases h
    exact ⟨rfl, nofun⟩
  | succ count ih =>
    rw [decodeItems] at h
    obtain ⟨r, hhead, h⟩ := bind_eq_pure h
    obtain ⟨q, hrest, h⟩ := bind_eq_pure h
    cases h
    obtain ⟨hlen, hall⟩ := ih (by omega) hrest
    exact ⟨congrArg (· + 1) hlen, forall_mem_cons.mpr ⟨⟨pos, hpos, r.2, hhead⟩, hall⟩⟩

theorem length_le_of_decodeBulk {start len : ℕ} (h : decodeBulk buf start len = pure (v, n)) :
    ∃ b, v = .bulkString b ∧ b.length = len := by
  rw [decodeBulk] at h
  split_ifs at h with hlen hend
  · cases h
  · cases h
  · cases h
    refine ⟨_, rfl, ?_⟩
    rw [length_drop, length_take]
    omega

/-- Every value that the decoder returns is well formed. -/
theorem wellFormed_of_decodeValue (h : decodeValue buf = pure (v, n)) : WellFormed v := by
  -- the items of an array are decoded from shorter buffers, at any depth
  induction hlen : buf.length using Nat.strong_induction_on generalizing buf v n with
  | _ len ih =>
    cases buf with
    | nil => cases h
    | cons marker rest =>
      rw [decodeValue_eq, decodeWith] at h
      -- one case for each type marker, in the order of the decoder
      split_ifs at h
      · obtain ⟨r, hline, h⟩ := bind_eq_pure h
        cases h
        exact ⟨(crlf_free_of_lineText hline).2, trivial⟩
      · obtain ⟨r, hline, h⟩ := bind_eq_pure h
        cases h
        exact ⟨(crlf_free_of_lineText hline).2, trivial⟩
      · obtain ⟨r, hline, h⟩ := bind_eq_pure h
        obtain ⟨i, hpar, h⟩ := bind_eq_pure h
        cases h
        exact ⟨trivial, trivial⟩
      · obtain ⟨r, hline, h⟩ := bind_eq_pure h
        obtain ⟨i, hpar, h⟩ := bind_eq_pure h
        split_ifs at h
        · cases h
          exact ⟨trivial, trivial⟩
        · obtain ⟨b, rfl, hb⟩ := length_le_of_decodeBulk h
          exact ⟨trivial, hb.trans_lt (toNat_toInt_lt i)⟩
      · obtain ⟨r, hline, h⟩ := bind_eq_pure h
        obtain ⟨i, hpar, h⟩ := bind_eq_pure h
        split_ifs at h
        · cases h
          exact ⟨trivial, trivial⟩
        obtain ⟨q, hits, h⟩ := bind_eq_pure h
        cases h
        have hnext : 2 ≤ r.2 := (crlf_free_of_lineText hline).1
        obtain ⟨hct, hall⟩ := of_decodeItems (by omega) hits
        refine everywhere_array.mpr ⟨⟨trivial, hct.trans_lt (toNat_toInt_lt i)⟩, ?_⟩
        intro v hv
        obtain ⟨k, hk, n, hv⟩ := hall v hv
        refine ih _ ?_ hv rfl
        rw [← hlen, length_drop, length_cons]
        omega
      · cases h

end Synapse.Resp
