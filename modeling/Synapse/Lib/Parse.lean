import Mathlib.Data.List.Basic
import Mathlib.Tactic.SplitIfs

/-!
# Parsers over a cursor

A parser reads a buffer from a position on, and returns a value and the position after it. Beside
the errors a parser reports on purpose, there are two ways of going wrong that no input should
cause: an index outside the buffer (`panic`), and a loop that does not end within the rounds it is
given (`spin`).

Three notions describe a parser, and each composes along `bind`.

* `Ensures pos p Q`: at `pos`, `p` does not go wrong, moves forward inside the buffer, and `Q` holds
  of the value and the new position. `Safe p` and `Advances p` are the two cases without more to
  say about the value.
* `Streams short p`: `p` decides on what it has read. On a longer buffer it returns the same, unless
  it asked for more by failing with `short`, and then it reads beyond the shorter buffer.
* `Reads pos post p xs b`: at `pos`, with `xs` and then `post` ahead, `p` returns `b` and consumes
  exactly `xs`.

The readers at the bottom of a format take a fixed number of elements if there are so many, and
report `short` otherwise (`Takes`); for those all three follow at once. Loops are `whileDo`: a round
has to consume something, so the elements left bound the number of rounds.
-/

namespace Parse

open List

variable {α ε β γ σ : Type} {buf : List α}

/-- Why there is no value: an error of the parser's own, an index out of range, or a loop that does
not end. -/
inductive Fault (ε : Type)
  | fail (e : ε)
  | panic
  | spin
deriving DecidableEq, Repr

def Fault.IsFail : Fault ε → Prop
  | fail _ => True
  | panic => False
  | spin => False

abbrev Outcome (ε β : Type) := Except (Fault ε) β

namespace Outcome

/-- A value, or an error of the parser's own. -/
def Regular : Outcome ε β → Prop
  | .ok _ => True
  | .error e => e.IsFail

variable {x : Outcome ε β}

theorem Regular.bind {f : β → Outcome ε γ} (hx : x.Regular) (hf : ∀ b, x = .ok b → (f b).Regular) :
    Regular (x >>= f) := by
  rcases x with e | b
  · exact hx
  · exact hf b rfl

theorem Regular.ne_panic (hx : x.Regular) : x ≠ .error .panic := by
  rintro rfl
  exact hx

theorem Regular.ne_spin (hx : x.Regular) : x ≠ .error .spin := by
  rintro rfl
  exact hx

end Outcome

/-! ## Indexing -/

/-- `buf[i]`. -/
def index (buf : List α) (i : ℕ) : Outcome ε α :=
  match buf[i]? with
  | some a => .ok a
  | none => .error .panic

theorem index_of_lt {i : ℕ} (h : i < buf.length) : (index buf i : Outcome ε α) = .ok buf[i] := by
  rw [index, getElem?_eq_getElem h]

/-- `&buf[i..j]`. -/
def slice (buf : List α) (i j : ℕ) : Outcome ε (List α) :=
  if i ≤ j ∧ j ≤ buf.length then .ok ((buf.take j).drop i) else .error .panic

theorem slice_of_le {i j : ℕ} (hij : i ≤ j) (hj : j ≤ buf.length) :
    (slice buf i j : Outcome ε (List α)) = .ok ((buf.take j).drop i) := if_pos ⟨hij, hj⟩

/-! ## The monad -/

def Parser (α ε β : Type) : Type := List α → ℕ → Outcome ε (β × ℕ)

namespace Parser

instance : Monad (Parser α ε) where
  pure b := fun _ pos ↦ .ok (b, pos)
  bind p f := fun buf pos ↦ p buf pos >>= fun r ↦ f r.1 buf r.2

theorem bind_apply (p : Parser α ε β) (f : β → Parser α ε γ) (buf : List α) (pos : ℕ) :
    (p >>= f) buf pos = p buf pos >>= fun r ↦ f r.1 buf r.2 := rfl

variable {p : Parser α ε β} {f : β → Parser α ε γ} {buf : List α} {pos n : ℕ}

theorem bind_of_ok {pos' : ℕ} {b : β} (h : p buf pos = .ok (b, pos')) :
    (p >>= f) buf pos = f b buf pos' := by
  rw [bind_apply, h]
  rfl

theorem bind_of_error {e : Fault ε} (h : p buf pos = .error e) : (p >>= f) buf pos = .error e := by
  rw [bind_apply, h]
  rfl

theorem exists_of_bind_ok {r : γ × ℕ} (h : (p >>= f) buf pos = .ok r) :
    ∃ b pos', p buf pos = .ok (b, pos') ∧ f b buf pos' = .ok r := by
  rw [bind_apply] at h
  rcases hp : p buf pos with e | ⟨b, pos'⟩
  · rw [hp] at h
    cases h
  · rw [hp] at h
    exact ⟨b, pos', rfl, h⟩

/-- Run the parser from the start of a buffer. -/
def run (buf : List α) (p : Parser α ε β) : Outcome ε β := p buf 0 >>= fun r ↦ .ok r.1

def fail (e : ε) : Parser α ε β := fun _ _ ↦ .error (.fail e)

/-- `if c { return Err(e) }`. -/
def rejectIf (c : Prop) [Decidable c] (e : ε) : Parser α ε Unit := if c then fail e else pure ()

/-- `x?` for a result. -/
def ofExcept : Except ε β → Parser α ε β
  | .ok b => pure b
  | .error e => fail e

/-- `x.ok_or(e)?` for an option. -/
def okOr (x : Option β) (e : ε) : Parser α ε β :=
  match x with
  | some b => pure b
  | none => fail e

/-- `if c { Some(p) } else { None }`. -/
def optional (c : Prop) [Decidable c] (p : Parser α ε β) : Parser α ε (Option β) :=
  if c then some <$> p else pure none

/-- Look at the buffer and the position without moving. -/
def inspect (f : List α → ℕ → Outcome ε β) : Parser α ε β := fun buf pos ↦
  f buf pos >>= fun b ↦ .ok (b, pos)

def position : Parser α ε ℕ := inspect fun _ pos ↦ .ok pos

/-- The number of elements left; a position beyond the end underflows. -/
def remaining : Parser α ε ℕ := inspect fun buf pos ↦
  if pos ≤ buf.length then .ok (buf.length - pos) else .error .panic

def peek (i : ℕ) : Parser α ε α := inspect fun buf pos ↦ index buf (pos + i)

def window (n : ℕ) : Parser α ε (List α) := inspect fun buf pos ↦ slice buf pos (pos + n)

def advance (n : ℕ) : Parser α ε Unit := fun _ pos ↦ .ok ((), pos + n)

/-- Fail with `short` unless `n` elements are left. -/
def need (short : ε) (n : ℕ) (p : Parser α ε β) : Parser α ε β := do
  let left ← remaining
  if left < n then fail short else p

theorem remaining_of_le (h : pos ≤ buf.length) :
    (remaining : Parser α ε ℕ) buf pos = .ok (buf.length - pos, pos) := by
  rw [remaining, inspect, if_pos h]
  rfl

theorem peek_of_lt {i : ℕ} (h : pos + i < buf.length) :
    (peek i : Parser α ε α) buf pos = .ok (buf[pos + i], pos) := by
  rw [peek, inspect, index_of_lt h]
  rfl

theorem window_of_le (h : pos + n ≤ buf.length) :
    (window n : Parser α ε (List α)) buf pos = .ok ((buf.drop pos).take n, pos) := by
  rw [window, inspect, slice_of_le (Nat.le_add_right pos n) h, take_drop]
  rfl

/-! ## Loops -/

/-- Repeat `body` for at most so many rounds, until it returns on the right. -/
def rounds (body : σ → Parser α ε (σ ⊕ β)) : ℕ → σ → Parser α ε β
  | 0, _ => fun _ _ ↦ .error .spin
  | n + 1, s => body s >>= Sum.elim (rounds body n) pure

/-- One round of `while cond { s = body(s) }`. -/
def whileRound (cond : Parser α ε Bool) (body : σ → Parser α ε σ) (s : σ) :
    Parser α ε (σ ⊕ σ) := do
  if ← cond then Sum.inl <$> body s else pure (Sum.inr s)

/-- `while cond { s = body(s) }`, where each round consumes something: one round for every element
left, and one to see that the condition fails. -/
def whileDo (cond : Parser α ε Bool) (body : σ → Parser α ε σ) (s : σ) : Parser α ε σ :=
  fun buf pos ↦ rounds (whileRound cond body) (buf.length - pos + 1) s buf pos

/-! ## Parsers that do not go wrong -/

/-- On this buffer, at `pos`, the parser does not go wrong; with a value it has moved forward inside
the buffer, and `Q` holds of the value and the new position. -/
def Lands (buf : List α) (pos : ℕ) (p : Parser α ε β) (Q : β → ℕ → Prop) : Prop :=
  (p buf pos).Regular ∧
    ∀ b pos', p buf pos = .ok (b, pos') → pos ≤ pos' ∧ pos' ≤ buf.length ∧ Q b pos'

theorem lands_pure {Q : β → ℕ → Prop} {b : β} (hpos : pos ≤ buf.length) (hQ : Q b pos) :
    Lands buf pos (pure b : Parser α ε β) Q := by
  refine ⟨trivial, fun c pos' hc ↦ ?_⟩
  cases hc
  exact ⟨Nat.le_refl _, hpos, hQ⟩

theorem lands_inspect {f : List α → ℕ → Outcome ε β} (hpos : pos ≤ buf.length)
    (hreg : (f buf pos).Regular) : Lands buf pos (inspect f) fun _ pos' ↦ pos' = pos := by
  rw [Lands, inspect]
  rcases hf : f buf pos with e | b
  · rw [hf] at hreg
    exact ⟨hreg, fun _ _ h ↦ by cases h⟩
  · exact lands_pure hpos rfl

theorem Lands.imp {Q R : β → ℕ → Prop} (h : Lands buf pos p Q)
    (himp : ∀ b pos', pos ≤ pos' → Q b pos' → R b pos') : Lands buf pos p R := by
  refine ⟨h.1, fun b pos' hp ↦ ?_⟩
  obtain ⟨hle, hlen, hQ⟩ := h.2 b pos' hp
  exact ⟨hle, hlen, himp b pos' hle hQ⟩

theorem Lands.bind {Q : β → ℕ → Prop} {R : γ → ℕ → Prop} (hp : Lands buf pos p Q)
    (hf : ∀ b mid, p buf pos = .ok (b, mid) → pos ≤ mid → mid ≤ buf.length → Q b mid →
      Lands buf mid (f b) R) : Lands buf pos (p >>= f) R := by
  obtain ⟨hreg, hok⟩ := hp
  constructor
  · rw [bind_apply]
    apply hreg.bind
    rintro ⟨b, mid⟩ hb
    obtain ⟨hle, hlen, hQ⟩ := hok b mid hb
    exact (hf b mid hb hle hlen hQ).1
  · intro c pos' hc
    obtain ⟨b, mid, hb, hc⟩ := exists_of_bind_ok hc
    obtain ⟨hle, hlen, hQ⟩ := hok b mid hb
    obtain ⟨hle', hlen', hR⟩ := (hf b mid hb hle hlen hQ).2 c pos' hc
    exact ⟨Nat.le_trans hle hle', hlen', hR⟩

/-- At `pos`, inside the buffer, the parser does not go wrong; with a value it has moved forward
inside the buffer, and `Q` holds of the value and the new position. -/
def Ensures (pos : ℕ) (p : Parser α ε β) (Q : β → ℕ → Prop) : Prop :=
  ∀ buf, pos ≤ buf.length → (p buf pos).Regular ∧
    ∀ b pos', p buf pos = .ok (b, pos') → pos ≤ pos' ∧ pos' ≤ buf.length ∧ Q b pos'

/-- The parser does not go wrong, wherever it starts. -/
def Safe (p : Parser α ε β) : Prop := ∀ pos, Ensures pos p fun _ _ ↦ True

/-- The parser is safe, and with a value it has consumed something. -/
def Advances (p : Parser α ε β) : Prop := ∀ pos, Ensures pos p fun _ pos' ↦ pos < pos'

variable {p : Parser α ε β} {f : β → Parser α ε γ} {Q : β → ℕ → Prop} {pos : ℕ}

theorem Ensures.imp {R : β → ℕ → Prop} (h : Ensures pos p Q)
    (himp : ∀ b pos', Q b pos' → R b pos') : Ensures pos p R :=
  fun buf hpos ↦ Lands.imp (h buf hpos) fun b pos' _ ↦ himp b pos'

theorem Ensures.bind {R : γ → ℕ → Prop} (hp : Ensures pos p Q)
    (hf : ∀ b mid, Q b mid → Ensures mid (f b) R) : Ensures pos (p >>= f) R :=
  fun buf hpos ↦ Lands.bind (hp buf hpos) fun b mid _ _ hlen hQ ↦ hf b mid hQ buf hlen

theorem ensures_pure (pos : ℕ) (b : β) :
    Ensures pos (pure b : Parser α ε β) fun c pos' ↦ c = b ∧ pos' = pos :=
  fun _ hpos ↦ lands_pure hpos ⟨rfl, rfl⟩

theorem ensures_fail (pos : ℕ) (e : ε) : Ensures pos (fail e : Parser α ε β) Q :=
  fun _ _ ↦ ⟨trivial, fun _ _ h ↦ by cases h⟩

theorem Safe.of_ensures {R : ℕ → β → ℕ → Prop} (h : ∀ pos, Ensures pos p (R pos)) : Safe p :=
  fun pos ↦ (h pos).imp fun _ _ _ ↦ trivial

theorem Safe.bind (hp : Safe p) (hf : ∀ b, Safe (f b)) : Safe (p >>= f) :=
  fun pos ↦ (hp pos).bind fun b mid _ ↦ hf b mid

theorem safe_pure (b : β) : Safe (pure b : Parser α ε β) := .of_ensures fun pos ↦ ensures_pure pos b

theorem safe_fail (e : ε) : Safe (fail e : Parser α ε β) := fun pos ↦ ensures_fail pos e

theorem Safe.map (hp : Safe p) (g : β → γ) : Safe (g <$> p) := hp.bind fun b ↦ safe_pure (g b)

theorem Advances.safe (hp : Advances p) : Safe p := .of_ensures hp

theorem Advances.bind (hp : Advances p) (hf : ∀ b, Safe (f b)) : Advances (p >>= f) :=
  fun pos buf hpos ↦ Lands.bind (hp pos buf hpos) fun b mid _ _ hlen hlt ↦
    Lands.imp (hf b mid buf hlen) fun _ _ hle _ ↦ Nat.lt_of_lt_of_le hlt hle

theorem safe_ofExcept (x : Except ε β) : Safe (ofExcept x : Parser α ε β) := by
  rcases x with e | b
  · exact safe_fail e
  · exact safe_pure b

theorem safe_rejectIf (c : Prop) [Decidable c] (e : ε) : Safe (rejectIf c e : Parser α ε Unit) := by
  rw [rejectIf]
  split_ifs
  · exact safe_fail e
  · exact safe_pure ()

theorem safe_okOr (x : Option β) (e : ε) : Safe (okOr x e : Parser α ε β) := by
  rcases x with _ | b
  · exact safe_fail e
  · exact safe_pure b

theorem Safe.optional (hp : Safe p) (c : Prop) [Decidable c] : Safe (optional c p) := by
  rw [Parser.optional]
  split_ifs
  · exact hp.map some
  · exact safe_pure none

theorem safe_remaining : Safe (remaining : Parser α ε ℕ) := by
  refine fun pos buf hpos ↦ (lands_inspect hpos ?_).imp fun _ _ _ _ ↦ trivial
  rw [if_pos hpos]
  trivial

theorem safe_position : Safe (position : Parser α ε ℕ) := fun _ _ hpos ↦ lands_pure hpos trivial

theorem Safe.need (hp : Safe p) (short : ε) (n : ℕ) : Safe (need short n p) := by
  apply safe_remaining.bind
  intro left
  split_ifs
  · exact safe_fail short
  · exact hp

theorem Safe.run (hp : Safe p) (buf : List α) : (run buf p).Regular :=
  (hp 0 buf (Nat.zero_le _)).1.bind fun _ _ ↦ trivial

/-- A loop whose rounds do not go wrong on this buffer and consume something does not go wrong. -/
theorem lands_whileDo {cond : Parser α ε Bool} {body : σ → Parser α ε σ} (hcond : Safe cond)
    (hbody : ∀ s pos, pos ≤ buf.length → Lands buf pos (body s) fun _ pos' ↦ pos < pos') (s : σ)
    (hpos : pos ≤ buf.length) : Lands buf pos (whileDo cond body s) fun _ _ ↦ True := by
  -- the rounds left exceed the elements left
  suffices hrounds : ∀ n s pos, pos ≤ buf.length → buf.length - pos < n →
      Lands buf pos (rounds (whileRound cond body) n s) fun _ _ ↦ True from
    hrounds _ s pos hpos (Nat.lt_succ_self _)
  intro n
  induction n with
  | zero => intro _ _ _ hn; exact absurd hn (Nat.not_lt_zero _)
  | succ n ih =>
    intro s pos hpos hn
    have hround : Lands buf pos (whileRound cond body s) fun r mid ↦ r.isLeft → pos < mid := by
      refine Lands.bind (hcond pos buf hpos) fun b mid _ hle hlen _ ↦ ?_
      rcases b with _ | _
      · exact lands_pure hlen fun h ↦ by cases h
      · exact (hbody s mid hlen).bind fun t next _ _ hlen' hlt ↦
          lands_pure hlen' fun _ ↦ Nat.lt_of_le_of_lt hle hlt
    refine hround.bind fun r mid _ _ hlen hlt ↦ ?_
    rcases r with t | t
    · have hlt := hlt rfl
      exact ih t mid hlen (by omega)
    · exact lands_pure hlen trivial

theorem safe_whileDo {cond : Parser α ε Bool} {body : σ → Parser α ε σ} (hcond : Safe cond)
    (hbody : ∀ s, Advances (body s)) (s : σ) : Safe (whileDo cond body s) :=
  fun _ buf hpos ↦ lands_whileDo hcond (fun s pos ↦ hbody s pos buf) s hpos

/-! ## Parsers of a stream -/

/-- On a longer buffer the parser returns the same, unless it asked for more, and then it reads
beyond the shorter buffer. -/
def Streams (short : ε) (p : Parser α ε β) : Prop :=
  ∀ buf ext pos, pos ≤ buf.length → p (buf ++ ext) pos = p buf pos ∨
    p buf pos = .error (.fail short) ∧
      ∀ b pos', p (buf ++ ext) pos = .ok (b, pos') → buf.length < pos'

variable {short : ε}

theorem streams_pure (b : β) : Streams short (pure b : Parser α ε β) := fun _ _ _ _ ↦ .inl rfl

theorem streams_fail (e : ε) : Streams short (fail e : Parser α ε β) := fun _ _ _ _ ↦ .inl rfl

theorem Streams.bind {P : β → Prop} (hp : Streams short p)
    (hensures : ∀ pos, Ensures pos p fun b _ ↦ P b) (hf : ∀ b, P b → Streams short (f b))
    (hsafe : ∀ b, P b → Safe (f b)) : Streams short (p >>= f) := by
  intro buf ext pos hpos
  rcases hp buf ext pos hpos with heq | ⟨hsrt, hbeyond⟩
  · rcases h : p buf pos with e | ⟨b, mid⟩
    · rw [h] at heq
      left
      rw [bind_of_error heq, bind_of_error h]
    · rw [h] at heq
      obtain ⟨-, hmid, hP⟩ := (hensures pos buf hpos).2 b mid h
      rw [bind_of_ok heq, bind_of_ok h]
      exact hf b hP buf ext mid hmid
  · right
    refine ⟨bind_of_error hsrt, fun c pos' hc ↦ ?_⟩
    obtain ⟨b, mid, hb, hc⟩ := exists_of_bind_ok hc
    have hpos' : pos ≤ (buf ++ ext).length := by
      rw [length_append]
      omega
    obtain ⟨-, hmid, hP⟩ := (hensures pos _ hpos').2 b mid hb
    exact Nat.lt_of_lt_of_le (hbeyond b mid hb) ((hsafe b hP mid _ hmid).2 c pos' hc).1

section Prefixes

variable {buf : List α} {k pos' : ℕ} {b : β}

theorem Streams.append (hp : Streams short p) (hpos : pos ≤ buf.length)
    (h : p buf pos ≠ .error (.fail short)) (ext : List α) : p (buf ++ ext) pos = p buf pos :=
  (hp buf ext pos hpos).resolve_right fun hsrt ↦ h hsrt.1

/-- Before a cut the parser returns the same, or asks for more. -/
theorem Streams.take (hp : Streams short p) (hpos : pos ≤ (buf.take k).length) :
    p (buf.take k) pos = .error (.fail short) ∨ p (buf.take k) pos = p buf pos := by
  have h := hp (buf.take k) (buf.drop k) pos hpos
  rw [take_append_drop] at h
  rcases h with heq | ⟨hsrt, -⟩
  · exact .inr heq.symm
  · exact .inl hsrt

/-- A cut behind the last element read does not matter. -/
theorem Streams.take_of_ok (hp : Streams short p) (hpos : pos ≤ (buf.take k).length)
    (h : p buf pos = .ok (b, pos')) (hk : pos' ≤ (buf.take k).length) :
    p (buf.take k) pos = .ok (b, pos') := by
  have hcut := hp (buf.take k) (buf.drop k) pos hpos
  rw [take_append_drop] at hcut
  rcases hcut with heq | ⟨-, hbeyond⟩
  · rw [← heq, h]
  · exact absurd (hbeyond b pos' h) (Nat.not_lt.mpr hk)

end Prefixes

/-! ## Reading what was written -/

/-- At `pos`, with `xs` and then `post` ahead, the parser returns `b` and consumes `xs`. -/
def Reads (pos : ℕ) (post : List α) (p : Parser α ε β) (xs : List α) (b : β) : Prop :=
  ∀ buf, pos ≤ buf.length → buf.drop pos = xs ++ post → p buf pos = .ok (b, pos + xs.length)

variable {post xs ys : List α} {b : β} {c : γ}

theorem reads_pure (pos : ℕ) (post : List α) (b : β) :
    Reads pos post (pure b : Parser α ε β) [] b := fun _ _ _ ↦ rfl

theorem Reads.bind (hp : Reads pos (ys ++ post) p xs b)
    (hf : Reads (pos + xs.length) post (f b) ys c) : Reads pos post (p >>= f) (xs ++ ys) c := by
  intro buf hpos hdrop
  rw [append_assoc] at hdrop
  have hlen := congrArg List.length hdrop
  rw [length_drop, length_append] at hlen
  have hrest : buf.drop (pos + xs.length) = ys ++ post := by rw [← drop_drop, hdrop, drop_left]
  rw [bind_of_ok (hp buf hpos hdrop), hf buf (by omega) hrest, length_append, Nat.add_assoc]

theorem Reads.bind_nil (hp : Reads pos post p xs b)
    (hf : Reads (pos + xs.length) post (f b) [] c) : Reads pos post (p >>= f) xs c := by
  have h : Reads pos post (p >>= f) (xs ++ []) c := Reads.bind hp hf
  rwa [append_nil] at h

theorem Reads.map (hp : Reads pos post p xs b) (g : β → γ) : Reads pos post (g <$> p) xs (g b) :=
  hp.bind_nil (reads_pure _ _ _)

theorem Reads.nil_bind (hp : Reads pos (xs ++ post) p [] b) (hf : Reads pos post (f b) xs c) :
    Reads pos post (p >>= f) xs c :=
  show Reads pos post (p >>= f) ([] ++ xs) c from hp.bind hf

theorem reads_remaining (pos : ℕ) (post : List α) :
    Reads pos post (remaining : Parser α ε ℕ) [] post.length := by
  intro buf hpos hdrop
  rw [remaining_of_le hpos, ← length_drop, hdrop]
  rfl

theorem reads_position (pos : ℕ) (post : List α) :
    Reads pos post (position : Parser α ε ℕ) [] pos := fun _ _ _ ↦ rfl

theorem Reads.need (hp : Reads pos post p xs b) (hn : n ≤ xs.length + post.length) :
    Reads pos post (need short n p) xs b := by
  apply (reads_remaining pos (xs ++ post)).nil_bind
  rwa [length_append, if_neg (Nat.not_lt.mpr hn)]

theorem reads_okOr {o : Option β} (e : ε) (ho : o = some b) :
    Reads pos post (okOr o e : Parser α ε β) [] b := by
  rw [ho]
  exact reads_pure _ _ _

theorem reads_ofExcept {x : Except ε β} (hx : x = .ok b) :
    Reads pos post (ofExcept x : Parser α ε β) [] b := by
  rw [hx]
  exact reads_pure _ _ _

theorem reads_rejectIf {q : Prop} [Decidable q] (hq : ¬q) (e : ε) :
    Reads pos post (rejectIf q e : Parser α ε Unit) [] () := by
  rw [rejectIf, if_neg hq]
  exact reads_pure _ _ _

theorem reads_optional {q : Prop} [Decidable q] {o : Option β} {enc : β → List α}
    (hq : q ↔ o.isSome) (hp : ∀ b ∈ o, Reads pos post p (enc b) b) :
    Reads pos post (optional q p) (o.elim [] enc) o := by
  rw [optional]
  rcases o with _ | b
  · rw [if_neg (by rw [hq]; exact Bool.false_ne_true)]
    exact reads_pure _ _ _
  · rw [if_pos (hq.mpr rfl)]
    exact (hp b rfl).map some

theorem Reads.run (hp : Reads 0 [] p xs b) : run xs p = .ok b := by
  rw [Parser.run, hp xs (Nat.zero_le _) (append_nil xs).symm]
  rfl

section Items

variable {ι : Type} {cond : Parser α ε Bool} {body : σ → Parser α ε σ} {enc : ι → List α}
  {upd : σ → ι → σ} (items : List ι) (s : σ) (pos : ℕ) (post : List α)
  (hmore : ∀ i ∈ items, ∀ k tail, k + (enc i ++ tail).length =
    pos + (items.flatMap enc).length → Reads k (enc i ++ (tail ++ post)) cond [] true)
  (hdone : Reads (pos + (items.flatMap enc).length) post cond [] false)
  (hbody : ∀ i ∈ items, ∀ s k post, Reads k post (body s) (enc i) (upd s i))

include hmore hdone hbody in
theorem reads_rounds {n : ℕ} (hn : items.length < n) :
    Reads pos post (rounds (whileRound cond body) n s) (items.flatMap enc) (items.foldl upd s) := by
  obtain ⟨n, rfl⟩ := Nat.exists_eq_succ_of_ne_zero (Nat.ne_zero_of_lt hn)
  induction items generalizing s pos n with
  | nil =>
    apply Reads.nil_bind (b := Sum.inr s)
    · exact Reads.nil_bind hdone (reads_pure _ _ _)
    · exact reads_pure _ _ _
  | cons i items ih =>
    have hrd : Reads pos (items.flatMap enc ++ post) (whileRound cond body s) (enc i)
        (Sum.inl (upd s i)) := by
      apply Reads.nil_bind (b := true)
      · exact hmore i mem_cons_self pos _ (by rw [flatMap_cons])
      · exact (hbody i mem_cons_self s pos _).map Sum.inl
    obtain ⟨n, rfl⟩ := Nat.exists_eq_succ_of_ne_zero (Nat.ne_zero_of_lt (Nat.lt_of_succ_lt_succ hn))
    rw [flatMap_cons, length_append, ← Nat.add_assoc] at hdone
    apply Reads.bind (b := Sum.inl (upd s i)) hrd
    apply ih _ _ _ hdone (fun j hj ↦ hbody j (mem_cons_of_mem i hj)) n (Nat.lt_of_succ_lt_succ hn)
    intro j hj k tail heq
    apply hmore j (mem_cons_of_mem i hj) k tail
    rw [heq, flatMap_cons, length_append, ← Nat.add_assoc]

variable {items} in
theorem length_le_length_flatMap (hne : ∀ i ∈ items, enc i ≠ []) :
    items.length ≤ (items.flatMap enc).length := by
  induction items with
  | nil => exact Nat.zero_le _
  | cons i items ih =>
    have hi := length_pos_iff.mpr (hne i mem_cons_self)
    have htail := ih fun j hj ↦ hne j (mem_cons_of_mem i hj)
    rw [flatMap_cons, length_append, length_cons]
    omega

include hmore hdone hbody in
/-- A loop reads a list of items, one a round, if the condition holds in front of each of them and
fails after the last. -/
theorem reads_whileDo (hne : ∀ i ∈ items, enc i ≠ []) :
    Reads pos post (whileDo cond body s) (items.flatMap enc) (items.foldl upd s) := by
  intro buf hpos hdrop
  apply reads_rounds items s pos post hmore hdone hbody _ buf hpos hdrop
  have hits := length_le_length_flatMap hne
  have hlen := congrArg List.length hdrop
  rw [length_drop, length_append] at hlen
  omega

end Items

/-! ## Taking a fixed number of elements -/

/-- The parser takes the next `n` elements, if there are so many, and makes a value of them. -/
def Takes (short : ε) (n : ℕ) (g : List α → β) (p : Parser α ε β) : Prop :=
  ∀ buf pos, pos ≤ buf.length → p buf pos =
    if buf.length < pos + n then .error (.fail short)
    else .ok (g ((buf.drop pos).take n), pos + n)

variable {n : ℕ} {g : List α → β}

theorem takes_need (hp : ∀ buf pos, pos + n ≤ buf.length →
    p buf pos = .ok (g ((buf.drop pos).take n), pos + n)) : Takes short n g (need short n p) := by
  intro buf pos hpos
  rw [need, bind_of_ok (remaining_of_le hpos)]
  split_ifs with hleft hlen hlen
  · rfl
  · omega
  · omega
  · exact hp buf pos (by omega)

variable (h : Takes short n g p)

include h

theorem Takes.map (k : β → γ) : Takes short n (fun xs ↦ k (g xs)) (k <$> p) := by
  intro buf pos hpos
  change (p >>= fun b ↦ pure (k b)) buf pos = _
  rw [bind_apply, h buf pos hpos]
  split_ifs <;> rfl

theorem Takes.ensures (pos : ℕ) : Ensures pos p fun _ pos' ↦ pos' = pos + n := by
  intro buf hpos
  rw [h buf pos hpos]
  split_ifs with hlen
  · exact ⟨trivial, fun _ _ hb ↦ by cases hb⟩
  · refine ⟨trivial, fun b pos' hb ↦ ?_⟩
    cases hb
    exact ⟨Nat.le_add_right _ _, Nat.le_of_not_lt hlen, rfl⟩

theorem Takes.safe : Safe p := .of_ensures h.ensures

theorem Takes.advances (hn : 0 < n) : Advances p := by
  intro pos
  apply (h.ensures pos).imp
  rintro _ _ rfl
  exact Nat.lt_add_of_pos_right hn

theorem Takes.streams : Streams short p := by
  intro buf ext pos hpos
  have hlen : (buf ++ ext).length = buf.length + ext.length := length_append
  rw [h buf pos hpos, h (buf ++ ext) pos (by omega)]
  by_cases hsrt : buf.length < pos + n
  · right
    refine ⟨if_pos hsrt, fun b pos' hb ↦ ?_⟩
    split_ifs at hb
    cases hb
    exact hsrt
  · left
    rw [if_neg hsrt, if_neg (by omega), drop_append_of_le_length hpos, take_append_of_le_length]
    rw [length_drop]
    omega

theorem Takes.reads (pos : ℕ) (post : List α) (hxs : xs.length = n) :
    Reads pos post p xs (g xs) := by
  intro buf hpos hdrop
  have hlen := congrArg List.length hdrop
  rw [length_drop, length_append] at hlen
  rw [h buf pos hpos, if_neg (by omega), hdrop, ← hxs, take_left]

end Parser

end Parse
