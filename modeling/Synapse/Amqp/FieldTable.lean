import Synapse.Amqp.Codec

/-!
# Field tables

Methods and content headers carry tables of named values, which the broker only skips. A value may
be a table again, read by a reader of its own, or an array, whose number of values is up to the
peer. Every value takes at least its type byte, so a call inside a call has less of the buffer left,
and fuel beyond the bytes left is never used up (`skipFieldValue_skips`). `skip_spec` is the result:
from any position, skipping ends, stays inside the buffer, and leaves a table at its declared end.
-/

namespace Synapse.Amqp.Reader

open Parse Parse.Parser

/-- Check that `len` bytes are left and skip them, reading them as the entries of a table. -/
def skipEntries (value : Reader Unit) (len : ℕ) : Parser UInt8 ProtocolError Unit :=
  need .incomplete len do
    let table ← window len
    let _ ← inspect fun _ _ ↦ run table <| whileDo ((0 < ·) <$> remaining)
      (fun bits ↦ Prod.snd <$> (shortStr >>= fun _key ↦ value).run bits) ⟨0, 0⟩
    advance len

/-- Read and discard a field table, whose values are skipped by `value`. -/
def skipTable (value : Reader Unit) : Reader Unit := do
  flushBits
  let len ← u32
  StateT.lift (skipEntries value len.toNat)

/-- `for _ in 0..count { value }`. -/
def times (value : Reader Unit) : ℕ → Reader Unit
  | 0 => pure ()
  | count + 1 => do
    value
    times value count

/-- Skip what follows the type byte of a value; `value` skips the values inside it. -/
def skipTyped (value : Reader Unit) (ty : UInt8) : Reader Unit :=
  match Char.ofNat ty.toNat with
  | 't' | 'b' | 'B' => discard u8
  | 's' => discard u16
  | 'I' | 'f' => discard u32
  | 'l' | 'd' | 'T' => discard u64
  | 'D' => do
    let _ ← u8
    discard u32
  | 'S' => discard shortStr
  | 'x' => do
    let len ← u32
    discard (take len.toNat)
  | 'L' => discard longStr
  | 'F' => skipTable value
  | 'A' => do
    let count ← u32
    times value count.toNat
  | 'V' => pure ()
  | _ => StateT.lift (fail (.malformed "unknown field-table type"))

/-- Skip one value of a field table, with calls nested less deep than the fuel. -/
def skipFieldValue : ℕ → Reader Unit
  | 0 => StateT.lift fun _ _ ↦ .error .spin
  | fuel + 1 => do
    let ty ← u8
    skipTyped (skipFieldValue fuel) ty

variable {value : Reader Unit} {buf : Bytes} {pos n : ℕ}

/-- With fewer than `n` bytes left the reader does not go wrong, and consumes something. -/
def Skips (n : ℕ) (value : Reader Unit) : Prop :=
  ∀ bits buf pos, pos ≤ buf.length → buf.length - pos < n →
    Lands buf pos (value.run bits) fun _ pos' ↦ pos < pos'

theorem lands_unsigned {β : Type} (k : ℕ) (f : ℕ → β) (bits : Bits) (hpos : pos ≤ buf.length) :
    Lands buf pos ((f <$> unsigned k).run bits) fun _ pos' ↦ pos' = pos + k :=
  ((takes_unsigned k bits).map fun r ↦ (f r.1, r.2)).ensures pos buf hpos

theorem Skips.entries (h : Skips n value) (len : ℕ) (hpos : pos ≤ buf.length)
    (hn : buf.length - pos < n) :
    Lands buf pos (skipEntries value len) fun _ pos' ↦ pos' = pos + len := by
  rw [skipEntries, need, Lands, bind_of_ok (remaining_of_le hpos)]
  split_ifs with hsrt
  · exact ⟨trivial, by rintro _ _ ⟨⟩⟩
  have hle : pos + len ≤ buf.length := by omega
  rw [bind_of_ok (window_of_le hle)]
  generalize htab : (buf.drop pos).take len = table
  have hfew : table.length < n := by
    rw [← htab, List.length_take, List.length_drop]
    omega
  have hloop : Lands table 0 (whileDo ((0 < ·) <$> remaining)
      (fun bits ↦ Prod.snd <$> (shortStr >>= fun _ ↦ value).run bits) ⟨0, 0⟩) fun _ _ ↦ True := by
    refine lands_whileDo (safe_remaining.map _) (fun bits p hp ↦ ?_) _ (Nat.zero_le _)
    refine Lands.bind (Lands.bind (safe_shortStr bits p table hp) fun r mid _ hle hmid _ ↦
      (h r.2 table mid hmid (by omega)).imp fun _ _ _ ↦ Nat.lt_of_le_of_lt hle) ?_
    exact fun _ _ _ _ hin hlt ↦ lands_pure hin hlt
  refine (lands_inspect hpos ?_).bind ?_
  · exact hloop.1.bind fun _ _ ↦ trivial
  rintro _ _ - - - rfl
  refine ⟨trivial, fun _ _ h ↦ ?_⟩
  cases h
  exact ⟨Nat.le_add_right _ _, hle, rfl⟩

theorem Skips.table (h : Skips n value) (bits : Bits) (hpos : pos ≤ buf.length)
    (hn : buf.length - pos ≤ n) : Lands buf pos ((skipTable value).run bits) fun _ pos' ↦
      ∃ len bits', u32.run bits buf pos = .ok ((len, bits'), pos + 4) ∧
        pos' = pos + 4 + len.toNat := by
  change Lands buf pos (u32.run bits >>= fun r ↦
    (StateT.lift (skipEntries value r.1.toNat)).run r.2) _
  refine (lands_unsigned 4 _ bits hpos).bind ?_
  rintro ⟨len, bits'⟩ _ hlen - hin rfl
  exact (h.entries len.toNat hin (by omega)).bind fun _ _ _ _ hin' heq ↦
    lands_pure hin' ⟨len, bits', hlen, heq⟩

theorem Skips.times (h : Skips n value) (count : ℕ) (bits : Bits) (hpos : pos ≤ buf.length)
    (hn : buf.length - pos < n) : Lands buf pos ((times value count).run bits) fun _ _ ↦ True := by
  induction count generalizing bits pos with
  | zero => exact lands_pure hpos trivial
  | succ count ih =>
    exact (h bits buf pos hpos hn).bind fun r mid _ _ hlen hlt ↦ ih r.2 hlen (by omega)

theorem Skips.typed (h : Skips n value) (ty : UInt8) (bits : Bits) (hpos : pos ≤ buf.length)
    (hn : buf.length - pos < n) : Lands buf pos ((skipTyped value ty).run bits) fun _ _ ↦ True := by
  have hsafe : ∀ {r : Reader Unit}, r.Safe → Lands buf pos (r.run bits) fun _ _ ↦ True :=
    fun hr ↦ hr bits pos buf hpos
  have hnum (k : ℕ) {β : Type} (f : ℕ → β) : Safe (f <$> unsigned k) := (safe_unsigned k).map f
  rw [skipTyped]
  split
  case h_10 => exact hsafe ((hnum 1 _).bind fun _ ↦ (hnum 4 _).map _)
  case h_11 => exact hsafe (safe_shortStr.map _)
  case h_12 => exact hsafe ((hnum 4 _).bind fun _ ↦ (safe_take _).map _)
  case h_13 => exact hsafe (safe_longStr.map _)
  case h_14 => exact (h.table bits hpos (Nat.le_of_lt hn)).imp fun _ _ _ _ ↦ trivial
  case h_15 =>
    change Lands buf pos (u32.run bits >>= fun r ↦ (Reader.times value r.1.toNat).run r.2) _
    refine (lands_unsigned 4 _ bits hpos).bind fun r mid _ hle hlen _ ↦ ?_
    exact h.times r.1.toNat r.2 hlen (by omega)
  case h_16 => exact lands_pure hpos trivial
  case h_17 => exact ⟨trivial, nofun⟩
  all_goals exact hsafe ((hnum _ _).map _)

theorem skipFieldValue_skips (n : ℕ) : Skips n (skipFieldValue n) := by
  induction n with
  | zero => exact fun _ _ _ _ hn ↦ absurd hn (Nat.not_lt_zero _)
  | succ n ih =>
    intro bits buf pos hpos hn
    change Lands buf pos (u8.run bits >>= fun r ↦ (skipTyped (skipFieldValue n) r.1).run r.2) _
    refine (lands_unsigned 1 _ bits hpos).bind ?_
    rintro ⟨ty, bits⟩ _ - - hin rfl
    exact (ih.typed ty bits hin (by omega)).imp fun _ _ hle _ ↦ hle

/-- **Skipping field tables.** Skipping ends, with fuel for the bytes left, and reads nothing
outside the buffer. A value takes at least a byte; a table its length field and the bytes that
declares. -/
theorem skip_spec (buf : Bytes) (pos : ℕ) (hpos : pos ≤ buf.length) (bits : Bits) (fuel : ℕ)
    (hfuel : buf.length - pos < fuel) :
    ((skipFieldValue fuel).run bits buf pos).Regular ∧
    ((skipTable (skipFieldValue fuel)).run bits buf pos).Regular ∧
    (∀ r pos', (skipFieldValue fuel).run bits buf pos = .ok (r, pos') →
      pos < pos' ∧ pos' ≤ buf.length) ∧
    ∀ r pos', (skipTable (skipFieldValue fuel)).run bits buf pos = .ok (r, pos') →
      pos' ≤ buf.length ∧ ∃ len bits', u32.run bits buf pos = .ok ((len, bits'), pos + 4) ∧
        pos' = pos + 4 + len.toNat := by
  have hval := skipFieldValue_skips fuel bits buf pos hpos hfuel
  have htab := (skipFieldValue_skips fuel).table bits hpos (Nat.le_of_lt hfuel)
  refine ⟨hval.1, htab.1, fun r pos' hok ↦ ?_, fun r pos' hok ↦ (htab.2 r pos' hok).2⟩
  obtain ⟨-, hin, hlt⟩ := hval.2 r pos' hok
  exact ⟨hlt, hin⟩

/-- A table with two entries: a table with an entry without value, and an array of two values. -/
def nestedTable : Bytes :=
  [0, 0, 0, 19, 1, 97, 70, 0, 0, 0, 3, 1, 98, 86, 1, 99, 65, 0, 0, 0, 2, 86, 86]

theorem skip_spec_nested :
    (skipTable (skipFieldValue 24)).run ⟨0, 0⟩ nestedTable 0 = .ok (((), ⟨0, 0⟩), 23) ∧
      ∃ len bits', u32.run ⟨0, 0⟩ nestedTable 0 = .ok ((len, bits'), 4) ∧ 23 = 4 + len.toNat := by
  have hok : (skipTable (skipFieldValue 24)).run ⟨0, 0⟩ nestedTable 0 =
    .ok (((), ⟨0, 0⟩), 23) := by decide +kernel
  exact ⟨hok, ((skip_spec _ 0 (by decide) ⟨0, 0⟩ 24 (by decide)).2.2.2 _ _ hok).2⟩

end Synapse.Amqp.Reader
