import Synapse.Mqtt.Encode
import Synapse.Mqtt.Reader

/-!
# Fields survive the wire

Every method of the writer appends, and the reader's method of the same name reads back what it
appended, as long as it fits: `Codes` says so for the six types of a field, and `codes_properties`
for a property block.

A block is read by a loop that does not know which properties to expect. The proof follows the
writer: each of its steps appends some whole properties, and reading those in the loop has a known
effect on the block read so far (`Adds`). The effects of all steps together turn the empty block
into the one that was written.
-/

namespace Synapse.Mqtt

open ByteCode Parse Parse.Parser List

/-- The bytes a method of the writer appends. -/
def written {β : Type} (write : Writer → β → Writer) (v : β) : Bytes := (write .new v).buf

/-- The writer's method appends, and the reader's reads back what fits. -/
structure Codes {β : Type} (read : Reader β) (write : Writer → β → Writer) (Fits : β → Prop) :
    Prop where
  append : ∀ w v, (write w v).buf = w.buf ++ written write v
  reads : ∀ v, Fits v → ∀ pos post, Reads pos post read (written write v) v

theorem Codes.append_ifSome {β : Type} {read : Reader β} {write : Writer → β → Writer}
    {Fits : β → Prop} (hcds : Codes read write Fits) (w : Writer) (o : Option β) :
    (w.ifSome write o).buf = w.buf ++ o.elim [] (written write) := by
  rcases o with _ | v
  · exact (append_nil _).symm
  · exact hcds.append w v

theorem codes_u8 : Codes Reader.u8 Writer.u8 fun _ ↦ True where
  append _ _ := rfl
  reads _ _ pos post := Reader.takes_u8.reads pos post rfl

theorem codes_u16 : Codes Reader.u16 Writer.u16 fun _ ↦ True where
  append _ _ := rfl
  reads v _ pos post := by
    have h : Reads pos post Reader.u16 (beBytes 2 v.toNat) (.ofNat (beNat (beBytes 2 v.toNat))) :=
      Reader.takes_u16.reads pos post (length_beBytes 2 _)
    rwa [beNat_beBytes_of_lt v.toNat_lt, UInt16.ofNat_toNat] at h

theorem codes_u32 : Codes Reader.u32 Writer.u32 fun _ ↦ True where
  append _ _ := rfl
  reads v _ pos post := by
    have h : Reads pos post Reader.u32 (beBytes 4 v.toNat) (.ofNat (beNat (beBytes 4 v.toNat))) :=
      Reader.takes_u32.reads pos post (length_beBytes 4 _)
    rwa [beNat_beBytes_of_lt v.toNat_lt, UInt32.ofNat_toNat] at h

theorem codes_binary : Codes Reader.binary Writer.binary fun b ↦ b.length ≤ 65535 where
  append w b := append_assoc _ _ _
  reads b hb pos post := by
    have hlen : (UInt16.ofNat b.length).toNat = b.length :=
      UInt16.toNat_ofNat_of_lt (lt_of_le_of_lt hb (by decide))
    apply (codes_u16.reads (.ofNat b.length) trivial pos _).bind
    exact (Reader.takes_bytes _).reads _ post hlen.symm

theorem codes_string : Codes Reader.string Writer.string fun s ↦ (asBytes s).length ≤ 65535 where
  append w s := append_assoc _ _ _
  reads s hs pos post := by
    have hlen : (UInt16.ofNat (asBytes s).length).toNat = (asBytes s).length :=
      UInt16.toNat_ofNat_of_lt (lt_of_le_of_lt hs (by decide))
    apply (codes_u16.reads (.ofNat (asBytes s).length) trivial pos _).bind
    apply Reads.bind_nil ((Reader.takes_bytes _).reads _ post hlen.symm)
    exact reads_okOr _ (fromUtf8_asBytes s)

/-! ## Variable-byte integers -/

variable {b : UInt8} {v : UInt32} {w w' : Writer} {effect : Properties → Properties}

theorem top_bit (hb : b.toNat < 128) :
    b &&& 0x80 = 0 ∧ b &&& 0x7F = b ∧ (b ||| 0x80) &&& 0x80 ≠ 0 ∧ (b ||| 0x80) &&& 0x7F = b := by
  have hall : ∀ n < 128, UInt8.ofNat n &&& 0x80 = 0 ∧ UInt8.ofNat n &&& 0x7F = UInt8.ofNat n ∧
      (UInt8.ofNat n ||| 0x80) &&& 0x80 ≠ 0 ∧
      (UInt8.ofNat n ||| 0x80) &&& 0x7F = UInt8.ofNat n := by decide
  have h := hall b.toNat hb
  rwa [UInt8.ofNat_toNat] at h

theorem toNat_low_bits (v : UInt32) : (v &&& 0x7F).toUInt8.toNat = v.toNat % 128 := by
  rw [UInt32.toNat_toUInt8, UInt32.toNat_and]
  have hmask : (0x7F : UInt32).toNat = 2 ^ 7 - 1 := rfl
  rw [hmask, Nat.and_two_pow_sub_one_eq_mod]
  omega

theorem toNat_shiftRight_seven (v : UInt32) : (v >>> 7).toNat = v.toNat / 128 := by
  rw [UInt32.toNat_shiftRight]
  exact Nat.shiftRight_eq_div_pow _ 7

theorem varintLoop_append (n : ℕ) (w : Writer) (v : UInt32) :
    (Writer.varintLoop n w v).buf = w.buf ++ written (Writer.varintLoop n) v := by
  induction n generalizing w v with
  | zero => exact (append_nil _).symm
  | succ n ih =>
    rw [written]
    dsimp only [Writer.varintLoop]
    split_ifs
    · rfl
    · rfl
    · rw [ih, ih (Writer.u8 _ _)]
      exact append_assoc _ _ _
    · rw [ih, ih (Writer.u8 _ _)]
      exact append_assoc _ _ _

theorem written_varintLoop_of_lt (n : ℕ) (hv : v.toNat < 128) :
    written (Writer.varintLoop (n + 1)) v = [(v &&& 0x7F).toUInt8] := by
  have hzero : v >>> 7 = 0 := UInt32.toNat_inj.mp (by
    rw [toNat_shiftRight_seven, Nat.div_eq_of_lt hv]
    rfl)
  rw [written]
  dsimp only [Writer.varintLoop]
  rw [hzero, if_pos rfl, if_neg (by decide)]
  rfl

theorem written_varintLoop_of_le (n : ℕ) (hv : 128 ≤ v.toNat) :
    written (Writer.varintLoop (n + 1)) v =
      [(v &&& 0x7F).toUInt8 ||| 0x80] ++ written (Writer.varintLoop n) (v >>> 7) := by
  have hpos : (0 : UInt32) < v >>> 7 := by
    rw [UInt32.lt_iff_toNat_lt, toNat_shiftRight_seven]
    exact Nat.div_pos hv (by decide)
  have hne : v >>> 7 ≠ 0 := fun h ↦ absurd hpos (by rw [h]; decide)
  rw [written]
  dsimp only [Writer.varintLoop]
  rw [if_neg hne, if_pos hpos, varintLoop_append]
  rfl

theorem reads_varintRound_last (s : Reader.VarintState) (hb : b.toNat < 128) (pos : ℕ)
    (post : Bytes) :
    Reads pos post (Reader.varintRound s) [b]
      (.inr (.ofNat (s.value + b.toNat * s.multiplier), s.consumed + 1)) := by
  obtain ⟨htop, hlow, -⟩ := top_bit hb
  apply (codes_u8.reads b trivial pos post).bind_nil
  rw [if_pos htop, hlow]
  exact reads_pure _ _ _

theorem reads_varintRound_more (s : Reader.VarintState) (hb : b.toNat < 128)
    (hmul : s.multiplier * 128 < 2 ^ 32) (hconsumed : s.consumed + 1 < 4) (pos : ℕ) (post : Bytes) :
    Reads pos post (Reader.varintRound s) [b ||| 0x80]
      (.inl ⟨s.multiplier * 128, s.value + b.toNat * s.multiplier, s.consumed + 1⟩) := by
  obtain ⟨-, -, htop, hlow⟩ := top_bit hb
  apply (codes_u8.reads (b ||| 0x80) trivial pos post).bind_nil
  rw [if_neg htop, if_neg (Nat.not_le.mpr hmul), if_neg (Nat.not_le.mpr hconsumed), hlow]
  exact reads_pure _ _ _

/-- The reader's loop undoes the writer's. With `n` rounds to go, `4 - n` groups of seven bits have
been read. -/
theorem reads_varintLoop (n k : ℕ) (s : Reader.VarintState) (v : UInt32) (hnk : n ≤ k)
    (hn : s.consumed + n = 4) (hmul : s.multiplier = 128 ^ s.consumed) (hv : v.toNat < 128 ^ n)
    (hpos : 0 < n) (pos : ℕ) (post : Bytes) :
    Reads pos post (rounds Reader.varintRound n s) (written (Writer.varintLoop k) v)
      (.ofNat (s.value + v.toNat * s.multiplier),
        s.consumed + (written (Writer.varintLoop k) v).length) := by
  induction n generalizing k s v pos with
  | zero => omega
  | succ n ih =>
    obtain ⟨k, rfl⟩ := Nat.exists_eq_add_of_le' (le_trans hpos hnk)
    have hb : (v &&& 0x7F).toUInt8.toNat < 128 := by
      rw [toNat_low_bits]
      exact Nat.mod_lt _ (by decide)
    -- the value fits into this byte, or the byte carries the continuation bit
    by_cases hlow : v.toNat < 128
    · have hrd := reads_varintRound_last s hb pos post
      rw [toNat_low_bits, Nat.mod_eq_of_lt hlow] at hrd
      rw [written_varintLoop_of_lt k hlow]
      exact hrd.bind_nil (reads_pure _ _ _)
    · have hle := Nat.le_of_not_lt hlow
      have hn' : 0 < n := by
        by_contra hzero
        obtain rfl : n = 0 := by omega
        omega
      have hmul' : s.multiplier * 128 = 128 ^ (s.consumed + 1) := by rw [hmul, Nat.pow_succ]
      have hbound : 128 ^ (s.consumed + 1) ≤ 128 ^ 3 := Nat.pow_le_pow_right (by decide) (by omega)
      have hsp : v.toNat % 128 * s.multiplier + v.toNat / 128 * (s.multiplier * 128) =
          v.toNat * s.multiplier := by
        rw [Nat.mul_comm s.multiplier 128, ← Nat.mul_assoc, ← Nat.add_mul,
          Nat.mul_comm (v.toNat / 128), Nat.mod_add_div]
      have hrest := ih k ⟨s.multiplier * 128, s.value + v.toNat % 128 * s.multiplier,
        s.consumed + 1⟩ (v >>> 7) (by omega) (by dsimp only; omega) hmul'
        (by rw [toNat_shiftRight_seven]; rw [Nat.pow_succ] at hv; omega) hn' (pos + 1)
      have hrd := reads_varintRound_more s hb (by omega) (by omega) pos
        (written (Writer.varintLoop k) (v >>> 7) ++ post)
      rw [toNat_low_bits] at hrd
      rw [toNat_shiftRight_seven, add_assoc, hsp, add_assoc] at hrest
      rw [written_varintLoop_of_le k hle, length_append]
      exact hrd.bind hrest

theorem reads_varint (hv : v.toNat ≤ 268435455) (pos : ℕ) (post : Bytes) :
    Reads pos post Reader.varint (written Writer.varint v)
      (v, (written Writer.varint v).length) := by
  have h := reads_varintLoop 4 5 ⟨1, 0, 0⟩ v (by decide) rfl rfl (by omega) (by decide) pos post
  rwa [zero_add, zero_add, Nat.mul_one, UInt32.ofNat_toNat] at h

theorem codes_varint :
    Codes (Prod.fst <$> Reader.varint) Writer.varint fun v ↦ v.toNat ≤ 268435455 where
  append w v := varintLoop_append 5 w v
  reads _ hv pos post := (reads_varint hv pos post).map Prod.fst

theorem written_varint_ne_nil (v : UInt32) : written Writer.varint v ≠ [] := by
  intro hnil
  rcases Nat.lt_or_ge v.toNat 128 with hlow | hhigh
  · exact cons_ne_nil _ _ ((written_varintLoop_of_lt 4 hlow).symm.trans hnil)
  · exact cons_ne_nil _ _ ((written_varintLoop_of_le 4 hhigh).symm.trans hnil)

/-! ## Property blocks -/

/-- Between `w` and `w'` whole properties were written, and reading them in the loop over a block
has this effect. -/
def Adds (w w' : Writer) (effect : Properties → Properties) : Prop :=
  ∃ items : List (Bytes × (Properties → Properties)),
    w'.buf = w.buf ++ items.flatMap Prod.fst ∧
    (∀ q, effect q = items.foldl (fun q i ↦ i.2 q) q) ∧
    ∀ i ∈ items, i.1 ≠ [] ∧ ∀ q pos post, Reads pos post (Reader.property q) i.1 (i.2 q)

theorem Adds.refl (w : Writer) : Adds w w fun q ↦ q := ⟨[], (append_nil _).symm, fun _ ↦ rfl, nofun⟩

theorem Adds.trans {w'' : Writer} {e e' : Properties → Properties} (h : Adds w w' e)
    (h' : Adds w' w'' e') : Adds w w'' (e' ∘ e) := by
  obtain ⟨items, hbuf, heff, hits⟩ := h
  obtain ⟨items', hbuf', heff', hits'⟩ := h'
  refine ⟨items ++ items', ?_, fun q ↦ ?_, forall_mem_append.mpr ⟨hits, hits'⟩⟩
  · rw [hbuf', hbuf, flatMap_append, append_assoc]
  · rw [foldl_append, ← heff, ← heff']
    rfl

theorem Adds.single (id : UInt8) (xs : Bytes) (hbuf : w'.buf = w.buf ++ ([id] ++ xs))
    (hrds : ∀ q pos post, Reads pos post (Reader.propertyValue q id) xs (effect q)) :
    Adds w w' effect := by
  refine ⟨[([id] ++ xs, effect)], ?_, fun _ ↦ rfl, fun i hi ↦ ?_⟩
  · rw [hbuf, flatMap_singleton]
  · obtain rfl := mem_singleton.mp hi
    refine ⟨cons_ne_nil _ _, fun q pos post ↦ ?_⟩
    exact (codes_u8.reads id trivial pos _).bind (hrds q _ post)

/-- A property that may be absent is read into its field, and the field stays if it is absent. -/
theorem Adds.option {β : Type} {read : Reader β} {write : Writer → β → Writer} {Fits : β → Prop}
    (h : Adds w w' effect) {id : UInt8} (hcds : Codes read write Fits) {o : Option β}
    (ho : ∀ v ∈ o, Fits v) (get : Properties → Option β) (set : Properties → Option β → Properties)
    (hset : ∀ q, set q (get q) = q := by exact fun _ ↦ rfl)
    (hread : ∀ q, Reader.propertyValue q id = (fun v ↦ set q (some v)) <$> read := by
      exact fun _ ↦ rfl) :
    Adds w (w'.option id write o) fun q ↦ set (effect q) (o.or (get (effect q))) := by
  rcases o with _ | v
  · have hsame : (fun q ↦ set (effect q) (none.or (get (effect q)))) = effect :=
      funext fun q ↦ hset (effect q)
    rwa [hsame]
  · have hv : Adds w' (w'.option id write (some v)) fun q ↦ set q (some v) := by
      apply Adds.single id (written write v)
      · rw [Writer.option, Writer.ifSome, hcds.append]
        exact append_assoc _ _ _
      · intro q pos post
        rw [hread]
        exact (hcds.reads v (ho v rfl) pos post).map _
    exact h.trans hv

theorem adds_userProperties {properties : List (String × String)}
    (h : ∀ kv ∈ properties, (asBytes kv.1).length ≤ 65535 ∧ (asBytes kv.2).length ≤ 65535)
    (w : Writer) :
    Adds w (properties.foldl Writer.userProperty w) fun q ↦
      { q with userProperties := q.userProperties ++ properties } := by
  induction properties generalizing w with
  | nil =>
    have hsame : (fun q : Properties ↦ { q with userProperties := q.userProperties ++ [] }) =
        fun q ↦ q := by
      funext q
      rw [append_nil]
    rw [hsame]
    exact .refl w
  | cons kv properties ih =>
    obtain ⟨hk, hv⟩ := h kv mem_cons_self
    have hfst : Adds w (w.userProperty kv) fun q ↦
        { q with userProperties := q.userProperties ++ [kv] } := by
      apply Adds.single PropId.userProperty
        (written Writer.string kv.1 ++ written Writer.string kv.2)
      · rw [Writer.userProperty, codes_string.append, codes_string.append, append_assoc]
        exact append_assoc _ _ _
      · intro q pos post
        apply (codes_string.reads kv.1 hk pos _).bind
        exact (codes_string.reads kv.2 hv _ post).bind_nil (reads_pure _ _ _)
    have hrest := ih (fun kv' hkv' ↦ h kv' (mem_cons_of_mem kv hkv')) (w.userProperty kv)
    have heff : (fun q : Properties ↦
        { q with userProperties := q.userProperties ++ kv :: properties }) =
        (fun q ↦ { q with userProperties := q.userProperties ++ properties }) ∘
          fun q ↦ { q with userProperties := q.userProperties ++ [kv] } := by
      funext q
      rw [Function.comp_apply, append_assoc, singleton_append]
    rw [heff]
    exact hfst.trans hrest

theorem Adds.reads (h : Adds .new w effect) (q : Properties) (start : ℕ) (post : Bytes) :
    Reads start post
      (whileDo (do return (← position) < start + w.buf.length) Reader.property q) w.buf
      (effect q) := by
  obtain ⟨items, hbuf, heff, hits⟩ := h
  rw [Writer.new, nil_append] at hbuf
  rw [hbuf, heff]
  apply reads_whileDo items q start post _ _ _ fun i hi ↦ (hits i hi).1
  · intro i hi k tail hk
    apply (reads_position _ _).nil_bind
    have hlt : k < start + (items.flatMap Prod.fst).length := by
      have := length_pos_iff.mpr (hits i hi).1
      rw [length_append] at hk
      omega
    rw [decide_eq_true hlt]
    exact reads_pure _ _ _
  · apply (reads_position _ _).nil_bind
    rw [decide_eq_false (lt_irrefl _)]
    exact reads_pure _ _ _
  · exact fun i hi ↦ (hits i hi).2

/-- The texts and binary data of a block fit their lengths, and the subscription identifier fits
four bytes. -/
structure Properties.Representable (p : Properties) : Prop where
  contentType : ∀ s ∈ p.contentType, (asBytes s).length ≤ 65535
  responseTopic : ∀ s ∈ p.responseTopic, (asBytes s).length ≤ 65535
  correlationData : ∀ b ∈ p.correlationData, b.length ≤ 65535
  subscriptionIdentifier : ∀ v ∈ p.subscriptionIdentifier, v.toNat ≤ 268435455
  assignedClientIdentifier : ∀ s ∈ p.assignedClientIdentifier, (asBytes s).length ≤ 65535
  authenticationMethod : ∀ s ∈ p.authenticationMethod, (asBytes s).length ≤ 65535
  authenticationData : ∀ b ∈ p.authenticationData, b.length ≤ 65535
  responseInformation : ∀ s ∈ p.responseInformation, (asBytes s).length ≤ 65535
  serverReference : ∀ s ∈ p.serverReference, (asBytes s).length ≤ 65535
  reasonString : ∀ s ∈ p.reasonString, (asBytes s).length ≤ 65535
  userProperties : ∀ kv ∈ p.userProperties,
    (asBytes kv.1).length ≤ 65535 ∧ (asBytes kv.2).length ≤ 65535

theorem adds_propertiesBody {p : Properties} (hp : p.Representable) :
    ∃ effect, Adds .new (Writer.propertiesBody p) effect ∧ effect .default = p := by
  have any {β : Type} {o : Option β} : ∀ v ∈ o, True := fun _ _ ↦ trivial
  refine ⟨_, Adds.refl .new
    |>.option codes_u8 any (·.payloadFormatIndicator)
      (fun q o ↦ { q with payloadFormatIndicator := o })
    |>.option codes_u32 any (·.messageExpiryInterval)
      (fun q o ↦ { q with messageExpiryInterval := o })
    |>.option codes_string hp.contentType (·.contentType) (fun q o ↦ { q with contentType := o })
    |>.option codes_string hp.responseTopic (·.responseTopic)
      (fun q o ↦ { q with responseTopic := o })
    |>.option codes_binary hp.correlationData (·.correlationData)
      (fun q o ↦ { q with correlationData := o })
    |>.option codes_varint hp.subscriptionIdentifier (·.subscriptionIdentifier)
      (fun q o ↦ { q with subscriptionIdentifier := o })
    |>.option codes_u32 any (·.sessionExpiryInterval)
      (fun q o ↦ { q with sessionExpiryInterval := o })
    |>.option codes_string hp.assignedClientIdentifier (·.assignedClientIdentifier)
      (fun q o ↦ { q with assignedClientIdentifier := o })
    |>.option codes_u16 any (·.serverKeepAlive) (fun q o ↦ { q with serverKeepAlive := o })
    |>.option codes_string hp.authenticationMethod (·.authenticationMethod)
      (fun q o ↦ { q with authenticationMethod := o })
    |>.option codes_binary hp.authenticationData (·.authenticationData)
      (fun q o ↦ { q with authenticationData := o })
    |>.option codes_u8 any (·.requestProblemInformation)
      (fun q o ↦ { q with requestProblemInformation := o })
    |>.option codes_u32 any (·.willDelayInterval) (fun q o ↦ { q with willDelayInterval := o })
    |>.option codes_u8 any (·.requestResponseInformation)
      (fun q o ↦ { q with requestResponseInformation := o })
    |>.option codes_string hp.responseInformation (·.responseInformation)
      (fun q o ↦ { q with responseInformation := o })
    |>.option codes_string hp.serverReference (·.serverReference)
      (fun q o ↦ { q with serverReference := o })
    |>.option codes_string hp.reasonString (·.reasonString) (fun q o ↦ { q with reasonString := o })
    |>.option codes_u16 any (·.receiveMaximum) (fun q o ↦ { q with receiveMaximum := o })
    |>.option codes_u16 any (·.topicAliasMaximum) (fun q o ↦ { q with topicAliasMaximum := o })
    |>.option codes_u16 any (·.topicAlias) (fun q o ↦ { q with topicAlias := o })
    |>.option codes_u8 any (·.maximumQos) (fun q o ↦ { q with maximumQos := o })
    |>.option codes_u8 any (·.retainAvailable) (fun q o ↦ { q with retainAvailable := o })
    |>.trans (adds_userProperties hp.userProperties _)
    |>.option codes_u32 any (·.maximumPacketSize) (fun q o ↦ { q with maximumPacketSize := o })
    |>.option codes_u8 any (·.wildcardSubscriptionAvailable)
      (fun q o ↦ { q with wildcardSubscriptionAvailable := o })
    |>.option codes_u8 any (·.subscriptionIdentifierAvailable)
      (fun q o ↦ { q with subscriptionIdentifierAvailable := o })
    |>.option codes_u8 any (·.sharedSubscriptionAvailable)
      (fun q o ↦ { q with sharedSubscriptionAvailable := o }), ?_⟩
  apply Properties.ext
  all_goals first
    | exact Option.or_none
    | exact nil_append _

theorem written_properties (p : Properties) : written Writer.properties p =
      written Writer.varint (.ofNat (Writer.propertiesBody p).buf.length) ++
        (Writer.propertiesBody p).buf := rfl

theorem codes_properties : Codes Reader.properties Writer.properties fun p ↦
    p.Representable ∧ (written Writer.properties p).length ≤ 268435455 where
  append w p := by
    have h := codes_varint.append w (.ofNat (Writer.propertiesBody p).buf.length)
    rw [Writer.properties, Writer.bytes, h, append_assoc]
    rfl
  reads p hp pos post := by
    obtain ⟨hp, hlen⟩ := hp
    obtain ⟨effect, hadds, hdefault⟩ := adds_propertiesBody hp
    rw [written_properties, length_append] at hlen
    replace hlen := le_trans (Nat.le_add_left _ _) hlen
    have hnat : (UInt32.ofNat (Writer.propertiesBody p).buf.length).toNat =
        (Writer.propertiesBody p).buf.length :=
      UInt32.toNat_ofNat_of_lt (lt_of_le_of_lt hlen (by decide))
    apply (reads_varint (by rw [hnat]; exact hlen) pos _).bind
    dsimp only
    apply Reads.need _ (by rw [hnat]; exact Nat.le_add_right _ _)
    apply (reads_position _ _).nil_bind
    rw [hnat]
    have hblock := hadds.reads .default
    rw [hdefault] at hblock
    exact hblock _ post

end Synapse.Mqtt
