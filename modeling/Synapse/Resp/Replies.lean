import Synapse.Resp.Broker
import Synapse.Resp.Wire

/-!
# Replies stay in one piece

A reply must decode to itself with nothing left over, or a client that sends a crafted command
could make the server write a reply of its choosing. The encoder escapes nothing, so this is a
property of the texts that end up in a line. Bulk strings carry everything a client stored; what is
echoed was decoded, and hence well formed; the errors of the engine are made of fixed texts,
numbers and the name of the tenant. The one text of the client that gets into a line is the name of
an unknown command, and `reply_decodes` says that it decides.
-/

namespace Synapse.Resp

open List

/-- Every line of the value is one line. -/
abbrev Clean (v : Value) : Prop := Everywhere OneLine v

variable {v : Value} {e : EngineError} {name : String} {t : Tenant} {core' : SynapseCore} {now : ℕ}
  {core : SynapseCore} {payload : Bytes} {key : String} {cmd : List Value}

theorem everywhere_and {P Q : Value → Prop} :
    Everywhere (fun v ↦ P v ∧ Q v) v ↔ Everywhere P v ∧ Everywhere Q v := by
  induction v using Value.induction with
  | array items ih =>
    simp only [everywhere_array]
    constructor
    · rintro ⟨⟨hp, hq⟩, hall⟩
      exact ⟨⟨hp, fun v hv ↦ ((ih v hv).mp (hall v hv)).1⟩,
        hq, fun v hv ↦ ((ih v hv).mp (hall v hv)).2⟩
    · rintro ⟨⟨hp, hps⟩, hq, hqs⟩
      exact ⟨⟨hp, hq⟩, fun v hv ↦ (ih v hv).mpr ⟨hps v hv, hqs v hv⟩⟩
  | _ => exact Iff.rfl

theorem wellFormed_iff : WellFormed v ↔ Clean v ∧ Everywhere Fits v := everywhere_and

/-! ## The texts of the engine's errors -/

theorem plain_append {s t : String} : Plain (s ++ t) ↔ Plain s ∧ Plain t := by
  rw [Plain, String.toList_append, mem_append, not_or]
  rfl

theorem clean_engineError (h : Plain e.message) : Clean (engineError e) := by
  have hkind : Plain e.kind.display := by cases e.kind <;> decide
  have hdisplay : Plain e.display := plain_append.mpr ⟨plain_append.mpr ⟨hkind, by decide⟩, h⟩
  exact (plain_append.mpr ⟨by decide, hdisplay⟩).crlf_free

theorem plain_tenant (id : TenantId) : Plain id.name := fun hmem ↦
  absurd (all_eq_true.mp id.safe '\r' hmem) (by decide)

theorem plain_tenantId_new (h : TenantId.new name = .error e) : Plain e.message := by
  rw [TenantId.new] at h
  split_ifs at h <;> cases h <;> decide

theorem error_of_map {α β : Type} {x : EngineResult α} {f : α → β} (h : x.map f = .error e) :
    x = .error e := by
  cases x with
  | error e' => exact congrArg Except.error (Except.error.inj h)
  | ok a => cases h

theorem plain_chargeCount {kind : String} {used limit : ℕ} (hkind : Plain kind)
    (h : t.chargeCount kind used limit = .error e) : Plain e.message := by
  rw [Tenant.chargeCount] at h
  split_ifs at h
  cases h
  refine plain_append.mpr ⟨?_, by decide⟩
  refine plain_append.mpr ⟨plain_append.mpr ⟨plain_append.mpr ⟨by decide, ?_⟩, by decide⟩, hkind⟩
  exact plain_tenant t.id

theorem plain_chargeLogBytes {bytes : ℕ} (h : t.chargeLogBytes bytes = .error e) :
    Plain e.message := by
  rw [Tenant.chargeLogBytes] at h
  split_ifs at h
  cases h
  have hnext (n : ℕ) : Plain (toString n) := plain_toString n
  have htenant := plain_tenant t.id
  refine plain_append.mpr ⟨?_, plain_append.mpr ⟨hnext _, by decide⟩⟩
  refine plain_append.mpr ⟨plain_append.mpr ⟨plain_append.mpr ⟨?_, by decide⟩, hnext _⟩, by decide⟩
  exact plain_append.mpr ⟨by decide, htenant⟩

theorem plain_map_new (h : Map.new name t = .error e) : Plain e.message := by
  rw [Map.new] at h
  split_ifs at h
  · cases h
    decide
  · exact plain_chargeCount (by decide) (error_of_map (error_of_map h))

theorem plain_log_new (h : Log.new name t = .error e) : Plain e.message := by
  rw [Log.new] at h
  split_ifs at h
  · cases h
    decide
  · exact plain_chargeCount (by decide) (error_of_map (error_of_map h))

/-- A refused creation names neither the primitive nor the tenant that was asked for. -/
theorem plain_createIn {α : Type} {create : Tenant → EngineResult (α × Tenant)}
    (hcr : ∀ t e, create t = .error e → Plain e.message) {release : Tenant → Tenant}
    {tenants : TenantRegistry} {objects : ArcTable α} {tenant : String}
    (h : (SynapseCore.createIn create release tenants objects tenant name).1 = .error e) :
    Plain e.message := by
  obtain ⟨_, _, _, -, -, heq, -⟩ | ⟨_, heq, ht | ⟨t, hnew⟩, -⟩ :=
    SynapseCore.createIn_cases (Prod.ext h rfl)
  · cases heq
  · cases heq
    exact plain_tenantId_new ht
  · cases heq
    exact hcr t e hnew

theorem plain_createMap {tenant : String} (h : core.createMap tenant name = (.error e, core')) :
    Plain e.message := by
  have he : (SynapseCore.createIn (Map.new name) _ _ _ tenant name).1 = _ := (Prod.mk.inj h).1
  exact plain_createIn (fun _ _ ↦ plain_map_new) he

theorem plain_createLog {tenant : String} (h : core.createLog tenant name = (.error e, core')) :
    Plain e.message := by
  have he : (SynapseCore.createIn (Log.new name) _ _ _ tenant name).1 = _ := (Prod.mk.inj h).1
  exact plain_createIn (fun _ _ ↦ plain_log_new) he

theorem plain_append_wal {wal wal' : TieredSegmentedLog}
    (h : wal.append payload now = (.error e, wal')) : Plain e.message := by
  rw [TieredSegmentedLog.append, SegmentedLog.append] at h
  split_ifs at h
  · cases h
    decide
  · cases h

theorem plain_set {id : ℕ} {m : Map} {value : Bytes} {ttl : Option ℕ}
    (h : core.set id m key value ttl now = (.error e, core')) : Plain e.message := by
  rw [SynapseCore.set, Map.set] at h
  split_ifs at h
  · cases h
    decide
  generalize happ : core.wal.append value now = appended at h
  obtain ⟨_ | _, wal⟩ := appended
  · cases h
    exact plain_append_wal happ
  · cases h

theorem plain_log_append {log : Log} (h : core.append log payload now = (.error e, core')) :
    Plain e.message := by
  rw [SynapseCore.append, Log.append] at h
  generalize happ : core.wal.append payload now = appended at h
  obtain ⟨_ | _, wal⟩ := appended
  · cases h
    exact plain_append_wal happ
  generalize hchg : (core.tenants.deref log.tenant).chargeLogBytes payload.length = charged at h
  obtain _ | _ := charged
  · cases h
    exact plain_chargeLogBytes hchg
  · cases h

theorem plain_fetch {t : TieredSegmentedLog} {base : ℕ} (h : t.fetch base = .error e) :
    Plain e.message := by
  rw [TieredSegmentedLog.fetch] at h
  split_ifs at h
  rw [ObjectStore.get] at h
  cases hget : t.object.objects (segmentKey base) with
  | none =>
    rw [hget] at h
    cases h
    exact plain_append.mpr ⟨by decide,
      plain_append.mpr ⟨plain_append.mpr ⟨by decide, plain_toString base⟩, by decide⟩⟩
  | some buf =>
    rw [hget] at h
    cases h

theorem plain_readLoop {t : TieredSegmentedLog} {first max : ℕ} {bases : List ℕ} {out : List Record}
    (h : t.readLoop first max bases out = .error e) : Plain e.message := by
  induction bases generalizing out with
  | nil => cases h
  | cons base bases ih =>
    rw [TieredSegmentedLog.readLoop] at h
    split_ifs at h
    cases hfet : t.fetch base with
    | error e' =>
      rw [hfet] at h
      cases h
      exact plain_fetch hfet
    | ok found =>
      rw [hfet] at h
      obtain _ | recs := found
      · exact ih h
      · dsimp only [bind, Except.bind] at h
        split_ifs at h <;> exact ih h

/-! ## The replies of the commands -/

theorem clean_kv (h : kv core = (.error v, core')) : Clean v := by
  rw [kv] at h
  split at h
  · cases h
  split at h
  · rename_i hcr
    cases h
    exact clean_engineError (plain_createMap hcr)
  split at h
  · cases h
  · cases h
    exact clean_engineError (by decide)
  · rename_i hloc
    cases h
    exact clean_engineError (plain_tenantId_new (error_of_map (error_of_map hloc)))

theorem clean_withKv {act : SynapseCore → ℕ → Map → Value × SynapseCore}
    (hact : ∀ core id m, Clean (act core id m).1) : Clean (withKv core act).1 := by
  rw [withKv]
  split
  · rename_i hkv
    exact clean_kv hkv
  · exact hact _ _ _

theorem clean_wrongArguments {command : String} (h : Plain command) :
    Clean (wrongArguments command) :=
  (plain_append.mpr ⟨plain_append.mpr ⟨by decide, h⟩, by decide⟩).crlf_free

theorem clean_execGet (core : SynapseCore) (cmd : List Value) (now : ℕ) :
    Clean (execGet core cmd now).1 := by
  rw [execGet]
  split
  · exact clean_wrongArguments (by decide)
  · refine clean_withKv fun core id m ↦ ?_
    dsimp only
    cases (m.get _ now).1 <;> exact trivial

theorem clean_execSet (upper : String → String) (core : SynapseCore) (cmd : List Value)
    (now : ℕ) : Clean (execSet upper core cmd now).1 := by
  rw [execSet]
  split
  · split
    · exact (by decide : Plain "ERR invalid EX value").crlf_free
    · refine clean_withKv fun core id m ↦ ?_
      split
      · exact (by decide : Plain "OK").crlf_free
      · rename_i hset
        exact clean_engineError (plain_set hset)
    · exact (by decide : Plain "ERR value must be a bulk string").crlf_free
  · exact clean_wrongArguments (by decide)

theorem clean_execCount (act : Map → String → Bool × Map) (core : SynapseCore)
    (cmd : List Value) : Clean (execCount act core cmd).1 :=
  clean_withKv fun _ _ _ ↦ trivial

/-- After `ensureLog` the append finds the log, so that no error names the stream. -/
theorem locate_of_ensureLog (h : ensureLog core key = (.ok (), core')) :
    ∃ log, SynapseCore.locate core'.logs tenant key = .ok (some log) := by
  rw [ensureLog] at h
  split at h
  · rename_i hget
    cases h
    obtain ⟨x, -, hx⟩ := SynapseCore.locate_of_find hget
    exact ⟨_, hx⟩
  · split at h
    · cases h
    · rename_i hcr
      cases h
      obtain ⟨x, hx⟩ := SynapseCore.locate_of_createLog hcr
      exact ⟨_, hx⟩

theorem plain_ensureLog (h : ensureLog core key = (.error e, core')) : Plain e.message := by
  rw [ensureLog] at h
  split at h
  · cases h
  split at h
  · rename_i hcr
    cases h
    exact plain_createLog hcr
  · cases h

theorem clean_execXadd (core : SynapseCore) (cmd : List Value) (now : ℕ) :
    Clean (execXadd core cmd now).1 := by
  rw [execXadd]
  split
  · split
    · rename_i hens
      exact clean_engineError (plain_ensureLog hens)
    rename_i hens
    obtain ⟨log, hlog⟩ := locate_of_ensureLog hens
    split
    · exact trivial
    · rename_i happ
      rw [SynapseCore.logAppend, SynapseCore.withObject, hlog] at happ
      exact clean_engineError (plain_log_append happ)
  · exact clean_wrongArguments (by decide)

theorem clean_execXrange (core : SynapseCore) (cmd : List Value) : Clean (execXrange core cmd) := by
  rw [execXrange]
  split
  · split
    · dsimp only
      split
      · rename_i recs _
        refine everywhere_array.mpr ⟨trivial, fun v hv ↦ ?_⟩
        obtain ⟨rec, -, rfl⟩ := mem_map.mp hv
        exact ⟨trivial, trivial, trivial, trivial⟩
      · rename_i hread
        exact clean_engineError (plain_readLoop hread)
    · exact everywhere_array.mpr ⟨trivial, nofun⟩
  · exact clean_wrongArguments (by decide)

/-! ## What decides -/

theorem asBytes_append (s t : String) : asBytes (s ++ t) = asBytes s ++ asBytes t := by
  rw [asBytes, String.toList_append, flatMap_append]
  rfl

/-- No CR LF starts in `a`, and none ends in `c`. -/
theorem crlf_infix_middle {a b c : Bytes} (ha : (0x0D : UInt8) ∉ a) (hc : (0x0A : UInt8) ∉ c) :
    crlf <:+: a ++ b ++ c ↔ crlf <:+: b := by
  constructor
  · intro h
    rw [append_assoc] at h
    have hleft : crlf <:+: b ++ c := by
      obtain h | h | ⟨l, r, hlr, hl, hr⟩ := infix_append_iff.mp h
      · exact absurd (h.subset (by decide)) ha
      · exact h
      cases l with
      | nil => exact hlr ▸ hr.isInfix
      | cons x l =>
        obtain ⟨rfl, -⟩ := List.cons.inj hlr
        exact absurd (hl.subset mem_cons_self) ha
    obtain h | h | ⟨l, r, hlr, hl, hr⟩ := infix_append_iff.mp hleft
    · exact h
    · exact absurd (h.subset (by decide)) hc
    obtain rfl | ⟨r, x, rfl⟩ := eq_nil_or_concat r
    · rw [append_nil] at hlr
      exact hlr ▸ hl.isInfix
    rw [concat_eq_append] at hlr hr
    have hsp : [0x0D] ++ [0x0A] = (l ++ r) ++ [x] := by
      rwa [append_assoc]
    obtain rfl : 0x0A = x := singleton_inj.mp (append_inj' hsp rfl).2
    exact absurd (hr.subset (mem_append_right r mem_cons_self)) hc
  · exact fun h ↦ h.trans (infix_append a b c)

theorem clean_getD {o : Option Value} (ho : ∀ w ∈ o, Clean w) (hv : Clean v) :
    Clean (o.getD v) := by
  cases o with
  | none => exact hv
  | some w => exact ho w rfl

theorem clean_exec_iff (upper : String → String) (core : SynapseCore) (hcmd : ∀ v ∈ cmd, Clean v)
    (now : ℕ) : Clean (exec upper core cmd now).1 ↔ ¬crlf <:+: asBytes (commandName upper cmd) := by
  have harg : ∀ w ∈ cmd[1]?, Clean w := fun w hw ↦ hcmd w (mem_of_getElem? hw)
  have hkn {name : String} {reply : Value} (hname : commandName upper cmd = name)
      (hline : ¬crlf <:+: asBytes name) (hrep : Clean reply) :
      Clean reply ↔ ¬crlf <:+: asBytes (commandName upper cmd) :=
    iff_of_true hrep (hname ▸ hline)
  unfold exec
  split <;> rename_i hname
  · exact hkn hname (by decide) (clean_getD harg (by decide))
  · exact hkn hname (by decide) (clean_getD harg (by decide))
  · exact hkn hname (by decide) (by decide : Clean commandTable)
  · exact hkn hname (by decide) (clean_execGet core cmd now)
  · exact hkn hname (by decide) (clean_execSet upper core cmd now)
  · exact hkn hname (by decide) (clean_execCount _ core cmd)
  · exact hkn hname (by decide) (clean_execCount _ core cmd)
  · exact hkn hname (by decide) (clean_execXadd core cmd now)
  · exact hkn hname (by decide) (clean_execXrange core cmd)
  · exact hkn hname (by decide) (by decide : Clean (.error "ERR empty command"))
  · -- the name of an unknown command is quoted in the error
    change ¬crlf <:+: asBytes (_ ++ commandName upper cmd ++ _) ↔ _
    rw [asBytes_append, asBytes_append, crlf_infix_middle (by decide) (by decide)]

theorem decodes_iff : (decodeValue (encodeValue v)).run = .ok (some (v, (encodeValue v).length)) ↔
      WellFormed v := by
  refine ⟨wellFormed_of_decodeValue, fun hv ↦ ?_⟩
  have hread := reads_of_wellFormed hv []
  rw [append_nil] at hread
  exact congrArg OptionT.run hread

theorem clean_handleValue_iff {upper : String → String} (hup : upper "" = "") (b : RespBroker)
    (isOpen : String → Bool) (connId : String) (now : ℕ) (hcmd : ∀ v ∈ cmd, Clean v) {reply : Value}
    (h : (handleValue upper b isOpen connId now (.array cmd)).1 = some reply) :
    Clean reply ↔ ¬crlf <:+: asBytes (commandName upper cmd) := by
  cases cmd with
  | nil =>
    cases h
    rw [commandName]
    change _ ↔ ¬crlf <:+: asBytes (upper "")
    rw [hup]
    exact iff_of_true (by decide) (by decide)
  | cons v vs =>
    unfold handleValue at h
    dsimp only [Value.asArray] at h
    split at h <;> rename_i hname
    · cases h
      rw [hname]
      exact iff_of_true (by decide) (by decide)
    · cases h
    · cases h
    · cases h
      rw [hname]
      exact iff_of_true trivial (by decide)
    · cases h
      exact clean_exec_iff upper b.core hcmd now

/-- **Replies stay in one piece** if and only if the name of the command, in upper case, is one
line. -/
theorem reply_decodes (upper : String → String) (hupper : upper "" = "") (b : RespBroker)
    (isOpen : String → Bool) (connId : String) (now : ℕ) (cmd : List Value)
    (hcmd : ∀ v ∈ cmd, ∃ buf n, (decodeValue buf).run = .ok (some (v, n))) (reply : Value)
    (hreply : (handleValue upper b isOpen connId now (.array cmd)).1 = some reply ∨
      (exec upper b.core cmd now).1 = reply)
    (hfits : Everywhere Fits reply) :
    (decodeValue (encodeValue reply)).run = .ok (some (reply, (encodeValue reply).length)) ↔
      ¬crlf <:+: asBytes (commandName upper cmd) := by
  have hclean : ∀ v ∈ cmd, Clean v := by
    intro v hv
    obtain ⟨buf, n, hdec⟩ := hcmd v hv
    exact (wellFormed_iff.mp (wellFormed_of_decodeValue hdec)).1
  rw [decodes_iff, wellFormed_iff, and_iff_left hfits]
  obtain h | rfl := hreply
  · exact clean_handleValue_iff hupper b isOpen connId now hclean h
  · exact clean_exec_iff upper b.core hclean now

theorem reply_decodes_unknown :
    (decodeValue (encodeValue (.error "ERR unknown command 'FLUSH'"))).run =
      .ok (some (.error "ERR unknown command 'FLUSH'", 30)) ∧
    ¬crlf <:+: asBytes (commandName asciiUpper [.simpleString "flush"]) := by
  have hiff := reply_decodes asciiUpper rfl (.new (.withObjectStore .empty)) (fun _ ↦ true)
    "conn-1" 0 [.simpleString "flush"]
    (forall_mem_singleton.mpr ⟨encodeValue (.simpleString "flush"), 8, rfl⟩)
    (.error "ERR unknown command 'FLUSH'") (.inl rfl) (by decide)
  have hname : ¬crlf <:+: asBytes (commandName asciiUpper [.simpleString "flush"]) := by decide
  exact ⟨hiff.mpr hname, hname⟩

/-- A line break in the name of a command splits the reply, and the client chooses what the
second half says. -/
theorem reply_split :
    ∃ reply, (handleValue asciiUpper (.new (.withObjectStore .empty)) (fun _ ↦ true) "conn-1" 0
        (.array [.bulkString (asBytes "a\r\n+OK\r\n")])).1 = some reply ∧
      (decodeValue (encodeValue reply)).run = .ok (some (.error "ERR unknown command 'A", 25)) ∧
      (decodeValue ((encodeValue reply).drop 25)).run = .ok (some (.simpleString "OK", 5)) ∧
      (encodeValue reply).length = 33 :=
  ⟨.error "ERR unknown command 'A\r\n+OK\r\n'", rfl, rfl, rfl, rfl⟩

end Synapse.Resp
