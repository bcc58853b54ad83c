import Synapse.Engine.Expiry
import Synapse.Engine.Recreate
import Synapse.Engine.Replay
import Synapse.Resp.Broker

/-!
# Lifetimes of keys

A time to live is a `Duration`, counted in milliseconds in 128 bits, cut down to 64 bits and added
to the clock, where the sum stops at the largest number there is. All steps but the cut are
monotone. `outlives_iff` says when a key that is set for longer is also there for longer: the
milliseconds that are left after the cut are in the same order, or the sum for the longer time stops
at the largest number. Below `2 ^ 64` milliseconds nothing is cut, so this is the rule; above it a
longer time can end at once (`longer_ends_earlier`). `SET` with the option `EX` passes its number of
seconds on, and comes to the same.
-/

namespace Synapse

open Option

/-! ## Durations -/

structure Duration where
  secs : UInt64
  nanos : ℕ
  nanos_lt : nanos < 1000000000

namespace Duration

/-- Seconds are compared first. -/
instance : LE Duration where
  le d d' := d.secs < d'.secs ∨ d.secs = d'.secs ∧ d.nanos ≤ d'.nanos

def fromSecs (secs : UInt64) : Duration := ⟨secs, 0, by decide⟩

/-- The whole milliseconds, a `u128`. -/
def asMillis (d : Duration) : ℕ := d.secs.toNat * 1000 + d.nanos / 1000000

theorem asMillis_le {d d' : Duration} (h : d ≤ d') : d.asMillis ≤ d'.asMillis := by
  have hd := d.nanos_lt
  rw [asMillis, asMillis]
  rcases h with hlt | ⟨heq, hle⟩
  · rw [UInt64.lt_iff_toNat_lt] at hlt
    omega
  · rw [heq]
    omega

/-- A key set now for the second time ends no earlier than one set for the first. -/
def EndsLater (now : ℕ) (d d' : Duration) : Prop :=
  d.asMillis % 2 ^ 64 ≤ d'.asMillis % 2 ^ 64 ∨ 2 ^ 64 - 1 ≤ now + d'.asMillis % 2 ^ 64

theorem endsLater_of_le {now : ℕ} {d d' : Duration} (hle : d ≤ d')
    (hsm : d'.asMillis < 2 ^ 64) : EndsLater now d d' := by
  have hms := asMillis_le hle
  left
  rwa [Nat.mod_eq_of_lt hsm, Nat.mod_eq_of_lt (lt_of_le_of_lt hms hsm)]

end Duration

/-! ## The map -/

namespace Map

variable {m : Map} {wal : TieredSegmentedLog} {key : String} {value : Bytes} {now : ℕ}
  {d d' : Duration}

/-- A key set for the first time is there no longer than one set for the second. -/
def Outlives (m : Map) (wal : TieredSegmentedLog) (key : String) (value : Bytes) (now : ℕ)
    (d d' : Duration) : Prop :=
  ∀ later, ((m.set wal key value (some d.asMillis) now).2.1.get key later).1 = some value →
    ((m.set wal key value (some d'.asMillis) now).2.1.get key later).1 = some value

/-- How long a key is there. -/
theorem get_set_iff (hkey : key ≠ "") (hval : value ≠ []) (millis later : ℕ) :
    ((m.set wal key value (some millis) now).2.1.get key later).1 = some value ↔
      later < min (now + millis % 2 ^ 64) (2 ^ 64 - 1) := by
  rw [set_of_ne_nil hkey hval, get_fst, List.lookup_cons_self, filter_some,
    MapEntry.live, expiry, map_some, all_some]
  split_ifs with hlive
  · exact ⟨fun _ ↦ of_decide_eq_true hlive, fun _ ↦ rfl⟩
  · exact iff_of_false (by simp) fun h ↦ hlive (decide_eq_true h)

theorem outlives_iff_endsLater (hkey : key ≠ "") (hval : value ≠ []) :
    m.Outlives wal key value now d d' ↔ Duration.EndsLater now d d' := by
  rw [Outlives, Duration.EndsLater]
  simp only [get_set_iff hkey hval]
  constructor
  · intro h
    have hself := h (min (now + d'.asMillis % 2 ^ 64) (2 ^ 64 - 1))
    omega
  · intro h later hlat
    omega

end Map

/-! ## `SET` and `GET` -/

namespace Resp

variable {upper : String → String} {core core' : SynapseCore} {id : ℕ} {m : Map}
  {set get ex key secs : String} {payload : Bytes} {now later : ℕ} {n : UInt64}

def setEx (set ex key secs : String) (payload : Bytes) : List Value :=
  [.text set, .text key, .bulkString payload, .text ex, .text secs]

theorem asStr_text (s : String) : (Value.text s).asStr = some s := fromUtf8_asBytes s

theorem commandName_text (command : String) (args : List Value) :
    commandName upper (.text command :: args) = upper command := by
  rw [commandName, List.head?_cons, bind_some, asStr_text, getD_some]

theorem locate_of_kv (h : kv core = (.ok (id, m), core')) :
    SynapseCore.locate core'.maps tenant kvMap = .ok (some (id, m)) := by
  rw [kv] at h
  split at h
  · rename_i found hloc
    obtain ⟨⟨rfl⟩, rfl⟩ := Prod.mk.inj h
    exact hloc
  split at h
  · cases h
  split at h
  · rename_i hloc
    obtain ⟨⟨rfl⟩, rfl⟩ := Prod.mk.inj h
    exact hloc
  · cases h
  · cases h

theorem exec_setEx (hset : upper set = "SET") (hex : upper ex = "EX")
    (hn : parseU64 secs = some n.toNat) :
    exec upper core (setEx set ex key secs payload) now = withKv core fun core id m ↦
      match core.set id m key payload (some (Duration.fromSecs n).asMillis) now with
      | (.ok _, core) => (.ok, core)
      | (.error e, core) => (engineError e, core) := by
  have harg : arg (setEx set ex key secs payload) 1 = some key := asStr_text key
  have hopts : parseTtl upper ((setEx set ex key secs payload).drop 3) none =
      some (some (Duration.fromSecs n).asMillis) := by
    change parseTtl upper [.text ex, .text secs] none = _
    rw [parseTtl, asStr_text, getD_some, hex, if_pos rfl, asStr_text, bind_some, hn,
      Duration.asMillis, Duration.fromSecs, Nat.zero_div, add_zero, bind_eq_bind, bind_some,
      parseTtl]
  rw [exec, setEx, commandName_text, hset]
  change execSet upper core (setEx set ex key secs payload) now = _
  have hval : (setEx set ex key secs payload)[2]? = some (.bulkString payload) := rfl
  rewrite [execSet, harg, hval, hopts]
  rfl

theorem exec_get (hget : upper get = "GET")
    (h : SynapseCore.locate core.maps tenant kvMap = .ok (some (id, m))) :
    (exec upper core [.text get, .text key] later).1 =
      (m.get key later).1.elim .nullBulk .bulkString := by
  have harg : arg [.text get, .text key] 1 = some key := asStr_text key
  rw [exec, commandName_text, hget]
  change (execGet core [.text get, .text key] later).1 = _
  rw [execGet, harg]
  change (withKv core _).1 = _
  rw [withKv, kv, h]

def readBack (upper : String → String) (core : SynapseCore) (set ex get key secs : String)
    (payload : Bytes) (now later : ℕ) : Value :=
  (exec upper (exec upper core (setEx set ex key secs payload) now).2
    [.text get, .text key] later).1

theorem engineError_ne_ok (e : EngineError) : engineError e ≠ .ok := nofun

theorem kv_error_ne_ok {v : Value} (h : kv core = (.error v, core')) : v ≠ .ok := by
  rw [kv] at h
  split at h
  · cases h
  split at h
  · obtain ⟨⟨rfl⟩, -⟩ := Prod.mk.inj h
    exact engineError_ne_ok _
  split at h
  · cases h
  · obtain ⟨⟨rfl⟩, -⟩ := Prod.mk.inj h
    exact engineError_ne_ok _
  · obtain ⟨⟨rfl⟩, -⟩ := Prod.mk.inj h
    exact engineError_ne_ok _

/-- A `SET` that succeeds has found the map, and written a key and a payload that are not empty. -/
theorem exists_kv_of_ok (hset : upper set = "SET") (hex : upper ex = "EX")
    (hn : parseU64 secs = some n.toNat)
    (hok : (exec upper core (setEx set ex key secs payload) now).1 = .ok) :
    ∃ id m core', kv core = (.ok (id, m), core') ∧ key ≠ "" ∧ payload ≠ [] := by
  rw [exec_setEx hset hex hn, withKv] at hok
  rcases hkv : kv core with ⟨v | ⟨id, m⟩, core'⟩
  · rw [hkv] at hok
    exact absurd hok (kv_error_ne_ok hkv)
  rw [hkv] at hok
  have hsto := core'.isOk_set id m key payload (some (Duration.fromSecs n).asMillis) now
  dsimp only at hok
  generalize core'.set id m key payload (some (Duration.fromSecs n).asMillis) now = result
    at hok hsto
  obtain ⟨e | _, core''⟩ := result
  · exact absurd hok (engineError_ne_ok e)
  · have hboth := Bool.and_eq_true_iff.mp hsto.symm
    exact ⟨id, m, core', rfl, bne_iff_ne.mp hboth.1, bne_iff_ne.mp hboth.2⟩

/-- `GET` reads the map that `SET` has written. -/
theorem readBack_eq (hset : upper set = "SET") (hex : upper ex = "EX") (hget : upper get = "GET")
    (hn : parseU64 secs = some n.toNat) (hkv : kv core = (.ok (id, m), core')) :
    readBack upper core set ex get key secs payload now later =
      ((m.set core'.wal key payload (some (Duration.fromSecs n).asMillis) now).2.1.get key
        later).1.elim .nullBulk .bulkString := by
  have hloc := SynapseCore.locate_write (locate_of_kv hkv)
    (m.set core'.wal key payload (some (Duration.fromSecs n).asMillis) now).2.1
  have hmaps : (core'.set id m key payload (some (Duration.fromSecs n).asMillis) now).2.maps =
      core'.maps.write id
        (m.set core'.wal key payload (some (Duration.fromSecs n).asMillis) now).2.1 := rfl
  rw [← hmaps] at hloc
  rw [readBack, exec_setEx hset hex hn, withKv, hkv]
  dsimp only
  generalize core'.set id m key payload (some (Duration.fromSecs n).asMillis) now = result at hloc
  obtain ⟨e | _, core''⟩ := result
  · exact exec_get hget hloc
  · exact exec_get hget hloc

theorem elim_eq_iff {found : Option Bytes} :
    found.elim .nullBulk .bulkString = Value.bulkString payload ↔ found = some payload := by
  rcases found with _ | value
  · exact ⟨nofun, nofun⟩
  · rw [elim_some, Value.bulkString.injEq, some_inj]

/-- **Lifetimes.** A key that is set for longer is there for longer exactly if the milliseconds are
in order after they are cut to 64 bits, or the end for the longer time is the largest number; for a
map and for `SET` with `EX`. -/
theorem outlives_iff (now : ℕ) :
    (∀ (m : Map) wal key value (d d' : Duration), key ≠ "" → value ≠ [] →
      (m.Outlives wal key value now d d' ↔ Duration.EndsLater now d d')) ∧
    (∀ upper core set ex get key secs secs' payload (n n' : UInt64),
      upper set = "SET" → upper ex = "EX" → upper get = "GET" →
      parseU64 secs = some n.toNat → parseU64 secs' = some n'.toNat →
      (exec upper core (setEx set ex key secs payload) now).1 = .ok →
      ((∀ later, readBack upper core set ex get key secs payload now later = .bulkString payload →
          readBack upper core set ex get key secs' payload now later = .bulkString payload) ↔
        Duration.EndsLater now (.fromSecs n) (.fromSecs n'))) ∧
    ∀ d d' : Duration, d ≤ d' → d'.asMillis < 2 ^ 64 → Duration.EndsLater now d d' := by
  refine ⟨fun m wal key value d d' ↦ Map.outlives_iff_endsLater, ?_,
    fun d d' ↦ Duration.endsLater_of_le⟩
  intro upper core set ex get key secs secs' payload n n' hset hex hget hn hn' hok
  obtain ⟨id, m, core', hkv, hkey, hpayload⟩ := exists_kv_of_ok hset hex hn hok
  rw [← @Map.outlives_iff_endsLater m core'.wal _ _ _ _ _ hkey hpayload]
  simp only [readBack_eq hset hex hget hn hkv, readBack_eq hset hex hget hn' hkv, elim_eq_iff]
  rfl

theorem outlives_iff_seconds :
    Duration.fromSecs 10 ≤ .fromSecs 20 ∧ (Duration.fromSecs 20).asMillis < 2 ^ 64 ∧
    Map.Outlives ⟨"m", ⟨"acme", by decide, by decide⟩, []⟩ (.new (.new 64) .empty) "k" [7] 0
      (.fromSecs 10) (.fromSecs 20) ∧
    ∀ later, readBack asciiUpper (.withObjectStore .empty) "SET" "EX" "GET" "k" "10" [7] 0 later =
        .bulkString [7] →
      readBack asciiUpper (.withObjectStore .empty) "SET" "EX" "GET" "k" "20" [7] 0 later =
        .bulkString [7] := by
  have hle : Duration.fromSecs 10 ≤ .fromSecs 20 := .inl (by decide)
  have hsmall : (Duration.fromSecs 20).asMillis < 2 ^ 64 := by decide
  refine ⟨hle, hsmall, ?_, ?_⟩
  · exact ((outlives_iff 0).1 _ _ _ _ _ _ (by decide) (by decide)).mpr
      ((outlives_iff 0).2.2 _ _ hle hsmall)
  · exact ((outlives_iff 0).2.1 asciiUpper _ "SET" "EX" "GET" "k" "10" "20" [7] 10 20 (by decide)
      (by decide) (by decide) (by decide) (by decide) rfl).mpr
      ((outlives_iff 0).2.2 _ _ hle hsmall)

/-- **A longer time that ends earlier.** After half a second a key set for one second is there, and
one set for `18446744073709552` seconds is gone. -/
theorem longer_ends_earlier :
    (exec asciiUpper (.withObjectStore .empty) (setEx "SET" "EX" "k" "1" [7]) 0).1 = .ok ∧
    (exec asciiUpper (.withObjectStore .empty)
      (setEx "SET" "EX" "k" "18446744073709552" [7]) 0).1 = .ok ∧
    readBack asciiUpper (.withObjectStore .empty) "SET" "EX" "GET" "k" "1" [7] 0 500 =
      .bulkString [7] ∧
    readBack asciiUpper (.withObjectStore .empty) "SET" "EX" "GET" "k" "18446744073709552" [7] 0
      500 = .nullBulk :=
  ⟨rfl, rfl, rfl, rfl⟩

end Resp

end Synapse
