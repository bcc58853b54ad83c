import Synapse.Engine.Primitives

/-!
# Expiry

An entry of a map that has expired stays in the table until a `get` of its key or a `snapshot`
evicts it. Whether one of these came in between should not show in the other calls.
`unobservable_iff` says when it does not: no `delete` is given a key whose entry has expired, and no
`len` is taken while an expired entry is present, since these two do not look at the clock. Under
the same condition the map answers as one from which each entry is removed at the instant it expires
(`eager`).

Two runs that differ in the reads are compared by `Thinned`: the tables agree on what is live, and
the second has only lost entries.
-/

namespace Synapse

open Keyed List Option

/-- The entry has not expired. -/
def MapEntry.live (e : MapEntry) (now : ℕ) : Bool := e.expiresAt.all (now < ·)

/-! ## Calls -/

inductive MapOp
  | set (key : String) (value : Bytes) (ttl : Option ℕ)
  | get (key : String)
  | delete (key : String)
  | len
  | snapshot
deriving DecidableEq, Repr

structure MapCall where
  now : ℕ
  op : MapOp
deriving DecidableEq, Repr

inductive MapResult
  | set (result : EngineResult Unit)
  | value (value : Option Bytes)
  | deleted (found : Bool)
  | len (n : ℕ)
  | entries (entries : List (String × Bytes))

structure MapRun where
  map : Map
  wal : TieredSegmentedLog

namespace MapRun

def start (name : String) (tenant : TenantId) (wal : TieredSegmentedLog) : MapRun :=
  ⟨⟨name, tenant, []⟩, wal⟩

def call (r : MapRun) : MapCall → MapResult × MapRun
  | ⟨now, .set key value ttl⟩ =>
    let (result, map, wal) := r.map.set r.wal key value ttl now
    (.set result, ⟨map, wal⟩)
  | ⟨now, .get key⟩ => (.value (r.map.get key now).1, { r with map := (r.map.get key now).2 })
  | ⟨_, .delete key⟩ => (.deleted (r.map.delete key).1, { r with map := (r.map.delete key).2 })
  | ⟨_, .len⟩ => (.len r.map.len, r)
  | ⟨now, .snapshot⟩ =>
    (.entries (r.map.snapshot now).1, { r with map := (r.map.snapshot now).2 })

def results (r : MapRun) : List MapCall → List MapResult
  | [] => []
  | c :: calls => (r.call c).1 :: (r.call c).2.results calls

end MapRun

/-- A call of a sequence, or a read that was inserted. -/
inductive Woven
  | own (c : MapCall)
  | get (now : ℕ) (key : String)
  | snapshot (now : ℕ)
deriving DecidableEq, Repr

variable {calls : List MapCall}

namespace Woven

def call : Woven → MapCall
  | own c => c
  | get now key => ⟨now, .get key⟩
  | snapshot now => ⟨now, .snapshot⟩

def own? : Woven → Option MapCall
  | own c => some c
  | _ => none

/-- A `snapshot` before each call. -/
def sweeping (calls : List MapCall) : List Woven :=
  calls.flatMap fun c ↦ [snapshot c.now, own c]

theorem own_sweeping (calls : List MapCall) : (sweeping calls).filterMap own? = calls := by
  induction calls with
  | nil => rfl
  | cons c calls ih => exact congrArg (c :: ·) ih

theorem pairwise_sweeping (hclk : calls.Pairwise fun c c' ↦ c.now ≤ c'.now) :
    (sweeping calls).Pairwise fun w w' ↦ w.call.now ≤ w'.call.now := by
  rw [sweeping, pairwise_flatMap]
  refine ⟨fun c _ ↦ ?_, hclk.imp fun hle w hw w' hw' ↦ ?_⟩
  · exact pairwise_pair.mpr le_rfl
  · rcases mem_pair.mp hw with rfl | rfl <;> rcases mem_pair.mp hw' with rfl | rfl <;> exact hle

end Woven

namespace MapRun

def answers (r : MapRun) : List Woven → List MapResult
  | [] => []
  | .own c :: woven => (r.call c).1 :: (r.call c).2.answers woven
  | w :: woven => (r.call w.call).2.answers woven

/-- **Reads do not show**: inserting them changes no result. -/
def Unobservable (r : MapRun) (calls : List MapCall) : Prop :=
  ∀ woven : List Woven, woven.filterMap Woven.own? = calls →
    woven.Pairwise (fun w w' ↦ w.call.now ≤ w'.call.now) → r.answers woven = r.results calls

/-- The map with its expired entries removed. -/
def purge (r : MapRun) (now : ℕ) : MapRun := { r with map := (r.map.snapshot now).2 }

/-- The results if each entry is removed at the instant it expires. -/
def eager (r : MapRun) : List MapCall → List MapResult
  | [] => []
  | c :: calls => ((r.purge c.now).call c).1 :: ((r.purge c.now).call c).2.eager calls

/-- A call that does not look at the clock finds no entry that has expired. -/
def Clean (r : MapRun) : MapCall → Prop
  | ⟨now, .delete key⟩ => ∀ e, r.map.data.lookup key = some e → e.live now
  | ⟨now, .len⟩ => ∀ p ∈ r.map.data, p.2.live now
  | _ => True

/-- All calls of a sequence are clean. -/
def Cleanly (r : MapRun) : List MapCall → Prop
  | [] => True
  | c :: calls => r.Clean c ∧ (r.call c).2.Cleanly calls

end MapRun

/-! ## Live entries -/

section Live

variable {now later : ℕ} {e : MapEntry} {key : String} {data data' : List (String × MapEntry)}

theorem MapEntry.live_of_le (hle : now ≤ later) (h : e.live later) : e.live now := by
  rw [live, Option.all_eq_true] at h ⊢
  intro exp hexp
  rw [decide_eq_true_iff]
  exact lt_of_le_of_lt hle (of_decide_eq_true (h exp hexp))

theorem MapEntry.any_le_eq (e : MapEntry) (now : ℕ) : e.expiresAt.any (· ≤ now) = !e.live now := by
  rw [live]
  rcases e.expiresAt with _ | exp
  · rfl
  · rw [any_some, all_some, ← decide_not, decide_eq_decide, not_lt]

def liveData (data : List (String × MapEntry)) (now : ℕ) : List (String × MapEntry) :=
  data.filter (·.2.live now)

theorem liveData_of_le (hle : now ≤ later) (data : List (String × MapEntry)) :
    liveData (liveData data now) later = liveData data later := by
  rw [liveData, liveData, liveData, List.filter_filter]
  refine filter_congr fun p _ ↦ ?_
  rw [Bool.and_eq_left_iff_imp]
  exact MapEntry.live_of_le hle

theorem liveData_filter (f : String × MapEntry → Bool) (data : List (String × MapEntry)) :
    liveData (data.filter f) now = (liveData data now).filter f := by
  rw [liveData, liveData, filter_comm]

theorem lookup_liveData (hnd : (data.map Prod.fst).Nodup) :
    (liveData data now).lookup key = (data.lookup key).filter (·.live now) := by
  refine Option.ext fun e ↦ ?_
  have hlive : ((liveData data now).map Prod.fst).Nodup := hnd.sublist (filter_sublist.map _)
  rw [lookup_eq_some_iff hlive, filter_eq_some_iff, lookup_eq_some_iff hnd, liveData, mem_filter]

/-- The second table has lost entries of the first that have expired. -/
structure Thinned (now : ℕ) (data data' : List (String × MapEntry)) : Prop where
  nodup : (data.map Prod.fst).Nodup
  sublist : data'.Sublist data
  live : liveData data' now = liveData data now

namespace Thinned

variable (h : Thinned now data data')

include h

theorem mono (hle : now ≤ later) : Thinned later data data' where
  nodup := h.nodup
  sublist := h.sublist
  live := by rw [← liveData_of_le hle data', h.live, liveData_of_le hle]

theorem evict {keep : String × MapEntry → Bool}
    (hkeep : ∀ p ∈ data', p.2.live now → keep p) : Thinned now data (data'.filter keep) where
  nodup := h.nodup
  sublist := filter_sublist.trans h.sublist
  live := by
    rw [liveData_filter, ← h.live, filter_eq_self]
    intro p hp
    obtain ⟨hmem, hlive⟩ := mem_filter.mp hp
    exact hkeep p hmem hlive

theorem filter (keep : String × MapEntry → Bool) :
    Thinned now (data.filter keep) (data'.filter keep) where
  nodup := h.nodup.sublist (filter_sublist.map _)
  sublist := h.sublist.filter keep
  live := by rw [liveData_filter, liveData_filter, h.live]

theorem cons (hkey : key ∉ data.map Prod.fst) (e : MapEntry) :
    Thinned now ((key, e) :: data) ((key, e) :: data') where
  nodup := nodup_cons.mpr ⟨hkey, h.nodup⟩
  sublist := h.sublist.cons_cons _
  live := by
    have hlive := h.live
    rw [liveData, liveData] at hlive ⊢
    rw [filter_cons, filter_cons, hlive]

theorem lookup_filter (key : String) :
    (data'.lookup key).filter (·.live now) = (data.lookup key).filter (·.live now) := by
  rw [← lookup_liveData h.nodup, ← lookup_liveData (h.nodup.sublist (h.sublist.map _)), h.live]

theorem mem_of_live {p : String × MapEntry} (hp : p ∈ data) (hlive : p.2.live now) : p ∈ data' := by
  have hmem : p ∈ liveData data now := mem_filter.mpr ⟨hp, hlive⟩
  rw [← h.live] at hmem
  exact mem_of_mem_filter hmem

theorem lookup_eq
    (hlive : ∀ e, data.lookup key = some e → e.live now) : data'.lookup key = data.lookup key := by
  refine Option.ext fun e ↦ ?_
  rw [lookup_eq_some_iff (h.nodup.sublist (h.sublist.map _)), lookup_eq_some_iff h.nodup]
  refine ⟨h.sublist.mem, fun hmem ↦ h.mem_of_live hmem (hlive e ?_)⟩
  exact (lookup_eq_some_iff h.nodup).mpr hmem

theorem eq_of_live (hlive : ∀ p ∈ data, p.2.live now) : data' = data := by
  have hall : liveData data now = data := filter_eq_self.mpr hlive
  refine h.sublist.eq_of_length_le ?_
  rw [← hall, ← h.live]
  exact length_filter_le _ _

end Thinned

end Live

namespace Map

theorem get_fst (m : Map) (key : String) (now : ℕ) :
    (m.get key now).1 = ((m.data.lookup key).filter (·.live now)).map MapEntry.value := by
  rw [get]
  rcases m.data.lookup key with _ | e
  · rfl
  dsimp only
  rw [MapEntry.any_le_eq, filter_some]
  by_cases hlive : e.live now = true
  · rw [if_neg (by rw [hlive]; exact Bool.false_ne_true), if_pos hlive, map_some]
  · rw [if_pos (by rwa [Bool.not_eq_true', ← Bool.not_eq_true]), if_neg hlive, map_none]

/-- `get` evicts the entry under its key if it has expired. -/
theorem get_snd (m : Map) (hnd : (m.data.map Prod.fst).Nodup) (key : String) (now : ℕ) :
    (m.get key now).2.data = m.data.filter fun p ↦ p.1 != key || p.2.live now := by
  -- distinct keys: what is found under the key is all there is under it
  have hfnd : ∀ p ∈ m.data, p.1 = key → m.data.lookup key = some p.2 := by
    rintro p hp rfl
    exact (lookup_eq_some_iff hnd).mpr hp
  rw [get]
  rcases hlook : m.data.lookup key with _ | e
  · refine (filter_eq_self.mpr fun p hp ↦ ?_).symm
    rw [Bool.or_eq_true, bne_iff_ne]
    exact .inl fun heq ↦ nomatch hlook.symm.trans (hfnd p hp heq)
  have hthis : ∀ p ∈ m.data, p.1 = key → p.2 = e :=
    fun p hp heq ↦ some.inj ((hfnd p hp heq).symm.trans hlook)
  dsimp only
  rw [MapEntry.any_le_eq]
  split_ifs with hdead
  · refine filter_congr fun p hp ↦ ?_
    by_cases heq : p.1 = key
    · rw [hthis p hp heq, Bool.not_eq_eq_eq_not.mp hdead, Bool.not_true, Bool.or_false]
    · rw [bne_iff_ne.mpr heq, Bool.true_or]
  · refine (filter_eq_self.mpr fun p hp ↦ ?_).symm
    by_cases heq : p.1 = key
    · rw [hthis p hp heq, Bool.or_eq_true]
      exact .inr (by simpa using hdead)
    · rw [bne_iff_ne.mpr heq, Bool.true_or]

end Map

/-! ## Two runs -/

namespace MapRun

variable {t now : ℕ} {r r' : MapRun}

/-- The second run has evicted more. -/
structure Behind (t : ℕ) (r r' : MapRun) : Prop where
  wal : r'.wal = r.wal
  data : Thinned t r.map.data r'.map.data

section

variable (h : Behind t r r')

include h

theorem behind_set (key : String) (value : Bytes) (ttl : Option ℕ) (now : ℕ) :
    Behind t (r.call ⟨now, .set key value ttl⟩).2 (r'.call ⟨now, .set key value ttl⟩).2 ∧
      (r'.call ⟨now, .set key value ttl⟩).1 = (r.call ⟨now, .set key value ttl⟩).1 := by
  rw [call, call, Map.set, Map.set, h.wal]
  split_ifs with hkey
  · exact ⟨⟨rfl, h.data⟩, rfl⟩
  rcases r.wal.append value now with ⟨_ | _, wal⟩
  · exact ⟨⟨rfl, h.data⟩, rfl⟩
  · refine ⟨⟨rfl, (h.data.filter _).cons ?_ _⟩, rfl⟩
    intro hmem
    obtain ⟨p, hp, rfl⟩ := mem_map.mp hmem
    exact bne_iff_ne.mp (mem_filter.mp hp).2 rfl

/-- One call in both runs. -/
theorem Behind.call {c : MapCall} (hle : t ≤ c.now) :
    Behind c.now (r.call c).2 (r'.call c).2 ∧ (r.Clean c → (r'.call c).1 = (r.call c).1) := by
  have hnow : Behind c.now r r' := ⟨h.wal, h.data.mono hle⟩
  have hnd : (r'.map.data.map Prod.fst).Nodup := h.data.nodup.sublist (h.data.sublist.map _)
  obtain ⟨now, ⟨key, value, ttl⟩ | key | key | _ | _⟩ := c
  · obtain ⟨hbehind, hres⟩ := behind_set hnow key value ttl now
    exact ⟨hbehind, fun _ ↦ hres⟩
  · refine ⟨⟨h.wal, ?_⟩, fun _ ↦ ?_⟩
    · change Thinned now (r.map.get key now).2.data (r'.map.get key now).2.data
      rw [Map.get_snd _ h.data.nodup, Map.get_snd _ hnd]
      exact hnow.data.filter _
    · rw [MapRun.call, MapRun.call, Map.get_fst, Map.get_fst, hnow.data.lookup_filter]
  · refine ⟨⟨h.wal, hnow.data.filter _⟩, fun hcln ↦ ?_⟩
    rw [MapRun.call, MapRun.call, Map.delete, Map.delete, hnow.data.lookup_eq hcln]
  · refine ⟨hnow, fun hcln ↦ ?_⟩
    rw [MapRun.call, MapRun.call, Map.len, Map.len, hnow.data.eq_of_live hcln]
  · refine ⟨⟨h.wal, hnow.data.filter _⟩, fun _ ↦ ?_⟩
    change MapResult.entries ((liveData r'.map.data now).map _) =
      MapResult.entries ((liveData r.map.data now).map _)
    rw [hnow.data.live]

/-- A read in the second run only. -/
theorem Behind.read {w : Woven} (hread : w.own? = none) (hle : t ≤ w.call.now) :
    Behind w.call.now r (r'.call w.call).2 := by
  have hnow := h.data.mono hle
  have hnd : (r'.map.data.map Prod.fst).Nodup := hnow.nodup.sublist (hnow.sublist.map _)
  rcases w with c | ⟨now, key⟩ | now
  · cases hread
  · refine ⟨h.wal, ?_⟩
    change Thinned now r.map.data (r'.map.get key now).2.data
    rw [Map.get_snd _ hnd]
    exact hnow.evict fun p _ hlive ↦ Bool.or_eq_true_iff.mpr (.inr hlive)
  · exact ⟨h.wal, hnow.evict fun _ _ hlive ↦ hlive⟩

/-- A run of clean calls, and the same with reads in between. -/
theorem Behind.answers {woven : List Woven} (haft : ∀ w ∈ woven, t ≤ w.call.now)
    (hclk : woven.Pairwise fun w w' ↦ w.call.now ≤ w'.call.now)
    (hcln : r.Cleanly (woven.filterMap Woven.own?)) :
    r'.answers woven = r.results (woven.filterMap Woven.own?) := by
  induction woven generalizing t r r' with
  | nil => rfl
  | cons w woven ih =>
    rw [pairwise_cons] at hclk
    have hle := haft w mem_cons_self
    rcases w with c | ⟨now, key⟩ | now
    · rw [filterMap_cons_some (rfl : (Woven.own c).own? = some c)] at hcln ⊢
      obtain ⟨hbehind, hres⟩ := h.call (c := c) hle
      rw [MapRun.answers, results, hres hcln.1, ih hbehind hclk.1 hclk.2 hcln.2]
    · rw [filterMap_cons_none rfl] at hcln ⊢
      exact ih (h.read rfl hle) hclk.1 hclk.2 hcln
    · rw [filterMap_cons_none rfl] at hcln ⊢
      exact ih (h.read rfl hle) hclk.1 hclk.2 hcln

end

/-- Removing entries when they expire is one way to insert reads. -/
theorem answers_eager (r : MapRun) (calls : List MapCall) :
    r.answers (Woven.sweeping calls) = r.eager calls := by
  induction calls generalizing r with
  | nil => rfl
  | cons c calls ih =>
    rw [eager, ← ih]
    rfl

/-- The run that removes entries when they expire gives the same results only if calls are clean. -/
theorem Behind.cleanly (h : Behind t r r') (haft : ∀ c ∈ calls, t ≤ c.now)
    (hclk : calls.Pairwise fun c c' ↦ c.now ≤ c'.now) (heq : r.results calls = r'.eager calls) :
    r.Cleanly calls := by
  induction calls generalizing t r r' with
  | nil => trivial
  | cons c calls ih =>
    rw [pairwise_cons] at hclk
    rw [results, eager, List.cons.injEq] at heq
    have hle := haft c mem_cons_self
    have hpurged : Behind c.now r (r'.purge c.now) := h.read (w := .snapshot c.now) rfl hle
    refine ⟨?_, ih (hpurged.call le_rfl).1 hclk.1 hclk.2 heq.2⟩
    have hlive := (h.data.mono hle).live
    obtain ⟨now, ⟨key, value, ttl⟩ | key | key | _ | _⟩ := c
    · trivial
    · trivial
    · intro e he
      have hfnd : (r.map.data.lookup key).isSome =
          ((liveData r'.map.data now).lookup key).isSome := MapResult.deleted.inj heq.1
      rw [hlive, lookup_liveData h.data.nodup, he, filter_some] at hfnd
      split_ifs at hfnd with hthis
      · exact hthis
      · cases hfnd
    · have hlen : r.map.data.length = (liveData r'.map.data now).length := MapResult.len.inj heq.1
      rw [hlive] at hlen
      exact length_filter_eq_length_iff.mp hlen.symm
    · trivial

/-- **Lazy expiry.** At non-decreasing times, reads can be inserted anywhere without changing a
result exactly if no `delete` and no `len` meets an entry that has expired. -/
theorem unobservable_iff (name : String) (tenant : TenantId) (wal : TieredSegmentedLog)
    {calls : List MapCall} (hclock : calls.Pairwise fun c c' ↦ c.now ≤ c'.now) :
    ((start name tenant wal).Unobservable calls ↔ (start name tenant wal).Cleanly calls) ∧
      ((start name tenant wal).results calls = (start name tenant wal).eager calls ↔
        (start name tenant wal).Cleanly calls) := by
  have hstart : Behind 0 (start name tenant wal) (start name tenant wal) :=
    ⟨rfl, nodup_nil, .refl _, rfl⟩
  have hsame : (start name tenant wal).Cleanly calls →
      (start name tenant wal).Unobservable calls := by
    rintro hclean woven rfl hwoven
    exact hstart.answers (fun _ _ ↦ Nat.zero_le _) hwoven hclean
  have heager : (start name tenant wal).Unobservable calls →
      (start name tenant wal).results calls = (start name tenant wal).eager calls := by
    intro h
    rw [← answers_eager]
    exact (h _ (Woven.own_sweeping calls) (Woven.pairwise_sweeping hclock)).symm
  have hclean : (start name tenant wal).results calls = (start name tenant wal).eager calls →
      (start name tenant wal).Cleanly calls :=
    hstart.cleanly (fun _ _ ↦ Nat.zero_le _) hclock
  exact ⟨⟨fun h ↦ hclean (heager h), hsame⟩, hclean, fun h ↦ heager (hsame h)⟩

def blank : MapRun := start "m" ⟨"acme", by decide, by decide⟩ (.new (.new 64) .empty)

/-- A key that is deleted while it is live, and counted when it is gone. -/
theorem unobservable_before_expiry : List.Pairwise (fun c c' : MapCall ↦ c.now ≤ c'.now)
      [⟨0, .set "k" [1] (some 5)⟩, ⟨4, .delete "k"⟩, ⟨9, .len⟩] ∧
    blank.Unobservable [⟨0, .set "k" [1] (some 5)⟩, ⟨4, .delete "k"⟩, ⟨9, .len⟩] := by
  have hclean : blank.Cleanly [⟨0, .set "k" [1] (some 5)⟩, ⟨4, .delete "k"⟩, ⟨9, .len⟩] := by
    refine ⟨trivial, ?_, ?_, trivial⟩
    · rintro e ⟨⟩
      rfl
    · exact nofun
  exact ⟨by decide, (unobservable_iff _ _ _ (by decide)).1.mpr hclean⟩

/-- **Expired entries show.** A key has expired; a `get` of it makes the map shorter and the
deletion fail. -/
theorem expired_shows : blank.results [⟨0, .set "k" [1] (some 5)⟩, ⟨9, .len⟩, ⟨9, .delete "k"⟩] =
      [.set (.ok ()), .len 1, .deleted true] ∧
    blank.answers [.own ⟨0, .set "k" [1] (some 5)⟩, .get 9 "k", .own ⟨9, .len⟩,
        .own ⟨9, .delete "k"⟩] =
      [.set (.ok ()), .len 0, .deleted false] ∧
    blank.eager [⟨0, .set "k" [1] (some 5)⟩, ⟨9, .len⟩, ⟨9, .delete "k"⟩] =
      [.set (.ok ()), .len 0, .deleted false] :=
  ⟨rfl, rfl, rfl⟩

end MapRun

end Synapse
