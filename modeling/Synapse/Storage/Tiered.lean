import Synapse.Lib.Bytes
import Synapse.Lib.Keyed
import Synapse.Storage.SegmentedLog

/-!
# Tiered storage

Sealed segments move to an object store as length-prefixed payloads, and reads go to whichever tier
has the segment. Reads must not notice: `Session.run_read_eq` says that after any sequence of
appends and offloads, with uploads failing at will, a read returns the appended records of the
window asked for.

## The invariant

A ghost list of chunks cuts the whole history at the segment boundaries. Each chunk is hot, that is
a local segment, or cold: its base is in `offloaded` and the store holds its frames under its key.
The local segments are the hot chunks in order, and the last chunk, the active segment, is hot.
-/

namespace Synapse

open Chunks ByteCode Keyed List

/-! ## The model -/

structure ObjectStore where
  objects : String → Option Bytes

namespace ObjectStore

def empty : ObjectStore := ⟨fun _ ↦ none⟩

def put (store : ObjectStore) (key : String) (data : Bytes) : ObjectStore :=
  ⟨fun k ↦ if k = key then some data else store.objects k⟩

def get (store : ObjectStore) (key : String) : EngineResult Bytes :=
  match store.objects key with
  | some data => .ok data
  | none => .error (.notFound ("object " ++ key))

def contains (store : ObjectStore) (key : String) : Bool := (store.objects key).isSome

end ObjectStore

def segmentKey (baseOffset : ℕ) : String := "segments/" ++ toString baseOffset ++ ".log"

/-- A segmented log whose sealed segments move to an object store. `offloaded` is the set of bases
of the segments that live only there. -/
structure TieredSegmentedLog where
  «local» : SegmentedLog
  object : ObjectStore
  offloaded : List ℕ

/-- The records of a fetched segment: frames for as long as a complete one is there. -/
def decodeSegment (buf : Bytes) : List Record :=
  (unframe buf).mapIdx fun i payload ↦ ⟨i, payload, 0⟩

namespace TieredSegmentedLog

def new (log : SegmentedLog) (object : ObjectStore) : TieredSegmentedLog := ⟨log, object, []⟩

def append (t : TieredSegmentedLog) (payload : Bytes) (now : ℕ) :
    EngineResult ℕ × TieredSegmentedLog :=
  let (result, log) := t.local.append payload now
  (result, { t with «local» := log })

def putObject (t : TieredSegmentedLog) (key : String) (data : Bytes) : TieredSegmentedLog :=
  { t with object := t.object.put key data }

/-- Forget a local segment and note that it lives in the store. -/
def dropLocal (t : TieredSegmentedLog) (id base : ℕ) : TieredSegmentedLog :=
  { t with
    «local» := t.local.dropSegment id
    offloaded := if base ∈ t.offloaded then t.offloaded else base :: t.offloaded }

/-- The loop over the segments that were sealed at the start. `putFails key` is the error of the
upload under `key`, if it fails; the loop then ends. -/
def offloadLoop (putFails : String → Option EngineError) :
    List (ℕ × ℕ × ℕ) → TieredSegmentedLog → ℕ → EngineResult ℕ × TieredSegmentedLog
  | [], t, moved => (.ok moved, t)
  | (id, base, _) :: rest, t, moved =>
    if t.object.contains (segmentKey base) then
      offloadLoop putFails rest (t.dropLocal id base) (moved + 1)
    else
      match t.local.segmentPayloads id with
      | .error e => (.error e, t)
      | .ok payloads =>
        match putFails (segmentKey base) with
        | some e => (.error e, t)
        | none =>
          offloadLoop putFails rest
            ((t.putObject (segmentKey base) (frames payloads)).dropLocal id base) (moved + 1)

def offloadSealed (t : TieredSegmentedLog) (putFails : String → Option EngineError) :
    EngineResult ℕ × TieredSegmentedLog :=
  offloadLoop putFails t.local.sealedSegments t 0

/-- The records of the segment at `base`, from the tier that has it. -/
def fetch (t : TieredSegmentedLog) (base : ℕ) : EngineResult (Option (List Record)) :=
  if base ∈ t.offloaded then do
    let buf ← t.object.get (segmentKey base)
    return some (decodeSegment buf)
  else .ok (t.local.readSegmentRecords base)

/-- Offsets are addresses: the base of the segment plus the position in it. -/
def renumber (base : ℕ) (recs : List Record) : List Record :=
  recs.mapIdx fun i rec ↦ { rec with offset := base + i }

/-- The loop over the bases of all segments in order. -/
def readLoop (t : TieredSegmentedLog) (fromOffset maxRecords : ℕ) :
    List ℕ → List Record → EngineResult (List Record)
  | [], out => .ok out
  | base :: bases, out =>
    if maxRecords ≤ out.length then .ok out
    else do
      match ← t.fetch base with
      | none => readLoop t fromOffset maxRecords bases out
      | some recs =>
        if base + recs.length ≤ fromOffset then readLoop t fromOffset maxRecords bases out
        else
          readLoop t fromOffset maxRecords bases
            (SegmentedLog.pushUpTo maxRecords out
              ((renumber base recs).drop (fromOffset - base)))

/-- The bases of all segments of both tiers, sorted, without repetitions. -/
def bases (t : TieredSegmentedLog) : List ℕ :=
  ((t.offloaded ++ t.local.segmentBounds.map Prod.fst).insertionSort (· ≤ ·)).destutter (· ≠ ·)

/-- Read up to `maxRecords` records from `fromOffset` on, from both tiers. -/
def read (t : TieredSegmentedLog) (fromOffset maxRecords : ℕ) : EngineResult (List Record) :=
  t.readLoop fromOffset maxRecords t.bases []

def len (t : TieredSegmentedLog) : ℕ := t.local.len

end TieredSegmentedLog

theorem segmentKey_injective {m n : ℕ} (h : segmentKey m = segmentKey n) : m = n := by
  have hlist := congrArg String.toList h
  rw [segmentKey, segmentKey, String.toList_append, String.toList_append, String.toList_append,
    String.toList_append, append_left_inj, append_right_inj] at hlist
  have hdigits : Nat.toDigits 10 m = Nat.toDigits 10 n := by
    rwa [← Nat.toList_repr, ← Nat.toList_repr]
  rw [← Nat.ofDigitChars_toDigits (n := m) (b := 10) (by decide) (by decide), hdigits,
    Nat.ofDigitChars_toDigits (by decide) (by decide)]

/-! ## Reading -/

namespace TieredSegmentedLog

theorem entries_renumber (base : ℕ) (recs : List Record) :
    (renumber base recs).map Record.entry = numbered base (recs.map Record.payload) := by
  refine ext_getElem? fun k ↦ ?_
  simp only [renumber, List.getElem?_map, List.getElem?_mapIdx, getElem?_numbered, Option.map_map]
  rfl

theorem payloads_decodeSegment {payloads : List Bytes} (h : ∀ p ∈ payloads, p.length < 2 ^ 32) :
    (decodeSegment (frames payloads)).map Record.payload = payloads := by
  rw [decodeSegment, unframe_frames payloads h]
  refine ext_getElem? fun k ↦ ?_
  simp [List.getElem?_map, List.getElem?_mapIdx, Function.comp_def]

theorem entries_push (fromOffset maxRecords : ℕ) {c : ℕ × List Bytes} {recs : List Record}
    (h : recs.map Record.payload = c.2) (out : List Record) :
    (SegmentedLog.pushUpTo maxRecords out ((renumber c.1 recs).drop (fromOffset - c.1))).map
        Record.entry =
      out.map Record.entry ++ (window fromOffset c).take (maxRecords - out.length) := by
  rw [SegmentedLog.pushUpTo_eq, map_append, map_take, map_drop, entries_renumber, h]
  rfl

/-- The loop over chunks that can all be fetched takes from each what is not before `fromOffset`,
up to the limit. -/
theorem readLoop_eq (t : TieredSegmentedLog) (fromOffset maxRecords : ℕ)
    (chunks : List (ℕ × List Bytes))
    (hfet : ∀ c ∈ chunks, ∃ recs, t.fetch c.1 = .ok (some recs) ∧
      recs.map Record.payload = c.2) (out : List Record) (hout : out.length ≤ maxRecords) :
    ∃ recs, t.readLoop fromOffset maxRecords (chunks.map Prod.fst) out = .ok recs ∧
      recs.map Record.entry =
        (out.map Record.entry ++ chunks.flatMap (window fromOffset)).take maxRecords := by
  induction chunks generalizing out with
  | nil => exact ⟨out, rfl, by simp [take_of_length_le, hout]⟩
  | cons c chunks ih =>
    have hlen : (out.map Record.entry).length ≤ maxRecords := by rwa [length_map]
    rw [map_cons, readLoop, flatMap_cons]
    split_ifs with hfull
    · refine ⟨out, rfl, ?_⟩
      rw [take_append_of_le_length (by rwa [length_map]), take_of_length_le hlen]
    obtain ⟨recs, hrecs, hpays⟩ := hfet c mem_cons_self
    have hrest := ih fun d hd ↦ hfet d (mem_cons_of_mem c hd)
    simp only [hrecs, bind, Except.bind]
    split_ifs with hbef
    · obtain ⟨rs, hloop, hrs⟩ := hrest out hout
      refine ⟨rs, hloop, ?_⟩
      rw [hrs, window_of_le (by rwa [← hpays, length_map]), nil_append]
    obtain ⟨rs, hloop, hrs⟩ := hrest (SegmentedLog.pushUpTo maxRecords out
      ((renumber c.1 recs).drop (fromOffset - c.1)))
      (by rw [SegmentedLog.pushUpTo_eq]; simp; omega)
    refine ⟨rs, hloop, ?_⟩
    rw [hrs, entries_push fromOffset maxRecords hpays,
      ← take_append_take_append maxRecords _ _ _ hlen, length_map]

end TieredSegmentedLog

/-! ## The invariant -/

/-- Hot and cold chunks make up the history. -/
structure TieredInv (t : TieredSegmentedLog) (history : List Bytes)
    (chunks : List (ℕ × List Bytes)) : Prop where
  contiguous : Contiguous 0 chunks
  items_eq : items chunks = history
  hot : t.local.segments.map Segment.chunk = chunks.filter fun c ↦ decide (c.1 ∉ t.offloaded)
  last_hot : ∃ older last, chunks = older ++ [last] ∧ last.1 ∉ t.offloaded
  addressed : ∀ seg ∈ t.local.segments, seg.Numbered
  offloaded_nodup : t.offloaded.Nodup
  offloaded_mem : ∀ b ∈ t.offloaded, b ∈ chunks.map Prod.fst
  stored : ∀ c ∈ chunks, c.1 ∈ t.offloaded → t.object.objects (segmentKey c.1) = some (frames c.2) ∧
    ∀ p ∈ c.2, p.length < 2 ^ 32

variable {history' : List Bytes}

namespace TieredInv

variable {t : TieredSegmentedLog} {history : List Bytes} {chunks : List (ℕ × List Bytes)}

section

variable (h : TieredInv t history chunks)

include h

theorem bases_nodup : (chunks.map Prod.fst).Nodup := h.contiguous.pairwise_lt.imp Nat.ne_of_lt

theorem segment_bases_nodup : (t.local.segments.map Segment.baseOffset).Nodup := by
  have heq : t.local.segments.map Segment.baseOffset =
      (t.local.segments.map Segment.chunk).map Prod.fst := by
    rw [map_map]
    rfl
  rw [heq, h.hot]
  exact h.bases_nodup.sublist (filter_sublist.map _)

/-- The bases of both tiers are the bases of the chunks, in order. -/
theorem bases_eq : t.bases = chunks.map Prod.fst := by
  refine destutter_insertionSort ?_ h.contiguous.pairwise_lt
  have hlcl : t.local.segmentBounds.map Prod.fst =
      (chunks.filter fun c ↦ decide (c.1 ∉ t.offloaded)).map Prod.fst := by
    rw [← h.hot, SegmentedLog.segmentBounds, map_map, map_map]
    rfl
  have hcold : t.offloaded.Perm
      ((chunks.filter fun c ↦ decide (c.1 ∈ t.offloaded)).map Prod.fst) := by
    refine (perm_ext_iff_of_nodup h.offloaded_nodup
      (h.bases_nodup.sublist (filter_sublist.map _))).mpr fun b ↦ ⟨fun hb ↦ ?_, fun hb ↦ ?_⟩
    · obtain ⟨c, hc, rfl⟩ := mem_map.mp (h.offloaded_mem b hb)
      exact mem_map_of_mem (mem_filter.mpr ⟨hc, decide_eq_true hb⟩)
    · obtain ⟨c, hc, rfl⟩ := mem_map.mp hb
      exact of_decide_eq_true (mem_filter.mp hc).2
  rw [hlcl]
  refine (hcold.append_right _).trans ?_
  rw [← map_append]
  simpa using (filter_append_perm (fun c ↦ decide (c.1 ∈ t.offloaded)) chunks).map Prod.fst

theorem fetch_eq {c : ℕ × List Bytes} (hc : c ∈ chunks) :
    ∃ recs, t.fetch c.1 = .ok (some recs) ∧ recs.map Record.payload = c.2 := by
  rw [TieredSegmentedLog.fetch]
  split_ifs with hcold
  · obtain ⟨hsto, hfits⟩ := h.stored c hc hcold
    refine ⟨decodeSegment (frames c.2), ?_, TieredSegmentedLog.payloads_decodeSegment hfits⟩
    rw [ObjectStore.get, hsto]
    rfl
  · have hmem : c ∈ t.local.segments.map Segment.chunk := by
      rw [h.hot]
      exact mem_filter.mpr ⟨hc, decide_eq_true hcold⟩
    obtain ⟨seg, hseg, rfl⟩ := mem_map.mp hmem
    refine ⟨seg.records, ?_, rfl⟩
    have hfind := find?_key Segment.baseOffset h.segment_bases_nodup hseg
    rw [SegmentedLog.readSegmentRecords, Segment.chunk, hfind]
    rfl

/-- **Transparency.** A read sees the window of the whole history, whichever tier holds it. -/
theorem read_eq (fromOffset maxRecords : ℕ) : ∃ recs, t.read fromOffset maxRecords = .ok recs ∧
      recs.map Record.entry = ((numbered 0 history).drop fromOffset).take maxRecords := by
  obtain ⟨recs, hrecs, hents⟩ := t.readLoop_eq fromOffset maxRecords chunks
    (fun c hc ↦ h.fetch_eq hc) [] (Nat.zero_le _)
  refine ⟨recs, by rw [TieredSegmentedLog.read, h.bases_eq, hrecs], ?_⟩
  rw [hents, map_nil, nil_append, flatMap_window h.contiguous, h.items_eq, Nat.sub_zero]

/-- The chunks end with the active segment. -/
theorem exists_active {older : List Segment} {last : Segment}
    (heq : t.local.segments = older ++ [last]) :
    ∃ front, chunks = front ++ [last.chunk] ∧ last.baseOffset ∉ t.offloaded ∧
      older.map Segment.chunk = front.filter fun c ↦ decide (c.1 ∉ t.offloaded) := by
  obtain ⟨front, c, rfl, hc⟩ := h.last_hot
  have hhot := h.hot
  have hkeep : [c].filter (fun c ↦ decide (c.1 ∉ t.offloaded)) = [c] := by simp [hc]
  rw [heq, map_append, map_singleton, filter_append, hkeep] at hhot
  obtain ⟨hfrt, hlast⟩ := append_inj' hhot rfl
  obtain rfl : last.chunk = c := singleton_inj.mp hlast
  exact ⟨front, rfl, hc, hfrt⟩

end

theorem replaceActive {front : List (ℕ × List Bytes)} {older tail : List Segment} {last : Segment}
    (h : TieredInv t history (front ++ [last.chunk])) (hlast : last.baseOffset ∉ t.offloaded)
    (hfrt : older.map Segment.chunk = front.filter fun c ↦ decide (c.1 ∉ t.offloaded))
    (holder : ∀ seg ∈ older, seg.Numbered) {log : SegmentedLog}
    (hseg : log.segments = older ++ tail) (hne : tail ≠ [])
    (hctg : Contiguous 0 (front ++ tail.map Segment.chunk))
    (hits : items (front ++ tail.map Segment.chunk) = history')
    (htail : ∀ seg ∈ tail, seg.baseOffset ∉ t.offloaded ∧ seg.Numbered) :
    ∃ chunks', TieredInv { t with «local» := log } history' chunks' := by
  have hhot : ∀ c ∈ tail.map Segment.chunk, c.1 ∉ t.offloaded := by
    intro c hc
    obtain ⟨seg, hmem, rfl⟩ := mem_map.mp hc
    exact (htail seg hmem).1
  refine ⟨_, hctg, hits, ?_, ?_, ?_, h.offloaded_nodup, fun b hb ↦ ?_, fun c hc hcold ↦ ?_⟩
  · rw [hseg, map_append, filter_append, hfrt,
      filter_eq_self.mpr fun c hc ↦ decide_eq_true (hhot c hc)]
  · have hsp := dropLast_append_getLast hne
    refine ⟨front ++ tail.dropLast.map Segment.chunk, (tail.getLast hne).chunk, ?_,
      (htail _ (getLast_mem hne)).1⟩
    rw [append_assoc, ← map_singleton, ← map_append, hsp]
  · rw [hseg]
    exact forall_mem_append.mpr ⟨holder, fun seg hnew ↦ (htail seg hnew).2⟩
  · have hmem := h.offloaded_mem b hb
    rw [map_append, mem_append] at hmem ⊢
    refine hmem.imp_right fun hb' ↦ ?_
    obtain rfl : b = last.chunk.1 := by simpa using hb'
    exact absurd hb hlast
  · rcases mem_append.mp hc with hold | hnew
    · exact h.stored c (mem_append_left _ hold) hcold
    · exact absurd hcold (hhot c hnew)

/-- A record with the next offset is stored. -/
theorem insert (h : TieredInv t history chunks) (rec : Record)
    (hrec : rec.offset = history.length) :
    ∃ chunks', TieredInv { t with «local» := t.local.insert rec } (history ++ [rec.payload])
      chunks' := by
  obtain ⟨older, last, heq, -⟩ := t.local.active
  obtain ⟨front, rfl, hlast, hfrt⟩ := h.exists_active heq
  have hend : rec.offset = last.baseOffset + last.records.length := by
    have hbase : last.baseOffset = (items front).length := by
      simpa using Contiguous.base_last h.contiguous
    rw [hrec, ← h.items_eq, hbase]
    simp [Segment.chunk]
  have hseg := SegmentedLog.insert_segments heq rec
  have haddressed : ∀ seg ∈ older ++ [last], seg.Numbered := heq ▸ h.addressed
  have holder : ∀ seg ∈ older, seg.Numbered := fun seg hm ↦ haddressed seg (mem_append_left _ hm)
  have hlastNumbered : last.Numbered := haddressed last (by simp)
  by_cases hroll : t.local.wouldExceed last rec = true
  · -- the active segment is sealed and a new one opened
    rw [if_pos hroll] at hseg
    set next := (Segment.new (t.local.nextSegmentId % 2 ^ 32) rec.offset).append rec with hnext
    have hchk : next.chunk = (last.baseOffset + last.records.length, [rec.payload]) := by
      rw [← hend]
      rfl
    have hctg : Contiguous 0 (front ++ [last.chunk, next.chunk]) := by
      have hne : last.records.map Record.payload ≠ [] := by
        rw [SegmentedLog.wouldExceed, Bool.and_eq_true] at hroll
        simpa using hroll.2
      have hr := Contiguous.roll h.contiguous hne [rec.payload]
      rwa [length_map, ← hchk] at hr
    have hnextHot : next.baseOffset ∉ t.offloaded := by
      intro hcold
      have hpair := hctg.pairwise_lt
      rw [append_cons, map_append, pairwise_append] at hpair
      exact absurd (hpair.2.2 _ (h.offloaded_mem _ hcold) next.chunk.1 (by simp)) (lt_irrefl _)
    refine h.replaceActive hlast hfrt holder hseg (by simp) hctg ?_ ?_
    · change items (front ++ [last.chunk, next.chunk]) = _
      rw [← h.items_eq]
      simp [hchk]
    · simp only [mem_cons, not_mem_nil, or_false]
      rintro seg (rfl | rfl)
      · exact ⟨hlast, hlastNumbered⟩
      · exact ⟨hnextHot, rfl⟩
  · rw [if_neg hroll] at hseg
    have hctg : Contiguous 0 (front ++ [(last.append rec).chunk]) := Contiguous.push h.contiguous _
    refine h.replaceActive hlast hfrt holder hseg (by simp) hctg ?_ ?_
    · rw [← h.items_eq]
      simp [Segment.chunk, Segment.append]
    · simp only [mem_singleton, forall_eq]
      exact ⟨hlast, hlastNumbered.append hend⟩

end TieredInv

/-! ## Offloading -/

/-- Segment ids are distinct and below the counter they are drawn from. -/
structure SegmentIds (log : SegmentedLog) : Prop where
  nodup : (log.segments.map Segment.id).Nodup
  lt : ∀ seg ∈ log.segments, seg.id < log.nextSegmentId

theorem SegmentIds.insert {log : SegmentedLog} (h : SegmentIds log) (rec : Record)
    (hlt : log.nextSegmentId < 2 ^ 32) : SegmentIds (log.insert rec) := by
  obtain ⟨older, last, heq, -⟩ := log.active
  have hids : (log.insert rec).segments.map Segment.id = log.segments.map Segment.id ++
      if log.wouldExceed last rec = true then [log.nextSegmentId] else [] := by
    rw [SegmentedLog.insert_segments heq, heq, Nat.mod_eq_of_lt hlt]
    split_ifs <;> simp [Segment.append, Segment.new]
  have hlow : ∀ n ∈ log.segments.map Segment.id, n < log.nextSegmentId := forall_mem_map.mpr h.lt
  have hnext := SegmentedLog.insert_nextSegmentId heq rec
  refine ⟨?_, (forall_mem_map (f := Segment.id) (P := (· < _))).mp ?_⟩
  · rw [hids, nodup_append]
    refine ⟨h.nodup, by split_ifs <;> simp, fun n hn k hk ↦ ?_⟩
    split_ifs at hk
    · exact mem_singleton.mp hk ▸ (hlow n hn).ne
    · cases hk
  · rw [hids, hnext, forall_mem_append]
    split_ifs
    · exact ⟨fun n hn ↦ Nat.lt_succ_of_lt (hlow n hn), by simp⟩
    · exact ⟨hlow, forall_mem_nil _⟩

/-- What offloading relies on: ids identify segments, and the store holds nothing but the offloaded
segments. -/
structure OffloadInv (t : TieredSegmentedLog) (history : List Bytes)
    (chunks : List (ℕ × List Bytes)) : Prop extends TieredInv t history chunks where
  ids : SegmentIds t.local
  keys : ∀ b, t.object.contains (segmentKey b) = true → b ∈ t.offloaded

namespace OffloadInv

variable {t : TieredSegmentedLog} {history : List Bytes} {chunks : List (ℕ × List Bytes)}
  {seg : Segment}

section

variable (h : OffloadInv t history chunks) {s : Segment}

include h

section

variable (hseg : seg ∈ t.local.segments)

include hseg

theorem chunk_mem : seg.chunk ∈ chunks ∧ seg.baseOffset ∉ t.offloaded := by
  have hmem : seg.chunk ∈ t.local.segments.map Segment.chunk := mem_map_of_mem hseg
  rwa [h.hot, mem_filter, decide_eq_true_eq] at hmem

theorem sealed_iff (hseal : seg.sealed = true) (hs : s ∈ t.local.segments) :
    (s.id == seg.id && s.sealed) = true ↔ s.baseOffset = seg.baseOffset := by
  rw [Bool.and_eq_true, beq_iff_eq]
  refine ⟨fun ⟨hid, _⟩ ↦ ?_, fun hbase ↦ ?_⟩
  · rw [inj_on_of_nodup_map h.ids.nodup hs hseg hid]
  · rw [inj_on_of_nodup_map h.segment_bases_nodup hs hseg hbase]
    exact ⟨rfl, hseal⟩

theorem mem_dropSegment (hseal : seg.sealed = true) (hs : s ∈ t.local.segments)
    (hne : s.baseOffset ≠ seg.baseOffset) : s ∈ (t.local.dropSegment seg.id).segments := by
  refine (mem_eraseP_of_neg ?_).mpr hs
  rwa [h.sealed_iff hseg hseal hs]

end

theorem upload (hfits : ∀ p ∈ history, p.length < 2 ^ 32)
    (hseg : seg ∈ t.local.segments) (hseal : seg.sealed = true) :
    OffloadInv ((t.putObject (segmentKey seg.baseOffset)
      (frames (seg.records.map Record.payload))).dropLocal seg.id seg.baseOffset)
      history chunks := by
  obtain ⟨hchk, hhot⟩ := h.chunk_mem hseg
  set t' := (t.putObject (segmentKey seg.baseOffset)
    (frames (seg.records.map Record.payload))).dropLocal seg.id seg.baseOffset with ht'
  have hoff : t'.offloaded = seg.baseOffset :: t.offloaded := if_neg hhot
  have hsegs : t'.local.segments = t.local.segments.filter fun s ↦
      decide (s.baseOffset ≠ seg.baseOffset) :=
    eraseP_key Segment.baseOffset h.segment_bases_nodup fun s hs ↦ h.sealed_iff hseg hseal hs
  have hobj : ∀ b, t'.object.objects (segmentKey b) =
      if b = seg.baseOffset then some (frames (seg.records.map Record.payload))
      else t.object.objects (segmentKey b) := by
    intro b
    by_cases hb : b = seg.baseOffset
    · rw [if_pos hb, hb]
      exact if_pos rfl
    · rw [if_neg hb]
      exact if_neg fun hkey ↦ hb (segmentKey_injective hkey)
  refine ⟨⟨h.contiguous, h.items_eq, ?_, ?_, ?_, ?_, ?_, ?_⟩,
    ⟨h.ids.nodup.sublist (eraseP_sublist.map _), fun s hs ↦ h.ids.lt s (mem_of_mem_eraseP hs)⟩, ?_⟩
  · -- the segment leaves the hot chunks, by the base it is now offloaded under
    have hmap := filter_map (f := Segment.chunk) (l := t.local.segments)
      (p := fun c ↦ decide (c.1 ≠ seg.baseOffset))
    rw [hsegs, hoff]
    refine hmap.symm.trans ?_
    rw [h.hot, filter_filter]
    refine filter_congr fun c _ ↦ ?_
    rw [← Bool.decide_and, decide_eq_decide, mem_cons, not_or]
  · obtain ⟨older, last, heq, hopen⟩ := t.local.active
    obtain ⟨front, hchks, hlast, -⟩ := h.exists_active heq
    refine ⟨front, last.chunk, hchks, ?_⟩
    rw [hoff, mem_cons, not_or]
    refine ⟨fun hbase ↦ ?_, hlast⟩
    have hsame : last = seg := inj_on_of_nodup_map h.segment_bases_nodup (heq ▸ by simp) hseg hbase
    rw [hsame, hseal] at hopen
    exact absurd hopen (by decide)
  · rw [hsegs]
    exact fun s hs ↦ h.addressed s (mem_of_mem_filter hs)
  · rw [hoff]
    exact nodup_cons.mpr ⟨hhot, h.offloaded_nodup⟩
  · rw [hoff]
    intro b hb
    rcases mem_cons.mp hb with rfl | hb
    · exact mem_map_of_mem hchk
    · exact h.offloaded_mem b hb
  · intro c hc hcold
    rw [hoff, mem_cons] at hcold
    rw [hobj]
    by_cases hbase : c.1 = seg.baseOffset
    · obtain rfl : c = seg.chunk := inj_on_of_nodup_map h.bases_nodup hc hchk hbase
      rw [if_pos hbase]
      refine ⟨rfl, fun p hp ↦ hfits p ?_⟩
      rw [← h.items_eq]
      exact mem_flatMap.mpr ⟨_, hc, hp⟩
    · rw [if_neg hbase]
      exact h.stored c hc (hcold.resolve_left hbase)
  · intro b hb
    rw [hoff, mem_cons]
    by_cases hbase : b = seg.baseOffset
    · exact .inl hbase
    · rw [ObjectStore.contains, hobj, if_neg hbase] at hb
      exact .inr (h.keys b hb)

theorem lookup (hseg : seg ∈ t.local.segments) :
    t.object.contains (segmentKey seg.baseOffset) = false ∧
      t.local.segmentPayloads seg.id = .ok (seg.records.map Record.payload) := by
  refine ⟨?_, ?_⟩
  · rw [Bool.eq_false_iff]
    exact fun hsto ↦ (h.chunk_mem hseg).2 (h.keys _ hsto)
  · rw [SegmentedLog.segmentPayloads, find?_key Segment.id h.ids.nodup hseg]

end

/-- The loop keeps the invariant, wherever an upload fails. -/
theorem offloadLoop (hfits : ∀ p ∈ history, p.length < 2 ^ 32)
    (putFails : String → Option EngineError) (todo : List Segment) (moved : ℕ)
    (h : OffloadInv t history chunks)
    (htodo : ∀ seg ∈ todo, seg ∈ t.local.segments ∧ seg.sealed = true)
    (hnd : (todo.map Segment.baseOffset).Nodup) :
    OffloadInv (TieredSegmentedLog.offloadLoop putFails
      (todo.map fun seg ↦ (seg.id, seg.baseOffset, seg.records.length)) t moved).2
      history chunks := by
  induction todo generalizing t moved with
  | nil => exact h
  | cons seg todo ih =>
    obtain ⟨hseg, hseal⟩ := htodo seg mem_cons_self
    obtain ⟨hsto, hpays⟩ := h.lookup hseg
    rw [map_cons, nodup_cons] at hnd
    rw [map_cons, TieredSegmentedLog.offloadLoop]
    simp only [hsto, hpays, Bool.false_eq_true, if_false]
    cases putFails (segmentKey seg.baseOffset) with
    | some e => exact h
    | none =>
      refine ih (moved + 1) (h.upload hfits hseg hseal) (fun s hs ↦ ?_) hnd.2
      -- the others are still there, since they have other bases
      obtain ⟨hmem, hs'⟩ := htodo s (mem_cons_of_mem seg hs)
      exact ⟨h.mem_dropSegment hseg hseal hmem fun heq ↦ hnd.1 (heq ▸ mem_map_of_mem hs), hs'⟩

end OffloadInv

theorem tieredInv_new (maxSegmentBytes : ℕ) (object : ObjectStore) :
    TieredInv (.new (SegmentedLog.new maxSegmentBytes) object) [] [(0, [])] where
  contiguous := ⟨rfl, fun h ↦ absurd rfl h, trivial⟩
  items_eq := rfl
  hot := rfl
  last_hot := ⟨[], (0, []), rfl, by simp [TieredSegmentedLog.new]⟩
  addressed := by simp [TieredSegmentedLog.new, SegmentedLog.new, Segment.new, Segment.Numbered]
  offloaded_nodup := nodup_nil
  offloaded_mem := by simp [TieredSegmentedLog.new]
  stored := by simp [TieredSegmentedLog.new]

theorem offloadInv_new (maxSegmentBytes : ℕ) :
    OffloadInv (.new (SegmentedLog.new maxSegmentBytes) .empty) [] [(0, [])] :=
  { tieredInv_new maxSegmentBytes .empty with
    ids := ⟨by simp [TieredSegmentedLog.new, SegmentedLog.new],
      by simp [TieredSegmentedLog.new, SegmentedLog.new, Segment.new]⟩
    keys := by simp [TieredSegmentedLog.new, ObjectStore.contains, ObjectStore.empty] }

/-! ## Appends one at a time -/

theorem TieredSegmentedLog.append_of_ne_nil (t : TieredSegmentedLog) {payload : Bytes}
    (h : payload ≠ []) (now : ℕ) : t.append payload now = (.ok t.local.nextOffset,
      { t with «local» := t.local.reserve.2.insert ⟨t.local.nextOffset, payload, now⟩ }) := by
  rw [append, SegmentedLog.append_of_ne_nil _ h]

/-- The log holds the payloads `history`, and the next offset is free. -/
def TieredSegmentedLog.Holds (t : TieredSegmentedLog) (history : List Bytes) : Prop :=
  ∃ chunks, TieredInv t history chunks ∧ t.local.nextOffset = history.length

namespace TieredSegmentedLog.Holds

variable {t : TieredSegmentedLog} {history : List Bytes}

theorem new (maxSegmentBytes : ℕ) (object : ObjectStore) :
    (TieredSegmentedLog.new (SegmentedLog.new maxSegmentBytes) object).Holds [] :=
  ⟨_, tieredInv_new maxSegmentBytes object, rfl⟩

section

variable (h : t.Holds history)

include h

theorem append (payload : Bytes) (now : ℕ) :
    (t.append payload now).2.Holds (history ++ [payload].filter (· ≠ [])) := by
  obtain ⟨chunks, hinv, hnext⟩ := h
  by_cases hnil : payload = []
  · subst hnil
    exact ⟨chunks, by simpa [TieredSegmentedLog.append, SegmentedLog.append] using hinv,
      by simpa [TieredSegmentedLog.append, SegmentedLog.append] using hnext⟩
  have hrsv : TieredInv { t with «local» := t.local.reserve.2 } history chunks := { hinv with }
  obtain ⟨chunks', hins⟩ := hrsv.insert ⟨t.local.nextOffset, payload, now⟩ hnext
  rw [t.append_of_ne_nil hnil, filter_cons_of_pos (by simpa using hnil), filter_nil]
  refine ⟨chunks', hins, ?_⟩
  rw [length_append, ← hnext]
  rfl

theorem append_fst (payload : Bytes) (now : ℕ) : (t.append payload now).1 =
      if payload = [] then .error (.invalidArgument "empty payload") else .ok history.length := by
  obtain ⟨-, -, hnext⟩ := h
  split_ifs with hnil
  · rw [hnil]
    rfl
  · rw [t.append_of_ne_nil hnil, ← hnext]

theorem read_eq (maxRecords : ℕ) : ∃ recs, t.read 0 maxRecords = .ok recs ∧
      recs.map Record.payload = history.take maxRecords := by
  obtain ⟨chunks, hinv, -⟩ := h
  obtain ⟨recs, hread, hents⟩ := hinv.read_eq 0 maxRecords
  refine ⟨recs, hread, ?_⟩
  have hpays := congrArg (List.map Prod.snd) hents
  rwa [map_map, drop_zero, map_take, map_snd_numbered] at hpays

theorem unique (h' : t.Holds history') : history = history' := by
  obtain ⟨recs, hread, heq⟩ := h.read_eq (history.length + history'.length)
  obtain ⟨recs', hread', heq'⟩ := h'.read_eq (history.length + history'.length)
  obtain rfl : recs = recs' := Except.ok.inj (hread.symm.trans hread')
  rwa [heq, take_of_length_le (by omega), take_of_length_le (by omega)] at heq'

end

end TieredSegmentedLog.Holds

/-! ## Sessions -/

/-- The calls a user of the storage layer makes. An upload under a key fails with the given error,
if any, and then stores nothing. -/
inductive StorageOp
  | append (payload : Bytes) (now : ℕ)
  | offloadSealed (putFails : String → Option EngineError)

def StorageOp.Fits : StorageOp → Prop
  | .append payload _ => payload.length < 2 ^ 32
  | .offloadSealed _ => True

/-- A storage layer in use, and what has been appended: each payload with the offset returned. -/
structure Session where
  log : TieredSegmentedLog
  appended : List (ℕ × Bytes)

namespace Session

def start (maxSegmentBytes : ℕ) : Session :=
  ⟨.new (SegmentedLog.new maxSegmentBytes) .empty, []⟩

def perform (s : Session) : StorageOp → Session
  | .append payload now =>
    match s.log.append payload now with
    | (.ok offset, log) => ⟨log, s.appended ++ [(offset, payload)]⟩
    | (.error _, log) => ⟨log, s.appended⟩
  | .offloadSealed putFails => { s with log := (s.log.offloadSealed putFails).2 }

def run (s : Session) (ops : List StorageOp) : Session := ops.foldl perform s

def segmentCount (s : Session) : ℕ := s.log.local.nextSegmentId

/-- What has been appended is a history the storage layer holds. -/
def Inv (s : Session) : Prop :=
  ∃ history chunks, OffloadInv s.log history chunks ∧ s.appended = numbered 0 history ∧
    s.log.local.nextOffset = history.length ∧ ∀ p ∈ history, p.length < 2 ^ 32

theorem inv_start (maxSegmentBytes : ℕ) : (start maxSegmentBytes).Inv :=
  ⟨[], [(0, [])], offloadInv_new maxSegmentBytes, rfl, rfl, by simp⟩

theorem append_eq (s : Session) {payload : Bytes} (h : payload ≠ []) (now : ℕ) :
    s.perform (.append payload now) =
      { log :=
          { s.log with
            «local» := s.log.local.reserve.2.insert ⟨s.log.local.nextOffset, payload, now⟩ }
        appended := s.appended ++ [(s.log.local.nextOffset, payload)] } := by
  simp only [perform, s.log.append_of_ne_nil h now]

theorem append_nil (s : Session) (now : ℕ) : s.perform (.append [] now) = s := rfl

theorem offloadLoop_frame (putFails : String → Option EngineError) (todo : List (ℕ × ℕ × ℕ))
    (t : TieredSegmentedLog) (moved : ℕ) :
    (t.offloadLoop putFails todo moved).2.local.nextOffset = t.local.nextOffset ∧
      (t.offloadLoop putFails todo moved).2.local.nextSegmentId = t.local.nextSegmentId ∧
      (t.offloadLoop putFails todo moved).2.local.segments.Sublist t.local.segments := by
  induction todo generalizing t moved with
  | nil => exact ⟨rfl, rfl, .refl _⟩
  | cons entry todo ih =>
    obtain ⟨id, base, len⟩ := entry
    rw [TieredSegmentedLog.offloadLoop]
    split_ifs
    · exact (ih (t.dropLocal id base) (moved + 1)).imp_right (.imp_right (.trans · eraseP_sublist))
    split
    · exact ⟨rfl, rfl, .refl _⟩
    · split
      · exact ⟨rfl, rfl, .refl _⟩
      · exact (ih ((t.putObject _ _).dropLocal id base) (moved + 1)).imp_right
          (.imp_right (.trans · eraseP_sublist))

theorem segmentCount_le_perform (s : Session) (op : StorageOp) :
    s.segmentCount ≤ (s.perform op).segmentCount := by
  cases op with
  | append payload now =>
    by_cases hne : payload = []
    · rw [hne, append_nil]
    obtain ⟨older, last, heq, -⟩ := s.log.local.active
    change s.log.local.reserve.2.segments = _ at heq
    rw [append_eq s hne, segmentCount, segmentCount, SegmentedLog.insert_nextSegmentId heq]
    split_ifs
    · exact Nat.le_succ _
    · exact le_rfl
  | offloadSealed putFails => exact (offloadLoop_frame putFails _ s.log 0).2.1.ge

theorem Inv.perform {s : Session} (h : s.Inv) {op : StorageOp} (hfits : op.Fits)
    (hct : s.segmentCount < 2 ^ 32) : (s.perform op).Inv := by
  obtain ⟨history, chunks, hinv, happd, hnext, hlen⟩ := h
  cases op with
  | append payload now =>
    by_cases hne : payload = []
    · rw [hne, append_nil]
      exact ⟨history, chunks, hinv, happd, hnext, hlen⟩
    rw [append_eq s hne]
    have hrsv : TieredInv { s.log with «local» := s.log.local.reserve.2 } history chunks :=
      { hinv.toTieredInv with }
    have hids : SegmentIds s.log.local.reserve.2 := ⟨hinv.ids.nodup, hinv.ids.lt⟩
    obtain ⟨chunks', hins⟩ := hrsv.insert ⟨s.log.local.nextOffset, payload, now⟩ hnext
    refine ⟨history ++ [payload], chunks', ⟨hins, ?_, hinv.keys⟩, ?_, ?_,
      forall_mem_append.mpr ⟨hlen, forall_mem_singleton.mpr hfits⟩⟩
    · exact hids.insert _ hct
    · rw [numbered_append, happd, hnext, zero_add]
      rfl
    · rw [length_append, ← hnext]
      rfl
  | offloadSealed putFails =>
    exact ⟨history, chunks, hinv.offloadLoop hlen putFails _ 0 (fun _ ↦ mem_filter.mp)
      (hinv.segment_bases_nodup.sublist (filter_sublist.map _)), happd,
      (offloadLoop_frame putFails _ s.log 0).1.trans hnext, hlen⟩

theorem segmentCount_le_run (s : Session) (ops : List StorageOp) :
    s.segmentCount ≤ (s.run ops).segmentCount := by
  induction ops generalizing s with
  | nil => exact le_rfl
  | cons op ops ih => exact (s.segmentCount_le_perform op).trans (ih (s.perform op))

theorem Inv.run {s : Session} (h : s.Inv) {ops : List StorageOp} (hfits : ∀ op ∈ ops, op.Fits)
    (hct : (s.run ops).segmentCount < 2 ^ 32) : (s.run ops).Inv := by
  induction ops generalizing s with
  | nil => exact h
  | cons op ops ih =>
    have hlt : s.segmentCount < 2 ^ 32 := lt_of_le_of_lt (s.segmentCount_le_run (op :: ops)) hct
    exact ih (h.perform (hfits op mem_cons_self) hlt)
      (fun o ho ↦ hfits o (mem_cons_of_mem op ho)) hct

/-- **Tiered storage is transparent.** After any appends and offloads, with uploads failing at will,
offsets are positions and a read returns the appended payloads asked for. While nothing is offloaded
the inner log reads the same. -/
theorem run_read_eq (maxSegmentBytes : ℕ) (ops : List StorageOp) (hfits : ∀ op ∈ ops, op.Fits)
    (hcount : ((start maxSegmentBytes).run ops).segmentCount < 2 ^ 32)
    (fromOffset maxRecords : ℕ) :
    (∀ (k : ℕ) (entry : ℕ × Bytes),
        ((start maxSegmentBytes).run ops).appended[k]? = some entry → entry.1 = k) ∧
      (∃ recs, ((start maxSegmentBytes).run ops).log.read fromOffset maxRecords = .ok recs ∧
        recs.map Record.entry =
          (((start maxSegmentBytes).run ops).appended.drop fromOffset).take maxRecords) ∧
      (((start maxSegmentBytes).run ops).log.offloaded = [] →
        ∃ recs, ((start maxSegmentBytes).run ops).log.local.read fromOffset maxRecords = .ok recs ∧
          recs.map Record.entry =
            (((start maxSegmentBytes).run ops).appended.drop fromOffset).take maxRecords) := by
  obtain ⟨history, chunks, hinv, happended, -, -⟩ := (inv_start maxSegmentBytes).run hfits hcount
  rw [happended]
  refine ⟨fun k entry hk ↦ ?_, hinv.toTieredInv.read_eq fromOffset maxRecords, fun hnone ↦ ?_⟩
  · rw [getElem?_numbered, Option.map_eq_some_iff] at hk
    obtain ⟨payload, -, rfl⟩ := hk
    exact Nat.zero_add k
  have hall : ((start maxSegmentBytes).run ops).log.local.segments.map Segment.chunk = chunks := by
    rw [hinv.hot, hnone]
    simp
  exact SegmentedLog.read_of_contiguous (hall ▸ hinv.contiguous) (hall ▸ hinv.items_eq)
    hinv.addressed fromOffset maxRecords

/-- Two segments are sealed; the first is uploaded, the upload of the second fails, and a read spans
both tiers. -/
theorem run_read_eq_two_tiers :
    let ops : List StorageOp := [.append [1, 2] 0, .append [3] 0, .append [4, 5] 0, .append [] 0,
      .offloadSealed fun key ↦ if key = segmentKey 1 then some (.internal "down") else none,
      .append [6] 0]
    ((start 2).run ops).log.offloaded = [0] ∧ ∃ recs, ((start 2).run ops).log.read 0 3 = .ok recs ∧
      recs.map Record.entry = [(0, [1, 2]), (1, [3]), (2, [4, 5])] := by
  intro ops
  refine ⟨by decide +kernel, ?_⟩
  obtain ⟨recs, hrecs, hentries⟩ :=
    (run_read_eq 2 ops (by simp [ops, StorageOp.Fits]) (by decide +kernel) 0 3).2.1
  exact ⟨recs, hrecs, hentries.trans (by decide +kernel)⟩

end Session

end Synapse
