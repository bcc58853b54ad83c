import Synapse.Basic
import Synapse.Lib.Chunks

/-!
# The segmented log

The in-memory append log under all primitives: a list of segments, the last of which is active and
takes the next record unless that would exceed the size limit. An append is two steps, since the
source reserves the offset before it takes the lock on the segments: `reserve` hands out the next
offset and `insert` stores the record. Reads address records by the base offset of a segment plus a
position in it.

That the last segment exists and is not sealed is a field of the structure, which makes
`segments.last_mut().unwrap()` safe. Offsets and segment counts are natural numbers; the segment id
is the counter cut to 32 bits, as the source casts it.
-/

namespace Synapse

open List

structure Record where
  offset : ℕ
  payload : Bytes
  timestamp : ℕ
deriving DecidableEq, Repr

/-- What the read API promises about a record: where it is and what it holds. -/
def Record.entry (r : Record) : ℕ × Bytes := (r.offset, r.payload)

/-- One contiguous run of records. Sealed segments are immutable and are the unit of offload. -/
structure Segment where
  id : ℕ
  baseOffset : ℕ
  records : List Record
  bytes : ℕ
  sealed : Bool
deriving DecidableEq, Repr

namespace Segment

def new (id baseOffset : ℕ) : Segment := ⟨id, baseOffset, [], 0, false⟩

def append (seg : Segment) (rec : Record) : Segment :=
  { seg with bytes := seg.bytes + rec.payload.length, records := seg.records ++ [rec] }

def chunk (seg : Segment) : ℕ × List Bytes := (seg.baseOffset, seg.records.map Record.payload)

end Segment

/-- The segmented log. The last segment is the active one. -/
structure SegmentedLog where
  segments : List Segment
  nextOffset : ℕ
  nextSegmentId : ℕ
  maxSegmentBytes : ℕ
  active : ∃ older last, segments = older ++ [last] ∧ last.sealed = false

namespace SegmentedLog

def new (maxSegmentBytes : ℕ) : SegmentedLog where
  segments := [Segment.new 0 0]
  nextOffset := 0
  nextSegmentId := 1
  maxSegmentBytes := maxSegmentBytes
  active := ⟨[], Segment.new 0 0, rfl, rfl⟩

theorem segments_ne_nil (log : SegmentedLog) : log.segments ≠ [] := by
  obtain ⟨older, last, heq, -⟩ := log.active
  simp [heq]

/-! ## Appending -/

def reserve (log : SegmentedLog) : ℕ × SegmentedLog :=
  (log.nextOffset, { log with nextOffset := log.nextOffset + 1 })

/-- The record does not fit in the active segment, which holds something already. -/
def wouldExceed (log : SegmentedLog) (last : Segment) (rec : Record) : Bool :=
  decide (log.maxSegmentBytes < last.bytes + rec.payload.length) && !last.records.isEmpty

/-- The segments after a record has been stored. A full segment is sealed and a new one opened at
the offset of the record. -/
def insertSegments (log : SegmentedLog) (last : Segment) (rec : Record) : List Segment :=
  if log.wouldExceed last rec then
    log.segments.dropLast ++ [{ last with sealed := true },
      (Segment.new (log.nextSegmentId % 2 ^ 32) rec.offset).append rec]
  else log.segments.dropLast ++ [last.append rec]

/-- Store a record whose offset has been reserved, with the lock on the segments held. -/
def insert (log : SegmentedLog) (rec : Record) : SegmentedLog where
  segments := log.insertSegments (log.segments.getLast log.segments_ne_nil) rec
  nextOffset := log.nextOffset
  nextSegmentId :=
    if log.wouldExceed (log.segments.getLast log.segments_ne_nil) rec then log.nextSegmentId + 1
    else log.nextSegmentId
  maxSegmentBytes := log.maxSegmentBytes
  active := by
    obtain ⟨older, last, heq, hopen⟩ := log.active
    have hlast : log.segments.getLast log.segments_ne_nil = last := by simp [heq]
    rw [insertSegments, hlast]
    split_ifs
    · exact ⟨_ ++ [_], _, by rw [List.append_assoc]; rfl, rfl⟩
    · exact ⟨_, _, rfl, hopen⟩

def append (log : SegmentedLog) (payload : Bytes) (now : ℕ) : EngineResult ℕ × SegmentedLog :=
  if payload = [] then (.error (.invalidArgument "empty payload"), log)
  else
    let (offset, log) := log.reserve
    (.ok offset, log.insert ⟨offset, payload, now⟩)

/-! ## Reading -/

/-- Push records until there are `maxRecords` of them. -/
def pushUpTo (maxRecords : ℕ) : List Record → List Record → List Record
  | out, [] => out
  | out, rec :: recs =>
    if maxRecords ≤ out.length then out else pushUpTo maxRecords (out ++ [rec]) recs

/-- The loop over the segments: skip those before `fromOffset`, and in the first one that is not
before it the records that are. -/
def readLoop (fromOffset maxRecords : ℕ) : List Segment → List Record → List Record
  | [], out => out
  | seg :: segments, out =>
    if seg.records = [] then readLoop fromOffset maxRecords segments out
    else if seg.baseOffset + seg.records.length ≤ fromOffset then
      readLoop fromOffset maxRecords segments out
    else
      readLoop fromOffset maxRecords segments
        (pushUpTo maxRecords out (seg.records.drop (fromOffset - seg.baseOffset)))

def read (log : SegmentedLog) (fromOffset maxRecords : ℕ) : EngineResult (List Record) :=
  .ok (readLoop fromOffset maxRecords log.segments [])

def len (log : SegmentedLog) : ℕ := log.nextOffset

/-! ## Access for offloading -/

def sealedSegments (log : SegmentedLog) : List (ℕ × ℕ × ℕ) :=
  (log.segments.filter Segment.sealed).map fun seg ↦
    (seg.id, seg.baseOffset, seg.records.length)

def segmentBounds (log : SegmentedLog) : List (ℕ × ℕ) :=
  log.segments.map fun seg ↦ (seg.baseOffset, seg.records.length)

def readSegmentRecords (log : SegmentedLog) (base : ℕ) : Option (List Record) :=
  (log.segments.find? fun seg ↦ seg.baseOffset == base).map Segment.records

def segmentPayloads (log : SegmentedLog) (id : ℕ) : EngineResult (List Bytes) :=
  match log.segments.find? fun seg ↦ seg.id == id with
  | some seg => .ok (seg.records.map Record.payload)
  | none => .error (.notFound ("segment " ++ toString id))

/-- Remove the first sealed segment with the given id, if there is one. -/
def dropSegment (log : SegmentedLog) (id : ℕ) : SegmentedLog where
  segments := log.segments.eraseP fun seg ↦ seg.id == id && seg.sealed
  nextOffset := log.nextOffset
  nextSegmentId := log.nextSegmentId
  maxSegmentBytes := log.maxSegmentBytes
  active := by
    obtain ⟨older, last, heq, hopen⟩ := log.active
    rw [heq, List.eraseP_append]
    split_ifs
    · exact ⟨_, last, rfl, hopen⟩
    · exact ⟨older, last, by simp [hopen], hopen⟩

/-! ## What the operations do -/

section Insert

variable {log : SegmentedLog} {older : List Segment} {last : Segment}

theorem insert_segments (heq : log.segments = older ++ [last]) (rec : Record) :
    (log.insert rec).segments = if log.wouldExceed last rec then
        older ++ [{ last with sealed := true },
          (Segment.new (log.nextSegmentId % 2 ^ 32) rec.offset).append rec]
      else older ++ [last.append rec] := by
  have hlast : log.segments.getLast log.segments_ne_nil = last := by simp [heq]
  have hdrop : log.segments.dropLast = older := by simp [heq]
  rw [insert]
  simp only [insertSegments, hlast, hdrop]

theorem insert_nextSegmentId (heq : log.segments = older ++ [last]) (rec : Record) :
    (log.insert rec).nextSegmentId =
      if log.wouldExceed last rec then log.nextSegmentId + 1 else log.nextSegmentId := by
  have hlast : log.segments.getLast log.segments_ne_nil = last := by simp [heq]
  rw [insert]
  simp only [hlast]

end Insert

theorem append_of_ne_nil (log : SegmentedLog) {payload : Bytes} (h : payload ≠ []) (now : ℕ) :
    log.append payload now =
      (.ok log.nextOffset, log.reserve.2.insert ⟨log.nextOffset, payload, now⟩) := by
  rw [append, if_neg h]
  rfl

theorem pushUpTo_eq (maxRecords : ℕ) (out recs : List Record) :
    pushUpTo maxRecords out recs = out ++ recs.take (maxRecords - out.length) := by
  induction recs generalizing out with
  | nil => simp [pushUpTo]
  | cons rec recs ih =>
    rw [pushUpTo]
    split_ifs with hfull
    · rw [Nat.sub_eq_zero_of_le hfull, take_zero, append_nil]
    · have hsub : maxRecords - out.length = maxRecords - (out ++ [rec]).length + 1 := by
        rw [length_append, length_singleton]
        omega
      rw [ih, hsub, take_succ_cons, append_assoc, singleton_append]

theorem readLoop_eq (fromOffset maxRecords : ℕ) (segments : List Segment) (out : List Record)
    (hout : out.length ≤ maxRecords) :
    readLoop fromOffset maxRecords segments out = (out ++ segments.flatMap fun seg ↦
      seg.records.drop (fromOffset - seg.baseOffset)).take maxRecords := by
  induction segments generalizing out with
  | nil => simp [readLoop, take_of_length_le hout]
  | cons seg segments ih =>
    rw [readLoop, flatMap_cons]
    split_ifs with hemp hbef
    · rw [ih out hout, hemp, drop_nil, nil_append]
    · rw [ih out hout, drop_of_length_le (by omega), nil_append]
    · rw [pushUpTo_eq, ih _ (by simp; omega)]
      exact Chunks.take_append_take_append maxRecords out _ _ hout

end SegmentedLog

/-- The records of the segment carry consecutive offsets from its base on. -/
def Segment.Numbered (seg : Segment) : Prop :=
  seg.records.map Record.entry =
    Chunks.numbered seg.baseOffset (seg.records.map Record.payload)

theorem Segment.Numbered.append {seg : Segment} (h : seg.Numbered) {rec : Record}
    (hrec : rec.offset = seg.baseOffset + seg.records.length) : (seg.append rec).Numbered := by
  rw [Segment.Numbered] at h ⊢
  simp only [Segment.append, map_append, map_singleton, Chunks.numbered_append, h, length_map]
  rw [Record.entry, hrec]
  rfl

/-- **Reading a segmented log** whose segments hold a whole history. -/
theorem SegmentedLog.read_of_contiguous {log : SegmentedLog} {history : List Bytes}
    (hctg : Chunks.Contiguous 0 (log.segments.map Segment.chunk))
    (hits : Chunks.items (log.segments.map Segment.chunk) = history)
    (hnum : ∀ seg ∈ log.segments, seg.Numbered) (fromOffset maxRecords : ℕ) :
    ∃ recs, log.read fromOffset maxRecords = .ok recs ∧ recs.map Record.entry =
        ((Chunks.numbered 0 history).drop fromOffset).take maxRecords := by
  refine ⟨_, rfl, ?_⟩
  have hwin : ∀ segments : List Segment, (∀ seg ∈ segments, seg.Numbered) →
      (segments.flatMap fun seg ↦ seg.records.drop (fromOffset - seg.baseOffset)).map
        Record.entry = (segments.map Segment.chunk).flatMap (Chunks.window fromOffset) := by
    intro segments hsegs
    rw [map_flatMap, flatMap_map]
    refine flatMap_congr fun seg hseg ↦ ?_
    rw [map_drop, hsegs seg hseg]
    rfl
  rw [readLoop_eq fromOffset maxRecords _ _ (Nat.zero_le _), nil_append, map_take,
    hwin _ hnum, Chunks.flatMap_window hctg, hits, Nat.sub_zero]

end Synapse
