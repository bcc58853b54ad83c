import Synapse.Storage.Tiered

/-!
# Object stores that are not empty

An offload takes an object that is already stored under a segment's key for the segment itself, and
forgets the local one without uploading it. Over a store that another process has used, the object
may be anything.

The proof compares the log with one over a store of its own. Write `own` for the store that holds
exactly the segments dropped so far; over it the log satisfies `OffloadInv`. The real store is
`own` overlaid with what was there at the start (`Overlay`), because an upload happens exactly
where nothing was. So whether a dropped segment can be read back depends on the initial store
alone (`Custody.saved_iff`).
-/

namespace Synapse

open Chunks ByteCode Keyed List Option

/-! ## The two stores -/

/-- The store holds what it held at the start, and elsewhere what `own` holds. -/
def ObjectStore.Overlay (initial own store : ObjectStore) : Prop :=
  ∀ key, store.objects key = (initial.objects key).or (own.objects key)

def TieredSegmentedLog.over (t : TieredSegmentedLog) (store : ObjectStore) : TieredSegmentedLog :=
  { t with object := store }

theorem ObjectStore.objects_put (store : ObjectStore) (key : String) (data : Bytes) (k : String) :
    (store.put key data).objects k = if k = key then some data else store.objects k := rfl

namespace ObjectStore.Overlay

variable {initial own store : ObjectStore} {key : String}

section

variable (h : Overlay initial own store)

include h

theorem contains_eq (hown : own.contains key = false) :
    store.contains key = initial.contains key := by
  rw [contains, isSome_eq_false_iff, isNone_iff_eq_none] at hown
  rw [contains, h key, hown, or_none, contains]

theorem keep (hini : initial.contains key = true) (data : Bytes) :
    Overlay initial (own.put key data) store := by
  intro k
  rw [h k, objects_put]
  by_cases hk : k = key
  · obtain ⟨found, hfnd⟩ := isSome_iff_exists.mp hini
    rw [hk, hfnd, some_or, some_or]
  · rw [if_neg hk]

theorem put (hini : initial.contains key = false) (data : Bytes) :
    Overlay initial (own.put key data) (store.put key data) := by
  rw [contains, isSome_eq_false_iff, isNone_iff_eq_none] at hini
  intro k
  rw [objects_put, objects_put]
  by_cases hk : k = key
  · rw [if_pos hk, if_pos hk, hk, hini, none_or]
  · rw [if_neg hk, if_neg hk, h k]

end

end ObjectStore.Overlay

/-! ## Offloading over both stores -/

namespace OffloadInv

variable {t : TieredSegmentedLog} {history : List Bytes} {chunks : List (ℕ × List Bytes)}
  {initial own : ObjectStore}

/-- The loop over the real store does what it does over the own one, but skips the uploads of
objects there from the start. -/
theorem offloadLoop_over (hfits : ∀ p ∈ history, p.length < 2 ^ 32)
    (putFails : String → Option EngineError) (todo : List Segment) (moved : ℕ)
    (h : OffloadInv (t.over own) history chunks) (hover : initial.Overlay own t.object)
    (htodo : ∀ seg ∈ todo, seg ∈ t.local.segments ∧ seg.sealed = true)
    (hnd : (todo.map Segment.baseOffset).Nodup) :
    ∃ own', OffloadInv ((TieredSegmentedLog.offloadLoop putFails
        (todo.map fun seg ↦ (seg.id, seg.baseOffset, seg.records.length)) t moved).2.over own')
        history chunks ∧
      initial.Overlay own' (TieredSegmentedLog.offloadLoop putFails
        (todo.map fun seg ↦ (seg.id, seg.baseOffset, seg.records.length)) t moved).2.object := by
  induction todo generalizing t own moved with
  | nil => exact ⟨own, h, hover⟩
  | cons seg todo ih =>
    obtain ⟨hseg, hseal⟩ := htodo seg mem_cons_self
    obtain ⟨hown, hpays⟩ := h.lookup hseg
    have hupload := h.upload hfits hseg hseal
    rw [map_cons, nodup_cons] at hnd
    have hrest : ∀ s ∈ todo, s ∈ (t.local.dropSegment seg.id).segments ∧ s.sealed = true := by
      intro s hs
      obtain ⟨hmem, hs'⟩ := htodo s (mem_cons_of_mem seg hs)
      exact ⟨h.mem_dropSegment hseg hseal hmem fun heq ↦ hnd.1 (heq ▸ mem_map_of_mem hs), hs'⟩
    have hcontains := hover.contains_eq hown
    rw [map_cons, TieredSegmentedLog.offloadLoop]
    by_cases hthere : initial.contains (segmentKey seg.baseOffset) = true
    · rw [if_pos (hcontains.trans hthere)]
      exact ih (moved + 1) hupload (hover.keep hthere _) hrest hnd.2
    have hpay : t.local.segmentPayloads seg.id = .ok (seg.records.map Record.payload) := hpays
    rw [if_neg (hcontains ▸ hthere), hpay]
    dsimp only
    rcases putFails (segmentKey seg.baseOffset) with _ | e
    · exact ih (moved + 1) hupload (hover.put (Bool.eq_false_of_not_eq_true hthere) _) hrest hnd.2
    · exact ⟨own, h, hover⟩

theorem offloadSealed_over (h : OffloadInv (t.over own) history chunks)
    (hover : initial.Overlay own t.object) (hfits : ∀ p ∈ history, p.length < 2 ^ 32)
    (putFails : String → Option EngineError) :
    ∃ own', OffloadInv ((t.offloadSealed putFails).2.over own') history chunks ∧
      initial.Overlay own' (t.offloadSealed putFails).2.object := by
  refine h.offloadLoop_over hfits putFails _ 0 hover (fun seg hseg ↦ ?_) ?_
  · exact mem_filter.mp hseg
  · exact h.segment_bases_nodup.sublist (filter_sublist.map _)

end OffloadInv

/-! ## Sessions -/

/-- A session, and the segments whose local copies it has dropped: their bases and payloads. -/
structure Custody extends Session where
  dropped : List (ℕ × List Bytes)

namespace Custody

def start (maxSegmentBytes : ℕ) (initial : ObjectStore) : Custody where
  log := .new (SegmentedLog.new maxSegmentBytes) initial
  appended := []
  dropped := []

/-- The segments of `t` that are no longer local in `t'`. -/
def droppedBy (t t' : TieredSegmentedLog) : List (ℕ × List Bytes) :=
  (t.local.segments.filter fun seg ↦ decide (seg ∉ t'.local.segments)).map Segment.chunk

def perform (s : Custody) (op : StorageOp) : Custody where
  toSession := s.toSession.perform op
  dropped :=
    match op with
    | .append _ _ => s.dropped
    | .offloadSealed _ => s.dropped ++ droppedBy s.log (s.toSession.perform op).log

def run (s : Custody) (ops : List StorageOp) : Custody := ops.foldl perform s

/-- The object under the key of a dropped segment decodes to the payloads of the segment. -/
def Saved (s : Custody) : Prop :=
  ∀ c ∈ s.dropped, ∃ data, s.log.object.objects (segmentKey c.1) = some data ∧
    (decodeSegment data).map Record.payload = c.2

/-- Under the key of a dropped segment the store held nothing at the start, or its payloads. -/
def Harmless (initial : ObjectStore) (s : Custody) : Prop :=
  ∀ c ∈ s.dropped, ∀ data, initial.objects (segmentKey c.1) = some data →
    (decodeSegment data).map Record.payload = c.2

/-- The session over the own store is a session over a store that was empty, and the dropped
segments are what the own store holds. -/
structure Inv (initial own : ObjectStore) (s : Custody) : Prop where
  session : Session.Inv ⟨s.log.over own, s.appended⟩
  overlay : initial.Overlay own s.log.object
  dropped_mem : ∀ c ∈ s.dropped, c.1 ∈ s.log.offloaded ∧
    own.objects (segmentKey c.1) = some (frames c.2) ∧ ∀ p ∈ c.2, p.length < 2 ^ 32
  mem_dropped : ∀ b ∈ s.log.offloaded, ∃ c ∈ s.dropped, c.1 = b

theorem inv_start (maxSegmentBytes : ℕ) (initial : ObjectStore) :
    (start maxSegmentBytes initial).Inv initial .empty where
  session := Session.inv_start maxSegmentBytes
  overlay _ := (or_none).symm
  dropped_mem := nofun
  mem_dropped := nofun

variable {initial own : ObjectStore} {s : Custody} {history : List Bytes}
  {chunks : List (ℕ × List Bytes)}

/-- An offload leaves the chunks as they are: the segments it drops are the chunks that were hot
before and are cold after. -/
theorem mem_droppedBy_iff {t t' : TieredSegmentedLog} (h : OffloadInv t history chunks)
    (h' : OffloadInv t' history chunks) (hsub : t'.local.segments ⊆ t.local.segments)
    (c : ℕ × List Bytes) :
    c ∈ droppedBy t t' ↔ c ∈ chunks ∧ c.1 ∉ t.offloaded ∧ c.1 ∈ t'.offloaded := by
  simp only [droppedBy, List.mem_map, mem_filter, decide_eq_true_eq]
  constructor
  · rintro ⟨seg, ⟨hseg, hgone⟩, rfl⟩
    obtain ⟨hchk, hhot⟩ := h.chunk_mem hseg
    refine ⟨hchk, hhot, by_contra fun hhot' ↦ hgone ?_⟩
    have hmem : seg.chunk ∈ t'.local.segments.map Segment.chunk := by
      rw [h'.hot]
      exact mem_filter.mpr ⟨hchk, decide_eq_true hhot'⟩
    obtain ⟨seg', hseg', heq⟩ := List.mem_map.mp hmem
    have hsame : seg' = seg := inj_on_of_nodup_map h.segment_bases_nodup (hsub hseg') hseg
      (congrArg Prod.fst heq)
    exact hsame ▸ hseg'
  · rintro ⟨hc, hhot, hcold⟩
    have hmem : c ∈ t.local.segments.map Segment.chunk := by
      rw [h.hot]
      exact mem_filter.mpr ⟨hc, decide_eq_true hhot⟩
    obtain ⟨seg, hseg, rfl⟩ := List.mem_map.mp hmem
    exact ⟨seg, ⟨hseg, fun hstill ↦ (h'.chunk_mem hstill).2 hcold⟩, rfl⟩

theorem offloaded_subset {t t' : TieredSegmentedLog} (h : OffloadInv t history chunks)
    (h' : OffloadInv t' history chunks) (hsub : t'.local.segments ⊆ t.local.segments) :
    t.offloaded ⊆ t'.offloaded := by
  intro b hb
  obtain ⟨c, hc, rfl⟩ := List.mem_map.mp (h.offloaded_mem b hb)
  by_contra hhot
  have hmem : c ∈ t'.local.segments.map Segment.chunk := by
    rw [h'.hot]
    exact mem_filter.mpr ⟨hc, decide_eq_true hhot⟩
  obtain ⟨seg, hseg, rfl⟩ := List.mem_map.mp hmem
  exact (h.chunk_mem (hsub hseg)).2 hb

/-- A dropped segment is a chunk: its payloads can be read off the own store. -/
theorem Inv.dropped_subset (h : s.Inv initial own)
    (hinv : OffloadInv (s.log.over own) history chunks) : s.dropped ⊆ chunks := by
  intro c hc
  obtain ⟨hcold, hown, hfits⟩ := h.dropped_mem c hc
  obtain ⟨d, hd, hbase⟩ := List.mem_map.mp (hinv.offloaded_mem c.1 hcold)
  obtain ⟨hsto, hfits'⟩ := hinv.stored d hd (hbase ▸ hcold)
  have hfrs : frames d.2 = frames c.2 := by
    rw [hbase] at hsto
    exact some.inj (hsto.symm.trans hown)
  have hpays : d.2 = c.2 := by rw [← unframe_frames d.2 hfits', hfrs, unframe_frames c.2 hfits]
  exact (Prod.ext hbase hpays : d = c) ▸ hd

theorem Inv.append (h : s.Inv initial own) {payload : Bytes} (now : ℕ)
    (hfits : payload.length < 2 ^ 32) (hct : s.segmentCount < 2 ^ 32) :
    (s.perform (.append payload now)).Inv initial own := by
  have hsession := h.session.perform (show StorageOp.Fits (.append payload now) from hfits) hct
  by_cases hnil : payload = []
  · rw [hnil]
    exact ⟨h.session, h.overlay, h.dropped_mem, h.mem_dropped⟩
  have heq := s.toSession.append_eq hnil now
  rw [Session.append_eq _ hnil] at hsession
  refine ⟨?_, ?_, ?_, ?_⟩ <;> rw [perform, heq]
  · exact hsession
  · exact h.overlay
  · exact h.dropped_mem
  · exact h.mem_dropped

theorem Inv.offloadSealed (h : s.Inv initial own) (putFails : String → Option EngineError) :
    ∃ own', (s.perform (.offloadSealed putFails)).Inv initial own' := by
  obtain ⟨history, chunks, hinv, happd, hnext, hlen⟩ := h.session
  obtain ⟨own', hinv', hoverlay⟩ := hinv.offloadSealed_over h.overlay hlen putFails
  have hsub := (Session.offloadLoop_frame putFails s.log.local.sealedSegments s.log 0).2.2.subset
  have hkeep := offloaded_subset hinv hinv' hsub
  have hchks := h.dropped_subset hinv
  refine ⟨own', ⟨⟨history, chunks, hinv', happd, ?_, hlen⟩, hoverlay, fun c hc ↦ ?_, fun b hb ↦ ?_⟩⟩
  · exact (Session.offloadLoop_frame putFails _ s.log 0).1.trans hnext
  · obtain ⟨hmem, hcold⟩ : c ∈ chunks ∧ c.1 ∈ (s.log.offloadSealed putFails).2.offloaded := by
      rcases mem_append.mp hc with hold | hnew
      · exact ⟨hchks hold, hkeep (h.dropped_mem c hold).1⟩
      · have hiff := (mem_droppedBy_iff hinv hinv' hsub c).mp hnew
        exact ⟨hiff.1, hiff.2.2⟩
    exact ⟨hcold, hinv'.stored c hmem hcold⟩
  · by_cases hold : b ∈ s.log.offloaded
    · obtain ⟨c, hc, hbase⟩ := h.mem_dropped b hold
      exact ⟨c, mem_append_left _ hc, hbase⟩
    · obtain ⟨c, hc, rfl⟩ := List.mem_map.mp (hinv'.offloaded_mem b hb)
      exact ⟨c, mem_append_right _ ((mem_droppedBy_iff hinv hinv' hsub c).mpr ⟨hc, hold, hb⟩), rfl⟩

theorem toSession_run (s : Custody) (ops : List StorageOp) :
    (s.run ops).toSession = s.toSession.run ops := by
  induction ops generalizing s with
  | nil => rfl
  | cons op ops ih => exact ih (s.perform op)

theorem Inv.run (h : s.Inv initial own) {ops : List StorageOp} (hfits : ∀ op ∈ ops, op.Fits)
    (hct : (s.run ops).segmentCount < 2 ^ 32) : ∃ own', (s.run ops).Inv initial own' := by
  induction ops generalizing s own with
  | nil => exact ⟨own, h⟩
  | cons op ops ih =>
    have hlt : s.segmentCount < 2 ^ 32 := by
      rw [toSession_run] at hct
      exact lt_of_le_of_lt (s.toSession.segmentCount_le_run (op :: ops)) hct
    have hrest : ∀ o ∈ ops, o.Fits := fun o ho ↦ hfits o (mem_cons_of_mem op ho)
    match op, hfits op mem_cons_self with
    | .append payload now, hpay => exact ih (h.append now hpay hlt) hrest hct
    | .offloadSealed putFails, _ =>
      obtain ⟨own', h'⟩ := h.offloadSealed putFails
      exact ih h' hrest hct

theorem Inv.saved_iff_harmless (h : s.Inv initial own) : s.Saved ↔ s.Harmless initial := by
  refine forall₂_congr fun c hc ↦ ?_
  obtain ⟨-, hown, hfits⟩ := h.dropped_mem c hc
  rw [h.overlay, hown]
  rcases initial.objects (segmentKey c.1) with _ | data
  · simp [TieredSegmentedLog.payloads_decodeSegment hfits]
  · simp

theorem Inv.read_eq (h : s.Inv initial own) (hsaved : s.Saved) (fromOffset maxRecords : ℕ) :
    ∃ recs, s.log.read fromOffset maxRecords = .ok recs ∧
      recs.map Record.entry = (s.appended.drop fromOffset).take maxRecords := by
  obtain ⟨history, chunks, (hinv : OffloadInv (s.log.over own) history chunks), happd, -, -⟩ :=
    h.session
  have hfet : ∀ c ∈ chunks, ∃ recs, s.log.fetch c.1 = .ok (some recs) ∧
      recs.map Record.payload = c.2 := by
    intro c hc
    by_cases hcold : c.1 ∈ s.log.offloaded
    · obtain ⟨d, hd, hbase⟩ := h.mem_dropped c.1 hcold
      obtain rfl : d = c := inj_on_of_nodup_map hinv.bases_nodup (h.dropped_subset hinv hd) hc hbase
      obtain ⟨data, hdata, hpays⟩ := hsaved d hd
      refine ⟨decodeSegment data, ?_, hpays⟩
      rw [TieredSegmentedLog.fetch, if_pos hcold, ObjectStore.get, hdata]
      rfl
    · obtain ⟨recs, hrecs, hpays⟩ := hinv.fetch_eq hc
      have hcold' : c.1 ∉ (s.log.over own).offloaded := hcold
      rw [TieredSegmentedLog.fetch, if_neg hcold'] at hrecs
      exact ⟨recs, by rwa [TieredSegmentedLog.fetch, if_neg hcold], hpays⟩
  obtain ⟨recs, hrecs, hents⟩ := s.log.readLoop_eq fromOffset maxRecords chunks hfet []
    (Nat.zero_le _)
  have hbas : s.log.bases = chunks.map Prod.fst := hinv.bases_eq
  refine ⟨recs, by rw [TieredSegmentedLog.read, hbas, hrecs], ?_⟩
  rw [hents, map_nil, nil_append, flatMap_window hinv.contiguous, hinv.items_eq,
    Nat.sub_zero, happd]

/-- **Offloading over a used store.** After any appends and offloads over any object store, with
uploads failing at will, every dropped segment can be read back from the store exactly if under
their keys the store held nothing at the start that decodes to anything else. -/
theorem saved_iff (maxSegmentBytes : ℕ) (initial : ObjectStore) (ops : List StorageOp)
    (hfits : ∀ op ∈ ops, op.Fits)
    (hcount : ((start maxSegmentBytes initial).run ops).segmentCount < 2 ^ 32) :
    (((start maxSegmentBytes initial).run ops).Saved ↔
        ((start maxSegmentBytes initial).run ops).Harmless initial) ∧
      (((start maxSegmentBytes initial).run ops).Saved → ∀ fromOffset maxRecords,
        ∃ recs, ((start maxSegmentBytes initial).run ops).log.read fromOffset maxRecords =
            .ok recs ∧
          recs.map Record.entry = (((start maxSegmentBytes initial).run ops).appended.drop
            fromOffset).take maxRecords) := by
  obtain ⟨own, h⟩ := (inv_start maxSegmentBytes initial).run hfits hcount
  exact ⟨h.saved_iff_harmless, h.read_eq⟩

def storeWith (base : ℕ) (payloads : List Bytes) : ObjectStore :=
  ObjectStore.empty.put (segmentKey base) (frames payloads)

/-- Two segments are filled and the first is offloaded, over a store that holds such an object under
its key. -/
def overObject (payloads : List Bytes) : Custody :=
  (start 2 (storeWith 0 payloads)).run
    [.append [1, 2] 0, .append [3] 0, .offloadSealed fun _ ↦ none]

/-- The object is the segment, left by an earlier run. -/
theorem saved_same_segment : (overObject [[1, 2]]).Saved := by
  refine (saved_iff 2 (storeWith 0 [[1, 2]]) _ (by simp [StorageOp.Fits])
    (by decide +kernel)).1.mpr fun c hc data hdata ↦ ?_
  have hdropped : (overObject [[1, 2]]).dropped = [(0, [[1, 2]])] := by decide +kernel
  obtain rfl := mem_singleton.mp (hdropped ▸ hc)
  rw [← some.inj hdata]
  decide +kernel

/-- The object is another one: the segment is dropped all the same, and a read returns what was
never appended. -/
theorem dropped_for_leftover : ¬(overObject [[9]]).Saved ∧
      (overObject [[9]]).appended = [(0, [1, 2]), (1, [3])] ∧
      ((overObject [[9]]).log.read 0 2).toOption.map (List.map Record.entry) =
        some [(0, [9]), (1, [3])] := by
  refine ⟨fun hsaved ↦ ?_, by decide +kernel, by decide +kernel⟩
  have hdropped : (overObject [[9]]).dropped = [(0, [[1, 2]])] := by decide +kernel
  obtain ⟨data, hdata, hpayloads⟩ := hsaved (0, [[1, 2]]) (by simp [hdropped])
  have hobject : (overObject [[9]]).log.object.objects (segmentKey 0) = some (frames [[9]]) := by
    decide +kernel
  rw [← some.inj (hobject.symm.trans hdata)] at hpayloads
  exact absurd hpayloads (by decide +kernel)

end Custody

end Synapse
