import Mathlib.Data.List.Flatten
import Synapse.Storage.Threads

/-!
# Reads concurrent with offloads

`TieredSegmentedLog::read` takes its view in several steps: the set of offloaded bases, the bounds
of the local segments, and then one segment after the other, from the store if its base is in the
set taken first and from memory otherwise. `offload_sealed` drops a local segment in one step and
enters its base in the set in another. A segment dropped after the read has taken the set is in
neither place for that read, which passes over it without an error (`offload_tears_hole`).

The result is an exact condition on schedules: the read returns what it would have returned alone if
and only if, whenever it looks for the local segments, none that holds a record asked for has gone
since it took the set (`read_undisturbed_iff`).

Chunks stay as they were when the schedule began, since nothing is appended. `pending` is what the
read has, together with what it can still find in the segments left to visit. It is at every point a
selection from the window, and the first `maxRecords` of it change at two steps only: when the
bounds are taken, and when a segment is not found.
-/

namespace Synapse

open Chunks ByteCode Keyed Transition List

/-! ## Reads in time -/

def Segment.Asked (fromOffset maxRecords : ℕ) (seg : Segment) : Prop :=
  max fromOffset seg.baseOffset <
    min (fromOffset + maxRecords) (seg.baseOffset + seg.records.length)

instance (fromOffset maxRecords : ℕ) (seg : Segment) :
    Decidable (seg.Asked fromOffset maxRecords) :=
  inferInstanceAs (Decidable (_ < _))

namespace TieredSegmentedLog

/-- The segment at `base` is neither in the copy of the set nor local. -/
def Lost (t : TieredSegmentedLog) (offloaded : List ℕ) (base : ℕ) : Prop :=
  base ∉ offloaded ∧ base ∉ t.local.segments.map Segment.baseOffset

instance (t : TieredSegmentedLog) (offloaded : List ℕ) (base : ℕ) :
    Decidable (t.Lost offloaded base) :=
  inferInstanceAs (Decidable (_ ∧ _))

end TieredSegmentedLog

/-- When the read takes the bounds and when it takes a segment, nothing it needs of the log `t₀` it
began with is lost. -/
def ReadPc.InTime (t₀ : TieredSegmentedLog) (fromOffset maxRecords : ℕ) (t : TieredSegmentedLog) :
    ReadPc → Prop
  | .bounds offloaded =>
    ∀ seg ∈ t₀.local.segments, seg.Asked fromOffset maxRecords →
      ¬t.Lost offloaded seg.baseOffset
  | .fetch offloaded (base :: _) out =>
    out.length < maxRecords → ∀ seg ∈ t₀.local.segments, seg.Asked fromOffset maxRecords →
      seg.baseOffset = base → ¬t.Lost offloaded base
  | _ => True

instance (t₀ : TieredSegmentedLog) (fromOffset maxRecords : ℕ) (t : TieredSegmentedLog) :
    DecidablePred (ReadPc.InTime t₀ fromOffset maxRecords t)
  | .idle | .fetch _ [] _ | .done _ => isTrue trivial
  | .bounds _ => inferInstanceAs (Decidable (∀ seg ∈ _, _ → ¬_))
  | .fetch _ (_ :: _) _ => inferInstanceAs (Decidable (_ → ∀ seg ∈ _, _ → _ → ¬_))

namespace Interleaving

/-- The steps of offloads are free; those of the read are in time. -/
def InTime (t₀ : TieredSegmentedLog) (fromOffset maxRecords : ℕ) (s : Interleaving) :
    ThreadStep → Prop
  | .offload _ => True
  | .read => s.reader.InTime t₀ fromOffset maxRecords s.log

instance (t₀ : TieredSegmentedLog) (fromOffset maxRecords : ℕ) (s : Interleaving) :
    DecidablePred (InTime t₀ fromOffset maxRecords s)
  | .offload _ => isTrue trivial
  | .read => inferInstanceAs (Decidable (s.reader.InTime t₀ fromOffset maxRecords s.log))

end Interleaving

/-! ## What offloads do to the log -/

structure Gone (chunks : List (ℕ × List Bytes)) (t : TieredSegmentedLog) (base : ℕ) : Prop where
  chunk : base ∈ chunks.map Prod.fst
  stored : t.object.contains (segmentKey base) = true
  dropped : base ∉ t.local.segments.map Segment.baseOffset

/-- The log in a schedule that began with `t₀`. -/
structure Offloading (t₀ : TieredSegmentedLog) (chunks : List (ℕ × List Bytes))
    (t : TieredSegmentedLog) : Prop where
  locals : t.local.segments.Sublist t₀.local.segments
  stored : ∀ c ∈ chunks, ∀ data, t.object.objects (segmentKey c.1) = some data →
    data = frames c.2
  grown : t₀.offloaded ⊆ t.offloaded
  nodup : t.offloaded.Nodup
  gone : ∀ b ∈ t.offloaded, Gone chunks t b

def SealedAt (t₀ : TieredSegmentedLog) (id base : ℕ) (seg : Segment) : Prop :=
  seg ∈ t₀.local.segments ∧ seg.sealed = true ∧ seg.id = id ∧ seg.baseOffset = base

def OffloadPc.Valid (t₀ : TieredSegmentedLog) (chunks : List (ℕ × List Bytes))
    (t : TieredSegmentedLog) : OffloadPc → Prop
  | .idle | .done _ => True
  | .loop todo _ => ∀ e ∈ todo, ∃ seg, SealedAt t₀ e.1 e.2.1 seg
  | .payloads id base todo _ =>
    (∃ seg, SealedAt t₀ id base seg) ∧ ∀ e ∈ todo, ∃ seg, SealedAt t₀ e.1 e.2.1 seg
  | .put id base data todo _ =>
    (∃ seg, SealedAt t₀ id base seg ∧ data = frames (seg.records.map Record.payload)) ∧
      ∀ e ∈ todo, ∃ seg, SealedAt t₀ e.1 e.2.1 seg
  | .drop id base todo _ =>
    (∃ seg, SealedAt t₀ id base seg) ∧ t.object.contains (segmentKey base) = true ∧
      ∀ e ∈ todo, ∃ seg, SealedAt t₀ e.1 e.2.1 seg
  | .insert base todo _ =>
    Gone chunks t base ∧ ∀ e ∈ todo, ∃ seg, SealedAt t₀ e.1 e.2.1 seg

/-- Offloads only add to the store and to the set, and only drop segments. -/
structure Progress (t t' : TieredSegmentedLog) : Prop where
  stored : ∀ key, t.object.contains key = true → t'.object.contains key = true
  locals : t'.local.segments.Sublist t.local.segments
  offloaded : t.offloaded ⊆ t'.offloaded

section Offload

variable {t₀ t t' : TieredSegmentedLog} {history : List Bytes} {chunks : List (ℕ × List Bytes)}

theorem Progress.refl (t : TieredSegmentedLog) : Progress t t := ⟨fun _ h ↦ h, .refl _, fun _ h ↦ h⟩

variable {base : ℕ} {pc : OffloadPc} {seg : Segment}

theorem Gone.progress (h : Gone chunks t base) (hp : Progress t t') : Gone chunks t' base :=
  ⟨h.chunk, hp.stored _ h.stored, fun hmem ↦ h.dropped ((hp.locals.map _).subset hmem)⟩

theorem OffloadPc.Valid.progress (h : pc.Valid t₀ chunks t) (hp : Progress t t') :
    pc.Valid t₀ chunks t' := by
  cases pc with
  | idle | done | loop | payloads | put => exact h
  | drop => exact ⟨h.1, hp.stored _ h.2.1, h.2.2⟩
  | insert => exact ⟨h.1.progress hp, h.2⟩

theorem Offloading.segment_bases_nodup (h : Offloading t₀ chunks t)
    (h₀ : OffloadInv t₀ history chunks) : (t.local.segments.map Segment.baseOffset).Nodup :=
  h₀.segment_bases_nodup.sublist (h.locals.map _)

theorem Offloading.start (h₀ : OffloadInv t₀ history chunks) : Offloading t₀ chunks t₀ where
  locals := .refl _
  stored c hc data hdata := by
    have hcold := h₀.keys c.1 (by rw [ObjectStore.contains, hdata]; rfl)
    exact Option.some.inj (hdata.symm.trans (h₀.stored c hc hcold).1)
  grown := List.Subset.refl _
  nodup := h₀.offloaded_nodup
  gone b hb := by
    have hchk := h₀.offloaded_mem b hb
    refine ⟨hchk, ?_, fun hmem ↦ ?_⟩
    · obtain ⟨c, hc, rfl⟩ := mem_map.mp hchk
      rw [ObjectStore.contains, (h₀.stored c hc hb).1]
      rfl
    · obtain ⟨seg, hseg, rfl⟩ := mem_map.mp hmem
      exact (h₀.chunk_mem hseg).2 hb

variable (h : Offloading t₀ chunks t)

include h

theorem Offloading.put (h₀ : OffloadInv t₀ history chunks) (hseg : seg ∈ t₀.local.segments) :
    Offloading t₀ chunks (t.putObject (segmentKey seg.baseOffset)
        (frames (seg.records.map Record.payload))) ∧
      Progress t (t.putObject (segmentKey seg.baseOffset)
        (frames (seg.records.map Record.payload))) ∧
      (t.putObject (segmentKey seg.baseOffset)
        (frames (seg.records.map Record.payload))).object.contains
          (segmentKey seg.baseOffset) = true := by
  set t' := t.putObject (segmentKey seg.baseOffset) (frames (seg.records.map Record.payload))
    with ht'
  have hobj (key : String) : t'.object.objects key =
      if key = segmentKey seg.baseOffset then some (frames (seg.records.map Record.payload))
      else t.object.objects key := rfl
  have hprog : Progress t t' := by
    refine ⟨fun key hkey ↦ ?_, .refl _, List.Subset.refl _⟩
    rw [ObjectStore.contains, hobj]
    split_ifs
    · rfl
    · exact hkey
  refine ⟨⟨h.locals, fun c hc data hdata ↦ ?_, h.grown, h.nodup, fun b hb ↦
    (h.gone b hb).progress hprog⟩, hprog, ?_⟩
  · rw [hobj] at hdata
    split_ifs at hdata with hkey
    · obtain rfl : c = seg.chunk := inj_on_of_nodup_map h₀.bases_nodup hc
        (h₀.chunk_mem hseg).1 (segmentKey_injective hkey)
      exact (Option.some.inj hdata).symm
    · exact h.stored c hc data hdata
  · rw [ObjectStore.contains, hobj, if_pos rfl]
    rfl

theorem Offloading.dropSegment (h₀ : OffloadInv t₀ history chunks) {id : ℕ}
    (hseg : SealedAt t₀ id base seg) (hsto : t.object.contains (segmentKey base) = true) :
    Offloading t₀ chunks (t.dropSegment id) ∧ Progress t (t.dropSegment id) ∧
      Gone chunks (t.dropSegment id) base := by
  obtain ⟨hmem, hseal, rfl, rfl⟩ := hseg
  have hsegs : (t.dropSegment seg.id).local.segments = t.local.segments.filter fun s ↦
      decide (s.baseOffset ≠ seg.baseOffset) :=
    eraseP_key Segment.baseOffset (h.segment_bases_nodup h₀) fun s hs ↦
      h₀.sealed_iff hmem hseal (h.locals.subset hs)
  have hprog : Progress t (t.dropSegment seg.id) :=
    ⟨fun _ hkey ↦ hkey, hsegs ▸ filter_sublist, List.Subset.refl _⟩
  refine ⟨⟨hprog.locals.trans h.locals, h.stored, h.grown, h.nodup, fun b hb ↦
    (h.gone b hb).progress hprog⟩, hprog, ?_⟩
  refine ⟨mem_map_of_mem (h₀.chunk_mem hmem).1, hsto, fun hbase ↦ ?_⟩
  obtain ⟨s, hs, heq⟩ := mem_map.mp hbase
  rw [hsegs, mem_filter, decide_eq_true_eq] at hs
  exact hs.2 heq

theorem Offloading.insertOffloaded (hgone : Gone chunks t base) :
    Offloading t₀ chunks (t.insertOffloaded base) ∧ Progress t (t.insertOffloaded base) := by
  rw [TieredSegmentedLog.insertOffloaded]
  split_ifs with hmem
  · exact ⟨h, .refl t⟩
  refine ⟨⟨h.locals, h.stored, fun b hb ↦ mem_cons_of_mem base (h.grown hb),
    nodup_cons.mpr ⟨hmem, h.nodup⟩, fun b hb ↦ ?_⟩,
    fun _ hkey ↦ hkey, .refl _, subset_cons_self ..⟩
  rcases mem_cons.mp hb with rfl | hb
  · exact ⟨hgone.chunk, hgone.stored, hgone.dropped⟩
  · exact ⟨(h.gone b hb).chunk, (h.gone b hb).stored, (h.gone b hb).dropped⟩

theorem Offloading.step (h₀ : OffloadInv t₀ history chunks) {pc' : OffloadPc}
    (hpc : pc.Valid t₀ chunks t) (hstep : t.offloadStep pc = some (t', pc')) :
    Offloading t₀ chunks t' ∧ Progress t t' ∧ pc'.Valid t₀ chunks t' := by
  rcases pc with _ | ⟨_ | ⟨⟨id, base, len⟩, todo⟩, moved⟩ | ⟨id, base, todo, moved⟩ |
    ⟨id, base, data, todo, moved⟩ | ⟨id, base, todo, moved⟩ | ⟨base, todo, moved⟩ | result
  · -- the sealed segments of now were sealed when the schedule began
    cases hstep
    refine ⟨h, .refl t, fun e he ↦ ?_⟩
    obtain ⟨seg, hseg, rfl⟩ := mem_map.mp he
    obtain ⟨hmem, hseal⟩ := mem_filter.mp hseg
    exact ⟨seg, h.locals.subset hmem, hseal, rfl, rfl⟩
  · cases hstep
    exact ⟨h, .refl t, trivial⟩
  · rw [TieredSegmentedLog.offloadStep] at hstep
    have hfst := hpc _ mem_cons_self
    have hrest : ∀ e ∈ todo, ∃ seg, SealedAt t₀ e.1 e.2.1 seg := fun e he ↦
      hpc e (mem_cons_of_mem _ he)
    split_ifs at hstep with hsto
    · cases hstep
      exact ⟨h, .refl t, hfst, hsto, hrest⟩
    · cases hstep
      exact ⟨h, .refl t, hfst, hrest⟩
  · rw [TieredSegmentedLog.offloadStep, SegmentedLog.segmentPayloads] at hstep
    obtain ⟨⟨seg, hseg⟩, hrest⟩ := hpc
    cases hfind : t.local.segments.find? fun s ↦ s.id == id with
    | none =>
      rw [hfind] at hstep
      cases hstep
      exact ⟨h, .refl t, trivial⟩
    | some found =>
      rw [hfind] at hstep
      cases hstep
      have hfnd := h.locals.subset (mem_of_find?_eq_some hfind)
      have hkey := List.find?_some (p := fun s : Segment ↦ s.id == id) hfind
      have hid : found.id = seg.id := (beq_iff_eq.mp hkey).trans hseg.2.2.1.symm
      obtain rfl := inj_on_of_nodup_map h₀.ids.nodup hfnd hseg.1 hid
      exact ⟨h, .refl t, ⟨found, hseg, rfl⟩, hrest⟩
  · obtain ⟨⟨seg, ⟨hmem, hseal, rfl, rfl⟩, rfl⟩, hrest⟩ := hpc
    cases hstep
    obtain ⟨hlog, hprog, hsto⟩ := h.put h₀ hmem
    exact ⟨hlog, hprog, ⟨seg, hmem, hseal, rfl, rfl⟩, hsto, hrest⟩
  · obtain ⟨⟨seg, hseg⟩, hsto, hrest⟩ := hpc
    cases hstep
    obtain ⟨hlog, hprog, hgone⟩ := h.dropSegment h₀ hseg hsto
    exact ⟨hlog, hprog, hgone, hrest⟩
  · obtain ⟨hgone, hrest⟩ := hpc
    cases hstep
    obtain ⟨hlog, hprog⟩ := h.insertOffloaded hgone
    exact ⟨hlog, hprog, hrest⟩
  · cases hstep

end Offload

/-! ## What the read has and can still get -/

def chunksAt (chunks : List (ℕ × List Bytes)) (bases : List ℕ) : List (ℕ × List Bytes) :=
  bases.filterMap fun b ↦ chunks.find? fun c ↦ c.1 == b

theorem chunksAt_map {chunks todo : List (ℕ × List Bytes)} (hnd : (chunks.map Prod.fst).Nodup)
    (htodo : todo ⊆ chunks) : chunksAt chunks (todo.map Prod.fst) = todo := by
  rw [chunksAt, filterMap_map]
  refine (filterMap_congr fun c hc ↦ ?_).trans filterMap_some
  exact find?_key Prod.fst hnd (htodo hc)

/-- The records the read has, and those in the segments it is still to visit. -/
def ReadPc.pending (chunks : List (ℕ × List Bytes)) (fromOffset : ℕ) : ReadPc → List (ℕ × Bytes)
  | .idle | .bounds _ => chunks.flatMap (window fromOffset)
  | .fetch _ bases out =>
    out.map Record.entry ++ (chunksAt chunks bases).flatMap (window fromOffset)
  | .done (.ok recs) => recs.map Record.entry
  | .done (.error _) => []

/-- What the read knows in the loop, with the chunks `todo` still to visit. -/
structure Fetching (t₀ : TieredSegmentedLog) (chunks : List (ℕ × List Bytes))
    (fromOffset maxRecords : ℕ) (t : TieredSegmentedLog) (offloaded : List ℕ)
    (todo : List (ℕ × List Bytes)) (out : List Record) : Prop where
  grown : t₀.offloaded ⊆ offloaded
  taken : offloaded ⊆ t.offloaded
  length_le : out.length ≤ maxRecords
  subset : todo ⊆ chunks
  windows : (out.map Record.entry ++ todo.flatMap (window fromOffset)).Sublist
    (chunks.flatMap (window fromOffset))

def ReadPc.Valid (t₀ : TieredSegmentedLog) (chunks : List (ℕ × List Bytes))
    (fromOffset maxRecords : ℕ) (t : TieredSegmentedLog) : ReadPc → Prop
  | .idle => True
  | .bounds offloaded => t₀.offloaded ⊆ offloaded ∧ offloaded ⊆ t.offloaded ∧ offloaded.Nodup
  | .fetch offloaded bases out =>
    ∃ todo, bases = todo.map Prod.fst ∧
      Fetching t₀ chunks fromOffset maxRecords t offloaded todo out
  | .done result =>
    ∃ recs, result = .ok recs ∧ recs.length ≤ maxRecords ∧
      (recs.map Record.entry).Sublist (chunks.flatMap (window fromOffset))

/-- The read can still return what it would have returned alone. -/
def ReadPc.Complete (chunks : List (ℕ × List Bytes)) (fromOffset maxRecords : ℕ) (pc : ReadPc) :
    Prop :=
  (pc.pending chunks fromOffset).take maxRecords =
    (chunks.flatMap (window fromOffset)).take maxRecords

section Read

variable {t₀ t t' : TieredSegmentedLog} {history : List Bytes} {chunks : List (ℕ × List Bytes)}
  {fromOffset maxRecords : ℕ}

theorem ReadPc.Valid.progress {pc : ReadPc} (h : pc.Valid t₀ chunks fromOffset maxRecords t)
    (hp : Progress t t') : pc.Valid t₀ chunks fromOffset maxRecords t' := by
  cases pc with
  | idle | done => exact h
  | bounds => exact ⟨h.1, List.Subset.trans h.2.1 hp.offloaded, h.2.2⟩
  | fetch =>
    obtain ⟨todo, hbas, h⟩ := h
    exact ⟨todo, hbas, { h with taken := List.Subset.trans h.taken hp.offloaded }⟩

theorem windows_nodup (h₀ : OffloadInv t₀ history chunks) (fromOffset : ℕ) :
    (chunks.flatMap (window fromOffset)).Nodup := by
  rw [flatMap_window h₀.contiguous]
  exact (nodup_numbered ..).sublist (drop_sublist ..)

variable {c : ℕ × List Bytes} {offloaded : List ℕ} {out : List Record}

section

variable (h₀ : OffloadInv t₀ history chunks)

include h₀

theorem eq_of_mem_window {c' : ℕ × List Bytes} (hc : c ∈ chunks) (hc' : c' ∈ chunks) {e : ℕ × Bytes}
    (he : e ∈ window fromOffset c) (he' : e ∈ window fromOffset c') : c = c' := by
  have hdisj := (nodup_flatMap.mp (windows_nodup h₀ fromOffset)).2
  have hsymm : Std.Symm (Function.onFun List.Disjoint (window (α := Bytes) fromOffset)) :=
    ⟨fun _ _ h ↦ List.Disjoint.symm h⟩
  by_contra hne
  exact hdisj.forall hc hc' hne he he'

theorem asked_iff {seg : Segment} (hseg : seg ∈ t₀.local.segments) :
    seg.Asked fromOffset maxRecords ↔ ∃ e ∈ (chunks.flatMap (window fromOffset)).take maxRecords,
        e ∈ window fromOffset seg.chunk := by
  have hin : ∀ e, e ∈ window fromOffset seg.chunk →
      (e ∈ (chunks.flatMap (window fromOffset)).take maxRecords ↔
        e.1 < fromOffset + maxRecords) := by
    intro e he
    have hmem : e ∈ chunks.flatMap (window fromOffset) :=
      mem_flatMap.mpr ⟨_, (h₀.chunk_mem hseg).1, he⟩
    rw [flatMap_window h₀.contiguous] at hmem ⊢
    rw [mem_take_drop_numbered, and_iff_right hmem, zero_add, Nat.sub_zero]
  rw [Segment.Asked]
  constructor
  · intro hasked
    -- the first of its records that is not before `fromOffset`
    obtain ⟨k, hk⟩ : ∃ k, seg.baseOffset + k = max fromOffset seg.baseOffset :=
      ⟨_, Nat.add_sub_cancel' (le_max_right ..)⟩
    have hlen : k < seg.records.length := by omega
    have he : (seg.baseOffset + k, seg.records[k].payload) ∈ window fromOffset seg.chunk := by
      refine mem_window.mpr ⟨mem_numbered.mpr ⟨k, ?_, rfl⟩, by simp only; omega⟩
      simp [Segment.chunk, hlen]
    exact ⟨_, (hin _ he).mpr (by simp only; omega), he⟩
  · rintro ⟨e, hqt, he⟩
    have hlt := (hin e he).mp hqt
    obtain ⟨hnum, hle⟩ := mem_window.mp he
    obtain ⟨i, hi, hat⟩ := mem_numbered.mp hnum
    obtain ⟨hlen, -⟩ := List.getElem?_eq_some_iff.mp hi
    simp only [Segment.chunk, length_map] at hlen hat
    omega

theorem exists_segment (hc : c ∈ chunks) (hhot : c.1 ∉ t₀.offloaded) :
    ∃ seg ∈ t₀.local.segments, seg.chunk = c := by
  rw [← mem_map, h₀.hot]
  exact mem_filter.mpr ⟨hc, decide_eq_true hhot⟩

end

theorem Offloading.bases_eq (h : Offloading t₀ chunks t) (h₀ : OffloadInv t₀ history chunks)
    (hsub : offloaded ⊆ t.offloaded) (hnd : offloaded.Nodup) :
    { t with offloaded := offloaded }.bases =
      (chunks.filter fun c ↦ decide (¬t.Lost offloaded c.1)).map Prod.fst := by
  have hbas : t.local.segmentBounds.map Prod.fst = t.local.segments.map Segment.baseOffset := by
    rw [SegmentedLog.segmentBounds, map_map]
    rfl
  refine destutter_insertionSort ((perm_ext_iff_of_nodup ?_ ?_).mpr fun b ↦ ?_)
    (h₀.contiguous.pairwise_lt.sublist (filter_sublist.map _))
  · rw [hbas]
    refine nodup_append'.mpr ⟨hnd, h.segment_bases_nodup h₀, fun b hb hlcl ↦ ?_⟩
    exact (h.gone b (hsub hb)).dropped hlcl
  · exact h₀.bases_nodup.sublist (filter_sublist.map _)
  have hmem : b ∈ offloaded ++ t.local.segments.map Segment.baseOffset ↔ ¬t.Lost offloaded b := by
    rw [mem_append, TieredSegmentedLog.Lost]
    tauto
  rw [hbas, hmem, mem_map]
  constructor
  · intro hb
    have hchk : b ∈ chunks.map Prod.fst := by
      rcases mem_append.mp (hmem.mpr hb) with hoff | hlcl
      · exact (h.gone b (hsub hoff)).chunk
      · obtain ⟨seg, hseg, rfl⟩ := mem_map.mp hlcl
        exact mem_map_of_mem (h₀.chunk_mem (h.locals.subset hseg)).1
    obtain ⟨c, hc, rfl⟩ := mem_map.mp hchk
    exact ⟨c, mem_filter.mpr ⟨hc, decide_eq_true hb⟩, rfl⟩
  · rintro ⟨c, hc, rfl⟩
    exact of_decide_eq_true (mem_filter.mp hc).2

/-- A chunk is found, in the tier that the copy of the set says, or it is lost. -/
theorem Offloading.fetch_cases (h : Offloading t₀ chunks t) (h₀ : OffloadInv t₀ history chunks)
    (hfits : ∀ p ∈ history, p.length < 2 ^ 32) (hsub : offloaded ⊆ t.offloaded) (hc : c ∈ chunks) :
    (¬t.Lost offloaded c.1 ∧ ∃ recs, { t with offloaded := offloaded }.fetch c.1 = .ok (some recs) ∧
        recs.map Record.payload = c.2) ∨
      (t.Lost offloaded c.1 ∧ { t with offloaded := offloaded }.fetch c.1 = .ok none) := by
  rw [TieredSegmentedLog.fetch]
  by_cases hcold : c.1 ∈ offloaded
  · refine .inl ⟨fun hlost ↦ hlost.1 hcold, ?_⟩
    obtain ⟨data, hdata⟩ := Option.isSome_iff_exists.mp (h.gone c.1 (hsub hcold)).stored
    obtain rfl := h.stored c hc data hdata
    refine ⟨decodeSegment (frames c.2), ?_, TieredSegmentedLog.payloads_decodeSegment fun p hp ↦
      hfits p (h₀.items_eq ▸ mem_flatMap.mpr ⟨c, hc, hp⟩)⟩
    rw [if_pos hcold, ObjectStore.get, hdata]
    rfl
  · rw [if_neg hcold, SegmentedLog.readSegmentRecords]
    cases hfind : t.local.segments.find? fun seg ↦ seg.baseOffset == c.1 with
    | none =>
      refine .inr ⟨⟨hcold, fun hmem ↦ ?_⟩, rfl⟩
      obtain ⟨seg, hseg, hbase⟩ := mem_map.mp hmem
      exact List.find?_eq_none.mp hfind seg hseg (beq_iff_eq.mpr hbase)
    | some seg =>
      have hseg := mem_of_find?_eq_some hfind
      have hbase := List.find?_some (p := fun s : Segment ↦ s.baseOffset == c.1) hfind
      obtain rfl : seg.chunk = c := inj_on_of_nodup_map h₀.bases_nodup
        (h₀.chunk_mem (h.locals.subset hseg)).1 hc (beq_iff_eq.mp hbase)
      exact .inl ⟨fun hlost ↦ hlost.2 (mem_map_of_mem hseg), seg.records, rfl, rfl⟩

/-- The number of steps the read still takes, at most. -/
def ReadPc.rank (chunks : List (ℕ × List Bytes)) : ReadPc → ℕ
  | .idle => chunks.length + 3
  | .bounds _ => chunks.length + 2
  | .fetch _ bases _ => bases.length + 1
  | .done _ => 0

/-- What one step of the read does. -/
structure ReadKept (t₀ : TieredSegmentedLog) (chunks : List (ℕ × List Bytes))
    (fromOffset maxRecords : ℕ) (t : TieredSegmentedLog) (pc pc' : ReadPc) : Prop where
  valid : pc'.Valid t₀ chunks fromOffset maxRecords t
  complete : pc'.Complete chunks fromOffset maxRecords ↔
    pc.Complete chunks fromOffset maxRecords ∧ pc.InTime t₀ fromOffset maxRecords t
  rank : pc'.rank chunks < pc.rank chunks

/-- Taking the bounds: what is lost by now will not be read. -/
theorem Offloading.read_bounds (h : Offloading t₀ chunks t) (h₀ : OffloadInv t₀ history chunks)
    (hpc : (ReadPc.bounds offloaded).Valid t₀ chunks fromOffset maxRecords t) :
    ReadKept t₀ chunks fromOffset maxRecords t (.bounds offloaded)
      (.fetch offloaded { t with offloaded := offloaded }.bases []) := by
  obtain ⟨hgrw, hsub, hnd⟩ := hpc
  set todo := chunks.filter fun c ↦ decide (¬t.Lost offloaded c.1) with htodo
  have hmem : todo ⊆ chunks := filter_sublist.subset
  have hwin : (todo.flatMap (window fromOffset)).Sublist
      (chunks.flatMap (window fromOffset)) := filter_sublist.flatMap _
  rw [h.bases_eq h₀ hsub hnd]
  refine ⟨⟨todo, rfl, hgrw, hsub, Nat.zero_le _, hmem, hwin⟩, ?_, ?_⟩
  · rw [ReadPc.Complete, ReadPc.pending, ReadPc.Complete, ReadPc.pending, and_iff_right rfl,
      map_nil, nil_append, chunksAt_map h₀.bases_nodup hmem,
      take_eq_take_iff hwin (windows_nodup h₀ fromOffset)]
    constructor
    · intro hall seg hseg hasked hlost
      obtain ⟨e, hqt, he⟩ := (asked_iff h₀ hseg).mp hasked
      obtain ⟨c, hc, hec⟩ := mem_flatMap.mp (hall e hqt)
      obtain ⟨hc, hkept⟩ := mem_filter.mp hc
      obtain rfl := eq_of_mem_window h₀ hc (h₀.chunk_mem hseg).1 hec he
      exact of_decide_eq_true hkept hlost
    · intro hkept e he
      obtain ⟨c, hc, hec⟩ := mem_flatMap.mp (mem_of_mem_take he)
      refine mem_flatMap.mpr ⟨c, mem_filter.mpr ⟨hc, decide_eq_true fun hlost ↦ ?_⟩, hec⟩
      obtain ⟨seg, hseg, rfl⟩ := exists_segment h₀ hc fun hcold ↦ hlost.1 (hgrw hcold)
      exact hkept seg hseg ((asked_iff h₀ hseg).mpr ⟨e, he, hec⟩) hlost
  · change (todo.map Prod.fst).length + 1 < chunks.length + 2
    rw [length_map]
    have hle : todo.length ≤ chunks.length := length_filter_le ..
    omega

theorem Fetching.pending_eq {todo : List (ℕ × List Bytes)}
    (h : Fetching t₀ chunks fromOffset maxRecords t offloaded todo out)
    (h₀ : OffloadInv t₀ history chunks) :
    (ReadPc.fetch offloaded (todo.map Prod.fst) out).pending chunks fromOffset =
      out.map Record.entry ++ todo.flatMap (window fromOffset) := by
  rw [ReadPc.pending, chunksAt_map h₀.bases_nodup h.subset]

section Visit

variable {offloaded : List ℕ} {c : ℕ × List Bytes} {todo : List (ℕ × List Bytes)}
  {out out' : List Record}

variable (h : Fetching t₀ chunks fromOffset maxRecords t offloaded (c :: todo) out)
  (h₀ : OffloadInv t₀ history chunks)

include h h₀

/-- Enough has been read: what follows is beyond the limit. -/
theorem Fetching.full (hfull : maxRecords ≤ out.length) :
    ReadKept t₀ chunks fromOffset maxRecords t (.fetch offloaded ((c :: todo).map Prod.fst) out)
      (.done (.ok out)) := by
  refine ⟨⟨out, rfl, h.length_le, (sublist_append_left ..).trans h.windows⟩, ?_, Nat.succ_pos _⟩
  have hint : (ReadPc.fetch offloaded ((c :: todo).map Prod.fst) out).InTime t₀ fromOffset
      maxRecords t := fun hlt ↦ absurd hlt (Nat.not_lt_of_le hfull)
  rw [and_iff_left hint, ReadPc.Complete, ReadPc.Complete, h.pending_eq h₀, ReadPc.pending,
    take_append_of_le_length (by rwa [length_map])]

/-- The chunk is found: its window, cut at the limit, moves from the chunks to the records. -/
theorem Fetching.found (hkept : ¬t.Lost offloaded c.1) (hlen : out'.length ≤ maxRecords)
    (hents : out'.map Record.entry =
      out.map Record.entry ++ (window fromOffset c).take (maxRecords - out.length)) :
    ReadKept t₀ chunks fromOffset maxRecords t (.fetch offloaded ((c :: todo).map Prod.fst) out)
      (.fetch offloaded (todo.map Prod.fst) out') := by
  have hwin := h.windows
  rw [flatMap_cons] at hwin
  have hnext : Fetching t₀ chunks fromOffset maxRecords t offloaded todo out' := by
    refine ⟨h.grown, h.taken, hlen, (cons_subset.mp h.subset).2, ?_⟩
    rw [hents, append_assoc]
    exact (((take_sublist ..).append_right _).append_left _).trans hwin
  refine ⟨⟨todo, rfl, hnext⟩, ?_, Nat.lt_succ_self _⟩
  have hint : (ReadPc.fetch offloaded ((c :: todo).map Prod.fst) out).InTime t₀ fromOffset
      maxRecords t := fun _ _ _ _ _ ↦ hkept
  have htake := take_append_take_append maxRecords (out.map Record.entry) (window fromOffset c)
    (todo.flatMap (window fromOffset)) (by rw [length_map]; exact h.length_le)
  rw [length_map] at htake
  rw [and_iff_left hint, ReadPc.Complete, ReadPc.Complete, h.pending_eq h₀,
    hnext.pending_eq h₀, hents, htake, flatMap_cons]

/-- The chunk is lost: the read is complete without it exactly if nothing in it was asked for. -/
theorem Fetching.lost (hlost : t.Lost offloaded c.1) (hfull : ¬maxRecords ≤ out.length) :
    ReadKept t₀ chunks fromOffset maxRecords t (.fetch offloaded ((c :: todo).map Prod.fst) out)
      (.fetch offloaded (todo.map Prod.fst) out) := by
  obtain ⟨hc, htodo⟩ := cons_subset.mp h.subset
  have hwin := h.windows
  rw [flatMap_cons] at hwin
  have hskip : (out.map Record.entry ++ todo.flatMap (window fromOffset)).Sublist
      (out.map Record.entry ++ (window fromOffset c ++ todo.flatMap (window fromOffset))) :=
    (sublist_append_right ..).append_left _
  have hnext : Fetching t₀ chunks fromOffset maxRecords t offloaded todo out :=
    ⟨h.grown, h.taken, h.length_le, htodo, hskip.trans hwin⟩
  have hnd := windows_nodup h₀ fromOffset
  refine ⟨⟨todo, rfl, hnext⟩, ?_, Nat.lt_succ_self _⟩
  rw [ReadPc.Complete, ReadPc.Complete, h.pending_eq h₀, hnext.pending_eq h₀, flatMap_cons,
    take_eq_take_iff hnext.windows hnd, take_eq_take_iff hwin hnd]
  constructor
  · intro hall
    refine ⟨fun e he ↦ hskip.subset (hall e he), fun _ seg hseg hasked hbase _ ↦ ?_⟩
    obtain rfl : seg.chunk = c := inj_on_of_nodup_map h₀.bases_nodup (h₀.chunk_mem hseg).1 hc hbase
    obtain ⟨e, hqt, he⟩ := (asked_iff h₀ hseg).mp hasked
    -- no record is found twice
    obtain ⟨-, hnodupRest, hdisj⟩ := nodup_append'.mp (hnd.sublist hwin)
    rcases mem_append.mp (hall e hqt) with hread | hlat
    · exact hdisj hread (mem_append_left _ he)
    · exact (nodup_append'.mp hnodupRest).2.2 he hlat
  · rintro ⟨hall, hint⟩ e hqt
    rcases mem_append.mp (hall e hqt) with hread | hlat
    · exact mem_append_left _ hread
    rcases mem_append.mp hlat with he | hlat
    · obtain ⟨seg, hseg, rfl⟩ := exists_segment h₀ hc fun hcold ↦ hlost.1 (h.grown hcold)
      exact absurd hlost
        (hint (lt_of_not_ge hfull) seg hseg ((asked_iff h₀ hseg).mpr ⟨e, hqt, he⟩) rfl)
    · exact mem_append_right _ hlat

end Visit

variable (h : Offloading t₀ chunks t) (h₀ : OffloadInv t₀ history chunks)
  (hfits : ∀ p ∈ history, p.length < 2 ^ 32)

include h h₀ hfits

theorem Offloading.read_fetch {bases : List ℕ} {base : ℕ} {pc' : ReadPc}
    (hpc : (ReadPc.fetch offloaded (base :: bases) out).Valid t₀ chunks fromOffset maxRecords t)
    (hstep : t.readStep fromOffset maxRecords (.fetch offloaded (base :: bases) out) = some pc') :
    ReadKept t₀ chunks fromOffset maxRecords t (.fetch offloaded (base :: bases) out) pc' := by
  obtain ⟨_ | ⟨c, todo⟩, hbas, hpc⟩ := hpc
  · cases hbas
  obtain ⟨rfl, rfl⟩ := List.cons.inj hbas
  have hc := (cons_subset.mp hpc.subset).1
  have hlen := hpc.length_le
  rw [TieredSegmentedLog.readStep] at hstep
  by_cases hfull : maxRecords ≤ out.length
  · rw [if_pos hfull] at hstep
    cases hstep
    exact hpc.full h₀ hfull
  rw [if_neg hfull] at hstep
  obtain ⟨hkept, recs, hfet, hpays⟩ | ⟨hlost, hfet⟩ := h.fetch_cases h₀ hfits hpc.taken hc
  · rw [hfet] at hstep
    dsimp only at hstep
    split_ifs at hstep with hbef
    · cases hstep
      refine hpc.found h₀ hkept hlen ?_
      rw [window_of_le (by rwa [← hpays, length_map]), take_nil, append_nil]
    cases hstep
    refine hpc.found h₀ hkept ?_ (TieredSegmentedLog.entries_push fromOffset maxRecords hpays out)
    rw [SegmentedLog.pushUpTo_eq, length_append, length_take]
    omega
  · rw [hfet] at hstep
    cases hstep
    exact hpc.lost h₀ hlost hfull

theorem Offloading.read_step {pc pc' : ReadPc} (hpc : pc.Valid t₀ chunks fromOffset maxRecords t)
    (hstep : t.readStep fromOffset maxRecords pc = some pc') :
    ReadKept t₀ chunks fromOffset maxRecords t pc pc' := by
  rcases pc with _ | offloaded | ⟨offloaded, _ | ⟨base, bases⟩, out⟩ | result
  · cases hstep
    exact ⟨⟨h.grown, List.Subset.refl _, h.nodup⟩, (and_iff_left trivial).symm, Nat.lt_succ_self _⟩
  · cases hstep
    exact h.read_bounds h₀ hpc
  · cases hstep
    obtain ⟨todo, -, h⟩ := hpc
    refine ⟨⟨out, rfl, h.length_le, (sublist_append_left ..).trans h.windows⟩, ?_, Nat.succ_pos _⟩
    rw [ReadPc.Complete, ReadPc.Complete, ReadPc.pending, ReadPc.pending]
    simp [chunksAt, ReadPc.InTime]
  · exact h.read_fetch h₀ hfits hpc hstep
  · cases hstep

end Read

/-! ## Schedules -/

namespace Interleaving

variable {t₀ : TieredSegmentedLog} {history : List Bytes} {chunks : List (ℕ × List Bytes)}
  {fromOffset maxRecords : ℕ} {s s' : Interleaving}

/-- **The invariant** of all schedules that begin with `t₀`. -/
structure Inv (t₀ : TieredSegmentedLog) (chunks : List (ℕ × List Bytes))
    (fromOffset maxRecords : ℕ) (s : Interleaving) : Prop where
  log : Offloading t₀ chunks s.log
  reader : s.reader.Valid t₀ chunks fromOffset maxRecords s.log
  offloads : ∀ thread, (s.offloads thread).Valid t₀ chunks s.log

/-- One step of anybody keeps the invariant; the read stays able to return everything exactly if the
step is in time, and its own steps bring it closer to the end. -/
theorem Inv.step (h : Inv t₀ chunks fromOffset maxRecords s) (h₀ : OffloadInv t₀ history chunks)
    (hfits : ∀ p ∈ history, p.length < 2 ^ 32) {l : ThreadStep}
    (hstep : s.step fromOffset maxRecords l = some s') :
    Inv t₀ chunks fromOffset maxRecords s' ∧ (s'.reader.Complete chunks fromOffset maxRecords ↔
        s.reader.Complete chunks fromOffset maxRecords ∧ s.InTime t₀ fromOffset maxRecords l) ∧
      s'.reader.rank chunks + [l].count .read ≤ s.reader.rank chunks := by
  cases l with
  | read =>
    obtain ⟨pc, hpc, rfl⟩ := Option.map_eq_some_iff.mp hstep
    have hkept := h.log.read_step h₀ hfits h.reader hpc
    exact ⟨⟨h.log, hkept.valid, h.offloads⟩, hkept.complete, hkept.rank⟩
  | offload thread =>
    obtain ⟨⟨log, pc⟩, hpc, rfl⟩ := Option.map_eq_some_iff.mp hstep
    obtain ⟨hlog, hprog, hval⟩ := h.log.step h₀ (h.offloads thread) hpc
    refine ⟨⟨hlog, h.reader.progress hprog, fun other ↦ ?_⟩, (and_iff_left trivial).symm, le_rfl⟩
    by_cases hoth : other = thread
    · simp only [hoth, Function.update_self]
      exact hval
    · simp only [Function.update_of_ne hoth]
      exact (h.offloads other).progress hprog

/-- A read takes a bounded number of steps. -/
theorem count_read_le (h₀ : OffloadInv t₀ history chunks)
    (hfits : ∀ p ∈ history, p.length < 2 ^ 32) {ok : Interleaving → ThreadStep → Prop}
    {ls : List ThreadStep} (hrun : Steps (step fromOffset maxRecords) ok s ls s')
    (h : Inv t₀ chunks fromOffset maxRecords s) :
    s'.reader.rank chunks + ls.count .read ≤ s.reader.rank chunks := by
  induction hrun with
  | nil s => exact le_rfl
  | @cons s s₁ s' l ls _ hstep _ ih =>
    obtain ⟨h₁, -, hrank⟩ := h.step h₀ hfits hstep
    have hrest := ih h₁
    rw [count_cons]
    rw [count_singleton] at hrank
    omega

/-- **When concurrent offloads do no harm.** One read and any number of offloads, interleaved in any
way, after any use of the log. The read takes a bounded number of steps, none of which can fail. It
returns what it would have returned alone if and only if it was in time for each segment that holds
some of it. -/
theorem read_undisturbed_iff (maxSegmentBytes : ℕ) (ops : List StorageOp)
    (hfits : ∀ op ∈ ops, op.Fits)
    (hcount : ((Session.start maxSegmentBytes).run ops).segmentCount < 2 ^ 32)
    {t : TieredSegmentedLog} (ht : ((Session.start maxSegmentBytes).run ops).log = t)
    (fromOffset maxRecords : ℕ) {ls : List ThreadStep} {s : Interleaving}
    (hrun : Steps (step fromOffset maxRecords) (fun _ _ ↦ True) (start t) ls s) :
    ls.count .read ≤ t.bases.length + 3 ∧ ((∃ s', s.step fromOffset maxRecords .read = some s') ∨
        ∃ recs quiet, s.reader = .done (.ok recs) ∧ t.read fromOffset maxRecords = .ok quiet ∧
          (recs.map Record.entry = quiet.map Record.entry ↔
            Steps (step fromOffset maxRecords) (InTime t fromOffset maxRecords) (start t) ls
              s)) := by
  obtain ⟨history, chunks, h₀, -, -, hlen⟩ := (Session.inv_start maxSegmentBytes).run hfits hcount
  rw [ht] at h₀
  have hstart : Inv t chunks fromOffset maxRecords (start t) :=
    ⟨.start h₀, trivial, fun _ ↦ trivial⟩
  have hbound := count_read_le h₀ hlen hrun hstart
  refine ⟨?_, ?_⟩
  · rw [h₀.bases_eq, length_map]
    exact (Nat.le_add_left ..).trans hbound
  have hend : Inv t chunks fromOffset maxRecords s :=
    hrun.invariant _ (fun _ _ _ h _ hstep ↦ (h.step h₀ hlen hstep).1) hstart
  have hiff := hrun.good_iff (Inv t chunks fromOffset maxRecords)
    (fun s ↦ s.reader.Complete chunks fromOffset maxRecords)
    (fun _ _ _ h _ hstep ↦ ⟨(h.step h₀ hlen hstep).1, (h.step h₀ hlen hstep).2.1⟩) hstart
  cases hreader : s.reader with
  | done result =>
    have hvalid := hend.reader
    rw [hreader] at hvalid
    obtain ⟨recs, rfl, hrecs, -⟩ := hvalid
    obtain ⟨quiet, hquiet, hentries⟩ := h₀.read_eq fromOffset maxRecords
    refine .inr ⟨recs, quiet, rfl, hquiet, ?_⟩
    rw [hreader, ReadPc.Complete, ReadPc.pending, flatMap_window h₀.contiguous, h₀.items_eq,
      Nat.sub_zero, ← hentries, take_of_length_le (by rwa [length_map])] at hiff
    simpa only [true_and, start, ReadPc.Complete, ReadPc.pending] using hiff
  | idle | bounds | fetch =>
    obtain ⟨pc, hpc⟩ := s.log.exists_readStep fromOffset maxRecords s.reader (by simp [hreader])
    exact .inl ⟨_, by rw [step, hpc]; rfl⟩

def twoSegments : TieredSegmentedLog :=
  ((Session.start 2).run [.append [1, 2] 0, .append [3] 0]).log

/-- A whole offload between the first two steps of a read that does not ask for the segment that
moves. -/
theorem read_undisturbed_elsewhere : ∃ s, Steps (step 1 1) (fun _ _ ↦ True) (start twoSegments)
        (.read :: List.replicate 7 (.offload 0) ++ List.replicate 3 .read) s ∧
      s.log.offloaded = [0] ∧
      ∃ recs quiet, s.reader = .done (.ok recs) ∧ twoSegments.read 1 1 = .ok quiet ∧
        recs.map Record.entry = quiet.map Record.entry := by
  have hintime : Steps (step 1 1) (InTime twoSegments 1 1) (start twoSegments)
      (.read :: List.replicate 7 (.offload 0) ++ List.replicate 3 .read) _ :=
    steps_exec (by decide +kernel)
  have hrun := hintime.mono fun _ _ _ ↦ trivial
  obtain ⟨-, ⟨s', hstep⟩ | ⟨recs, quiet, hrecs, hquiet, hiff⟩⟩ :=
    read_undisturbed_iff 2 [.append [1, 2] 0, .append [3] 0] (by simp [StorageOp.Fits])
      (by decide +kernel) rfl 1 1 hrun
  · cases hstep
  · exact ⟨_, hrun, by decide +kernel, recs, quiet, hrecs, hquiet, hiff.mpr hintime⟩

/-- A whole offload between the first two steps of a read: the read returns the second record
only. -/
theorem offload_tears_hole : ∃ s, Steps (step 0 2) (fun _ _ ↦ True) (start twoSegments)
        (.read :: List.replicate 7 (.offload 0) ++ List.replicate 3 .read) s ∧
      s.reader = .done (.ok [⟨1, [3], 0⟩]) ∧
      twoSegments.read 0 2 = .ok [⟨0, [1, 2], 0⟩, ⟨1, [3], 0⟩] := by
  exact exists_steps_of_isSome (by decide +kernel) fun _ ↦ ⟨by decide +kernel, by decide +kernel⟩

end Interleaving

end Synapse
