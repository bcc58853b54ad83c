import Synapse.Engine.Recreate
import Synapse.Lib.Run

/-!
# Rebuilding the indexes from the write-ahead log

A record of the shared log does not say which primitive it was written by, nor under which key. So
the log does not determine the indexes, and two histories that leave the same records can leave
different queues and maps (`records_do_not_determine_contents`).

What is missing is exactly that. `Target` is the place a record was written to, and `rebuild` is the
recovery one would want: a fold over the records, each with its target. Along every run of
creations and writes the contents of the queues and maps are what `rebuild` returns
(`Written.indexed_of_run`), so that the records together with their targets do determine them
(`contents_of_targets`). Reads, acknowledgements, deletions and expiry change an index without
leaving a record, and are not in these runs.
-/

namespace Synapse

open Transition Option

/-! ## Records and their targets -/

def SegmentedLog.records (log : SegmentedLog) : List Record := log.segments.flatMap Segment.records

theorem SegmentedLog.records_insert (log : SegmentedLog) (rec : Record) :
    (log.insert rec).records = log.records ++ [rec] := by
  obtain ⟨older, last, heq, -⟩ := log.active
  rw [records, records, insert_segments heq, heq]
  split_ifs <;> simp [Segment.append, Segment.new]

theorem TieredSegmentedLog.append_records (t : TieredSegmentedLog) {payload : Bytes}
    (h : payload ≠ []) (now : ℕ) :
    ∃ t', t.append payload now = (.ok t.local.nextOffset, t') ∧
      t'.local.records = t.local.records ++ [⟨t.local.nextOffset, payload, now⟩] := by
  exact ⟨_, t.append_of_ne_nil h now, SegmentedLog.records_insert _ _⟩

/-- The place a record belongs to. All logs are one place; a set is known by its key and the expiry
it computed. -/
inductive Target
  | log
  | queue (tenant name : String)
  | map (tenant name key : String) (expiresAt : Option ℕ)
deriving DecidableEq, Repr

namespace SynapseCore

def records (core : SynapseCore) : List Record := core.wal.local.records

end SynapseCore

open SynapseCore

/-- The target of the record an operation writes, if it writes one. -/
def EngineOp.target (core : SynapseCore) : EngineOp → Option Target
  | .logAppend tenant name payload _ =>
    (seen core.logs tenant name).bind fun _ ↦ if payload = [] then none else some .log
  | .queueEnqueue tenant name payload _ =>
    (seen core.queues tenant name).bind fun _ ↦
      if payload = [] then none else some (.queue tenant name)
  | .mapSet tenant name key value ttl now =>
    (seen core.maps tenant name).bind fun _ ↦
      if key = "" ∨ value = [] then none
      else some (.map tenant name key (Map.expiry now ttl))
  | _ => none

/-! ## The recovery -/

/-- The contents of all queues and maps, by tenant and name. -/
structure Index where
  queues : String × String → List QueueEntry
  maps : String × String → List (String × MapEntry)

namespace Index

def empty : Index := ⟨fun _ ↦ [], fun _ ↦ []⟩

def add (index : Index) : Target × Record → Index
  | (.log, _) => index
  | (.queue tenant name, rec) =>
    { index with
      queues := Function.update index.queues (tenant, name)
        (index.queues (tenant, name) ++
          [⟨(index.queues (tenant, name)).length, rec.payload⟩]) }
  | (.map tenant name key expiresAt, rec) =>
    { index with
      maps := Function.update index.maps (tenant, name)
        ((key, ⟨rec.payload, expiresAt⟩) :: (index.maps (tenant, name)).filter (·.1 != key)) }

/-- Rebuild the indexes from the records and their targets. -/
def rebuild (targets : List Target) (records : List Record) : Index :=
  (targets.zip records).foldl add empty

theorem rebuild_append {targets : List Target} {records : List Record}
    (h : targets.length = records.length) (target : Target) (rec : Record) :
    rebuild (targets ++ [target]) (records ++ [rec]) =
      (rebuild targets records).add (target, rec) := by
  rw [rebuild, List.zip_append h, List.foldl_append]
  rfl

end Index

/-! ## What a table shows of an index -/

section Reflects

variable {α β : Type} {shows : α → List β → Prop} {objects : ArcTable α}
  {index : String × String → List β} {tenant name : String}

/-- Every primitive shows its part of the index; a primitive that is not there has no part. -/
structure Reflects (shows : α → List β → Prop) (objects : ArcTable α)
    (index : String × String → List β) : Prop where
  separate : objects.Separate
  absent : ∀ ⦃tenant name⦄, seen objects tenant name = none → index (tenant, name) = []
  present : ∀ ⦃tenant name x⦄, seen objects tenant name = some x → shows x (index (tenant, name))

theorem Reflects.new : Reflects shows .new fun _ ↦ [] where
  separate := .new
  absent _ _ _ := rfl
  present tenant name x h := by
    cases ht : TenantId.new tenant with
    | error e =>
      rw [seen_eq_none ht] at h
      cases h
    | ok t =>
      rw [seen_eq ht] at h
      cases h

/-- Creating a primitive that is not there, with nothing in it. -/
theorem Reflects.createIn (h : Reflects shows objects index)
    (create : Tenant → EngineResult (α × Tenant))
    (hblk : ∀ t x owner, create t = .ok (x, owner) → shows x [])
    (release : Tenant → Tenant) (tenants : TenantRegistry)
    (hnone : seen objects tenant name = none) :
    Reflects shows (createIn create release tenants objects tenant name).2.2 index := by
  rcases hcr : SynapseCore.createIn create release tenants objects tenant name with ⟨r, reg, made⟩
  obtain ⟨t, x, owner, ht, hx, -, rfl⟩ | ⟨-, -, -, rfl⟩ := createIn_cases hcr
  · have hseen : seen (objects.push (t, name) x) tenant name = some x :=
      seen_of_locate (locate_push_self ht x)
    refine ⟨h.separate.push _ x, fun tenant' name' hnone' ↦ ?_, fun tenant' name' x' hx' ↦ ?_⟩
    · by_cases heq : (tenant', name') = (tenant, name)
      · exact heq ▸ h.absent hnone
      · rw [seen_push_of_ne ht x heq] at hnone'
        exact h.absent hnone'
    · by_cases heq : (tenant', name') = (tenant, name)
      · obtain ⟨rfl, rfl⟩ := Prod.mk.inj heq
        cases hseen.symm.trans hx'
        rw [h.absent hnone]
        exact hblk _ x owner hx
      · rw [seen_push_of_ne ht x heq] at hx'
        exact h.present hx'
  · exact h

theorem Reflects.write (h : Reflects shows objects index) {id : ℕ} {x y : α} {items : List β}
    (hloc : locate objects tenant name = .ok (some (id, x))) (hy : shows y items) :
    Reflects shows (objects.write id y) (Function.update index (tenant, name) items) := by
  have hself := seen_write_self hloc y
  refine ⟨h.separate, fun tenant' name' hnone ↦ ?_, fun tenant' name' x' hx' ↦ ?_⟩
  · by_cases heq : (tenant', name') = (tenant, name)
    · obtain ⟨rfl, rfl⟩ := Prod.mk.inj heq
      cases hself.symm.trans hnone
    · rw [seen_write_of_other h.separate hloc y heq] at hnone
      rw [Function.update_of_ne heq]
      exact h.absent hnone
  · by_cases heq : (tenant', name') = (tenant, name)
    · obtain ⟨rfl, rfl⟩ := Prod.mk.inj heq
      cases hself.symm.trans hx'
      rwa [Function.update_self]
    · rw [seen_write_of_other h.separate hloc y heq] at hx'
      rw [Function.update_of_ne heq]
      exact h.present hx'

theorem Reflects.map_seen {γ : Type} {f : α → γ} (g : List β → γ)
    (h : Reflects shows objects index) (hshows : ∀ x items, shows x items → f x = g items)
    (tenant name : String) :
    ((seen objects tenant name).map f).getD (g []) = g (index (tenant, name)) := by
  cases hseen : seen objects tenant name with
  | none => rw [h.absent hseen]; rfl
  | some x => exact hshows x _ (h.present hseen)

end Reflects

/-- Nothing has been taken from the queue, and its messages are numbered by their position. -/
def Queue.Shows (q : Queue) (items : List QueueEntry) : Prop :=
  q.ready = items ∧ q.inflight = [] ∧ q.seq = items.length

def Map.Shows (m : Map) (items : List (String × MapEntry)) : Prop := m.data = items

theorem Queue.shows_of_new {name : String} {t owner : Tenant} {q : Queue}
    (h : Queue.new name t = .ok (q, owner)) : q.Shows [] := by
  rw [Queue.eq_of_new h]
  exact ⟨rfl, rfl, rfl⟩

theorem Map.shows_of_new {name : String} {t owner : Tenant} {m : Map}
    (h : Map.new name t = .ok (m, owner)) : m.Shows [] := by
  rw [Map.eq_of_new h]
  rfl

/-! ## Runs -/

/-- An engine with the targets of the records it has written. -/
structure Written where
  core : SynapseCore
  targets : List Target

namespace Written

def start (object : ObjectStore) : Written := ⟨.withObjectStore object, []⟩

def step (s : Written) (op : EngineOp) : Option Written :=
  some ⟨s.core.perform op, s.targets ++ (op.target s.core).toList⟩

/-- The operation is a write by tenant and name, or creates a primitive that is not there. -/
def IsWrite (s : Written) : EngineOp → Prop
  | .createLog .. | .logAppend .. | .queueEnqueue .. | .mapSet .. => True
  | .createQueue tenant name => (seen s.core.queues tenant name).isNone
  | .createMap tenant name => (seen s.core.maps tenant name).isNone
  | _ => False

instance (s : Written) : DecidablePred s.IsWrite := fun op ↦ by
  cases op <;> dsimp only [IsWrite] <;> infer_instance

/-- **The invariant.** Every record has a target, and the tables show what the records and their
targets rebuild. -/
structure Indexed (s : Written) : Prop where
  length : s.targets.length = s.core.records.length
  queues : Reflects Queue.Shows s.core.queues (Index.rebuild s.targets s.core.records).queues
  maps : Reflects Map.Shows s.core.maps (Index.rebuild s.targets s.core.records).maps

variable {s : Written}

theorem Indexed.still (h : s.Indexed) (core : SynapseCore) (hqs : core.queues = s.core.queues)
    (hmaps : core.maps = s.core.maps) (hrecs : core.records = s.core.records) :
    Indexed ⟨core, s.targets⟩ := by
  constructor
  · rw [hrecs]
    exact h.length
  · rw [hqs, hrecs]
    exact h.queues
  · rw [hmaps, hrecs]
    exact h.maps

/-- A step that writes one record and puts it where it belongs. -/
theorem Indexed.record (h : s.Indexed) {core : SynapseCore} (target : Target) (rec : Record)
    (hrecs : core.records = s.core.records ++ [rec]) (hqs : Reflects Queue.Shows core.queues
      ((Index.rebuild s.targets s.core.records).add (target, rec)).queues)
    (hmaps : Reflects Map.Shows core.maps
      ((Index.rebuild s.targets s.core.records).add (target, rec)).maps) :
    Indexed ⟨core, s.targets ++ [target]⟩ := by
  constructor
  · rw [hrecs, List.length_append, List.length_append, h.length]
    rfl
  · rwa [hrecs, Index.rebuild_append h.length]
  · rwa [hrecs, Index.rebuild_append h.length]

section Keep

variable {s : Written} (h : s.Indexed) (tenant name : String) {id : ℕ}
include h

/-- A write through a name does nothing if nothing goes by that name. -/
theorem Indexed.withObject {α β : Type} (objects : ArcTable α) (kind : String)
    {act : ℕ → α → EngineResult β × SynapseCore} {target : Option Target}
    (hact : ∀ id x, locate objects tenant name = .ok (some (id, x)) →
      Indexed ⟨(act id x).2, s.targets ++ target.toList⟩) :
    Indexed ⟨(s.core.withObject objects kind tenant name act).2,
      s.targets ++ ((seen objects tenant name).bind fun _ ↦ target).toList⟩ := by
  rw [SynapseCore.withObject]
  rcases hloc : locate objects tenant name with e | _ | ⟨id, x⟩
  · simpa [seen, hloc] using h
  · simpa [seen, hloc] using h
  · simpa [seen, hloc] using hact id x hloc

omit tenant name in
theorem Indexed.append (log : Log) (payload : Bytes) (now : ℕ) :
    Indexed ⟨(s.core.append log payload now).2,
      s.targets ++ (if payload = [] then none else some Target.log).toList⟩ := by
  by_cases hnil : payload = []
  · subst hnil
    simpa using h.still (s.core.append log [] now).2 rfl rfl rfl
  obtain ⟨wal, happ, hrecs⟩ := s.core.wal.append_records hnil now
  have hwal : (s.core.append log payload now).2.wal = wal := by rw [s.core.append_wal, happ]
  rw [if_neg hnil]
  refine h.record .log ⟨s.core.wal.local.nextOffset, payload, now⟩ ?_ h.queues h.maps
  rwa [SynapseCore.records, hwal]

variable {tenant name}

theorem Indexed.enqueue {q : Queue} (hloc : locate s.core.queues tenant name = .ok (some (id, q)))
    (payload : Bytes) (now : ℕ) : Indexed ⟨(s.core.enqueue id q payload now).2,
      s.targets ++ (if payload = [] then none else some (Target.queue tenant name)).toList⟩ := by
  by_cases hnil : payload = []
  · subst hnil
    simpa using h.still (s.core.enqueue id q [] now).2 (write_located hloc) rfl rfl
  obtain ⟨wal, happ, hrecs⟩ := s.core.wal.append_records hnil now
  have henqueue : (s.core.enqueue id q payload now).2 = { s.core with
        wal := wal
        queues := s.core.queues.write id (q.push payload) } := by
    rw [SynapseCore.enqueue, Queue.enqueue, happ]
  rw [if_neg hnil, henqueue]
  refine h.record (.queue tenant name) ⟨s.core.wal.local.nextOffset, payload, now⟩ hrecs
    (h.queues.write hloc ?_) h.maps
  obtain ⟨hrdy, hinf, hseq⟩ := h.queues.present (seen_of_locate hloc)
  exact ⟨by rw [Queue.push, hrdy, hseq], hinf, by rw [Queue.push, List.length_append, hseq]; rfl⟩

theorem Indexed.set {m : Map} (hloc : locate s.core.maps tenant name = .ok (some (id, m)))
    (key : String) (value : Bytes) (ttl : Option ℕ) (now : ℕ) :
    Indexed ⟨(s.core.set id m key value ttl now).2, s.targets ++ (if key = "" ∨ value = [] then none
        else some (Target.map tenant name key (Map.expiry now ttl))).toList⟩ := by
  by_cases hbad : key = "" ∨ value = []
  · obtain ⟨e, he⟩ := m.set_of_nil s.core.wal hbad ttl now
    rw [if_pos hbad, toList_none, List.append_nil, SynapseCore.set, he]
    exact h.still _ rfl (write_located hloc) rfl
  · obtain ⟨hkey, hnil⟩ := not_or.mp hbad
    obtain ⟨wal, happ, hrecs⟩ := s.core.wal.append_records hnil now
    rw [if_neg hbad, SynapseCore.set, Map.set_of_ne_nil hkey hnil, happ]
    refine h.record (.map tenant name key (Map.expiry now ttl))
      ⟨s.core.wal.local.nextOffset, value, now⟩ hrecs h.queues (h.maps.write hloc ?_)
    rw [Map.Shows, Map.put, h.maps.present (seen_of_locate hloc)]

end Keep

theorem Indexed.step {s' : Written} (h : s.Indexed) {op : EngineOp} (hop : s.IsWrite op)
    (hstep : s.step op = some s') : s'.Indexed := by
  cases hstep
  have hcr {core : SynapseCore} (hcore : Indexed ⟨core, s.targets⟩) :
      Indexed ⟨core, s.targets ++ (none : Option Target).toList⟩ := by
    rwa [toList_none, List.append_nil]
  cases op with
  | createLog tenant name => exact hcr (h.still _ rfl rfl rfl)
  | createQueue tenant name =>
    exact hcr ⟨h.length, h.queues.createIn (Queue.new name) (fun _ _ _ ↦ Queue.shows_of_new) _ _
      (isNone_iff_eq_none.mp hop), h.maps⟩
  | createMap tenant name =>
    exact hcr ⟨h.length, h.queues, h.maps.createIn (Map.new name) (fun _ _ _ ↦ Map.shows_of_new) _ _
      (isNone_iff_eq_none.mp hop)⟩
  | logAppend tenant name payload now =>
    exact h.withObject tenant name s.core.logs "log" fun _ log _ ↦ h.append log payload now
  | queueEnqueue tenant name payload now =>
    exact h.withObject tenant name s.core.queues "queue" fun _ _ hloc ↦ h.enqueue hloc payload now
  | mapSet tenant name key value ttl now =>
    exact h.withObject tenant name s.core.maps "map" fun _ _ hloc ↦ h.set hloc key value ttl now
  | _ => exact hop.elim

/-- Along every run of creations and writes the tables show what the records and their targets
rebuild. -/
theorem indexed_of_run {object : ObjectStore} {ops : List EngineOp}
    (hrun : Steps step IsWrite (start object) ops s) : s.Indexed :=
  hrun.invariant Indexed (fun _ _ _ h hop hstep ↦ h.step hop hstep) ⟨rfl, .new, .new⟩

/-- The messages of a queue that is not there are none. -/
def messages (s : Written) (tenant name : String) : List QueueEntry × List QueueEntry :=
  (s.core.messages tenant name).getD ([], [])

def entries (s : Written) (tenant name : String) : List (String × MapEntry) :=
  (s.core.entries tenant name).getD []

theorem Indexed.messages_eq (h : s.Indexed) (tenant name : String) : s.messages tenant name =
      ((Index.rebuild s.targets s.core.records).queues (tenant, name), []) :=
  h.queues.map_seen (fun items ↦ (items, []))
    (fun q items ⟨hrdy, hinf, _⟩ ↦ by rw [hrdy, hinf]) tenant name

theorem Indexed.entries_eq (h : s.Indexed) (tenant name : String) :
    s.entries tenant name = (Index.rebuild s.targets s.core.records).maps (tenant, name) :=
  h.maps.map_seen id (fun _ _ hm ↦ hm) tenant name

/-- **What determines the indexes.** Two sequences of creations and writes on fresh cores with the
same records, written to the same places, leave the same messages and entries. -/
theorem contents_of_targets {object object' : ObjectStore} {ops ops' : List EngineOp}
    {s s' : Written} (hrun : Steps step IsWrite (start object) ops s)
    (hrun' : Steps step IsWrite (start object') ops' s')
    (hrecords : s.core.records = s'.core.records) (htargets : s.targets = s'.targets)
    (tenant name : String) :
    s.messages tenant name = s'.messages tenant name ∧
      s.entries tenant name = s'.entries tenant name := by
  have h := indexed_of_run hrun
  have h' := indexed_of_run hrun'
  constructor
  · rw [h.messages_eq, h'.messages_eq, hrecords, htargets]
  · rw [h.entries_eq, h'.entries_eq, hrecords, htargets]

def creations : List EngineOp :=
  [.createQueue "t" "jobs", .createQueue "t" "mail", .createMap "t" "conf"]

/-- Other primitives around it, created in another order, change nothing. -/
theorem contents_of_targets_other_creations : ∃ s s', Steps step IsWrite (start .empty)
        (creations ++ [.queueEnqueue "t" "jobs" [1] 0, .mapSet "t" "conf" "a" [3] (some 5) 2]) s ∧
      Steps step IsWrite (start .empty)
        ([.createMap "t" "conf", .createLog "u" "jobs", .createQueue "t" "jobs"] ++
          [.queueEnqueue "t" "jobs" [1] 0, .queueEnqueue "t" "jobs" [] 1,
            .mapSet "t" "conf" "a" [3] (some 5) 2]) s' ∧
      s.messages "t" "jobs" = s'.messages "t" "jobs" ∧
      s.entries "t" "conf" = s'.entries "t" "conf" ∧
      s'.messages "t" "jobs" = ([⟨0, [1]⟩], []) ∧
      s'.entries "t" "conf" = [("a", ⟨[3], some 7⟩)] := by
  refine ⟨_, _, steps_exec (by decide +kernel), steps_exec (by decide +kernel), ?_, ?_,
    by decide +kernel, by decide +kernel⟩
  · exact (contents_of_targets (steps_exec _) (steps_exec _) (by decide +kernel)
      (by decide +kernel) "t" "jobs").1
  · exact (contents_of_targets (steps_exec _) (steps_exec _) (by decide +kernel)
      (by decide +kernel) "t" "conf").2

/-- The same payloads in the same order, to the other queue and under another key: neither queue nor
the map is the same. -/
theorem records_do_not_determine_contents : ∃ s s', Steps step IsWrite (start .empty)
        (creations ++ [.queueEnqueue "t" "jobs" [1] 0, .queueEnqueue "t" "mail" [2] 0,
          .mapSet "t" "conf" "a" [3] none 0]) s ∧
      Steps step IsWrite (start .empty)
        (creations ++ [.queueEnqueue "t" "mail" [1] 0, .queueEnqueue "t" "jobs" [2] 0,
          .mapSet "t" "conf" "b" [3] none 0]) s' ∧
      s.core.records = s'.core.records ∧
      s.messages "t" "jobs" = ([⟨0, [1]⟩], []) ∧
      s'.messages "t" "jobs" = ([⟨0, [2]⟩], []) ∧
      s.entries "t" "conf" = [("a", ⟨[3], none⟩)] ∧
      s'.entries "t" "conf" = [("b", ⟨[3], none⟩)] := by
  refine ⟨_, _, steps_exec (by decide +kernel), steps_exec (by decide +kernel), ?_, ?_, ?_, ?_, ?_⟩
    <;> decide +kernel

end Written

end Synapse
