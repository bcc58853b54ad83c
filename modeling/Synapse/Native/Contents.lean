import Synapse.Engine.Recreate
import Synapse.Engine.Replay
import Synapse.Lib.Store
import Synapse.Native.Client

/-!
# What the native broker keeps

Seen from its clients the broker is a store of values and queues (`Store`): a get returns what was
last set, a dequeue what was enqueued first. `shown` is the store a core stands for.

The broker creates the map before each set and the queue before each enqueue, and creating a name
again replaces what is there by something empty. So a request does to the store what it should if
and only if nothing was there to be lost, or the creation was refused (`served`). As long as every
request is `Spared` in this way, the answers are those of a store (`store_answers`).
-/

namespace Synapse.Native

open SynapseCore Transition List Function Option

/-! ## Requests -/

inductive Request
  | kvSet (key : String) (value : Bytes)
  | kvGet (key : String)
  | enqueue (name : String) (payload : Bytes)
  | dequeue (name : String)
  | ack (name : String) (seq : ℕ)
deriving DecidableEq, Repr

/-- The request in a well-formed frame; a set with a time to live is none of these. -/
def Request.ofFrame (frame : Frame) : Option Request :=
  match frame.opcode with
  | .kvSet => do
    let (key, ttl, val) ← parseKv frame.payload
    if ttl = 0 then some (.kvSet key val) else none
  | .kvGet => do
    let (key, _, _) ← parseKv frame.payload
    some (.kvGet key)
  | .queue => do
    let action ← frame.payload[0]?
    let (name, rest) ← takeStr frame.payload 1
    if action = 0 then some (.enqueue name rest)
    else if action = 1 then some (.dequeue name)
    else none
  | .ack => do
    let (name, rest) ← takeStr frame.payload 1
    let (seq, _) ← takeNat 8 rest
    some (.ack name seq)
  | _ => none

def Request.serve (core : SynapseCore) (now : ℕ) : Request → Option (Out × SynapseCore)
  | .kvSet key value => setKey core key 0 value now
  | .kvGet key => getKey core key now
  | .enqueue name payload => Native.enqueue core name payload now
  | .dequeue name => Native.dequeue core name
  | .ack name seq => ackSeq core name seq

theorem handle_of_request {frame : Frame} {req : Request} (h : Request.ofFrame frame = some req)
    (conn : ℕ) (w : World) :
    handle World.prims conn w frame = w.onCore (req.serve w.core w.now) := by
  rw [Request.ofFrame] at h
  rw [handle]
  cases hop : frame.opcode with
  | hello | rekey | pubSub | logTail =>
    rw [hop] at h
    cases h
  | kvSet =>
    rw [hop] at h
    obtain ⟨⟨key, ttl, val⟩, hp, h⟩ := bind_eq_some_iff.mp h
    dsimp only at h
    split_ifs at h with httl
    cases h
    simp [World.prims, kvSet, hp, httl, Request.serve]
  | kvGet =>
    rw [hop] at h
    obtain ⟨⟨key, ttl, val⟩, hp, h⟩ := bind_eq_some_iff.mp h
    cases h
    simp [World.prims, kvGet, hp, Request.serve]
  | queue =>
    rw [hop] at h
    obtain ⟨action, haction, h⟩ := bind_eq_some_iff.mp h
    obtain ⟨⟨name, rest⟩, hname, h⟩ := bind_eq_some_iff.mp h
    dsimp only at h
    split_ifs at h with hzero hone
    · cases h
      simp [World.prims, queue, haction, hname, hzero, Request.serve]
    · cases h
      simp [World.prims, queue, haction, hname, hone, Request.serve]
  | ack =>
    rw [hop] at h
    obtain ⟨⟨name, rest⟩, hname, h⟩ := bind_eq_some_iff.mp h
    obtain ⟨⟨seq, tail⟩, hseq, h⟩ := bind_eq_some_iff.mp h
    cases h
    simp [World.prims, Native.ack, hname, hseq, Request.serve]

/-! ## The store behind a core -/

/-- What get and dequeue would return: the entries of the map, and the ready messages. -/
def shown (core : SynapseCore) : Store String String Bytes where
  values key := (seen core.maps tenant kvMap).bind fun m ↦ (m.data.lookup key).map MapEntry.value
  ready name := (seen core.queues tenant name).elim [] fun q ↦ q.ready.map QueueEntry.payload

def heldKeys (core : SynapseCore) : List String :=
  (seen core.maps tenant kvMap).elim [] fun m ↦ m.data.map Prod.fst

/-- The first byte says whether a set or an enqueue succeeded. -/
def accepted (reply : Bytes) : Bool := reply.head? == some 1

/-- The value in the answer to a get: after the first byte and the length. -/
def valueIn : Bytes → Option Bytes
  | 1 :: rest => some (rest.drop 4)
  | _ => none

/-- The payload in the answer to a dequeue: after the first byte, the sequence number and the
length. -/
def payloadIn : Bytes → Option Bytes
  | 1 :: rest => some (rest.drop 12)
  | _ => none

/-- What a request and its answer amount to; a refused one, and an acknowledgement, to nothing. -/
def event : Request → Bytes → Option (StoreEvent String String Bytes)
  | .kvSet key value, reply => if accepted reply then some (.put key value) else none
  | .kvGet key, reply => some (.got key (valueIn reply))
  | .enqueue name payload, reply => if accepted reply then some (.pushed name payload) else none
  | .dequeue name, reply => some (.popped name (payloadIn reply))
  | .ack _ _, _ => none

/-- There is no room for another map, or queue, of this name. -/
def NoRoomForMap (core : SynapseCore) : Prop :=
  core.tenants.NoRoom Tenant.usedMaps (·.quota.maxMaps) tenant kvMap

def NoRoomForQueue (core : SynapseCore) (name : String) : Prop :=
  core.tenants.NoRoom Tenant.usedQueues (·.quota.maxQueues) tenant name

instance (core : SynapseCore) : Decidable (NoRoomForMap core) := by
  unfold NoRoomForMap
  infer_instance

instance (core : SynapseCore) (name : String) : Decidable (NoRoomForQueue core name) := by
  unfold NoRoomForQueue
  infer_instance

/-- The creation that precedes the request loses nothing: there is no room for it, or nothing in the
way. A value set again is in the way only if the set fails. -/
def Spared (core : SynapseCore) : Request → Prop
  | .kvSet key value => NoRoomForMap core ∨ ∀ k ∈ heldKeys core, k = key ∧ key ≠ "" ∧ value ≠ []
  | .enqueue name _ => NoRoomForQueue core name ∨ (shown core).ready name = []
  | _ => True

instance (core : SynapseCore) (req : Request) : Decidable (Spared core req) := by
  cases req <;> dsimp only [Spared] <;> infer_instance

theorem tenantId_new : TenantId.new tenant = .ok ⟨tenant, by decide, by decide⟩ := rfl

/-! ## Creating before use -/

section Ensure

variable (core : SynapseCore) (name name' : String)

theorem seen_ensureMap : seen (ensureMap core name).maps tenant name' =
      seen (core.createMap tenant name).2.maps tenant name' := by
  rw [ensureMap]
  obtain ⟨_ | handle, made⟩ := core.createMap tenant name
  · rfl
  · exact seen_release Map.key handle tenant name'

theorem seen_ensureQueue : seen (ensureQueue core name).queues tenant name' =
      seen (core.createQueue tenant name).2.queues tenant name' := by
  rw [ensureQueue]
  obtain ⟨_ | handle, made⟩ := core.createQueue tenant name
  · rfl
  · exact seen_release Queue.key handle tenant name'

theorem ensureMap_frame :
    (ensureMap core name).queues = core.queues ∧ (ensureMap core name).wal = core.wal := by
  have hqs : (core.createMap tenant name).2.queues = core.queues := rfl
  have hwal : (core.createMap tenant name).2.wal = core.wal := rfl
  rw [ensureMap, ← hqs, ← hwal]
  obtain ⟨_ | handle, made⟩ := core.createMap tenant name <;> exact ⟨rfl, rfl⟩

theorem ensureQueue_frame :
    (ensureQueue core name).maps = core.maps ∧ (ensureQueue core name).wal = core.wal := by
  have hmaps : (core.createQueue tenant name).2.maps = core.maps := rfl
  have hwal : (core.createQueue tenant name).2.wal = core.wal := rfl
  rw [ensureQueue, ← hmaps, ← hwal]
  obtain ⟨_ | handle, made⟩ := core.createQueue tenant name <;> exact ⟨rfl, rfl⟩

end Ensure

/-- The map a set works on is new, or it is the one that was there. -/
theorem seen_ensureMap_cases (core : SynapseCore) : (¬NoRoomForMap core ∧
        ∃ m, m.data = [] ∧ seen (ensureMap core kvMap).maps tenant kvMap = some m) ∨
      NoRoomForMap core ∧
        seen (ensureMap core kvMap).maps tenant kvMap = seen core.maps tenant kvMap := by
  rw [seen_ensureMap]
  rcases seen_createIn (Map.new kvMap) Tenant.releaseMap core.tenants core.maps
    fun _ ↦ Map.new_error_iff with ⟨hroom, m, owner, t, hm, hseen⟩ | ⟨hroom, hsame⟩
  · exact .inl ⟨hroom, m, congrArg Map.data (Map.eq_of_new hm), hseen⟩
  · exact .inr ⟨hroom, congrArg (seen · tenant kvMap) hsame⟩

/-- The queue an enqueue works on is new, or it is the one that was there. -/
theorem seen_ensureQueue_cases (core : SynapseCore) (name : String) :
    (¬NoRoomForQueue core name ∧
        ∃ q, q.ready = [] ∧ seen (ensureQueue core name).queues tenant name = some q) ∨
      NoRoomForQueue core name ∧
        seen (ensureQueue core name).queues tenant name = seen core.queues tenant name := by
  rw [seen_ensureQueue]
  rcases seen_createIn (Queue.new name) Tenant.releaseQueue core.tenants core.queues
    fun _ ↦ Queue.new_error_iff with ⟨hroom, q, owner, t, hq, hseen⟩ | ⟨hroom, hsame⟩
  · exact .inl ⟨hroom, q, congrArg Queue.ready (Queue.eq_of_new hq), hseen⟩
  · exact .inr ⟨hroom, congrArg (seen · tenant name) hsame⟩

variable {name : String} {q : Queue} {m : Map}

theorem seen_ensureQueue_of_ne (core : SynapseCore) {name' : String} (hne : name' ≠ name) :
    seen (ensureQueue core name).queues tenant name' = seen core.queues tenant name' := by
  rw [seen_ensureQueue]
  have hkey : (tenant, name') ≠ (tenant, name) := fun heq ↦ hne (Prod.mk.inj heq).2
  have hoth :=
    seen_createIn_of_ne (Queue.new name) Tenant.releaseQueue core.tenants core.queues hkey
  exact hoth

theorem separate_ensureQueue {core : SynapseCore} (h : core.queues.Separate) (name : String) :
    (ensureQueue core name).queues.Separate := by
  have hmade : (core.createQueue tenant name).2.queues.Separate :=
    separate_createIn h (Queue.new name) Tenant.releaseQueue core.tenants tenant name
  rw [ensureQueue]
  generalize core.createQueue tenant name = made at hmade
  obtain ⟨_ | handle, made⟩ := made
  · exact hmade
  · exact hmade.release Queue.key handle

/-! ## What a request does to the primitives -/

variable {key : String} {α : Type} {objects : ArcTable α} {payload value : Bytes} {req : Request}

theorem exists_locate (objects : ArcTable α) (name : String) :
    ∃ found, locate objects tenant name = .ok found := by
  rw [locate, find, tenantId_new]
  exact ⟨_, rfl⟩

theorem locate_of_unwrapBoth {found : ℕ × α}
    (h : unwrapBoth (locate objects tenant name) = some found) :
    locate objects tenant name = .ok (some found) := by
  obtain ⟨r, hr⟩ := exists_locate objects name
  rw [hr] at h ⊢
  exact congrArg Except.ok h

theorem locate_of_toOption {found : Option (ℕ × α)}
    (h : (locate objects tenant name).toOption = some found) :
    locate objects tenant name = .ok found := by
  obtain ⟨r, hr⟩ := exists_locate objects name
  rw [hr] at h ⊢
  exact congrArg Except.ok (some.inj h)

variable {core core' : SynapseCore} {out : Out} {now : ℕ}

theorem setKey_eq_some {ttl : ℕ} {val : Bytes} (h : setKey core key ttl val now = some (out, core'))
    :
    ∃ m r m' wal, seen (ensureMap core kvMap).maps tenant kvMap = some m ∧
      m.set core.wal key val (if ttl = 0 then none else some ttl) now = (r, m', wal) ∧
      out = (.kvSet, [okByte r]) ∧ seen core'.maps tenant kvMap = some m' ∧
      core'.queues = core.queues := by
  obtain ⟨⟨id, m⟩, hfnd, h⟩ := bind_eq_some_iff.mp h
  obtain ⟨hqs, hwal⟩ := ensureMap_frame core kvMap
  have hloc := locate_of_unwrapBoth hfnd
  obtain ⟨rfl, rfl⟩ := h
  refine ⟨m, _, _, _, seen_of_locate hloc, rfl, ?_, ?_, hqs⟩
  · rw [← hwal]
  · rw [← hwal]
    exact seen_write_self hloc _

theorem getKey_eq_some (h : getKey core key now = some (out, core')) :
    seen core.maps tenant kvMap = none ∧ out = (.kvGet, [0]) ∧ core' = core ∨
      ∃ m, seen core.maps tenant kvMap = some m ∧ out = (.kvGet, kvReply (m.get key now).1) ∧
        seen core'.maps tenant kvMap = some (m.get key now).2 ∧ core'.queues = core.queues := by
  rw [getKey] at h
  obtain ⟨found, hfnd, h⟩ := bind_eq_some_iff.mp h
  have hloc := locate_of_toOption hfnd
  rcases found with _ | ⟨id, m⟩
  · obtain ⟨rfl, rfl⟩ := h
    exact .inl ⟨seen_of_locate hloc, rfl, rfl⟩
  · obtain ⟨rfl, rfl⟩ := h
    exact .inr ⟨m, seen_of_locate hloc, rfl, seen_write_self hloc _, rfl⟩

/-- Only the queue `name` has changed, to `q`. -/
structure QueueWritten (core core' : SynapseCore) (name : String) (q : Queue) : Prop where
  maps_eq : core'.maps = core.maps
  seen_self : seen core'.queues tenant name = some q
  seen_of_ne : ∀ name', name' ≠ name →
    seen core'.queues tenant name' = seen core.queues tenant name'
  separate : core'.queues.Separate

section

variable (hsep : core.queues.Separate)

include hsep

theorem queueWritten_write {id : ℕ} (h : locate core.queues tenant name = .ok (some (id, q)))
    (q' : Queue) : QueueWritten core { core with queues := core.queues.write id q' } name q' := by
  exact ⟨rfl, seen_write_self h q',
    fun _ hne ↦ seen_write_of_other hsep h q' fun heq ↦ hne (Prod.mk.inj heq).2, hsep⟩

theorem enqueue_eq_some (h : enqueue core name payload now = some (out, core')) :
    ∃ q r q' wal, seen (ensureQueue core name).queues tenant name = some q ∧
      q.enqueue core.wal payload now = (r, q', wal) ∧ accepted out.2 = r.isOk ∧
      QueueWritten core core' name q' := by
  obtain ⟨⟨id, q⟩, hfnd, h⟩ := bind_eq_some_iff.mp h
  have hloc := locate_of_unwrapBoth hfnd
  obtain ⟨hmaps, hwal⟩ := ensureQueue_frame core name
  rcases hr : q.enqueue core.wal payload now with ⟨r, q', wal⟩
  have hcall : (ensureQueue core name).enqueue id q payload now = (r, { ensureQueue core name with
        wal := wal, queues := (ensureQueue core name).queues.write id q' }) := by
    rw [SynapseCore.enqueue, hwal, hr]
  have hwr := queueWritten_write (separate_ensureQueue hsep name) hloc q'
  dsimp only at h
  rw [hcall] at h
  refine ⟨q, r, q', wal, seen_of_locate hloc, hr, ?_⟩
  obtain _ | _ := r <;> obtain ⟨rfl, rfl⟩ := h <;>
    exact ⟨rfl, hmaps, hwr.seen_self, fun name' hne ↦ (hwr.seen_of_ne name' hne).trans
      (seen_ensureQueue_of_ne core hne), hwr.separate⟩

theorem dequeue_eq_some (h : dequeue core name = some (out, core')) :
    seen core.queues tenant name = none ∧ out = (.queue, [0]) ∧ core' = core ∨
      ∃ q, seen core.queues tenant name = some q ∧ out = (.queue, dequeueReply q.dequeue.1) ∧
        QueueWritten core core' name q.dequeue.2 := by
  rw [dequeue] at h
  obtain ⟨found, hfnd, h⟩ := bind_eq_some_iff.mp h
  have hloc := locate_of_toOption hfnd
  rcases found with _ | ⟨id, q⟩
  · obtain ⟨rfl, rfl⟩ := h
    exact .inl ⟨seen_of_locate hloc, rfl, rfl⟩
  · obtain ⟨rfl, rfl⟩ := h
    exact .inr ⟨q, seen_of_locate hloc, rfl, queueWritten_write hsep hloc _⟩

theorem ackSeq_eq_some {seq : ℕ} (h : ackSeq core name seq = some (out, core')) : core' = core ∨
      ∃ q, seen core.queues tenant name = some q ∧ QueueWritten core core' name (q.ack seq).2 := by
  rw [ackSeq] at h
  obtain ⟨found, hfnd, h⟩ := bind_eq_some_iff.mp h
  have hloc := locate_of_toOption hfnd
  rcases found with _ | ⟨id, q⟩
  · obtain ⟨-, rfl⟩ := h
    exact .inl rfl
  · obtain ⟨-, rfl⟩ := h
    exact .inr ⟨q, seen_of_locate hloc, queueWritten_write hsep hloc _⟩

end

/-! ## Setting a key -/

theorem lookup_set (data : List (String × MapEntry)) (key k : String) (e : MapEntry) :
    ((key, e) :: data.filter (·.1 != key)).lookup k =
      if k = key then some e else data.lookup k := by
  by_cases hk : k = key
  · simp [hk]
  rw [lookup_cons, beq_false_of_ne hk, if_neg hk]
  induction data with
  | nil => rfl
  | cons entry data ih =>
    obtain ⟨k', e'⟩ := entry
    by_cases hk' : k' = key
    · rwa [filter_cons_of_neg (by simpa using hk'), lookup_cons, beq_false_of_ne (hk' ▸ hk)]
    · rw [filter_cons_of_pos (by simpa using hk'), lookup_cons, lookup_cons]
      cases k == k' with
      | true => rfl
      | false => exact ih

/-- A set succeeds if key and value are not empty. -/
theorem set_cases (m : Map) (wal : TieredSegmentedLog) (key : String) (value : Bytes) (now : ℕ) :
    ((key ≠ "" ∧ value ≠ []) ∧ ∃ wal', m.set wal key value none now =
        (.ok (), m.put key ⟨value, none⟩, wal')) ∨
      ¬(key ≠ "" ∧ value ≠ []) ∧ ∃ e wal', m.set wal key value none now = (.error e, m, wal') := by
  by_cases hgood : key ≠ "" ∧ value ≠ []
  · exact .inl ⟨hgood, _, Map.set_of_ne_nil hgood.1 hgood.2 none now⟩
  · obtain ⟨e, he⟩ := m.set_of_nil wal (or_iff_not_and_not.mpr hgood) none now
    exact .inr ⟨hgood, e, wal, he⟩

/-! ## What a request does to the store -/

def Lasting (core : SynapseCore) : Prop :=
  ∀ m ∈ seen core.maps tenant kvMap, ∀ entry ∈ m.data, entry.2.expiresAt = none

theorem ready_shown (core : SynapseCore) (name : String) : (shown core).ready name =
      (seen core.queues tenant name).elim [] fun q ↦ q.ready.map QueueEntry.payload := rfl

theorem values_shown (core : SynapseCore) (key : String) :
    (shown core).values key = (seen core.maps tenant kvMap).bind fun m ↦
      (m.data.lookup key).map MapEntry.value := rfl

theorem shown_of_seen (hmap : seen core'.maps tenant kvMap = some m)
    (hqs : core'.queues = core.queues) :
    shown core' = ⟨fun key ↦ (m.data.lookup key).map MapEntry.value, (shown core).ready⟩ := by
  rw [shown, shown, hmap, hqs]
  rfl

theorem QueueWritten.shown_eq (h : QueueWritten core core' name q) :
    shown core' = ⟨(shown core).values,
      update (shown core).ready name (q.ready.map QueueEntry.payload)⟩ := by
  refine Store.ext (by rw [shown, h.maps_eq]; rfl) (funext fun name' ↦ ?_)
  by_cases hname : name' = name
  · subst hname
    rw [ready_shown, h.seen_self]
    simp only [update_self, elim_some]
  · rw [ready_shown, h.seen_of_ne name' hname, ← ready_shown]
    simp only [update_of_ne hname]

theorem mem_heldKeys : key ∈ heldKeys core ↔ (shown core).values key ≠ none := by
  rw [heldKeys, values_shown]
  cases seen core.maps tenant kvMap with
  | none => simp
  | some m =>
    simp only [elim_some, bind_some, ne_eq, map_eq_none_iff, lookup_eq_none_iff]
    simp

def expected (core : SynapseCore) (req : Request) (reply : Bytes) : Store String String Bytes :=
  (event req reply).elim (shown core) (shown core).apply

/-- The values in the map a set works on are all there were, or none. -/
theorem values_ensureMap (hm : seen (ensureMap core kvMap).maps tenant kvMap = some m) :
    (¬NoRoomForMap core ∧ ∀ k, m.data.lookup k = none) ∨ NoRoomForMap core ∧
        ∀ k, (m.data.lookup k).map MapEntry.value = (shown core).values k := by
  rcases seen_ensureMap_cases core with ⟨hok, m', hblk, hm'⟩ | ⟨href, hsame⟩
  · obtain rfl : m = m' := some.inj (hm.symm.trans hm')
    exact .inl ⟨hok, fun k ↦ by rw [hblk]; rfl⟩
  · refine .inr ⟨href, fun k ↦ ?_⟩
    rw [values_shown, ← hsame, hm, bind_some]

theorem shown_kvSet_iff (h : setKey core key 0 value now = some (out, core')) :
    shown core' = expected core (.kvSet key value) out.2 ↔ Spared core (.kvSet key value) := by
  obtain ⟨m, r, m', wal, hm, hset, rfl, hseen, hqs⟩ := setKey_eq_some h
  rw [if_pos rfl] at hset
  -- what the set should do to the values is what it does to those of the map in use
  obtain ⟨hkey, hexp⟩ : (∀ k, (m'.data.lookup k).map MapEntry.value =
        if k = key ∧ key ≠ "" ∧ value ≠ [] then some value
        else (m.data.lookup k).map MapEntry.value) ∧
      expected core (.kvSet key value) [okByte r] = ⟨fun k ↦
        if k = key ∧ key ≠ "" ∧ value ≠ [] then some value else (shown core).values k,
        (shown core).ready⟩ := by
    rcases set_cases m core.wal key value now with ⟨hgood, wal', heq⟩ | ⟨hbad, e, wal', heq⟩ <;>
      cases hset.symm.trans heq
    · simp only [and_iff_left hgood]
      refine ⟨fun k ↦ ?_, Store.ext (funext fun k ↦ update_apply ..) rfl⟩
      rw [lookup_set, apply_ite (Option.map MapEntry.value), map_some]
    · simp only [iff_false_intro hbad, and_false, if_false, implies_true, true_and]
      rfl
  rw [shown_of_seen hseen hqs, hexp, Spared, Store.mk.injEq, and_iff_left rfl, funext_iff]
  simp only [hkey]
  rcases values_ensureMap hm with ⟨hok, hnone⟩ | ⟨href, hsame⟩
  · rw [or_iff_right hok]
    refine forall_congr' fun k ↦ ?_
    rw [hnone, map_none, mem_heldKeys]
    split_ifs with hk
    · exact iff_of_true rfl fun _ ↦ hk
    · rw [eq_comm, ← not_imp_not, imp_iff_right hk]
      exact not_not.symm
  · exact iff_of_true (fun k ↦ by rw [hsame]) (.inl href)

theorem shown_enqueue_iff (hsep : core.queues.Separate)
    (h : enqueue core name payload now = some (out, core')) :
    shown core' = expected core (.enqueue name payload) out.2 ↔
      Spared core (.enqueue name payload) := by
  obtain ⟨q, r, q', wal, hq, hcall, hacc, hwr⟩ := enqueue_eq_some hsep h
  -- the payloads the queue in use holds are all there were, or none
  have hrdy : (¬NoRoomForQueue core name ∧ q.ready = []) ∨ NoRoomForQueue core name ∧
        q.ready.map QueueEntry.payload = (shown core).ready name := by
    rcases seen_ensureQueue_cases core name with ⟨hok, q₀, hblk, hq₀⟩ | ⟨href, hsame⟩
    · obtain rfl : q = q₀ := some.inj (hq.symm.trans hq₀)
      exact .inl ⟨hok, hblk⟩
    · refine .inr ⟨href, ?_⟩
      rw [ready_shown, ← hsame, hq, elim_some]
  have hupd (l l' : List Bytes) :
      update (shown core).ready name l = update (shown core).ready name l' ↔ l = l' :=
    (update_injective (shown core).ready name).eq_iff
  rw [hwr.shown_eq, Spared, expected, event]
  obtain ⟨e, he⟩ | hok := q.enqueue_cases core.wal payload now
  · cases he.symm.trans hcall
    have hfail : accepted out.2 = false := hacc
    rw [hfail, if_neg Bool.false_ne_true, elim_none, Store.ext_iff, and_iff_right rfl]
    dsimp only
    rw [update_eq_self_iff]
    rcases hrdy with ⟨hok, hnil⟩ | ⟨href, hsame⟩
    · rw [or_iff_right hok, hnil, map_nil]
      exact eq_comm
    · simp [href, hsame]
  · cases hok.symm.trans hcall
    have hdone : accepted out.2 = true := hacc
    rw [hdone, if_pos rfl, elim_some, Store.apply, Store.mk.injEq, and_iff_right rfl, hupd]
    rcases hrdy with ⟨hok, hnil⟩ | ⟨href, hsame⟩
    · simp [hok, hnil]
    · simp [href, hsame]

theorem get_of_lasting (h : ∀ entry ∈ m.data, entry.2.expiresAt = none) (key : String) (now : ℕ) :
    m.get key now = ((m.data.lookup key).map MapEntry.value, m) := by
  rw [Map.get]
  cases hent : m.data.lookup key with
  | none => rfl
  | some entry =>
    obtain ⟨front, back, hdata, -⟩ := List.lookup_eq_some_iff.mp hent
    have hnever : entry.expiresAt = none := h (key, entry) (by simp [hdata])
    simp [hnever]

theorem valueIn_kvReply (r : Option Bytes) : valueIn (kvReply r) = r := by
  cases r with
  | none => rfl
  | some v =>
    rw [kvReply, valueIn, drop_left' (ByteCode.length_beBytes ..)]

theorem payloadIn_dequeueReply (r : Option (ℕ × Bytes)) :
    payloadIn (dequeueReply r) = r.map Prod.snd := by
  cases r with
  | none => rfl
  | some taken =>
    obtain ⟨seq, payload⟩ := taken
    rw [dequeueReply, payloadIn, ← append_assoc, drop_left' (by simp), map_some]

/-- What serving a request comes to. -/
structure Served (core core' : SynapseCore) (req : Request) (reply : Bytes) : Prop where
  /-- The answer is that of the store. -/
  agrees : ∀ e ∈ event req reply, (shown core).Agrees e
  shown_iff : shown core' = expected core req reply ↔ Spared core req
  lasting : Lasting core'
  separate : core'.queues.Separate

theorem served_kvSet (hlast : Lasting core) (hsep : core.queues.Separate)
    (h : setKey core key 0 value now = some (out, core')) :
    Served core core' (.kvSet key value) out.2 := by
  have hiff := shown_kvSet_iff h
  obtain ⟨m, r, m', wal, hm, hset, rfl, hseen, hqs⟩ := setKey_eq_some h
  rw [if_pos rfl] at hset
  have hdata : ∀ entry ∈ m.data, entry.2.expiresAt = none := by
    rcases seen_ensureMap_cases core with ⟨-, m₀, hblk, hm₀⟩ | ⟨-, hsame⟩
    · obtain rfl : m = m₀ := some.inj (hm.symm.trans hm₀)
      simp [hblk]
    · exact hlast m (hsame.symm.trans hm)
  refine ⟨fun e he ↦ ?_, hiff, fun m₁ hm₁ ↦ ?_, hqs ▸ hsep⟩
  · rw [event] at he
    split_ifs at he
    · cases he
      trivial
    · cases he
  · obtain rfl : m' = m₁ := some.inj (hseen.symm.trans hm₁)
    rcases set_cases m core.wal key value now with ⟨-, wal', heq⟩ | ⟨-, e, wal', heq⟩
    · cases hset.symm.trans heq
      intro entry hent
      rcases mem_cons.mp hent with rfl | hold
      · rfl
      · exact hdata entry (mem_filter.mp hold).1
    · cases hset.symm.trans heq
      exact hdata

theorem served_kvGet (hlast : Lasting core) (hsep : core.queues.Separate)
    (h : getKey core key now = some (out, core')) : Served core core' (.kvGet key) out.2 := by
  rcases getKey_eq_some h with ⟨hnone, rfl, rfl⟩ | ⟨m, hm, rfl, hm', hqs⟩
  · refine ⟨fun e he ↦ ?_, iff_of_true rfl trivial, hlast, hsep⟩
    cases he
    rw [Store.Agrees, values_shown, hnone]
    rfl
  · have hget := get_of_lasting (hlast m hm) key now
    rw [hget] at hm' ⊢
    have hval : (shown core).values key = (m.data.lookup key).map MapEntry.value := by
      rw [values_shown, hm, bind_some]
    refine ⟨fun e he ↦ ?_, iff_of_true ?_ trivial, fun m₁ hm₁ ↦ ?_, hqs ▸ hsep⟩
    · cases he
      rw [Store.Agrees, valueIn_kvReply, hval]
    · change shown core' = shown core
      rw [shown, hm', hqs, ← hm, shown]
    · exact hlast m₁ (hm.trans (hm'.symm.trans hm₁))

theorem QueueWritten.lasting (h : QueueWritten core core' name q) (hlast : Lasting core) :
    Lasting core' := by
  intro m hm
  exact hlast m (h.maps_eq ▸ hm)

section

variable (hlast : Lasting core) (hsep : core.queues.Separate)

include hlast hsep

theorem served_enqueue (h : enqueue core name payload now = some (out, core')) :
    Served core core' (.enqueue name payload) out.2 := by
  obtain ⟨q, r, q', wal, -, -, -, hwr⟩ := enqueue_eq_some hsep h
  refine ⟨fun e he ↦ ?_, shown_enqueue_iff hsep h, hwr.lasting hlast, hwr.separate⟩
  rw [event] at he
  split_ifs at he
  · cases he
    trivial
  · cases he

theorem served_dequeue
    (h : dequeue core name = some (out, core')) : Served core core' (.dequeue name) out.2 := by
  rcases dequeue_eq_some hsep h with ⟨hnone, rfl, rfl⟩ | ⟨q, hq, rfl, hwr⟩
  · have hrdy : (shown core').ready name = [] := by
      rw [ready_shown, hnone]
      rfl
    refine ⟨fun e he ↦ ?_, iff_of_true ?_ trivial, hlast, hsep⟩
    · cases he
      rw [Store.Agrees, hrdy]
      rfl
    · change shown core' = ⟨_, update _ name ((shown core').ready name).tail⟩
      rw [hrdy, tail_nil, ← hrdy, update_eq_self]
  · have hrdy : (shown core).ready name = q.ready.map QueueEntry.payload := by
      rw [ready_shown, hq, elim_some]
    refine ⟨fun e he ↦ ?_, iff_of_true ?_ trivial, hwr.lasting hlast, hwr.separate⟩
    · cases he
      rw [Store.Agrees, payloadIn_dequeueReply, hrdy]
      cases hlist : q.ready with
      | nil =>
        rw [Queue.dequeue_nil hlist]
        rfl
      | cons e rest =>
        rw [Queue.dequeue_cons hlist]
        rfl
    · change shown core' = ⟨_, update _ name ((shown core).ready name).tail⟩
      rw [hwr.shown_eq, hrdy]
      cases hlist : q.ready with
      | nil => rw [Queue.dequeue_nil hlist, hlist, map_nil, tail_nil]
      | cons e rest => rw [Queue.dequeue_cons hlist, map_cons, tail_cons]

theorem served_ack {seq : ℕ}
    (h : ackSeq core name seq = some (out, core')) : Served core core' (.ack name seq) out.2 := by
  have hnone : ∀ e ∈ event (.ack name seq) out.2, (shown core).Agrees e := by
    intro e he
    cases he
  rcases ackSeq_eq_some hsep h with rfl | ⟨q, hq, hwr⟩
  · exact ⟨hnone, iff_of_true rfl trivial, hlast, hsep⟩
  refine ⟨hnone, iff_of_true ?_ trivial, hwr.lasting hlast, hwr.separate⟩
  have hrdy : (shown core).ready name = q.ready.map QueueEntry.payload := by
    rw [ready_shown, hq, elim_some]
  change shown core' = shown core
  rw [hwr.shown_eq, Queue.ack, ← hrdy, update_eq_self]

/-- **One request.** The answer is that of the store; the store afterwards is the one the request
asks for if and only if the request is spared. -/
theorem served (h : req.serve core now = some (out, core')) : Served core core' req out.2 := by
  cases req with
  | kvSet key value => exact served_kvSet hlast hsep h
  | kvGet key => exact served_kvGet hlast hsep h
  | enqueue name payload => exact served_enqueue hlast hsep h
  | dequeue name => exact served_dequeue hlast hsep h
  | ack name seq => exact served_ack hlast hsep h

end

/-! ## Runs -/

structure Call where
  conn : ℕ
  frame : Frame
  now : ℕ
deriving DecidableEq, Repr

/-- The broker, with what the requests so far came to. -/
structure Service where
  world : World
  events : List (StoreEvent String String Bytes)

namespace Service

def start (object : ObjectStore) : Service := ⟨.start object, []⟩

def step (s : Service) (c : Call) : Option Service := do
  let req ← Request.ofFrame c.frame
  let (responses, _, world) ← handle World.prims c.conn { s.world with now := c.now } c.frame
  some ⟨world, s.events ++ responses.filterMap fun out ↦ event req out.2⟩

def SparedCall (s : Service) (c : Call) : Prop :=
  ∀ req ∈ Request.ofFrame c.frame, Spared s.world.core req

instance (s : Service) (c : Call) : Decidable (s.SparedCall c) :=
  inferInstanceAs (Decidable (∀ req ∈ Request.ofFrame c.frame, Spared s.world.core req))

variable {s s' : Service} {c : Call}

theorem step_eq_some (h : s.step c = some s') : ∃ req out core, Request.ofFrame c.frame = some req ∧
      req.serve s.world.core c.now = some (out, core) ∧ s'.world.core = core ∧
      s'.events = s.events ++ (event req out.2).toList := by
  obtain ⟨req, hreq, h⟩ := bind_eq_some_iff.mp h
  obtain ⟨⟨responses, deliveries, world⟩, hhandle, h⟩ := bind_eq_some_iff.mp h
  cases h
  rw [handle_of_request hreq, World.onCore] at hhandle
  obtain ⟨⟨out, core⟩, hsv, heq⟩ := map_eq_some_iff.mp hhandle
  cases heq
  refine ⟨req, out, core, hreq, hsv, rfl, ?_⟩
  cases he : event req out.2 with
  | none => simp [he]
  | some e => simp [he]

/-- The store is what the events leave behind. -/
structure Inv (s : Service) : Prop where
  explains : (shown s.world.core).Explains s.events
  lasting : Lasting s.world.core
  separate : s.world.core.queues.Separate

/-- The store still is what the events leave behind if and only if the request was spared. -/
theorem Inv.explains_iff (h : s.Inv) (hstep : s.step c = some s') :
    (shown s'.world.core).Explains s'.events ↔ s.SparedCall c := by
  obtain ⟨req, out, core, hreq, hsv, rfl, hevs⟩ := step_eq_some hstep
  have hsrv := served h.lasting h.separate hsv
  have hexp : (expected s.world.core req out.2).Explains s'.events := by
    rw [hevs, expected]
    cases he : event req out.2 with
    | none => simpa using h.explains
    | some e => exact h.explains.record (hsrv.agrees e he)
  constructor
  · intro hexplains req' hreq'
    obtain rfl : req = req' := some.inj (hreq.symm.trans hreq')
    exact hsrv.shown_iff.mp (hexplains.unique hexp)
  · intro hspr
    rwa [hsrv.shown_iff.mpr (hspr req hreq)]

theorem Inv.step (h : s.Inv) (hspr : s.SparedCall c) (hstep : s.step c = some s') : s'.Inv := by
  have hexplains := (h.explains_iff hstep).mpr hspr
  obtain ⟨req, out, core, -, hsv, rfl, -⟩ := step_eq_some hstep
  have hsrv := served h.lasting h.separate hsv
  exact ⟨hexplains, hsrv.lasting, hsrv.separate⟩

/-- A get and a dequeue are always answered. -/
theorem exists_step (hreq : Request.ofFrame c.frame = some req)
    (hread : (∃ key, req = .kvGet key) ∨ ∃ name, req = .dequeue name) (s : Service) :
    ∃ s', s.step c = some s' := by
  have hsv : ∃ r, req.serve s.world.core c.now = some r := by
    rcases hread with ⟨key, rfl⟩ | ⟨name, rfl⟩
    · obtain ⟨_ | ⟨id, m⟩, hfnd⟩ := exists_locate s.world.core.maps kvMap
      · exact ⟨_, by rw [Request.serve, getKey, hfnd]; rfl⟩
      · exact ⟨_, by rw [Request.serve, getKey, hfnd]; rfl⟩
    · obtain ⟨_ | ⟨id, q⟩, hfnd⟩ := exists_locate s.world.core.queues name
      · exact ⟨_, by rw [Request.serve, dequeue, hfnd]; rfl⟩
      · exact ⟨_, by rw [Request.serve, dequeue, hfnd]; rfl⟩
  obtain ⟨⟨out, core⟩, hsv⟩ := hsv
  rw [step, hreq]
  change ∃ s', (handle World.prims c.conn { s.world with now := c.now } c.frame).bind _ = some s'
  rw [handle_of_request hreq, World.onCore]
  change ∃ s', ((req.serve s.world.core c.now).map _).bind _ = some s'
  rw [hsv]
  exact ⟨_, rfl⟩

/-- **Keys and queues.** As long as every request is spared, the broker answers as a store of values
and queues: a get returns the value set last, and the dequeues of a name what was enqueued, in
order. Every get and dequeue is answered. The first request that is not spared leaves something else
than its history does. -/
theorem store_answers {object : ObjectStore} {calls : List Call} {s : Service}
    (hrun : Steps step SparedCall (start object) calls s) :
    Store.Faithful s.events ∧
      (∀ key, (shown s.world.core).values key = (Store.puts key s.events).getLast?) ∧
      (∀ name, Store.pops name s.events ++ (shown s.world.core).ready name =
        Store.pushes name s.events) ∧
      (∀ c req, Request.ofFrame c.frame = some req →
        ((∃ key, req = .kvGet key) ∨ ∃ name, req = .dequeue name) →
        ∃ s', s.step c = some s') ∧
      ∀ c s', s.step c = some s' → ((shown s'.world.core).Explains s'.events ↔ s.SparedCall c) := by
  have hinv := hrun.invariant Inv (fun _ _ _ h hok hstep ↦ h.step hok hstep)
    ⟨⟨.nil, fun _ ↦ rfl, fun _ ↦ rfl⟩, (by rintro m ⟨⟩), .new⟩
  exact ⟨hinv.explains.faithful, hinv.explains.values_eq, hinv.explains.pops_append,
    fun c req hreq hread ↦ exists_step hreq hread s, fun c s' hstep ↦ hinv.explains_iff hstep⟩

/-- Two connections share a key and a queue that is emptied before it is filled again. -/
theorem store_answers_alternating : ∃ s, Steps step SparedCall (start .empty)
        [⟨0, (ClientOp.kvSet "k" 0 [1]).frame 1, 5⟩, ⟨1, (ClientOp.kvSet "k" 0 [2]).frame 1, 6⟩,
          ⟨0, (ClientOp.kvGet "k").frame 2, 7⟩, ⟨0, (ClientOp.enqueue "q" [3]).frame 3, 8⟩,
          ⟨1, (ClientOp.dequeue "q").frame 2, 9⟩, ⟨1, (ClientOp.enqueue "q" [4]).frame 3, 10⟩,
          ⟨0, (ClientOp.dequeue "q").frame 4, 11⟩] s ∧
      s.events = [.put "k" [1], .put "k" [2], .got "k" (some [2]), .pushed "q" [3],
        .popped "q" (some [3]), .pushed "q" [4], .popped "q" (some [4])] ∧
      Store.Faithful s.events := by
  refine exists_steps_of_isSome (by decide +kernel) fun hrun ↦ ⟨by decide +kernel, ?_⟩
  exact (store_answers hrun).1

/-- Setting `b` makes `a` disappear, and enqueuing a second message drops the first. -/
theorem second_write_loses_first : (∃ s, Steps step (fun _ _ ↦ True) (start .empty)
        [⟨0, (ClientOp.kvSet "a" 0 [1]).frame 1, 5⟩, ⟨0, (ClientOp.kvSet "b" 0 [2]).frame 2, 6⟩,
          ⟨0, (ClientOp.kvGet "a").frame 3, 7⟩] s ∧
      s.events = [.put "a" [1], .put "b" [2], .got "a" none] ∧ ¬Store.Faithful s.events) ∧
    ∃ s, Steps step (fun _ _ ↦ True) (start .empty)
        [⟨0, (ClientOp.enqueue "q" [1]).frame 1, 5⟩, ⟨0, (ClientOp.enqueue "q" [2]).frame 2, 6⟩,
          ⟨0, (ClientOp.dequeue "q").frame 3, 7⟩] s ∧
      s.events = [.pushed "q" [1], .pushed "q" [2], .popped "q" (some [2])] ∧
      ¬Store.Faithful s.events := by
  constructor
  · refine exists_steps_of_isSome (by decide +kernel) fun _ ↦
      ⟨by decide +kernel, fun hfaithful ↦ ?_⟩
    have hcalled := hfaithful [.put "a" [1], .put "b" [2]] (.got "a" none) [] (by decide +kernel)
    rw [Store.Called] at hcalled
    exact absurd hcalled (by decide)
  · refine exists_steps_of_isSome (by decide +kernel) fun _ ↦
      ⟨by decide +kernel, fun hfaithful ↦ ?_⟩
    have hcalled := hfaithful [.pushed "q" [1], .pushed "q" [2]] (.popped "q" (some [2])) []
      (by decide +kernel)
    exact absurd hcalled.1 (by decide)

end Service

end Synapse.Native
