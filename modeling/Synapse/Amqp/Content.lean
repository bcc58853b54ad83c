import Synapse.Lib.Pacing
import Synapse.Amqp.Server

/-!
# Content on the wire

What a connection does with well-formed traffic. `Conforms` is the grammar of frames as the program
expects them, phase by phase, with the calls they are to lead to. It also cuts the stream into jobs:
a turn of the program ends after a content body that does not complete its content, because
`read_body` reads from the socket then, and only there. So a read is one turn in the sense of
`Pacing`, and `calls_onReads_iff` says when all calls are made.

For one publish this means that all body frames have to find a read of their own (`reassembly`). For
the requests of several channels the calls are those of the channels one by one, as long as no
publish is interrupted (`channels_independent`); a frame of another channel inside a publish is
dropped or taken for the frame that is waited for (`channels_interfere`).
-/

namespace Synapse.Amqp

open Pacing List

def wires (fs : List Frame) : Bytes := fs.flatMap Frame.wire

/-- `Conforms phase fs calls jobs`: in this phase the frames are what the program waits for, and
lead to the calls. The jobs are the lengths of the parts between two incomplete contents. -/
inductive Conforms : Phase → List Frame → List Call → List ℕ → Prop
  | done : Conforms .frames [] [] []
  | method {channel classId methodId : UInt16} {args : Bytes} {fs : List Frame}
      {calls : List Call} {jobs : List ℕ}
      (hmethod : (classId, methodId) ≠ (classBasic, methodBasicPublish))
      (hfits : (Frame.method channel classId methodId args).Fits)
      (h : Conforms .frames fs calls jobs) :
    Conforms .frames (.method channel classId methodId args :: fs)
      (.method channel classId methodId args :: calls)
      (grow (Frame.method channel classId methodId args).wire.length jobs)
  | publish {channel : UInt16} {args : Bytes} {exchange routingKey : String} {fs : List Frame}
      {calls : List Call} {jobs : List ℕ}
      (hparse : parseBasicPublish args = .ok (exchange, routingKey))
      (hfits : (Frame.method channel classBasic methodBasicPublish args).Fits)
      (h : Conforms (.header channel exchange routingKey) fs calls jobs) :
    Conforms .frames (.method channel classBasic methodBasicPublish args :: fs) calls
      (grow (Frame.method channel classBasic methodBasicPublish args).wire.length jobs)
  | header {channel channel' classId weight : UInt16} {bodySize : UInt64} {properties : Bytes}
      {exchange routingKey : String} {fs : List Frame} {calls : List Call} {jobs : List ℕ}
      (hsize : 0 < bodySize.toNat)
      (hfits : (Frame.header channel' classId weight bodySize properties).Fits)
      (h : Conforms (.body channel exchange routingKey bodySize []) fs calls jobs) :
    Conforms (.header channel exchange routingKey)
      (.header channel' classId weight bodySize properties :: fs) calls
      (grow (Frame.header channel' classId weight bodySize properties).wire.length jobs)
  | empty {channel channel' classId weight : UInt16} {bodySize : UInt64} {properties : Bytes}
      {exchange routingKey : String} {fs : List Frame} {calls : List Call} {jobs : List ℕ}
      (hsize : bodySize.toNat = 0)
      (hfits : (Frame.header channel' classId weight bodySize properties).Fits)
      (h : Conforms .frames fs calls jobs) :
    Conforms (.header channel exchange routingKey)
      (.header channel' classId weight bodySize properties :: fs)
      (.publish channel exchange routingKey [] :: calls)
      (grow (Frame.header channel' classId weight bodySize properties).wire.length jobs)
  | last {channel channel' : UInt16} {exchange routingKey : String} {bodySize : UInt64}
      {body data : Bytes} {fs : List Frame} {calls : List Call} {jobs : List ℕ}
      (hmissing : body.length < bodySize.toNat) (hsize : bodySize.toNat ≤ (body ++ data).length)
      (hfits : (Frame.body channel' data).Fits) (h : Conforms .frames fs calls jobs) :
    Conforms (.body channel exchange routingKey bodySize body) (.body channel' data :: fs)
      (.publish channel exchange routingKey (body ++ data) :: calls)
      (grow (Frame.body channel' data).wire.length jobs)
  | more {channel channel' : UInt16} {exchange routingKey : String} {bodySize : UInt64}
      {body data : Bytes} {fs : List Frame} {calls : List Call} {jobs : List ℕ}
      (hmissing : (body ++ data).length < bodySize.toNat) (hfits : (Frame.body channel' data).Fits)
      (h : Conforms (.body channel exchange routingKey bodySize (body ++ data)) fs calls jobs) :
    Conforms (.body channel exchange routingKey bodySize body) (.body channel' data :: fs) calls
      ((Frame.body channel' data).wire.length :: jobs)

namespace Conforms

variable {phase : Phase} {fs : List Frame} {calls : List Call} {jobs : List ℕ}

theorem ne_closed (h : Conforms phase fs calls jobs) : phase ≠ .closed := by cases h <;> rintro ⟨⟩

theorem grow_ne_nil (k : ℕ) (jobs : List ℕ) : grow k jobs ≠ [] := by
  cases jobs <;> exact cons_ne_nil _ _

/-- Calls are to be made as long as there are frames to come. -/
theorem eq_nil_or (h : Conforms phase fs calls jobs) :
    (phase = .frames ∧ fs = [] ∧ calls = [] ∧ jobs = []) ∨ (fs ≠ [] ∧ calls ≠ [] ∧ jobs ≠ []) := by
  induction h with
  | done => exact .inl ⟨rfl, rfl, rfl, rfl⟩
  | method | empty | last =>
    exact .inr ⟨cons_ne_nil _ _, cons_ne_nil _ _, grow_ne_nil _ _⟩
  | publish hpar hfits h ih | header hsize hfits h ih =>
    obtain ⟨⟨⟩, -⟩ | ⟨-, hcl, -⟩ := ih
    exact .inr ⟨cons_ne_nil _ _, hcl, grow_ne_nil _ _⟩
  | more hmiss hfits h ih =>
    obtain ⟨⟨⟩, -⟩ | ⟨-, hcl, -⟩ := ih
    exact .inr ⟨cons_ne_nil _ _, hcl, cons_ne_nil _ _⟩

theorem le_head_grow (k : ℕ) (jobs : List ℕ) :
    ∃ size sizes, grow k jobs = size :: sizes ∧ k ≤ size := by
  cases jobs with
  | nil => exact ⟨k, [], rfl, Nat.le_refl k⟩
  | cons size sizes => exact ⟨k + size, sizes, rfl, Nat.le_add_right k size⟩

theorem fits {f : Frame} (h : Conforms phase (f :: fs) calls jobs) :
    f.Fits ∧ ∃ size sizes, jobs = size :: sizes ∧ f.wire.length ≤ size := by
  cases h with
  | method _ hfits | publish _ hfits | header _ hfits | empty _ hfits | last _ _ hfits =>
    exact ⟨hfits, le_head_grow _ _⟩
  | more _ hfits => exact ⟨hfits, _, _, rfl, le_rfl⟩

end Conforms

variable {reads : List Bytes}

section Turns

variable {σ : Type} (svc : Service σ)

/-- The broker accepts the calls, one after the other; the last one may be refused. -/
def Accepts : σ → List Call → Prop
  | _, [] => True
  | broker, call :: calls =>
    calls = [] ∨ ((svc.call broker call).1 = true ∧ Accepts (svc.call broker call).2 calls)

/-- What a connection has before it: nothing, or frames as it expects them. -/
def Awaits (s : Connection σ) (fs : List Frame) (calls : List Call) (jobs : List ℕ) : Prop :=
  (fs = [] ∧ calls = [] ∧ jobs = []) ∨ Conforms s.phase fs calls jobs ∧ Accepts svc s.broker calls

/-- A turn in the sense of `Pacing`: some of the calls are made, and the rest lies ahead. -/
def Moves (s s' : Connection σ) (future : Bytes) (calls : List Call) (jobs : List ℕ) : Prop :=
  ∃ fs' made calls' jobs', s'.buf ++ future = wires fs' ∧ calls = made ++ calls' ∧
    s'.calls = s.calls ++ made ∧ Awaits svc s' fs' calls' jobs' ∧
    Turn s.buf.length s'.buf.length jobs jobs'

variable {svc} {s s₁ s' : Connection σ} {future rest : Bytes} {f : Frame} {fs : List Frame}
  {calls : List Call} {jobs : List ℕ} {call : Call} {fuel : ℕ}

theorem Moves.after {k : ℕ} (made : List Call) (h : Moves svc s₁ s' future calls jobs)
    (hlen : s.buf.length = k + s₁.buf.length) (hcl : s₁.calls = s.calls ++ made) :
    Moves svc s s' future (made ++ calls) (grow k jobs) := by
  obtain ⟨fs', made', calls', jobs', hbuf, rfl, hmade, hawaits, hturn⟩ := h
  refine ⟨fs', made ++ made', calls', jobs', hbuf, (append_assoc ..).symm, ?_, hawaits, ?_⟩
  · rw [hmade, hcl, append_assoc]
  · rw [hlen]
    exact hturn.grow k

/-- The first frame has arrived, or it is cut. -/
theorem front_cases (hbuf : s.buf ++ future = wires (f :: fs)) :
    (∃ rest, s.buf = f.wire ++ rest ∧ rest ++ future = wires fs) ∨
      s.buf = f.wire.take s.buf.length ∧ s.buf.length < f.wire.length := by
  rw [wires, flatMap_cons] at hbuf
  rcases Nat.lt_or_ge s.buf.length f.wire.length with hlt | hge
  · have hpre : s.buf <+: f.wire := prefix_of_prefix_length_le ⟨future, hbuf⟩
      (prefix_append _ _) hlt.le
    exact .inr ⟨prefix_iff_eq_take.mp hpre, hlt⟩
  obtain ⟨rest, hrest⟩ : f.wire <+: s.buf := prefix_of_prefix_length_le
    (prefix_append _ _) ⟨future, hbuf⟩ hge
  refine .inl ⟨rest, hrest.symm, ?_⟩
  rw [← hrest, append_assoc] at hbuf
  exact append_cancel_left hbuf

theorem turn_of_none (hconf : Conforms s.phase (f :: fs) calls jobs)
    (hdec : decodeFrame s.buf = .ok none) : s.turn svc = (s, false) := by
  rw [Connection.turn]
  generalize s.phase = phase at hconf
  cases hconf with
  | method | publish => simp only [Connection.handleFrame, hdec]
  | header | empty => simp only [Connection.readHeader, hdec]
  | last hmiss => simp only [Connection.readBody, hdec, if_neg (Nat.not_le.mpr hmiss)]
  | more hmiss =>
    rw [length_append] at hmiss
    have hbef := lt_of_le_of_lt (Nat.le_add_right _ _) hmiss
    simp only [Connection.readBody, hdec, if_neg (Nat.not_le.mpr hbef)]

/-- An incomplete frame waits for the next read. -/
theorem moves_of_cut (hconf : Conforms s.phase (f :: fs) calls jobs)
    (hacc : Accepts svc s.broker calls) (hbuf : s.buf ++ future = wires (f :: fs))
    (hcut : s.buf = f.wire.take s.buf.length) (hlt : s.buf.length < f.wire.length) :
    Moves svc s (s.resume svc (fuel + 1)) future calls jobs := by
  obtain ⟨hfits, size, sizes, hjobs, hle⟩ := hconf.fits
  have hdec : decodeFrame s.buf = .ok none := by
    rw [hcut]
    exact decodeFrame_cut hfits hlt
  have hresume : s.resume svc (fuel + 1) = s := by
    rw [Connection.resume, turn_of_none hconf hdec, if_neg Bool.false_ne_true]
  rw [hresume]
  refine ⟨f :: fs, [], calls, jobs, hbuf, rfl, (append_nil _).symm, .inr ⟨hconf, hacc⟩, ?_⟩
  rw [hjobs]
  simpa only [Nat.zero_add] using Pacing.Turn.part 0 sizes (lt_of_lt_of_le hlt hle)

/-- A call from the frame loop, and what follows it. -/
theorem moves_perform {k : ℕ} (hconf : Conforms .frames fs calls jobs)
    (hacc : Accepts svc s₁.broker (call :: calls)) (hbuf : s₁.buf ++ future = wires fs)
    (hlen : s.buf.length = k + s₁.buf.length) (hcl : s₁.calls = s.calls)
    (hfuel : 2 * s₁.buf.length < fuel) (ih : ∀ {s₂ : Connection σ} {fuel : ℕ},
      Accepts svc s₂.broker calls → s₂.buf ++ future = wires fs → 2 * s₂.buf.length < fuel →
      s₂.phase = .frames → Moves svc s₂ (s₂.resume svc fuel) future calls jobs) :
    Moves svc s (if (s₁.perform svc call).2 then (s₁.perform svc call).1.resume svc fuel
      else (s₁.perform svc call).1) future (call :: calls) (grow k jobs) := by
  by_cases hacce : (svc.call s₁.broker call).1 = true
  · rw [Connection.perform_of_accepted hacce, if_pos rfl]
    have hlat : Accepts svc (svc.call s₁.broker call).2 calls := by
      rcases hacc with rfl | ⟨-, hlat⟩
      · trivial
      · exact hlat
    exact Moves.after [call] (ih hlat hbuf hfuel rfl) hlen (congrArg (· ++ [call]) hcl)
  · -- the last call is refused
    rw [Connection.perform_of_refused hacce, if_neg Bool.false_ne_true]
    obtain rfl := hacc.resolve_right fun h ↦ hacce h.1
    obtain ⟨-, rfl, -, rfl⟩ := hconf.eq_nil_or.resolve_right fun h ↦ h.2.1 rfl
    refine ⟨[], [call], [], [], hbuf, rfl, congrArg (· ++ [call]) hcl, .inl ⟨rfl, rfl, rfl⟩, ?_⟩
    rw [hlen]
    exact .whole _ k []

/-- The next frame waits for more, or it is taken off. -/
theorem moves_of_front (hconf : Conforms s.phase (f :: fs) calls jobs)
    (hacc : Accepts svc s.broker calls) (hbuf : s.buf ++ future = wires (f :: fs))
    (hfuel : 2 * s.buf.length < fuel + 1)
    (hfrt : ∀ rest, s.buf.length = f.wire.length + rest.length → 2 * rest.length + 1 < fuel →
      rest ++ future = wires fs → decodeFrame s.buf = .ok (some (f, f.wire.length)) →
      s.drain f.wire.length = { s with buf := rest } →
      Moves svc s (s.resume svc (fuel + 1)) future calls jobs) :
    Moves svc s (s.resume svc (fuel + 1)) future calls jobs := by
  obtain ⟨rest, hrest, hfut⟩ | ⟨hcut, hlt⟩ := front_cases hbuf
  · have hlen : s.buf.length = f.wire.length + rest.length := by rw [hrest, length_append]
    refine hfrt rest hlen ?_ hfut ?_ ?_
    · rw [hlen, Frame.length_wire] at hfuel
      omega
    · rw [hrest]
      exact decodeFrame_wire hconf.fits.1 rest
    · rw [Connection.drain, hrest, drop_left]
  · exact moves_of_cut hconf hacc hbuf hcut hlt

/-- **One read.** The turns that follow it are one turn in the sense of `Pacing`. -/
theorem moves_resume (hconf : Conforms s.phase fs calls jobs)
    (hacc : Accepts svc s.broker calls) (hbuf : s.buf ++ future = wires fs)
    (hfuel : 2 * s.buf.length < fuel) : Moves svc s (s.resume svc fuel) future calls jobs := by
  generalize hph : s.phase = phase at hconf
  induction hconf generalizing s fuel
  all_goals obtain ⟨fuel, rfl⟩ := Nat.exists_eq_add_one_of_ne_zero (Nat.ne_zero_of_lt hfuel)
  case done =>
    obtain ⟨hnil, -⟩ := append_eq_nil_iff.mp hbuf
    have hturn : s.turn svc = (s, false) := by
      simp only [Connection.turn, hph, Connection.handleFrame, hnil]
      rfl
    rw [Connection.resume, hturn, if_neg Bool.false_ne_true]
    exact ⟨[], [], [], [], hbuf, rfl, (append_nil _).symm, .inl ⟨rfl, rfl, rfl⟩, .idle _⟩
  case method channel classId methodId args fs calls jobs hmeth hfits h ih =>
    refine moves_of_front (hph ▸ .method hmeth hfits h) hacc hbuf hfuel
      fun rest hlen hleft hfut hdec hdrn ↦ ?_
    have hturn : s.turn svc = Connection.perform svc { s with buf := rest }
        (.method channel classId methodId args) := by
      simp only [Connection.turn, hph, Connection.handleFrame, hdec, if_neg hmeth, hdrn]
    rw [Connection.resume, hturn]
    exact moves_perform h hacc hfut hlen rfl (Nat.lt_of_succ_lt hleft) ih
  case publish channel args exchange routingKey fs calls jobs hpar hfits h ih =>
    refine moves_of_front (hph ▸ .publish hpar hfits h) hacc hbuf hfuel
      fun rest hlen hleft hfut hdec hdrn ↦ ?_
    have hturn : s.turn svc =
        ({ s with buf := rest, phase := .header channel exchange routingKey }, true) := by
      simp only [Connection.turn, hph, Connection.handleFrame, hdec, if_true, hpar, hdrn]
    rw [Connection.resume, hturn, if_pos rfl]
    exact Moves.after [] (ih hacc hfut (Nat.lt_of_succ_lt hleft) rfl) hlen (append_nil _).symm
  case header channel _ _ _ bodySize _ exchange routingKey fs calls jobs hsize hfits h ih =>
    refine moves_of_front (hph ▸ .header hsize hfits h) hacc hbuf hfuel
      fun rest hlen hleft hfut hdec hdrn ↦ ?_
    have hturn : s.turn svc = ({ s with
        buf := rest, phase := .body channel exchange routingKey bodySize [] }, true) := by
      simp only [Connection.turn, hph, Connection.readHeader, hdec, hdrn]
    rw [Connection.resume, hturn, if_pos rfl]
    exact Moves.after [] (ih hacc hfut (Nat.lt_of_succ_lt hleft) rfl) hlen (append_nil _).symm
  case empty channel _ _ _ bodySize _ exchange routingKey fs calls jobs hsize hfits h ih =>
    refine moves_of_front (hph ▸ .empty hsize hfits h) hacc hbuf hfuel
      fun rest hlen hleft hfut hdec hdrn ↦ ?_
    have hturn : s.turn svc = ({ s with
        buf := rest, phase := .body channel exchange routingKey bodySize [] }, true) := by
      simp only [Connection.turn, hph, Connection.readHeader, hdec, hdrn]
    rw [Connection.resume, hturn, if_pos rfl]
    -- a second turn, in which `read_body` sees that nothing is missing
    obtain ⟨fuel, rfl⟩ := Nat.exists_eq_add_one_of_ne_zero (Nat.ne_zero_of_lt hleft)
    have hsize' : bodySize.toNat ≤ ([] : Bytes).length := Nat.le_of_eq hsize
    have hturn₂ (s₁ : Connection σ)
        (h₁ : s₁.phase = .body channel exchange routingKey bodySize []) :
        s₁.turn svc = s₁.perform svc (.publish channel exchange routingKey []) := by
      simp only [Connection.turn, h₁, Connection.readBody, if_pos hsize']
    rw [Connection.resume, hturn₂ _ rfl]
    exact moves_perform h hacc hfut hlen rfl (Nat.lt_of_succ_lt_succ hleft) ih
  case last channel _ exchange routingKey bodySize body data fs calls jobs hmiss hsize hfits h ih =>
    refine moves_of_front (hph ▸ .last hmiss hsize hfits h) hacc hbuf hfuel
      fun rest hlen hleft hfut hdec hdrn ↦ ?_
    have hturn : s.turn svc = Connection.perform svc { s with buf := rest }
        (.publish channel exchange routingKey (body ++ data)) := by
      simp only [Connection.turn, hph, Connection.readBody, if_neg (Nat.not_le.mpr hmiss),
        hdec, if_pos hsize, hdrn]
    rw [Connection.resume, hturn]
    exact moves_perform h hacc hfut hlen rfl (Nat.lt_of_succ_lt hleft) ih
  case more channel _ exchange routingKey bodySize body data fs calls jobs hmiss hfits h ih =>
    refine moves_of_front (hph ▸ .more hmiss hfits h) hacc hbuf hfuel
      fun rest hlen hleft hfut hdec hdrn ↦ ?_
    have hbef : body.length < bodySize.toNat := by
      rw [length_append] at hmiss
      omega
    have hturn : s.turn svc = ({ s with
        buf := rest
        phase := .body channel exchange routingKey bodySize (body ++ data) }, false) := by
      simp only [Connection.turn, hph, Connection.readBody, if_neg (Nat.not_le.mpr hbef),
        hdec, if_neg (Nat.not_le.mpr hmiss), hdrn]
    rw [Connection.resume, hturn, if_neg Bool.false_ne_true]
    refine ⟨fs, [], calls, jobs, hfut, rfl, (append_nil _).symm, .inr ⟨h, hacc⟩, ?_⟩
    rw [hlen]
    exact .whole _ _ jobs

theorem Awaits.calls_eq_nil_iff (h : Awaits svc s fs calls jobs) : calls = [] ↔ jobs = [] := by
  obtain ⟨-, rfl, rfl⟩ | ⟨hconf, -⟩ := h
  · exact ⟨fun _ ↦ rfl, fun _ ↦ rfl⟩
  · obtain ⟨-, -, rfl, rfl⟩ | ⟨-, hcl, hjobs⟩ := hconf.eq_nil_or
    · exact ⟨fun _ ↦ rfl, fun _ ↦ rfl⟩
    · exact ⟨fun h ↦ absurd h hcl, fun h ↦ absurd h hjobs⟩

/-- **All reads.** All calls are made if and only if every job has its turn. -/
theorem calls_onReads_iff (h : Awaits svc s fs calls jobs)
    (hbuf : s.buf ++ reads.flatten = wires fs) (hrds : ∀ chunk ∈ reads, chunk ≠ []) :
    (s.onReads svc reads).calls = s.calls ++ calls ↔
      jobs.length ≤ handled jobs s.buf.length (reads.map List.length) := by
  -- a read is one turn of `Pacing`, and the connection after it awaits what is left of the jobs
  induction reads generalizing s fs calls jobs with
  | nil =>
    rw [Connection.onReads, foldl_nil, map_nil, handled, Nat.le_zero,
      length_eq_zero_iff, ← h.calls_eq_nil_iff, self_eq_append_right]
  | cons chunk reads ih =>
    obtain ⟨hchk, hrds⟩ := forall_mem_cons.mp hrds
    rw [flatten_cons, ← append_assoc] at hbuf
    obtain ⟨rfl, -⟩ | ⟨hconf, hacc⟩ := h
    · have hnil := (append_eq_nil_iff.mp (append_eq_nil_iff.mp hbuf).1).2
      exact absurd hnil hchk
    have hmv : Moves svc { s with buf := s.buf ++ chunk }
        (Connection.resume svc (2 * (s.buf ++ chunk).length + 2) { s with buf := s.buf ++ chunk })
        reads.flatten calls jobs :=
      moves_resume hconf hacc hbuf (Nat.lt_add_of_pos_right Nat.two_pos)
    obtain ⟨fs', made, calls', jobs', hbuf', rfl, hmade, hawaits, hturn⟩ := hmv
    rw [Connection.onReads, foldl_cons, Connection.onRead, if_neg hconf.ne_closed, if_neg hchk]
    generalize Connection.resume svc _ _ = s' at hbuf' hmade hawaits hturn ⊢
    rw [length_append] at hturn
    rw [map_cons, hturn.handled, ← ih hawaits hbuf' hrds, hmade, append_assoc]
    rfl

end Turns

/-! ## Requests -/

structure MethodRequest where
  channel : UInt16
  classId : UInt16
  methodId : UInt16
  args : Bytes
  notPublish : (classId, methodId) ≠ (classBasic, methodBasicPublish)
  fits : (Frame.method channel classId methodId args).Fits

structure PublishRequest where
  channel : UInt16
  args : Bytes
  exchange : String
  routingKey : String
  classId : UInt16
  weight : UInt16
  bodySize : UInt64
  properties : Bytes
  chunks : List Bytes
  parses : parseBasicPublish args = .ok (exchange, routingKey)
  methodFits : (Frame.method channel classBasic methodBasicPublish args).Fits
  headerFits : (Frame.header channel classId weight bodySize properties).Fits
  bodyFits : ∀ data ∈ chunks, (Frame.body channel data).Fits
  nonempty : ∀ data ∈ chunks, data ≠ []
  size : bodySize.toNat = chunks.flatten.length

namespace PublishRequest

def frames (p : PublishRequest) : List Frame :=
  .method p.channel classBasic methodBasicPublish p.args ::
    .header p.channel p.classId p.weight p.bodySize p.properties :: p.chunks.map (.body p.channel)

def call (p : PublishRequest) : Call :=
  .publish p.channel p.exchange p.routingKey p.chunks.flatten

end PublishRequest

/-- The jobs of content bodies: one ends after each of them but the last. -/
def bodyJobs (channel : UInt16) : List Bytes → List ℕ → List ℕ
  | [], later => later
  | [data], later => grow (Frame.body channel data).wire.length later
  | data :: chunks, later => (Frame.body channel data).wire.length :: bodyJobs channel chunks later

/-- The jobs of a publish and of what comes later. -/
def PublishRequest.jobs (p : PublishRequest) (later : List ℕ) : List ℕ :=
  grow (Frame.method p.channel classBasic methodBasicPublish p.args).wire.length
    (grow (Frame.header p.channel p.classId p.weight p.bodySize p.properties).wire.length
      (bodyJobs p.channel p.chunks later))

inductive Request
  | method (m : MethodRequest)
  | publish (p : PublishRequest)

namespace Request

def channel : Request → UInt16
  | method m => m.channel
  | publish p => p.channel

def frames : Request → List Frame
  | method m => [.method m.channel m.classId m.methodId m.args]
  | publish p => p.frames

def call : Request → Call
  | method m => .method m.channel m.classId m.methodId m.args
  | publish p => p.call

def jobs : Request → List ℕ → List ℕ
  | method m, later =>
    grow (Frame.method m.channel m.classId m.methodId m.args).wire.length later
  | publish p, later => p.jobs later

@[simp] theorem channel_call (r : Request) : r.call.channel = r.channel := by cases r <;> rfl

end Request

section Requests

variable {fs : List Frame} {calls : List Call} {jobs : List ℕ}

theorem conforms_bodies {channel : UInt16} {exchange routingKey : String} {bodySize : UInt64}
    {chunks : List Bytes} {body : Bytes} (hne : chunks ≠ [])
    (hfits : ∀ data ∈ chunks, (Frame.body channel data).Fits)
    (hnon : ∀ data ∈ chunks, data ≠ [])
    (hsize : bodySize.toNat = body.length + chunks.flatten.length)
    (h : Conforms .frames fs calls jobs) :
    Conforms (.body channel exchange routingKey bodySize body) (chunks.map (.body channel) ++ fs)
      (.publish channel exchange routingKey (body ++ chunks.flatten) :: calls)
      (bodyJobs channel chunks jobs) := by
  -- the body collected so far grows; the content is complete with the last chunk and not before,
  -- because no chunk is empty
  induction chunks generalizing body with
  | nil => exact absurd rfl hne
  | cons data chunks ih =>
    obtain ⟨hdata, hfits⟩ := forall_mem_cons.mp hfits
    obtain ⟨hpos, hnon⟩ := forall_mem_cons.mp hnon
    have hpos : 0 < data.length := length_pos_iff.mpr hpos
    rw [flatten_cons, length_append] at hsize
    rw [flatten_cons, ← append_assoc, map_cons, cons_append]
    cases chunks with
    | nil =>
      rw [flatten_nil, append_nil]
      rw [flatten_nil, length_nil] at hsize
      exact .last (by omega) (by rw [length_append]; omega) hdata h
    | cons data' chunks =>
      have hpos' : 0 < data'.length := length_pos_iff.mpr (hnon _ mem_cons_self)
      have hmiss : (body ++ data).length < bodySize.toNat := by
        rw [hsize, length_append, flatten_cons, length_append]
        omega
      refine .more hmiss hdata (ih (cons_ne_nil _ _) hfits hnon ?_)
      rw [hsize, length_append]
      omega

theorem conforms_publish (p : PublishRequest) (h : Conforms .frames fs calls jobs) :
    Conforms .frames (p.frames ++ fs) (p.call :: calls) (p.jobs jobs) := by
  refine .publish p.parses p.methodFits ?_
  have hsize := p.size
  have hhd := p.headerFits
  rw [PublishRequest.call]
  cases hchks : p.chunks with
  | nil =>
    rw [hchks, flatten_nil, length_nil] at hsize
    exact .empty hsize hhd h
  | cons data chunks =>
    have hne : p.chunks ≠ [] := hchks ▸ cons_ne_nil _ _
    have hpos : data ≠ [] := p.nonempty data (hchks ▸ mem_cons_self)
    have hbodies : Conforms (.body p.channel p.exchange p.routingKey p.bodySize [])
        (p.chunks.map (.body p.channel) ++ fs)
        (.publish p.channel p.exchange p.routingKey p.chunks.flatten :: calls)
        (bodyJobs p.channel p.chunks jobs) :=
      conforms_bodies hne p.bodyFits p.nonempty (by rw [hsize, length_nil, zero_add]) h
    rw [hchks] at hbodies hsize
    refine .header ?_ hhd hbodies
    rw [hsize, flatten_cons, length_append]
    have := length_pos_iff.mpr hpos
    omega

theorem conforms_requests (rs : List Request) :
    Conforms .frames (rs.flatMap Request.frames) (rs.map Request.call)
      (rs.foldr Request.jobs []) := by
  induction rs with
  | nil => exact .done
  | cons r rs ih =>
    cases r with
    | method m => exact .method m.notPublish m.fits ih
    | publish p => exact conforms_publish p ih

/-- The jobs keep the pace of the reads: at the start and after every read, no more of them are
incomplete than there are reads to come. -/
def InPace (jobs : List ℕ) (reads : List Bytes) : Prop :=
  Paced jobs.length (0 :: (totals 0 (reads.map List.length)).map (completed jobs))

instance (jobs : List ℕ) (reads : List Bytes) : Decidable (InPace jobs reads) :=
  inferInstanceAs (Decidable (Paced _ _))

variable {σ : Type} {svc : Service σ} {s : Connection σ}

/-- The calls of requests that the broker accepts. -/
theorem calls_requests_iff (hph : s.phase = .frames) (hbuf : s.buf = []) {rs : List Request}
    (hacc : Accepts svc s.broker (rs.map Request.call)) (hrds : ∀ chunk ∈ reads, chunk ≠ [])
    (hbs : reads.flatten = wires (rs.flatMap Request.frames)) :
    (s.onReads svc reads).calls = s.calls ++ rs.map Request.call ↔
      InPace (rs.foldr Request.jobs []) reads := by
  have hconf : Conforms s.phase (rs.flatMap Request.frames) (rs.map Request.call)
      (rs.foldr Request.jobs []) := by
    rw [hph]
    exact conforms_requests rs
  rw [calls_onReads_iff (.inr ⟨hconf, hacc⟩) (by rwa [hbuf]) hrds, length_le_handled_iff, hbuf]
  rfl

/-- **Reassembly.** A `basic.publish` and its content arrive at an idle connection in non-empty
reads. The broker's `publish` is called, once and with the whole content, if and only if the jobs
keep the pace of the reads. -/
theorem reassembly (svc : Service σ) (s : Connection σ) (hphase : s.phase = .frames)
    (hbuf : s.buf = []) (p : PublishRequest) (reads : List Bytes)
    (hreads : ∀ chunk ∈ reads, chunk ≠ []) (hbytes : reads.flatten = wires p.frames) :
    (s.onReads svc reads).calls =
        s.calls ++ [.publish p.channel p.exchange p.routingKey p.chunks.flatten] ↔
      InPace (p.jobs []) reads := by
  have hframes : wires ([Request.publish p].flatMap Request.frames) = wires p.frames := by
    rw [flatMap_singleton]
    rfl
  have haccepts : Accepts svc s.broker ([Request.publish p].map Request.call) := .inl rfl
  exact calls_requests_iff hphase hbuf haccepts hreads (hbytes.trans hframes.symm)

def lenient : Service Unit := ⟨id, fun _ _ _ _ _ ↦ (true, ()), fun _ _ _ _ ↦ (true, ()), id⟩

def idle : Connection Unit := ⟨(), [], .frames, []⟩

/-- A publish to the queue `q` on channel 1, with the content in two pieces. -/
def twoBodies : PublishRequest where
  channel := 1
  args := [0, 0, 0, 0, 0, 0, 0, 0, 0, 1, 0x71, 0]
  exchange := ""
  routingKey := "q"
  classId := classBasic
  weight := 0
  bodySize := 2
  properties := [0, 0]
  chunks := [[1], [2]]
  parses := by decide +kernel
  methodFits := by decide
  headerFits := by decide
  bodyFits := by decide
  nonempty := by decide
  size := by decide

/-- The second content body has a read of its own. -/
theorem reassembly_two_reads : (idle.onReads lenient
        [wires (twoBodies.frames.take 3), wires (twoBodies.frames.drop 3)]).calls =
      [.publish 1 "" "q" [1, 2]] :=
  (reassembly lenient idle rfl rfl twoBodies
    [wires (twoBodies.frames.take 3), wires (twoBodies.frames.drop 3)] (by decide)
    (by decide)).mpr (by decide)

/-- **Everything in one read.** The content is complete in the buffer, and the publish is not
made. -/
theorem reassembly_one_read : (idle.onReads lenient [wires twoBodies.frames]).calls = [] ∧
      (idle.onReads lenient [wires twoBodies.frames]).phase = .body 1 "" "q" 2 [1] ∧
      (idle.onReads lenient [wires twoBodies.frames]).buf = (Frame.body 1 [2]).wire := by
  decide +kernel

/-- **Channels.** Two sequences with the same requests on each channel, in the same order and with
reads that keep their pace, lead to the same calls on each channel, if the broker refuses none of
them, or only the last one. -/
theorem channels_independent (svc : Service σ) (s : Connection σ) (hphase : s.phase = .frames)
    (hbuf : s.buf = []) (rs rs' : List Request)
    (hsame : ∀ channel, rs.filter (·.channel = channel) = rs'.filter (·.channel = channel))
    (haccepts : Accepts svc s.broker (rs.map Request.call))
    (haccepts' : Accepts svc s.broker (rs'.map Request.call)) (reads reads' : List Bytes)
    (hreads : ∀ chunk ∈ reads, chunk ≠ []) (hreads' : ∀ chunk ∈ reads', chunk ≠ [])
    (hbytes : reads.flatten = wires (rs.flatMap Request.frames))
    (hbytes' : reads'.flatten = wires (rs'.flatMap Request.frames))
    (hpace : InPace (rs.foldr Request.jobs []) reads)
    (hpace' : InPace (rs'.foldr Request.jobs []) reads') (channel : UInt16) :
    (s.onReads svc reads).calls.filter (·.channel = channel) =
        (s.calls.filter (·.channel = channel)) ++
          (rs.filter (·.channel = channel)).map Request.call ∧
      (s.onReads svc reads).calls.filter (·.channel = channel) =
        (s.onReads svc reads').calls.filter (·.channel = channel) := by
  have hfilter : ∀ rs : List Request, (rs.map Request.call).filter (·.channel = channel) =
      (rs.filter (·.channel = channel)).map Request.call := by
    intro rs
    rw [filter_map]
    simp only [Function.comp_def, Request.channel_call]
  rw [(calls_requests_iff hphase hbuf haccepts hreads hbytes).mpr hpace,
    (calls_requests_iff hphase hbuf haccepts' hreads' hbytes').mpr hpace', filter_append,
    filter_append, hfilter, hfilter, hsame]
  exact ⟨rfl, rfl⟩

def onChannelTwo : PublishRequest where
  channel := 2
  args := [0, 0, 0, 0, 0, 0, 0, 0, 0, 1, 0x70, 0]
  exchange := ""
  routingKey := "p"
  classId := classBasic
  weight := 0
  bodySize := 2
  properties := [0, 0]
  chunks := [[9, 9]]
  parses := by decide +kernel
  methodFits := by decide
  headerFits := by decide
  bodyFits := by decide
  nonempty := by decide
  size := by decide

theorem filter_swap (channel : UInt16) :
    [Request.publish twoBodies, .publish onChannelTwo].filter (·.channel = channel) =
      [Request.publish onChannelTwo, .publish twoBodies].filter (·.channel = channel) := by
  by_cases hone : channel = 1
  · subst hone
    rfl
  have hskip : ∀ rs : List Request, (Request.publish twoBodies :: rs).filter (·.channel = channel) =
        rs.filter (·.channel = channel) := fun rs ↦
    filter_cons_of_neg fun h ↦ hone (of_decide_eq_true h).symm
  rw [hskip, filter_cons, filter_cons, hskip]

/-- Two publishes in either order, with one read for every frame. -/
theorem channels_independent_swap :
    ((idle.onReads lenient ((twoBodies.frames ++ onChannelTwo.frames).map Frame.wire)).calls.filter
      (·.channel = 2) = [.publish 2 "" "p" [9, 9]]) ∧
    (idle.onReads lenient ((twoBodies.frames ++ onChannelTwo.frames).map Frame.wire)).calls.filter
      (·.channel = 2) =
    (idle.onReads lenient ((onChannelTwo.frames ++ twoBodies.frames).map Frame.wire)).calls.filter
      (·.channel = 2) :=
  channels_independent lenient idle rfl rfl [.publish twoBodies, .publish onChannelTwo]
    [.publish onChannelTwo, .publish twoBodies] filter_swap (.inr ⟨rfl, .inl rfl⟩)
    (.inr ⟨rfl, .inl rfl⟩) ((twoBodies.frames ++ onChannelTwo.frames).map Frame.wire)
    ((onChannelTwo.frames ++ twoBodies.frames).map Frame.wire) (by decide) (by decide) (by decide)
    (by decide) (by decide) (by decide) 2

/-- The frames of channel 2 come after the method of channel 1. -/
def interleaved : List Frame :=
  twoBodies.frames.take 1 ++ onChannelTwo.frames ++ twoBodies.frames.drop 1

/-- **Channels interfere.** The method of channel 2 is dropped, its header and its body are taken
for those of channel 1, and what channel 1 sends then is dropped. -/
theorem channels_interfere : interleaved.filter (·.channel = 1) = twoBodies.frames ∧
    interleaved.filter (·.channel = 2) = onChannelTwo.frames ∧
    (idle.onReads lenient (interleaved.map Frame.wire)).calls = [.publish 1 "" "q" [9, 9]] ∧
    (idle.onReads lenient ((twoBodies.frames ++ onChannelTwo.frames).map Frame.wire)).calls =
      [.publish 1 "" "q" [1, 2], .publish 2 "" "p" [9, 9]] := by
  decide +kernel

end Requests

end Synapse.Amqp
