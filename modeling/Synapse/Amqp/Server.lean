import Synapse.Amqp.Codec

/-!
# The AMQP connection loop

`handle_connection` reads the protocol header and then frames. Methods go to the broker one by one.
A `basic.publish` is followed by a content header and content bodies, and these are read inline:
`read_header` and `read_body` take over until the content is complete.

`Phase` says where in this program a connection waits for the socket. `turn` is the program from one
attempt to decode a frame to the next one, or to the next read; `resume` takes turns until the
program has to read, and `onRead` is one read.

The frame loop decodes frames as long as there are any. `read_header` and `read_body` look at one
frame and then read from the socket, also when the buffer holds another frame. Neither of them looks
at the channel of a frame, and what is not the frame they wait for is dropped.

The broker is any service that accepts or refuses calls. Deliveries to this connection are written
by the other branch of the `select!` and are not part of the model.
-/

namespace Synapse.Amqp

/-- What a connection uses of the broker. A call says whether it was accepted. -/
structure Service (σ : Type) where
  connect : σ → σ
  handleMethod : σ → UInt16 → UInt16 → UInt16 → Bytes → Bool × σ
  publish : σ → String → String → Bytes → Bool × σ
  disconnect : σ → σ

/-- A call that a frame of the client leads to. `publish` is not told the channel; it is noted for
the record. -/
inductive Call
  | method (channel classId methodId : UInt16) (args : Bytes)
  | publish (channel : UInt16) (exchange routingKey : String) (body : Bytes)
deriving DecidableEq, Repr

def Call.channel : Call → UInt16
  | method channel .. => channel
  | publish channel .. => channel

def Service.call {σ : Type} (svc : Service σ) (broker : σ) : Call → Bool × σ
  | .method channel classId methodId args => svc.handleMethod broker channel classId methodId args
  | .publish _ exchange routingKey body => svc.publish broker exchange routingKey body

/-- Where the program waits for the socket. -/
inductive Phase
  | handshake
  | frames
  | header (channel : UInt16) (exchange routingKey : String)
  | body (channel : UInt16) (exchange routingKey : String) (bodySize : UInt64) (body : Bytes)
  | closed
deriving DecidableEq, Repr

/-- A connection: the broker, the bytes not yet decoded, and the calls made. -/
structure Connection (σ : Type) where
  broker : σ
  buf : Bytes
  phase : Phase
  calls : List Call

section Loop

variable {σ : Type} (svc : Service σ)

namespace Connection

def new (broker : σ) : Connection σ := ⟨broker, [], .handshake, []⟩

def drain (s : Connection σ) (consumed : ℕ) : Connection σ :=
  { s with buf := s.buf.drop consumed }

def close (s : Connection σ) : Connection σ :=
  { s with broker := svc.disconnect s.broker, phase := .closed }

/-- A call to the broker from the frame loop. A refusal ends the connection. -/
def perform (s : Connection σ) (call : Call) : Connection σ × Bool :=
  let (accepted, broker) := svc.call s.broker call
  let s := { s with broker := broker, calls := s.calls ++ [call] }
  if accepted then ({ s with phase := .frames }, true) else (s.close svc, false)

/-- The protocol header. A wrong one ends the connection before it is registered. -/
def readProtocolHeader (s : Connection σ) : Connection σ × Bool :=
  if protocolHeader.length ≤ s.buf.length then
    if s.buf.take protocolHeader.length ≠ protocolHeader then ({ s with phase := .closed }, false)
    else
      ({ s.drain protocolHeader.length with broker := svc.connect s.broker, phase := .frames },
        false)
  else (s, false)

def handleFrame (s : Connection σ) : Connection σ × Bool :=
  match decodeFrame s.buf with
  | .error _ => (s.close svc, false)
  | .ok none => (s, false)
  | .ok (some (frame, consumed)) =>
    match frame with
    | .method channel classId methodId args =>
      if (classId, methodId) = (classBasic, methodBasicPublish) then
        match parseBasicPublish args with
        | .error _ => ((s.drain consumed).close svc, false)
        | .ok (exchange, routingKey) =>
          ({ s.drain consumed with phase := .header channel exchange routingKey }, true)
      else (s.drain consumed).perform svc (.method channel classId methodId args)
    -- heartbeats, and stray headers and bodies
    | _ => (s.drain consumed, true)

/-- One round of `read_header`; the properties are skipped. -/
def readHeader (s : Connection σ) (channel : UInt16) (exchange routingKey : String) :
    Connection σ × Bool :=
  match decodeFrame s.buf with
  | .error _ => (s.close svc, false)
  | .ok none => (s, false)
  | .ok (some (frame, consumed)) =>
    match frame with
    -- the channel of the content header is not compared with that of the method
    | .header _ _ _ bodySize _ =>
      ({ s.drain consumed with phase := .body channel exchange routingKey bodySize [] }, true)
    | _ => (s.drain consumed, false)

def readBody (s : Connection σ) (channel : UInt16) (exchange routingKey : String)
    (bodySize : UInt64) (body : Bytes) : Connection σ × Bool :=
  if bodySize.toNat ≤ body.length then s.perform svc (.publish channel exchange routingKey body)
  else
    match decodeFrame s.buf with
    | .error _ => (s.close svc, false)
    | .ok none => (s, false)
    | .ok (some (frame, consumed)) =>
      match frame with
      -- nor is that of a content body
      | .body _ data =>
        if bodySize.toNat ≤ (body ++ data).length then
          (s.drain consumed).perform svc (.publish channel exchange routingKey (body ++ data))
        else
          -- `read_body` reads from the socket after each body, even if the next one is buffered
          ({ s.drain consumed with
            phase := .body channel exchange routingKey bodySize (body ++ data) }, false)
      | _ => (s.drain consumed, false)

/-- Up to the next frame, or the next read. -/
def turn (s : Connection σ) : Connection σ × Bool :=
  match s.phase with
  | .handshake => s.readProtocolHeader svc
  | .frames => s.handleFrame svc
  | .header channel exchange routingKey => s.readHeader svc channel exchange routingKey
  | .body channel exchange routingKey bodySize body =>
    s.readBody svc channel exchange routingKey bodySize body
  | .closed => (s, false)

/-- Take turns until the program reads from the socket. -/
def resume : ℕ → Connection σ → Connection σ
  | 0, s => s
  | fuel + 1, s => if (s.turn svc).2 then resume fuel (s.turn svc).1 else (s.turn svc).1

def endOfStream (s : Connection σ) : Connection σ :=
  match s.phase with
  | .handshake => { s with phase := .closed }
  | _ => s.close svc

/-- One read. An empty one is the end of the stream. The number of turns is more than the program
takes (`resume_reads`). -/
def onRead (s : Connection σ) (chunk : Bytes) : Connection σ :=
  if s.phase = .closed then s
  else if chunk = [] then s.endOfStream svc
  else resume svc (2 * (s.buf ++ chunk).length + 2) { s with buf := s.buf ++ chunk }

def onReads (s : Connection σ) (reads : List Bytes) : Connection σ := reads.foldl (onRead svc) s

variable {svc} {s : Connection σ} {call : Call} {fuel : ℕ} {channel : UInt16}

theorem perform_of_accepted (h : (svc.call s.broker call).1 = true) : s.perform svc call =
    (⟨(svc.call s.broker call).2, s.buf, .frames, s.calls ++ [call]⟩, true) := by
  simp only [perform, h, if_true]

theorem perform_of_refused (h : (svc.call s.broker call).1 ≠ true) : s.perform svc call =
    (⟨svc.disconnect (svc.call s.broker call).2, s.buf, .closed, s.calls ++ [call]⟩, false) := by
  simp only [perform, if_neg h]
  rfl

end Connection

end Loop

end Synapse.Amqp
