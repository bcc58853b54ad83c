import Synapse.Engine.Core
import Synapse.Resp.Codec
import Synapse.Routing.Router

/-!
# The RESP broker

The Redis commands over the core primitives: keys live in the map `kv` of the tenant `redis`, a
stream is a log of that tenant, and pub/sub goes through the topic router, with one entry per
connection id. A command runs as one step; `now` is the clock it reads. The handles that a command
takes and drops again are not counted.

`to_uppercase` is Unicode's, which is not modelled: `upper` stands for it. The numbers of a range
are `u64`, and their arithmetic wraps, as in a release build.
-/

namespace Synapse.Resp

namespace Value

def ok : Value := simpleString "OK"

def text (s : String) : Value := bulkString (asBytes s)

end Value

def tenant : String := "redis"

def kvMap : String := "kv"

def engineError (e : EngineError) : Value := .error ("ERR " ++ e.display)

def wrongArguments (command : String) : Value :=
  .error ("ERR wrong number of arguments for '" ++ command ++ "'")

def arg (cmd : List Value) (i : ℕ) : Option String := cmd[i]?.bind Value.asStr

def parseU64 (s : String) : Option ℕ := (Decimal.unsigned s.toList).filter (· < 2 ^ 64)

/-! ## Keys -/

def kv (core : SynapseCore) : Except Value (ℕ × Map) × SynapseCore :=
  match SynapseCore.locate core.maps tenant kvMap with
  | .ok (some m) => (.ok m, core)
  | _ =>
    match core.createMap tenant kvMap with
    | (.error e, core) => (.error (engineError e), core)
    | (.ok _, core) =>
      match SynapseCore.locate core.maps tenant kvMap with
      | .ok (some m) => (.ok m, core)
      -- the map has just been created
      | .ok none => (.error (engineError (.notFound "map")), core)
      | .error e => (.error (engineError e), core)

def withKv (core : SynapseCore) (act : SynapseCore → ℕ → Map → Value × SynapseCore) :
    Value × SynapseCore :=
  match kv core with
  | (.error e, core) => (e, core)
  | (.ok (id, m), core) => act core id m

def execGet (core : SynapseCore) (cmd : List Value) (now : ℕ) : Value × SynapseCore :=
  match arg cmd 1 with
  | none => (wrongArguments "get", core)
  | some key =>
    withKv core fun core id m ↦
      let (value, m) := m.get key now
      (value.elim .nullBulk .bulkString, { core with maps := core.maps.write id m })

/-- The time to live in the options of `SET`, in milliseconds; `none` is an invalid `EX`. The
last `EX` counts, and other options are skipped. -/
def parseTtl (upper : String → String) : List Value → Option ℕ → Option (Option ℕ)
  | [], ttl => some ttl
  | [opt], ttl => if upper (opt.asStr.getD "") = "EX" then none else some ttl
  | opt :: value :: rest, ttl =>
    if upper (opt.asStr.getD "") = "EX" then do
      let secs ← value.asStr.bind parseU64
      parseTtl upper rest (some (secs * 1000))
    else parseTtl upper (value :: rest) ttl

def execSet (upper : String → String) (core : SynapseCore) (cmd : List Value) (now : ℕ) :
    Value × SynapseCore :=
  match arg cmd 1, cmd[2]? with
  | some key, some value =>
    match parseTtl upper (cmd.drop 3) none, value with
    -- the options are read before the type of the value is looked at
    | none, _ => (.error "ERR invalid EX value", core)
    | some ttl, .bulkString payload =>
      withKv core fun core id m ↦
        match core.set id m key payload ttl now with
        | (.ok _, core) => (.ok, core)
        | (.error e, core) => (engineError e, core)
    | some _, _ => (.error "ERR value must be a bulk string", core)
  | _, _ => (wrongArguments "set", core)

/-- Count the keys for which an operation on the map answers yes; what is not text is skipped. -/
def countKeys (act : Map → String → Bool × Map) : List Value → Map → ℕ → ℕ × Map
  | [], m, count => (count, m)
  | c :: cs, m, count =>
    match c.asStr with
    | none => countKeys act cs m count
    | some key =>
      let (hit, m) := act m key
      countKeys act cs m (if hit then count + 1 else count)

/-- `DEL` and `EXISTS` differ in what they do with a key. -/
def execCount (act : Map → String → Bool × Map) (core : SynapseCore) (cmd : List Value) :
    Value × SynapseCore :=
  withKv core fun core id m ↦
    let (count, m) := countKeys act (cmd.drop 1) m 0
    (.integer (.ofNat count), { core with maps := core.maps.write id m })

def execDel (core : SynapseCore) (cmd : List Value) : Value × SynapseCore :=
  execCount Map.delete core cmd

def execExists (core : SynapseCore) (cmd : List Value) (now : ℕ) : Value × SynapseCore :=
  execCount (fun m key ↦ ((m.get key now).1.isSome, (m.get key now).2)) core cmd

/-! ## Streams -/

/-- The bytes of a bulk string; anything else counts as empty. -/
def bulkOf : Value → Bytes
  | .bulkString b => b
  | _ => []

/-- Field and value pairs as lines; a field without a value is dropped. -/
def streamPayload : List Value → Bytes
  | field :: value :: rest =>
    asBytes (field.asStr.getD "") ++ 0 :: (bulkOf value ++ 0x0A :: streamPayload rest)
  | _ => []

/-- The log of a stream, created if it is missing. -/
def ensureLog (core : SynapseCore) (key : String) : EngineResult Unit × SynapseCore :=
  match core.getLog tenant key with
  | .ok (some _) => (.ok (), core)
  -- the source unwraps the lookup, which cannot fail: `redis` is a valid tenant
  | _ =>
    match core.createLog tenant key with
    | (.error e, core) => (.error e, core)
    | (.ok _, core) => (.ok (), core)

def execXadd (core : SynapseCore) (cmd : List Value) (now : ℕ) : Value × SynapseCore :=
  match arg cmd 1, cmd[2]? with
  | some key, some _ =>
    match ensureLog core key with
    | (.error e, core) => (engineError e, core)
    | (.ok _, core) =>
      match core.logAppend tenant key (streamPayload (cmd.drop 3)) now with
      | (.ok offset, core) => (.text (toString offset), core)
      | (.error e, core) => (engineError e, core)
  | _, _ => (wrongArguments "xadd", core)

/-- The number of records asked for, in wrapping `u64` arithmetic. -/
def rangeCount (start stop : ℕ) : ℕ := (stop + 2 ^ 64 - start + 1) % 2 ^ 64

def rangeEntry (rec : Record) : Value :=
  .array [.text (toString rec.offset), .bulkString rec.payload]

def execXrange (core : SynapseCore) (cmd : List Value) : Value :=
  match arg cmd 1, arg cmd 2, arg cmd 3 with
  | some key, some start, some stop =>
    match SynapseCore.locate core.logs tenant key with
    | .ok (some (_, log)) =>
      -- an id that is not a number is read as the end of the range it stands at
      let first := if start = "-" then 0 else (parseU64 start).getD 0
      let last :=
        if stop = "+" then core.wal.len - 1 else (parseU64 stop).getD (2 ^ 64 - 1)
      match log.read core.wal first (rangeCount first last) with
      | .ok recs => .array (recs.map rangeEntry)
      | .error e => engineError e
    | _ => .array []
  | _, _, _ => wrongArguments "xrange"

/-! ## Commands -/

/-- `to_uppercase` on ASCII text. -/
def asciiUpper (s : String) : String := String.ofList (s.toList.map Char.toUpper)

def commandName (upper : String → String) (cmd : List Value) : String :=
  upper ((cmd.head?.bind Value.asStr).getD "")

def commandTable : Value :=
  .array (["GET", "SET", "DEL", "EXISTS", "PUBLISH", "SUBSCRIBE", "UNSUBSCRIBE", "XADD", "XRANGE",
    "PING", "ECHO", "QUIT"].map .text)

def exec (upper : String → String) (core : SynapseCore) (cmd : List Value) (now : ℕ) :
    Value × SynapseCore :=
  match commandName upper cmd with
  | "PING" => (cmd[1]?.getD (.simpleString "PONG"), core)
  | "ECHO" => (cmd[1]?.getD .nullBulk, core)
  | "COMMAND" => (commandTable, core)
  | "GET" => execGet core cmd now
  | "SET" => execSet upper core cmd now
  | "DEL" => execDel core cmd
  | "EXISTS" => execExists core cmd now
  | "XADD" => execXadd core cmd now
  | "XRANGE" => (execXrange core cmd, core)
  | "" => (.error "ERR empty command", core)
  | other => (.error ("ERR unknown command '" ++ other ++ "'"), core)

/-- Shared RESP broker state. `clients` are the connection ids with a registered sender. The counter
that ids are drawn from is left out. -/
structure RespBroker where
  core : SynapseCore
  router : TopicRouter
  clients : List String

structure Push where
  connId : String
  frame : Value

namespace RespBroker

def new (core : SynapseCore) : RespBroker := ⟨core, .new, []⟩

/-- What is sent after a change of one subscription, with the number of matching subscribers. -/
def confirmation (kind channel : String) (router : TopicRouter) : Value :=
  .array [.text kind, .text channel, .integer (.ofNat (router.route channel).length)]

/-- Change the router once per channel and confirm each change. -/
def confirmAll (kind : String) (act : TopicRouter → String → TopicRouter) :
    List String → TopicRouter → List Value × TopicRouter
  | [], router => ([], router)
  | channel :: rest, router =>
    let router := act router channel
    let (frames, last) := confirmAll kind act rest router
    (confirmation kind channel router :: frames, last)

/-- Register the channels for the connection, returning the confirmations; what is not text is
skipped. -/
def subscribe (b : RespBroker) (connId : String) (channels : List Value) :
    List Value × RespBroker :=
  let (frames, router) :=
    confirmAll "subscribe" (·.subscribe connId ·) (channels.filterMap Value.asStr) b.router
  (frames, { b with router := router, clients := connId :: b.clients.filter (· ≠ connId) })

/-- What `UNSUBSCRIBE` goes through: the channels named or, if none is, the ids of the router that
are the connection's. -/
def toRemove (b : RespBroker) (connId : String) (channels : List Value) : List String :=
  if channels.isEmpty then (b.router.subs.map Prod.fst).filter (· = connId)
  else channels.filterMap Value.asStr

/-- Remove channels, returning the confirmations. Whatever the channel, it is the one filter of
the connection that is removed. -/
def unsubscribe (b : RespBroker) (connId : String) (channels : List Value) :
    List Value × RespBroker :=
  let removed := b.toRemove connId channels
  let (frames, router) := confirmAll "unsubscribe" (fun r _ ↦ r.unsubscribe connId) removed b.router
  (frames ++ if removed.isEmpty then [.array [.text "unsubscribe", .nullBulk, .integer 0]] else [],
    { b with router := router })

def message (channel : String) (payload : Bytes) : Value :=
  .array [.text "message", .text channel, .bulkString payload]

/-- Publish to the registered subscribers whose channel is still open. -/
def publish (b : RespBroker) (isOpen : String → Bool) (channel : String) (payload : Bytes) :
    List Push :=
  (((b.router.route channel).eraseDups.filter (· ∈ b.clients)).filter isOpen).map
    fun connId ↦ ⟨connId, message channel payload⟩

/-- Drop the pub/sub registrations of a connection. -/
def disconnect (b : RespBroker) (connId : String) : RespBroker :=
  { b with router := b.router.unsubscribe connId, clients := b.clients.filter (· ≠ connId) }

end RespBroker

/-- Handle one decoded command: the reply to write at once, if there is one, the frames sent over
channels, and the broker. -/
def handleValue (upper : String → String) (b : RespBroker) (isOpen : String → Bool)
    (connId : String) (now : ℕ) (value : Value) : Option Value × List Push × RespBroker :=
  match value.asArray with
  | none | some [] => (some (.error "ERR expected a command array"), [], b)
  | some cmd =>
    match commandName upper cmd with
    | "QUIT" => (some .ok, [], b)
    | "SUBSCRIBE" =>
      let (frames, b) := b.subscribe connId (cmd.drop 1)
      (none, frames.map (⟨connId, ·⟩), b)
    | "UNSUBSCRIBE" =>
      let (frames, b) := b.unsubscribe connId (cmd.drop 1)
      (none, frames.map (⟨connId, ·⟩), b)
    | "PUBLISH" =>
      let pushed := b.publish isOpen ((arg cmd 1).getD "") ((cmd[2]?.map bulkOf).getD [])
      (some (.integer (.ofNat pushed.length)), pushed, b)
    | _ =>
      let (reply, core) := exec upper b.core cmd now
      (some reply, [], { b with core := core })

end Synapse.Resp
