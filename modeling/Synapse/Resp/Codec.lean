import Synapse.Basic
import Synapse.Lib.Decimal
import Synapse.Routing.Topic

/-!
# The RESP codec

`decode_value` reads one value from the front of a buffer and answers in three ways: the value and
its length, nothing yet, or an error. The recursion through arrays is on the rest of the buffer,
which is always shorter, because an element starts after the line with the count; the model
counts the depth and `decodeValue_eq` gives the recursion of the source back.

The capacity that the array case reserves for its items is not modelled.
-/

namespace Synapse.Resp

inductive Value
  | simpleString (s : String)
  | error (s : String)
  | integer (n : Int64)
  | bulkString (b : Bytes)
  | nullBulk
  | array (items : List Value)
  | nullArray
deriving Repr

inductive RespError
  | incomplete
  | malformed (reason : String)
deriving DecidableEq, Repr

namespace Value

def asArray : Value → Option (List Value)
  | array items => some items
  | _ => none

def asStr : Value → Option String
  | bulkString b => fromUtf8 b
  | simpleString s => some s
  | _ => none

end Value

/-! ## Encoding -/

def crlf : Bytes := [0x0D, 0x0A]

/-- A line: the marker, the text and the terminator. -/
def encodeLine (marker : UInt8) (s : String) : Bytes := marker :: (asBytes s ++ crlf)

mutual

def encodeValue : Value → Bytes
  | .simpleString s => encodeLine 0x2B s
  | .error s => encodeLine 0x2D s
  | .integer n => encodeLine 0x3A (toString n.toInt)
  | .bulkString b => encodeLine 0x24 (toString b.length) ++ (b ++ crlf)
  | .nullBulk => encodeLine 0x24 "-1"
  | .array items => encodeLine 0x2A (toString items.length) ++ encodeItems items
  | .nullArray => encodeLine 0x2A "-1"

def encodeItems : List Value → Bytes
  | [] => []
  | v :: vs => encodeValue v ++ encodeItems vs

end

/-! ## Decoding -/

/-- A result, nothing yet (`failure`), or an error. -/
abbrev Decode := OptionT (Except RespError)

def reject {α : Type} (e : RespError) : Decode α := OptionT.mk (.error e)

/-- The position of the first CR LF of a buffer that starts at position `i`. -/
def findCrlf : Bytes → ℕ → Option ℕ
  | a :: b :: rest, i => if a = 0x0D ∧ b = 0x0A then some i else findCrlf (b :: rest) (i + 1)
  | _, _ => none

/-- The end of the line that starts at `start`, and the start of the next one. -/
def readLine (buf : Bytes) (start : ℕ) : Decode (ℕ × ℕ) :=
  match findCrlf (buf.drop start) start with
  | some pos => pure (pos, pos + 2)
  | none => if start < buf.length then failure else reject .incomplete

/-- A value that has to be there: its absence is malformed input. -/
def expect {α : Type} (reason : String) : Option α → Decode α
  | some a => pure a
  | none => reject (.malformed reason)

def lineText (buf : Bytes) : Decode (String × ℕ) := do
  let (stop, next) ← readLine buf 1
  let s ← expect "bad utf8" (fromUtf8 ((buf.take stop).drop 1))
  return (s, next)

def parseI64 (s : String) : Option Int64 :=
  (Decimal.signed s.toList).bind fun n ↦
    if Int64.minValue.toInt ≤ n ∧ n ≤ Int64.maxValue.toInt then some (Int64.ofInt n) else none

/-- The bulk string of `len` bytes at `start`. -/
def decodeBulk (buf : Bytes) (start len : ℕ) : Decode (Value × ℕ) :=
  let stop := start + len
  if buf.length < stop + 2 then failure
  else if (buf.drop stop).take 2 ≠ crlf then
    reject (.malformed "bulk string not CRLF terminated")
  else pure (.bulkString ((buf.take stop).drop start), stop + 2)

/-- `count` values one after the other, from position `pos` on. -/
def decodeItems (decode : Bytes → Decode (Value × ℕ)) (buf : Bytes) :
    ℕ → ℕ → Decode (List Value × ℕ)
  | 0, pos => pure ([], pos)
  | count + 1, pos => do
    let (v, consumed) ← decode (buf.drop pos)
    let (vs, pos) ← decodeItems decode buf count (pos + consumed)
    return (v :: vs, pos)

/-- One value from the front of the buffer, its elements read by `decode`. -/
def decodeWith (decode : Bytes → Decode (Value × ℕ)) : Bytes → Decode (Value × ℕ)
  | [] => failure
  | marker :: rest =>
    let buf := marker :: rest
    if marker = 0x2B then do
      let (s, next) ← lineText buf
      return (.simpleString s, next)
    else if marker = 0x2D then do
      let (s, next) ← lineText buf
      return (.error s, next)
    else if marker = 0x3A then do
      let (s, next) ← lineText buf
      let n ← expect "bad integer" (parseI64 s)
      return (.integer n, next)
    else if marker = 0x24 then do
      let (s, next) ← lineText buf
      let len ← expect "bad bulk length" (parseI64 s)
      if len < 0 then return (.nullBulk, next)
      else decodeBulk buf next len.toInt.toNat
    else if marker = 0x2A then do
      let (s, next) ← lineText buf
      let count ← expect "bad array count" (parseI64 s)
      if count < 0 then return (.nullArray, next)
      else do
        let (items, pos) ← decodeItems decode buf count.toInt.toNat next
        return (.array items, pos)
    else reject (.malformed "unknown RESP marker")

/-- Decoding with a bound on the depth of the arrays. -/
def decodeFuel : ℕ → Bytes → Decode (Value × ℕ)
  | 0 => fun _ ↦ failure
  | fuel + 1 => decodeWith (decodeFuel fuel)

def decodeValue (buf : Bytes) : Decode (Value × ℕ) := decodeFuel (buf.length + 1) buf

end Synapse.Resp
