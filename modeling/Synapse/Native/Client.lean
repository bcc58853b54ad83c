import Synapse.Native.Broker

/-!
# Operations of the client library

What the client library puts on the wire for each of its operations. A name is preceded by its
length in two bytes; a longer length is cut off, as `len() as u16` does. The library sends one frame
for an operation and takes the next frame that arrives for the response.
-/

namespace Synapse.Native

open ByteCode List

def encodeStr (s : String) : Bytes := beBytes 2 (asBytes s).length ++ asBytes s

/-- `action || name_len(2) || name || rest`. -/
def encodeNamed (action : UInt8) (name : String) (rest : Bytes) : Bytes :=
  action :: (encodeStr name ++ rest)

/-- `key_len(2) || key || ttl_millis(8) || value`. -/
def encodeKv (key : String) (ttl : ℕ) (value : Bytes) : Bytes :=
  encodeStr key ++ (beBytes 8 ttl ++ value)

inductive ClientOp
  | kvSet (key : String) (ttl : ℕ) (value : Bytes)
  | kvGet (key : String)
  | enqueue (name : String) (payload : Bytes)
  | dequeue (name : String)
  | ack (name : String) (seq : ℕ)
  | subscribe (filter : String)
  | publish (topic : String) (payload : Bytes)
  | logCreate (topic : String) (partitions : ℕ)
  | logAppend (topic : String) (payload : Bytes)
  | logConsume (topic group : String) (max : ℕ)
deriving DecidableEq, Repr

def ClientOp.request : ClientOp → Out
  | .kvSet key ttl value => (.kvSet, encodeKv key ttl value)
  | .kvGet key => (.kvGet, encodeKv key 0 [])
  | .enqueue name payload => (.queue, encodeNamed 0 name payload)
  | .dequeue name => (.queue, encodeNamed 1 name [])
  | .ack name seq => (.ack, encodeNamed 0 name (beBytes 8 seq))
  | .subscribe filter => (.pubSub, encodeNamed 1 filter [])
  | .publish topic payload => (.pubSub, encodeNamed 0 topic payload)
  | .logCreate topic partitions => (.logTail, encodeNamed 2 topic (beBytes 4 partitions))
  | .logAppend topic payload => (.logTail, encodeNamed 0 topic payload)
  | .logConsume topic group max =>
    (.logTail, encodeNamed 1 topic (encodeStr group ++ beBytes 4 max))

def ClientOp.frame (op : ClientOp) (counter : UInt32) : Frame :=
  ⟨0, op.request.1, counter, op.request.2⟩

/-- The broker reads a text that fits as it was written. -/
theorem takeStr_encodeStr (front rest : Bytes) {s : String} (hs : (asBytes s).length < 2 ^ 16) :
    takeStr (front ++ (encodeStr s ++ rest)) front.length = some (s, rest) := by
  have hlen : (beBytes 2 (asBytes s).length).length = 2 := length_beBytes ..
  have hdrop : (front ++ (encodeStr s ++ rest)).drop front.length =
      beBytes 2 (asBytes s).length ++ (asBytes s ++ rest) := by
    rw [drop_left, encodeStr, append_assoc]
  have hrest : (front ++ (encodeStr s ++ rest)).drop (front.length + 2) = asBytes s ++ rest := by
    rw [← drop_drop, hdrop]
    exact drop_left' hlen
  have hl : beNat ((beBytes 2 (asBytes s).length ++ (asBytes s ++ rest)).take 2) =
      (asBytes s).length := by
    rw [take_left' hlen]
    exact beNat_beBytes_of_lt (Nat.lt_of_lt_of_eq hs (by decide))
  rw [takeStr, hdrop, hrest, hl]
  have hsrt : ¬((front ++ (encodeStr s ++ rest)).length < front.length + 2 ∨
      (asBytes s ++ rest).length < (asBytes s).length) := by
    rw [length_append, length_append, encodeStr, length_append, hlen, length_append]
    omega
  rw [if_neg hsrt, take_left, drop_left, Amqp.fromUtf8Lossy, fromUtf8_asBytes]

theorem takeNat_beBytes {width n : ℕ} (hn : n < 256 ^ width) (rest : Bytes) :
    takeNat width (beBytes width n ++ rest) = some (n, rest) := by
  rw [takeNat, if_neg (by simp), take_left' (length_beBytes ..), drop_left' (length_beBytes ..),
    beNat_beBytes_of_lt hn]

/-- **The layouts agree.** The broker reads from the payloads of the client library what was written
into them. -/
theorem layouts_agree (action : UInt8) (rest : Bytes) (s group : String) (ttl max : ℕ)
    (hs : (asBytes s).length < 2 ^ 16) (hgroup : (asBytes group).length < 2 ^ 16)
    (httl : ttl < 2 ^ 64) (hmax : max < 2 ^ 32) :
    parseKv (encodeKv s ttl rest) = some (s, ttl, rest) ∧
      (encodeNamed action s rest)[0]? = some action ∧
      takeStr (encodeNamed action s rest) 1 = some (s, rest) ∧
      takeStr (encodeStr group ++ beBytes 4 max) 0 = some (group, beBytes 4 max) ∧
      takeNat 4 (beBytes 4 max ++ rest) = some (max, rest) ∧
      takeNat 8 (beBytes 8 ttl ++ rest) = some (ttl, rest) := by
  have hkey : takeStr (encodeKv s ttl rest) 0 = some (s, beBytes 8 ttl ++ rest) :=
    takeStr_encodeStr [] _ hs
  have hnum : takeNat 8 (beBytes 8 ttl ++ rest) = some (ttl, rest) :=
    takeNat_beBytes (Nat.lt_of_lt_of_eq httl (by decide)) rest
  refine ⟨?_, rfl, takeStr_encodeStr [action] rest hs, takeStr_encodeStr [] _ hgroup,
    takeNat_beBytes (Nat.lt_of_lt_of_eq hmax (by decide)) rest, hnum⟩
  simp only [parseKv, hkey, hnum, Option.bind_eq_bind, Option.bind_some]

theorem layouts_agree_orders :
    parseKv (encodeKv "orders" 1500 [7, 8]) = some ("orders", 1500, [7, 8]) ∧
      (encodeNamed 1 "orders" [7, 8])[0]? = some 1 ∧
      takeStr (encodeNamed 1 "orders" [7, 8]) 1 = some ("orders", [7, 8]) ∧
      takeStr (encodeStr "billing" ++ beBytes 4 100) 0 = some ("billing", beBytes 4 100) ∧
      takeNat 4 (beBytes 4 100 ++ [7, 8]) = some (100, [7, 8]) ∧
      takeNat 8 (beBytes 8 1500 ++ [7, 8]) = some (1500, [7, 8]) :=
  layouts_agree 1 [7, 8] "orders" "billing" 1500 100 (by decide) (by decide) (by decide) (by decide)

end Synapse.Native
