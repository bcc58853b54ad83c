import Mathlib.Algebra.Group.Nat.Defs
import Mathlib.Data.Nat.Notation

/-!
# Shared vocabulary

Byte strings and the engine's error type. Payloads, keys and wire buffers are lists of bytes;
errors keep their kind and message, and drop the chained `source`, which no modelled function
reads.
-/

namespace Synapse

/-- A `Vec<u8>` or `&[u8]`. -/
abbrev Bytes := List UInt8

/-- Classification of an `EngineError`. -/
inductive ErrorKind
  | notFound
  | alreadyExists
  | tenantQuotaExceeded
  | invalidArgument
  | storage
  | closed
  | internal
deriving DecidableEq, Repr

def ErrorKind.display : ErrorKind → String
  | notFound => "not found"
  | alreadyExists => "already exists"
  | tenantQuotaExceeded => "tenant quota exceeded"
  | invalidArgument => "invalid argument"
  | storage => "storage error"
  | closed => "engine closed"
  | internal => "internal error"

/-- The unified error type of the storage engine. -/
structure EngineError where
  kind : ErrorKind
  message : String
deriving DecidableEq, Repr

namespace EngineError

def display (e : EngineError) : String := e.kind.display ++ ": " ++ e.message

def notFound (msg : String) : EngineError := ⟨.notFound, msg⟩

def invalidArgument (msg : String) : EngineError := ⟨.invalidArgument, msg⟩

def quotaExceeded (msg : String) : EngineError := ⟨.tenantQuotaExceeded, msg⟩

def internal (msg : String) : EngineError := ⟨.internal, msg⟩

end EngineError

abbrev EngineResult (α : Type) := Except EngineError α

end Synapse
