import Mathlib.Data.List.Infix
import Mathlib.Logic.Function.Basic
import Synapse.Lib.Chronicle

/-!
# A store of values and queues

What a key-value store with work queues is for: a table of values, and for each queue the values
that have been put in and not taken out, oldest first. An *event* is an operation that has taken
effect, with what it returned. `Agrees` says which results the store allows, and `apply` what the
event changes.

The same can be said without a store, in terms of the history alone (`Faithful`): a lookup returns
what was last put under its key, and what is taken from a queue is what was put into it, in that
order, nothing left out and nothing twice. `Explains.record` derives the second from the first, one
event at a time.
-/

variable {κ ι ν : Type*}

/-- An operation that took effect, with its result. -/
inductive StoreEvent (κ ι ν : Type*)
  | put (key : κ) (value : ν)
  | got (key : κ) (result : Option ν)
  | pushed (queue : ι) (value : ν)
  | popped (queue : ι) (result : Option ν)
deriving DecidableEq

/-- The values under the keys, and what is in the queues. -/
@[ext]
structure Store (κ ι ν : Type*) where
  values : κ → Option ν
  ready : ι → List ν

namespace Store

def empty : Store κ ι ν := ⟨fun _ ↦ none, fun _ ↦ []⟩

variable [DecidableEq κ] [DecidableEq ι]

/-- The store after an event. -/
def apply (s : Store κ ι ν) : StoreEvent κ ι ν → Store κ ι ν
  | .put key value => { s with values := Function.update s.values key (some value) }
  | .got _ _ => s
  | .pushed queue value =>
    { s with ready := Function.update s.ready queue (s.ready queue ++ [value]) }
  | .popped queue _ => { s with ready := Function.update s.ready queue (s.ready queue).tail }

/-- The result is the one the store allows. -/
def Agrees (s : Store κ ι ν) : StoreEvent κ ι ν → Prop
  | .got key result => result = s.values key
  | .popped queue result => result = (s.ready queue).head?
  | _ => True

/-! ## Histories -/

def puts (key : κ) (events : List (StoreEvent κ ι ν)) : List ν :=
  events.filterMap fun
    | .put k v => if k = key then some v else none
    | _ => none

def pushes (queue : ι) (events : List (StoreEvent κ ι ν)) : List ν :=
  events.filterMap fun
    | .pushed q v => if q = queue then some v else none
    | _ => none

def pops (queue : ι) (events : List (StoreEvent κ ι ν)) : List ν :=
  events.filterMap fun
    | .popped q r => if q = queue then r else none
    | _ => none

/-- A result that the events before it call for. Nothing comes out of a queue only if everything has
been taken. -/
def Called (past : List (StoreEvent κ ι ν)) : StoreEvent κ ι ν → Prop
  | .got key result => result = (puts key past).getLast?
  | .popped queue result =>
    pops queue past ++ result.toList <+: pushes queue past ∧
      (result = none → pops queue past = pushes queue past)
  | _ => True

/-- Every result is the one called for. -/
def Faithful (events : List (StoreEvent κ ι ν)) : Prop := Chronicle Called events

/-- The store is what the history leaves behind, and the history is faithful. -/
structure Explains (s : Store κ ι ν) (events : List (StoreEvent κ ι ν)) : Prop where
  faithful : Faithful events
  values_eq : ∀ key, s.values key = (puts key events).getLast?
  pops_append : ∀ queue, pops queue events ++ s.ready queue = pushes queue events

namespace Explains

variable {s : Store κ ι ν} {events : List (StoreEvent κ ι ν)} {e : StoreEvent κ ι ν}

theorem unique {s' : Store κ ι ν} (h : s.Explains events) (h' : s'.Explains events) : s = s' := by
  refine Store.ext (funext fun key ↦ ?_) (funext fun queue ↦ ?_)
  · rw [h.values_eq, h'.values_eq]
  · exact List.append_cancel_left ((h.pops_append queue).trans (h'.pops_append queue).symm)

/-- What the store allows is what the history calls for. -/
theorem called (h : s.Explains events) (he : s.Agrees e) : Called events e := by
  cases e with
  | put key value => trivial
  | got key result => exact he.trans (h.values_eq key)
  | pushed queue value => trivial
  | popped queue result =>
    have hparts := h.pops_append queue
    obtain rfl : result = (s.ready queue).head? := he
    rw [Called, ← hparts]
    cases s.ready queue with
    | nil => exact ⟨by simp, fun _ ↦ by simp⟩
    | cons v rest => exact ⟨by simp, fun hnone ↦ by simp at hnone⟩

/-- **One more event.** -/
theorem record (h : s.Explains events) (he : s.Agrees e) :
    (s.apply e).Explains (events ++ [e]) := by
  refine ⟨h.faithful.concat (h.called he), fun key ↦ ?_, fun queue ↦ ?_⟩
  · have hkey := h.values_eq key
    rw [puts] at hkey ⊢
    cases e with
    | put k v =>
      by_cases hk : k = key
      · subst hk
        simp [apply]
      · simp [apply, Function.update_of_ne (Ne.symm hk), hk, hkey]
    | got k r => simpa [apply] using hkey
    | pushed q v => simpa [apply] using hkey
    | popped q r => simpa [apply] using hkey
  · have hque := h.pops_append queue
    rw [pops, pushes] at hque ⊢
    cases e with
    | put k v => simpa [apply] using hque
    | got k r => simpa [apply] using hque
    | pushed q v =>
      by_cases hq : q = queue
      · subst hq
        simp [apply, ← hque]
      · simpa [apply, Function.update_of_ne (Ne.symm hq), hq] using hque
    | popped q r =>
      by_cases hq : q = queue
      · subst hq
        obtain rfl : r = (s.ready q).head? := he
        rw [List.filterMap_append, List.filterMap_append, ← hque]
        cases hrdy : s.ready q with
        | nil => simp [apply, hrdy]
        | cons v rest => simp [apply, hrdy]
      · simpa [apply, Function.update_of_ne (Ne.symm hq), hq] using hque

end Explains

end Store
