import Synapse.Mqtt.ExactlyOnce
import Synapse.Mqtt.Takeover

/-!
# The will

A CONNECT may carry a will: a message that is to be published when the connection ends without a
DISCONNECT, and then only. The code publishes it while it handles the CONNECT, and forgets it. So
the number is right for a connection that is lost, since the will has been published exactly once
by then; but it has been published before anything was lost, and also for a connection that ends
with a DISCONNECT. The contract of the will is kept only by connections without one
(`will_at_connect`).

What a connection announces are the messages published in the course of its actions, apart from the
messages of its PUBLISH packets.
-/

namespace Synapse.Mqtt

open Transition Option

/-! ## What a connection announces -/

/-- The action is one of the connection, and does not handle a PUBLISH. -/
def Label.announces (conn : ℕ) : Label → Bool
  | .packet _ _ (.publish _) => false
  | .packet n _ _ | .read n _ | .write n | .finish n _ _ => n = conn
  | .accept _ => false

def Label.connects (conn : ℕ) : Label → Bool
  | .packet n _ (.connect _) => n = conn
  | _ => false

def Label.disconnects (conn : ℕ) : Label → Bool
  | .packet n _ (.disconnect _ _) => n = conn
  | _ => false

/-- The messages published by one action. -/
def announced (conn : ℕ) (s : Server) (l : Label) (s' : Server) : List Publish :=
  if l.announces conn then
    (s'.broker.trace.drop s.broker.trace.length).filterMap Event.message
  else []

/-- The messages a connection announces in a run. -/
def announcements (conn : ℕ) : Server → List Label → List Publish
  | _, [] => []
  | s, l :: ls =>
    match s.step l with
    | none => []
    | some s' => announced conn s l s' ++ announcements conn s' ls

/-- The action is no CONNECT of the connection. -/
def NoConnect (conn : ℕ) (_ : Server) (l : Label) : Prop := l.connects conn = false

instance (conn : ℕ) (s : Server) (l : Label) : Decidable (NoConnect conn s l) :=
  inferInstanceAs (Decidable (_ = false))

/-- The contract of the will of a CONNECT: however things go on, nothing is announced as long as the
connection is there and after a DISCONNECT, and otherwise the will, once. -/
def WillKept (s : Server) (conn : ℕ) (env : Env) (k : Connect) : Prop :=
  ∀ s₁ ls s', s.step (.packet conn env (.connect k)) = some s₁ →
    Steps Server.step (NoConnect conn) s₁ ls s' →
      announcements conn s (.packet conn env (.connect k) :: ls) =
        if (s'.conns conn).isSome || ls.any (Label.disconnects conn) then []
        else (k.will.map Will.publish).toList

section Announced

variable {s s' s₁ : Server} {conn : ℕ} {l : Label} {env : Env} {k : Connect} {ls : List Label}

theorem filterMap_drop_of_eq {b b' : Broker} (h : b'.trace = b.trace) :
    (b'.trace.drop b.trace.length).filterMap Event.message = [] := by
  rw [h, List.drop_length]
  rfl

/-- Only a CONNECT announces anything. -/
theorem announced_of_noConnect (hl : NoConnect conn s l) (h : s.step l = some s') :
    announced conn s l s' = [] := by
  rw [announced]
  split_ifs with hown
  · rcases Server.step_cases h with ⟨_, -, -, -, heq, -⟩ | ⟨n, o, _, -, -, -, ⟨heq, -⟩ |
      ⟨env, pkt, rfl, heq, -⟩ | ⟨_, _, -, heq, -⟩⟩
    · exact filterMap_drop_of_eq (by rw [heq])
    · exact filterMap_drop_of_eq (by rw [heq])
    · rw [heq, filterMap_drop_handlePacket]
      cases pkt with
      | connect k =>
        rw [NoConnect, Label.connects] at hl
        rw [Label.announces.eq_def] at hown
        exact absurd (of_decide_eq_true hown) (of_decide_eq_false hl)
      | publish p => cases hown
      | _ => rfl
    · exact filterMap_drop_of_eq (by rw [heq, trace_giveUp])
  · rfl

theorem announcements_of_noConnect (hrun : Steps Server.step (NoConnect conn) s ls s') :
    announcements conn s ls = [] := by
  induction hrun with
  | nil s => rfl
  | cons hok hstep _ ih =>
    rw [announcements, hstep]
    dsimp only
    rw [announced_of_noConnect hok hstep, ih, List.append_nil]

theorem announced_connect (h : s.step (.packet conn env (.connect k)) = some s₁) :
    announced conn s (.packet conn env (.connect k)) s₁ = (k.will.map Will.publish).toList := by
  obtain ⟨o, -, rfl⟩ := map_eq_some_iff.mp h
  have hown : Label.announces conn (.packet conn env (.connect k)) = true := decide_eq_true rfl
  rw [announced, if_pos hown, Server.broker_onPacket, filterMap_drop_handlePacket]
  rfl

/-- **The will.** Whatever follows an accepted CONNECT, the connection announces its will exactly
once, while the CONNECT is handled. So the contract of the will is kept if and only if there is
none. -/
theorem will_at_connect (hstep : s.step (.packet conn env (.connect k)) = some s₁)
    (haccepted : (s₁.conns conn).isSome) :
    (announced conn s (.packet conn env (.connect k)) s₁ = (k.will.map Will.publish).toList ∧
      ∀ ls s', Steps Server.step (NoConnect conn) s₁ ls s' →
        announcements conn s (.packet conn env (.connect k) :: ls) =
          (k.will.map Will.publish).toList) ∧
      (WillKept s conn env k ↔ k.will = none) := by
  have hconnect := announced_connect hstep
  have hall : ∀ ls s', Steps Server.step (NoConnect conn) s₁ ls s' →
      announcements conn s (.packet conn env (.connect k) :: ls) =
        (k.will.map Will.publish).toList := by
    intro ls s' hrun
    rw [announcements, hstep]
    dsimp only
    rw [hconnect, announcements_of_noConnect hrun, List.append_nil]
  refine ⟨⟨hconnect, hall⟩, fun hkept ↦ ?_, fun hnone s₁' ls s' hstep' hrun ↦ ?_⟩
  · -- the connection is still there
    have hopen := hkept s₁ [] s₁ hstep (.nil s₁)
    rw [hall [] s₁ (.nil s₁), haccepted, Bool.true_or, if_pos rfl] at hopen
    rwa [toList_eq_nil_iff, map_eq_none_iff] at hopen
  · cases hstep.symm.trans hstep'
    rw [hall ls s' hrun, hnone]
    split_ifs <;> rfl

end Announced

def connectWithWill : Connect :=
  ⟨.v311, "c", 1, true, some ⟨"t", [1], .atMostOnce, false, none⟩, none, none, none⟩

theorem will_at_connect_accepted :
    ∃ s s₁, Steps Server.step Server.Any (.start .fresh) [.accept 0] s ∧
      s.step (.packet 0 ⟨0, .inOrder⟩ (.connect connectWithWill)) = some s₁ ∧
      (s₁.conns 0).isSome ∧ ¬WillKept s 0 ⟨0, .inOrder⟩ connectWithWill := by
  refine ⟨_, _, steps_exec (by decide +kernel), (some_get (by decide +kernel)).symm,
    by decide +kernel, fun h ↦ ?_⟩
  cases (will_at_connect (some_get (by decide +kernel)).symm (by decide +kernel)).2.mp h

/-- The will is announced while the connection is there, and by a connection that then ends with a
DISCONNECT. -/
theorem will_too_early : let connect : Label := .packet 0 ⟨0, .inOrder⟩ (.connect connectWithWill)
    let disconnect : Label := .packet 0 ⟨0, .inOrder⟩ (.disconnect .success none)
    let will : Publish := ⟨false, .atMostOnce, false, "t", none, [1], none⟩
    ∃ s s₁ s₂, Steps Server.step Server.Any (.start .fresh) [.accept 0] s ∧
      Steps Server.step Server.Any s [connect] s₁ ∧ (s₁.conns 0).isSome ∧
      announcements 0 s [connect] = [will] ∧
      Steps Server.step Server.Any s₁ [disconnect] s₂ ∧ (s₂.conns 0).isNone ∧
      announcements 0 s [connect, disconnect] = [will] := by
  intro connect disconnect will
  exact ⟨_, _, _, steps_exec (by decide +kernel), steps_exec (by decide +kernel),
    by decide +kernel, by decide +kernel, steps_exec (by decide +kernel), by decide +kernel,
    by decide +kernel⟩

end Synapse.Mqtt
