import Mathlib.Data.Option.Basic
import Mathlib.Tactic.SplitIfs

/-!
# Guarded runs of a transition system

A system is given by a partial step function `step : σ → ℓ → Option σ`: the label says which
action is taken, and `none` says that the action is not enabled. A *run* is the list of labels
taken. The second parameter `ok` is a condition on each step, evaluated in the state before it, so
that one relation serves both for all runs of a system and for the runs a result is restricted to.

Invariants are proved once, in `Steps.invariant`. A property that some steps break is treated by
`Steps.good_iff`, which turns the exact condition on one step into one on runs; `steps_probe_iff` is
for a property that a bad state may break only some time after the step that made it bad. Concrete
runs are evaluated with `exec`; `steps_exec` is the bridge between the two.
-/

namespace Transition

variable {σ ℓ : Type*}

/-- `Steps step ok s ls s'`: taking the actions `ls` in order leads from `s` to `s'`, and every
one of them is enabled and admissible in the state it is taken in. -/
inductive Steps (step : σ → ℓ → Option σ) (ok : σ → ℓ → Prop) : σ → List ℓ → σ → Prop
  | nil (s : σ) : Steps step ok s [] s
  | cons {s s' s'' : σ} {l : ℓ} {ls : List ℓ} (hok : ok s l) (hstep : step s l = some s')
      (hrest : Steps step ok s' ls s'') : Steps step ok s (l :: ls) s''

variable {step : σ → ℓ → Option σ} {ok : σ → ℓ → Prop}

variable {s s' : σ} {ls : List ℓ} {ok' : σ → ℓ → Prop}

/-- **The invariant rule.** A property kept by every admissible step is kept by every run. -/
theorem Steps.invariant (Inv : σ → Prop)
    (hkeep : ∀ s l s', Inv s → ok s l → step s l = some s' → Inv s')
    (hrun : Steps step ok s ls s') : Inv s → Inv s' := by
  induction hrun with
  | nil s => exact id
  | cons hok hstep _ ih => exact fun hs ↦ ih (hkeep _ _ _ hs hok hstep)

/-- **Changing the condition.** If `ok` keeps an invariant and implies `ok'` along it, then the runs
under `ok` are runs under `ok'`. -/
theorem Steps.imp_of_invariant (Inv : σ → Prop)
    (hkeep : ∀ s l s', Inv s → ok s l → step s l = some s' → Inv s' ∧ ok' s l)
    (hrun : Steps step ok s ls s') : Inv s → Steps step ok' s ls s' := by
  induction hrun with
  | nil s => exact fun _ ↦ .nil s
  | cons hok hstep _ ih =>
    intro hs
    obtain ⟨hs', hok'⟩ := hkeep _ _ _ hs hok hstep
    exact .cons hok' hstep (ih hs')

/-- If along an invariant a step ends in a good state exactly if it satisfies `ok`, then the runs
through good states are the runs under `ok`. -/
theorem steps_good_iff (Inv Good : σ → Prop)
    (hkeep : ∀ s l s', Inv s → Good s → step s l = some s' → Inv s' ∧ (Good s' ↔ ok s l))
    (hs : Inv s) (hgood : Good s) :
    Steps step (fun s l ↦ ∀ s' ∈ step s l, Good s') s ls s' ↔ Steps step ok s ls s' := by
  constructor
  · intro hrun
    refine hrun.imp_of_invariant (fun s ↦ Inv s ∧ Good s) ?_ ⟨hs, hgood⟩
    rintro s l s' ⟨hs, hgood⟩ hok hstep
    obtain ⟨hs', hiff⟩ := hkeep s l s' hs hgood hstep
    exact ⟨⟨hs', hok s' hstep⟩, hiff.mp (hok s' hstep)⟩
  · intro hrun
    refine hrun.imp_of_invariant (fun s ↦ Inv s ∧ Good s) ?_ ⟨hs, hgood⟩
    rintro s l s' ⟨hs, hgood⟩ hok hstep
    obtain ⟨hs', hiff⟩ := hkeep s l s' hs hgood hstep
    refine ⟨⟨hs', hiff.mpr hok⟩, fun s'' hstep' ↦ ?_⟩
    cases hstep.symm.trans hstep'
    exact hiff.mpr hok

theorem Steps.mono (hok : ∀ s l, ok s l → ok' s l) (hrun : Steps step ok s ls s') :
    Steps step ok' s ls s' :=
  hrun.imp_of_invariant (fun _ ↦ True) (fun s l _ _ h _ ↦ ⟨trivial, hok s l h⟩) trivial

section

variable (Inv Good : σ → Prop)
  (hkeep : ∀ s l s', Inv s → ok s l → step s l = some s' → Inv s' ∧ (Good s' ↔ Good s ∧ ok' s l))

include hkeep

/-- **Exact conditions.** If along an invariant a step keeps `Good` exactly if it satisfies `ok'`, a
run ends well exactly if it begins well and its steps satisfy `ok'`. -/
theorem Steps.good_iff (hrun : Steps step ok s ls s') (hs : Inv s) :
    Good s' ↔ Good s ∧ Steps step (fun s l ↦ ok s l ∧ ok' s l) s ls s' := by
  induction hrun with
  | nil s => exact (and_iff_left (.nil s)).symm
  | cons hok hstep _ ih =>
    obtain ⟨hs₁, hgood⟩ := hkeep _ _ _ hs hok hstep
    rw [ih hs₁, hgood]
    constructor
    · rintro ⟨⟨hg, hok'⟩, hrest⟩
      exact ⟨hg, .cons ⟨hok, hok'⟩ hstep hrest⟩
    · rintro ⟨hg, _ | ⟨⟨-, hok'⟩, hstep', hrest⟩⟩
      cases hstep.symm.trans hstep'
      exact ⟨⟨hg, hok'⟩, hrest⟩

/-- If good states admit every action, the runs under `ok` that end well are those under `ok'`. -/
theorem Steps.and_good_iff (hadm : ∀ s l, Inv s → Good s → ok s l) (hs : Inv s) (hgood : Good s) :
    Steps step ok s ls s' ∧ Good s' ↔ Steps step ok' s ls s' := by
  constructor
  · rintro ⟨hrun, hgood'⟩
    exact ((hrun.good_iff Inv Good hkeep hs).mp hgood').2.mono fun _ _ h ↦ h.2
  intro hrun
  have hstep : ∀ s l s', Inv s ∧ Good s → ok' s l → step s l = some s' →
      (Inv s' ∧ Good s') ∧ ok s l := by
    rintro s l s' ⟨hs, hgood⟩ hok' hstep
    have hok := hadm s l hs hgood
    obtain ⟨hs', hiff⟩ := hkeep s l s' hs hok hstep
    exact ⟨⟨hs', hiff.mpr ⟨hgood, hok'⟩⟩, hok⟩
  refine ⟨hrun.imp_of_invariant (fun s ↦ Inv s ∧ Good s) hstep ⟨hs, hgood⟩, ?_⟩
  exact (hrun.invariant (fun s ↦ Inv s ∧ Good s)
    (fun s l s' h hok' hl ↦ (hstep s l s' h hok' hl).1) ⟨hs, hgood⟩).2

end

theorem steps_append_iff {s'' : σ} {ls' : List ℓ} :
    Steps step ok s (ls ++ ls') s'' ↔ ∃ s', Steps step ok s ls s' ∧ Steps step ok s' ls' s'' := by
  induction ls generalizing s with
  | nil =>
    refine ⟨fun h ↦ ⟨s, .nil s, h⟩, ?_⟩
    rintro ⟨_, ⟨⟩, h⟩
    exact h
  | cons l ls ih =>
    constructor
    · rintro (_ | ⟨hok, hstep, hrest⟩)
      obtain ⟨s', hrun, hrun'⟩ := ih.mp hrest
      exact ⟨s', .cons hok hstep hrun, hrun'⟩
    · rintro ⟨s', _ | ⟨hok, hstep, hrest⟩, hrun'⟩
      exact .cons hok hstep (ih.mpr ⟨s', hrest, hrun'⟩)

/-- The actions determine where a run ends. -/
theorem Steps.unique {s₁ s₂ : σ} (h₁ : Steps step ok s ls s₁) (h₂ : Steps step ok' s ls s₂) :
    s₁ = s₂ := by
  induction h₁ with
  | nil s =>
    cases h₂
    rfl
  | cons _ hstep _ ih =>
    obtain _ | ⟨-, hstep', hrest'⟩ := h₂
    cases hstep.symm.trans hstep'
    exact ih hrest'

/-- **Defects that show later.** If a step keeps `Good` exactly if it satisfies `ok'`, good states
admit every action, and a state is good exactly if all continuations `probe i` are admissible in it,
then a run with each of these continuations is admissible exactly if its steps satisfy `ok'`. -/
theorem steps_probe_iff {ι : Type*} [Nonempty ι] (Inv Good : σ → Prop) (probe : ι → List ℓ)
    (hkeep : ∀ s l s', Inv s → ok s l → step s l = some s' → Inv s' ∧ (Good s' ↔ Good s ∧ ok' s l))
    (hadm : ∀ s l, Inv s → Good s → ok s l)
    (hprobe : ∀ s, Inv s → ((∀ i, ∃ s', Steps step ok s (probe i) s') ↔ Good s)) (hs : Inv s)
    (hgood : Good s) (ls : List ℓ) :
    (∀ i, ∃ s', Steps step ok s (ls ++ probe i) s') ↔ ∃ s', Steps step ok' s ls s' := by
  have hinv : ∀ {s'}, Steps step ok s ls s' → Inv s' := fun hrun ↦
    hrun.invariant Inv (fun s l s' h hok hl ↦ (hkeep s l s' h hok hl).1) hs
  constructor
  · intro h
    obtain ⟨i⟩ := ‹Nonempty ι›
    obtain ⟨_, hfst⟩ := h i
    obtain ⟨s₁, hrun, -⟩ := steps_append_iff.mp hfst
    refine ⟨s₁, (Steps.and_good_iff Inv Good hkeep hadm hs hgood).mp ⟨hrun, ?_⟩⟩
    refine (hprobe s₁ (hinv hrun)).mp fun i ↦ ?_
    obtain ⟨s', hboth⟩ := h i
    obtain ⟨s₂, hrun₂, hrest⟩ := steps_append_iff.mp hboth
    obtain rfl := hrun.unique hrun₂
    exact ⟨s', hrest⟩
  · rintro ⟨s₁, hrun⟩ i
    obtain ⟨hrun, hgood₁⟩ := (Steps.and_good_iff Inv Good hkeep hadm hs hgood).mpr hrun
    obtain ⟨s', hrest⟩ := (hprobe s₁ (hinv hrun)).mpr hgood₁ i
    exact ⟨s', steps_append_iff.mpr ⟨s₁, hrun, hrest⟩⟩

theorem steps_foldl (f : σ → ℓ → σ) (s : σ) (ls : List ℓ) :
    Steps (fun s l ↦ some (f s l)) (fun _ _ ↦ True) s ls (ls.foldl f s) := by
  induction ls generalizing s with
  | nil => exact .nil s
  | cons l ls ih => exact .cons trivial rfl (ih (f s l))

/-- The step function folded over a list of labels; `none` as soon as one of them is disabled or
not admissible. -/
def exec (step : σ → ℓ → Option σ) (ok : σ → ℓ → Prop) [∀ s l, Decidable (ok s l)] (s : σ) :
    List ℓ → Option σ
  | [] => some s
  | l :: ls => if ok s l then (step s l).bind fun s' ↦ exec step ok s' ls else none

theorem steps_of_exec [∀ s l, Decidable (ok s l)] (h : exec step ok s ls = some s') :
    Steps step ok s ls s' := by
  induction ls generalizing s with
  | nil => exact Option.some.inj h ▸ .nil s
  | cons l ls ih =>
    rw [exec] at h
    split_ifs at h with hok
    obtain ⟨s₁, hstep, hrest⟩ := Option.bind_eq_some_iff.mp h
    exact .cons hok hstep (ih hrest)

theorem steps_exec [∀ s l, Decidable (ok s l)] (h : (exec step ok s ls).isSome) :
    Steps step ok s ls ((exec step ok s ls).get h) :=
  steps_of_exec (Option.some_get h).symm

/-- Of an evaluated run it is enough to look at the state it ends in: what is decidable about it can
be decided there. -/
theorem exists_steps_of_isSome [∀ s l, Decidable (ok s l)] {P : σ → Prop}
    (h : (exec step ok s ls).isSome)
    (hP : Steps step ok s ls ((exec step ok s ls).get h) → P ((exec step ok s ls).get h)) :
    ∃ s', Steps step ok s ls s' ∧ P s' :=
  ⟨_, steps_exec h, hP (steps_exec h)⟩

end Transition
