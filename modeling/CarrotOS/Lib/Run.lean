import Mathlib.Data.List.Induction
import Mathlib.Tactic.Common

/-!
# Runs of a partial transition function

A system takes a call `i` from a state `s` to a state `s'` when `step s i = some s'`; a call that
is not defined in a state has no successor. A run is a sequence of such steps, and `ok s i`
restricts the calls that a run may make in each state. A property of the states that one allowed
step keeps holds at the end of every allowed run.
-/

namespace Transition

open Option

variable {σ ι : Type*} {step : σ → ι → Option σ} {ok ok' : σ → ι → Prop}

/-- The calls of the list lead from the first state to the last, each allowed by `ok` in the
state in which it is made. -/
inductive Run (step : σ → ι → Option σ) (ok : σ → ι → Prop) : σ → List ι → σ → Prop
  | nil (s : σ) : Run step ok s [] s
  | snoc {s t u : σ} {calls : List ι} {i : ι} :
    Run step ok s calls t → ok t i → step t i = some u → Run step ok s (calls ++ [i]) u

/-- What every allowed step keeps, every allowed run keeps. -/
theorem Run.invariant (Inv : σ → Prop)
    (hstep : ∀ s i s', Inv s → ok s i → step s i = some s' → Inv s')
    {s s' : σ} {calls : List ι} (hrun : Run step ok s calls s') (h0 : Inv s) : Inv s' := by
  induction hrun with
  | nil => exact h0
  | snoc _ hok hs ih => exact hstep _ _ _ ih hok hs

/-- Harmless steps keep what is good, and the next step keeps it exactly if it is harmless. -/
theorem Run.iff_of_step {harmless : σ → ι → Prop} {Inv : σ → Prop} (Good : σ → Prop)
    (hgood : ∀ s, Inv s → Good s)
    (hstep : ∀ s i s', Inv s → ok s i → step s i = some s' →
      (harmless s i → Inv s') ∧ (Good s' → harmless s i)) {s s' : σ} {calls : List ι}
    (hrun : Run step (fun s i => ok s i ∧ harmless s i) s calls s') (h0 : Inv s) :
    Good s' ∧ ∀ i s'', ok s' i → step s' i = some s'' → (Good s'' ↔ harmless s' i) := by
  have h : Inv s' :=
    hrun.invariant Inv (fun _ _ _ hs hok hs' => (hstep _ _ _ hs hok.1 hs').1 hok.2) h0
  refine ⟨hgood _ h, fun i s'' hok hs => ?_⟩
  obtain ⟨hkeeps, hback⟩ := hstep _ _ _ h hok hs
  exact ⟨hback, fun hharmless => hgood _ (hkeeps hharmless)⟩

/-- Calls that are allowed and defined one after the other form a run. -/
theorem Run.of_guarded [∀ s i, Decidable (ok s i)] {s s' : σ} {calls : List ι}
    (h : calls.foldlM (fun s i => if ok s i then step s i else none) s = some s') :
    Run step ok s calls s' := by
  induction calls using List.reverseRecOn generalizing s' with
  | nil =>
    cases h
    exact .nil s
  | append_singleton calls i ih =>
    rw [List.foldlM_append] at h
    obtain ⟨t, ht, hi⟩ := bind_eq_some_iff.mp h
    rw [List.foldlM_cons] at hi
    obtain ⟨u, hu, hnil⟩ := bind_eq_some_iff.mp hi
    cases hnil
    obtain ⟨hok, hstep⟩ := ite_none_right_eq_some.mp hu
    exact .snoc (ih ht) hok hstep

/-- A run of given calls is found by evaluating them, with a test of what its last state has. -/
theorem Run.exists_of_eval {s : σ} {calls : List ι} {P Q : σ → Prop} [∀ s i, Decidable (ok s i)]
    (h : ∃ s' ∈ calls.foldlM (fun s i => if ok s i then step s i else none) s, Q s')
    (hP : ∀ s', Run step ok s calls s' → Q s' → P s') : ∃ s', Run step ok s calls s' ∧ P s' := by
  obtain ⟨s', hs', hQ⟩ := h
  have hrun := Run.of_guarded hs'
  exact ⟨s', hrun, hP s' hrun hQ⟩

/-- What a step or another evaluation returns, with a test of it. -/
theorem exists_of_eval {o : Option σ} {P Q : σ → Prop} (h : ∃ s ∈ o, Q s)
    (hP : ∀ s, o = some s → Q s → P s) : ∃ s, o = some s ∧ P s := by
  obtain ⟨s, hs, hQ⟩ := h
  exact ⟨s, hs, hP s hs hQ⟩

/-- A call and one after it that can be made. -/
theorem Run.exists_single_step {s : σ} {i j : ι} {P : σ → σ → Prop} (hok : ok s i)
    (h : ((step s i).bind (step · j)).isSome)
    (hP : ∀ s' s'', Run step ok s [i] s' → step s' j = some s'' → P s' s'') :
    ∃ s' s'', Run step ok s [i] s' ∧ step s' j = some s'' ∧ P s' s'' := by
  obtain ⟨s'', h⟩ := isSome_iff_exists.mp h
  obtain ⟨s', hs', hs''⟩ := bind_eq_some_iff.mp h
  have hrun : Run step ok s [i] s' := .snoc (.nil s) hok hs'
  exact ⟨s', s'', hrun, hs'', hP s' s'' hrun hs''⟩

theorem Run.mono (h : ∀ s i, ok s i → ok' s i) {s s' : σ} {calls : List ι}
    (hrun : Run step ok s calls s') : Run step ok' s calls s' := by
  induction hrun with
  | nil => exact .nil _
  | snoc _ hok hs ih => exact .snoc ih (h _ _ hok) hs

end Transition
