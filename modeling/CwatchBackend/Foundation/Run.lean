import CwatchBackend.Foundation.Replay
import Mathlib.Data.Option.Basic

/-!
# Runs of a step function

A system is given by a step function `step : σ → α → Option σ`, which answers `none` where a step
is not possible.  `run step s as` performs the steps `as` one after the other from `s`.

`StepsMeet step P s as` says that every step of that run is taken in a state where the condition
`P` allows it.  `run_history` is the induction that results about runs use: what holds of the empty
run and is kept by every further step that meets the condition holds of a run.  Where the steps
taken do not matter it is `run_invariant`.
-/

namespace Foundation

variable {σ α : Type*}

/-- The state after the steps `as`, if each of them is possible. -/
def run (step : σ → α → Option σ) (s : σ) (as : List α) : Option σ := as.foldlM step s

variable {step : σ → α → Option σ} {s t u : σ} {a : α} {as bs : List α}

@[simp] theorem run_nil : run step s [] = some s := rfl

/-- A run begins with its first step. -/
theorem run_cons :
    run step s (a :: as) = some u ↔ ∃ t, step s a = some t ∧ run step t as = some u := by
  rw [run, List.foldlM_cons]
  exact Option.bind_eq_some_iff

/-- A run splits wherever its list of steps does. -/
theorem run_append :
    run step s (as ++ bs) = some u ↔ ∃ t, run step s as = some t ∧ run step t bs = some u := by
  rw [run, List.foldlM_append]
  exact Option.bind_eq_some_iff

/-- A run ends with its last step. -/
theorem run_concat :
    run step s (as ++ [a]) = some u ↔ ∃ t, run step s as = some t ∧ step t a = some u := by
  simp [run_append, run_cons]

/-- Every step of the run is taken in a state where `P` allows it. -/
def StepsMeet (step : σ → α → Option σ) (P : σ → α → Prop) (s : σ) (as : List α) : Prop :=
  ∀ pre a post, as = pre ++ a :: post → ∀ t, run step s pre = some t → P t a

/-- The steps of an initial part of a run meet the condition if all steps do. -/
theorem StepsMeet.of_append {P : σ → α → Prop} (h : StepsMeet step P s (as ++ bs)) :
    StepsMeet step P s as := by
  intro pre a post has t ht
  exact h pre a (post ++ bs) (by simp [has]) t ht

/-- The last step of a run meets the condition if all steps do. -/
theorem StepsMeet.last {P : σ → α → Prop} (h : StepsMeet step P s (as ++ [a]))
    (ht : run step s as = some t) : P t a :=
  h as a [] rfl t ht

/-- The first step of a run meets the condition if all steps do. -/
theorem StepsMeet.head {P : σ → α → Prop} (h : StepsMeet step P s (a :: as)) : P s a :=
  h [] a as rfl s rfl

/-- The steps after the first one meet the condition if all steps do. -/
theorem StepsMeet.tail {P : σ → α → Prop} (h : StepsMeet step P s (a :: as))
    (ht : step s a = some t) : StepsMeet step P t as := by
  intro pre b post has u hu
  exact h (a :: pre) b post (by rw [has, List.cons_append]) u (run_cons.mpr ⟨t, ht, hu⟩)

/-- The rest of a run meets the condition if all steps do. -/
theorem StepsMeet.after {P : σ → α → Prop} (h : StepsMeet step P s (as ++ bs))
    (ht : run step s as = some t) : StepsMeet step P t bs := by
  intro pre a post hbs u hu
  exact h (as ++ pre) a post (by rw [hbs, List.append_assoc]) u (run_append.mpr ⟨t, ht, hu⟩)

/-- The empty run meets every condition. -/
theorem stepsMeet_nil {P : σ → α → Prop} : StepsMeet step P s [] := by
  rintro (_ | _) a post has
  · cases has
  · cases has

/-- A run meets the condition if its first step does and the rest of it does. -/
theorem stepsMeet_cons {P : σ → α → Prop} (hfirst : P s a)
    (hrest : ∀ t, step s a = some t → StepsMeet step P t as) : StepsMeet step P s (a :: as) := by
  rintro (_ | ⟨b, pre⟩) c post has t ht
  · obtain ⟨rfl, -⟩ := List.cons.inj has
    exact Option.some.inj ht ▸ hfirst
  · obtain ⟨rfl, rfl⟩ := List.cons.inj has
    obtain ⟨u, hu, hrun⟩ := run_cons.mp ht
    exact hrest u hu pre c post rfl t hrun

/-- A run that ends at its first step meets the condition exactly when this step does. -/
theorem stepsMeet_cons_iff_of_none {P : σ → α → Prop} (h : step s a = none) :
    StepsMeet step P s (a :: as) ↔ P s a := by
  refine ⟨StepsMeet.head, fun hfirst => stepsMeet_cons hfirst fun t ht => ?_⟩
  rw [h] at ht
  cases ht

/-- A run meets the condition exactly when its first step and the rest of it do. -/
theorem stepsMeet_cons_iff_of_some {P : σ → α → Prop} (h : step s a = some t) :
    StepsMeet step P s (a :: as) ↔ P s a ∧ StepsMeet step P t as := by
  refine ⟨fun hmeet => ⟨hmeet.head, hmeet.tail h⟩, fun hmeet => ?_⟩
  refine stepsMeet_cons hmeet.1 fun u hu => ?_
  rw [h] at hu
  exact Option.some.inj hu ▸ hmeet.2

/-- Whether a run meets the condition is decided by performing it. -/
instance decidableStepsMeet {P : σ → α → Prop} [∀ s a, Decidable (P s a)] :
    ∀ s as, Decidable (StepsMeet step P s as)
  | _, [] => .isTrue stepsMeet_nil
  | s, a :: as =>
    match hstep : step s a with
    | none => decidable_of_iff' _ (stepsMeet_cons_iff_of_none hstep)
    | some t =>
      have : Decidable (StepsMeet step P t as) := decidableStepsMeet t as
      decidable_of_iff' _ (stepsMeet_cons_iff_of_some hstep)

/-- A run meets the condition exactly when all steps but the last do and the last one does. -/
theorem stepsMeet_concat {P : σ → α → Prop} :
    StepsMeet step P s (as ++ [a]) ↔
      StepsMeet step P s as ∧ ∀ t, run step s as = some t → P t a :=
  forall_split_concat

/-- What holds of the empty run and is kept by every further step that meets the condition holds of
a run and the state at its end. -/
theorem run_history {P : σ → α → Prop} {I : List α → σ → Prop} (hnil : I [] s)
    (hconcat : ∀ as t a u, I as t → P t a → step t a = some u → I (as ++ [a]) u)
    (hmeet : StepsMeet step P s as) (hrun : run step s as = some t) : I as t := by
  induction as using List.reverseRecOn generalizing t with
  | nil => exact Option.some.inj hrun ▸ hnil
  | append_singleton as a ih =>
    obtain ⟨u, hu, hut⟩ := run_concat.mp hrun
    exact hconcat as u a t (ih hmeet.of_append hu) (hmeet.last hu) hut

/-- What holds of the empty run and is kept by every further step holds of a run and the state at
its end. -/
theorem run_history_of_step {I : List α → σ → Prop} (hnil : I [] s)
    (hconcat : ∀ as t a u, I as t → step t a = some u → I (as ++ [a]) u)
    (hrun : run step s as = some t) : I as t :=
  run_history (P := fun _ _ => True) hnil (fun as t a u hI _ => hconcat as t a u hI)
    (fun _ _ _ _ _ _ => trivial) hrun

/-- What holds at the start of a run and is kept by every step that meets the condition holds at
its end. -/
theorem run_invariant {P : σ → α → Prop} {I : σ → Prop}
    (hstep : ∀ s a t, I s → P s a → step s a = some t → I t) (hs : I s)
    (hmeet : StepsMeet step P s as) (hrun : run step s as = some t) : I t :=
  run_history (I := fun _ => I) hs (fun _ => hstep) hmeet hrun

/-- What holds at the start of a run and is kept by every step holds at its end. -/
theorem run_invariant_of_step {I : σ → Prop} (hstep : ∀ s a t, I s → step s a = some t → I t)
    (hs : I s) (hrun : run step s as = some t) : I t :=
  run_history_of_step (I := fun _ => I) hs (fun _ => hstep) hrun

/-- If every step keeps `P` or, with an action in `R`, leads to where `Q` begins, a run either keeps
`P` or has a step with an action in `R` since which `Q` has been kept. -/
theorem run_crosses {C : σ → α → Prop} {P : σ → Prop} {R : α → Prop} {Q : σ → σ → Prop}
    (hcross : ∀ s a t, P s → C s a → step s a = some t → P t ∨ R a ∧ Q t t)
    (hkeep : ∀ s₁ s a t, Q s₁ s → C s a → step s a = some t → Q s₁ t) (hs : P s)
    (hmeet : StepsMeet step C s as) (hrun : run step s as = some t) :
    P t ∨ ∃ pre a post s₁, as = pre ++ a :: post ∧ R a ∧ run step s (pre ++ [a]) = some s₁ ∧
      Q s₁ t := by
  induction as using List.reverseRecOn generalizing t with
  | nil => exact Or.inl (Option.some.inj hrun ▸ hs)
  | append_singleton as a ih =>
    obtain ⟨u, hu, hut⟩ := run_concat.mp hrun
    have ha := hmeet.last hu
    rcases ih hmeet.of_append hu with hP | ⟨pre, b, post, s₁, rfl, hb, hs₁, hQ⟩
    · rcases hcross u a t hP ha hut with hP | ⟨hR, hQ⟩
      · exact Or.inl hP
      · exact Or.inr ⟨as, a, [], t, rfl, hR, hrun, hQ⟩
    · exact Or.inr ⟨pre, b, post ++ [a], s₁, by simp, hb, hs₁, hkeep s₁ u a t hQ ha hut⟩

end Foundation
