import Mathlib.Data.List.Basic
import Mathlib.Data.List.Induction
import Mathlib.Algebra.Group.Nat.Defs
import Mathlib.Tactic.Common

set_option autoImplicit false

/- Labelled transition systems: runs from a set of initial states, invariants,
and simulation by a deterministic abstract machine. -/
namespace Transition

variable {σ α β : Type}

/-- The labels of a finite run, oldest first, and the state it ends in. -/
inductive Run (init : σ → Prop) (step : σ → α → σ → Prop) : List α → σ → Prop
  | start {s : σ} (initial : init s) : Run init step [] s
  | snoc {labels : List α} {s s' : σ} {a : α} (before : Run init step labels s)
      (next : step s a s') : Run init step (labels ++ [a]) s'

/-- A state that some run ends in. -/
def Reachable (init : σ → Prop) (step : σ → α → σ → Prop) (s : σ) : Prop :=
  ∃ labels, Run init step labels s

/-- The steps that meet a condition on the state before them. -/
def Guarded (ok : σ → α → Prop) (step : σ → α → σ → Prop) : σ → α → σ → Prop :=
  fun s a s' => ok s a ∧ step s a s'

/-- The step relation of an executable machine. -/
def Fires (f : σ → α → Option σ) : σ → α → σ → Prop :=
  fun s a s' => f s a = some s'

/-- The steps of an executable machine, one label after another. -/
def replay (f : σ → α → Option σ) : σ → List α → Option σ
  | s, [] => some s
  | s, a :: labels => (f s a).bind fun s' => replay f s' labels

/-- An executable machine that stops before a step that fails a check. -/
def checked (ok : σ → α → Prop) [∀ s a, Decidable (ok s a)] (f : σ → α → Option σ) :
    σ → α → Option σ :=
  fun s a => if ok s a then f s a else none

variable {init : σ → Prop} {step step' : σ → α → σ → Prop}

theorem Run.invariant {I : σ → Prop} (initial : ∀ s, init s → I s)
    (preserved : ∀ s a s', I s → step s a s' → I s') {labels : List α} {s : σ}
    (run : Run init step labels s) : I s := by
  induction run with
  | start h => exact initial _ h
  | snoc _ next ih => exact preserved _ _ _ ih next

theorem Run.mono (weaker : ∀ s a s', step s a s' → step' s a s') {labels : List α} {s : σ}
    (run : Run init step labels s) : Run init step' labels s := by
  induction run with
  | start h => exact .start h
  | snoc _ next ih => exact .snoc ih (weaker _ _ _ next)

theorem Run.of_guarded {ok : σ → α → Prop} {labels : List α} {s : σ}
    (run : Run init (Guarded ok step) labels s) : Run init step labels s :=
  run.mono fun _ _ _ h => h.2

/-- A property of every label that its step forces where an invariant holds. -/
theorem Run.forall_labels {I : σ → Prop} {P : α → Prop} (initial : ∀ s, init s → I s)
    (preserved : ∀ s a s', I s → step s a s' → I s') (forced : ∀ s a s', I s → step s a s' → P a)
    {labels : List α} {s : σ} (run : Run init step labels s) : ∀ a ∈ labels, P a := by
  induction run with
  | start _ => simp
  | snoc before next ih =>
    intro a member
    rcases List.mem_append.mp member with old | new
    · exact ih a old
    · rw [List.mem_singleton.mp new]
      exact forced _ _ _ (before.invariant initial preserved) next

/-- The last step of a run. -/
theorem Run.last {labels : List α} {a : α} {s' : σ} (run : Run init step (labels ++ [a]) s') :
    ∃ s, Run init step labels s ∧ step s a s' := by
  generalize whole : labels ++ [a] = all at run
  cases run with
  | start _ => exact absurd whole (by simp)
  | snoc before next =>
    obtain ⟨rfl, last⟩ := List.append_inj' whole rfl
    obtain rfl := List.singleton_inj.mp last
    exact ⟨_, before, next⟩

/-- A run splits where its labels do. -/
theorem Run.split {first second : List α} {s' : σ} (run : Run init step (first ++ second) s') :
    ∃ s, Run init step first s ∧ Run (· = s) step second s' := by
  induction second using List.reverseRecOn generalizing s' with
  | nil =>
    rw [List.append_nil] at run
    exact ⟨s', run, .start rfl⟩
  | append_singleton second a ih =>
    rw [← List.append_assoc] at run
    obtain ⟨middle, before, next⟩ := run.last
    obtain ⟨s, early, late⟩ := ih before
    exact ⟨s, early, late.snoc next⟩

theorem Run.initial {s : σ} (run : Run init step [] s) : init s := by
  generalize empty : ([] : List α) = labels at run
  cases run with
  | start h => exact h
  | snoc _ _ => exact absurd empty (by simp)

/-- The first step of a run. -/
theorem Run.head {labels : List α} {a : α} {s' : σ} (run : Run init step (a :: labels) s') :
    ∃ s₀ s, init s₀ ∧ step s₀ a s ∧ Run (· = s) step labels s' := by
  have parts : Run init step ([a] ++ labels) s' := run
  obtain ⟨s, single, rest⟩ := parts.split
  have one : Run init step ([] ++ [a]) s := single
  obtain ⟨s₀, before, next⟩ := one.last
  exact ⟨s₀, s, before.initial, next, rest⟩

/-- The steps of a run whose labels all have a property. -/
theorem Run.labelled {P : α → Prop} {labels : List α} {s : σ} (run : Run init step labels s)
    (all : ∀ a ∈ labels, P a) : Run init (Guarded (fun _ a => P a) step) labels s := by
  induction run with
  | start h => exact .start h
  | snoc _ next ih =>
    have earlier := ih fun a member => all a (List.mem_append_left _ member)
    exact earlier.snoc ⟨all _ (List.mem_append_right _ (List.mem_singleton_self _)), next⟩

/-- A forward simulation by a machine whose state is a fold over the labels. -/
theorem Run.simulation {R : σ → β → Prop} {b₀ : β} {f : β → α → β}
    (initial : ∀ s, init s → R s b₀)
    (simulated : ∀ s b a s', R s b → step s a s' → R s' (f b a))
    {labels : List α} {s : σ} (run : Run init step labels s) : R s (labels.foldl f b₀) := by
  induction run with
  | start h => exact initial _ h
  | snoc _ next ih =>
    rw [List.foldl_append]
    exact simulated _ _ _ _ ih next

theorem Reachable.start {s : σ} (initial : init s) : Reachable init step s :=
  ⟨[], .start initial⟩

theorem Reachable.next {s s' : σ} {a : α} (reached : Reachable init step s)
    (next : step s a s') : Reachable init step s' := by
  obtain ⟨labels, run⟩ := reached
  exact ⟨labels ++ [a], run.snoc next⟩

theorem Reachable.invariant {I : σ → Prop} (initial : ∀ s, init s → I s)
    (preserved : ∀ s a s', I s → step s a s' → I s') {s : σ}
    (reached : Reachable init step s) : I s := by
  obtain ⟨_, run⟩ := reached
  exact run.invariant initial preserved

theorem Reachable.of_guarded {ok : σ → α → Prop} {s : σ}
    (reached : Reachable init (Guarded ok step) s) : Reachable init step s := by
  obtain ⟨labels, run⟩ := reached
  exact ⟨labels, run.of_guarded⟩

/-- Reachability from a reachable state. -/
theorem Reachable.trans {s t : σ} (reached : Reachable init step s)
    (onward : Reachable (· = s) step t) : Reachable init step t :=
  onward.invariant (fun _ same => same ▸ reached) fun _ _ _ h next => h.next next

/-- A run goes on with the labels that it replays. -/
theorem Run.replay {f : σ → α → Option σ} {s s' : σ} {labels more : List α}
    (run : Run init (Fires f) labels s) (replayed : Transition.replay f s more = some s') :
    Run init (Fires f) (labels ++ more) s' := by
  induction more generalizing labels s with
  | nil =>
    rw [List.append_nil, ← Option.some.inj replayed]
    exact run
  | cons a more ih =>
    simp only [Transition.replay, Option.bind_eq_some_iff] at replayed
    obtain ⟨middle, fired, rest⟩ := replayed
    have onward := ih (run.snoc fired) rest
    rwa [List.append_assoc] at onward

/-- Replaying a list of labels stays within the reachable states. -/
theorem Reachable.replay {f : σ → α → Option σ} {s s' : σ} {labels : List α}
    (reached : Reachable init (Fires f) s) (replayed : Transition.replay f s labels = some s') :
    Reachable init (Fires f) s' := by
  induction labels generalizing s with
  | nil => exact Option.some.inj replayed ▸ reached
  | cons a labels ih =>
    simp only [Transition.replay, Option.bind_eq_some_iff] at replayed
    obtain ⟨middle, fired, rest⟩ := replayed
    exact ih (reached.next fired) rest

theorem Run.of_checked {ok : σ → α → Prop} [∀ s a, Decidable (ok s a)]
    {f : σ → α → Option σ} {labels : List α} {s : σ}
    (run : Run init (Fires (checked ok f)) labels s) :
    Run init (Guarded ok (Fires f)) labels s := by
  apply run.mono
  intro s a s' fired
  simp only [Fires, checked, Option.ite_none_right_eq_some] at fired
  exact fired

theorem Reachable.of_checked {ok : σ → α → Prop} [∀ s a, Decidable (ok s a)]
    {f : σ → α → Option σ} {s : σ} (reached : Reachable init (Fires (checked ok f)) s) :
    Reachable init (Guarded ok (Fires f)) s := by
  obtain ⟨labels, run⟩ := reached
  exact ⟨labels, run.of_checked⟩

end Transition
