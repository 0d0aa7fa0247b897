import Mathlib.Tactic.Common

set_option autoImplicit false

/- Straight-line code that others preempt at its instruction boundaries: assertions that
preemption keeps, triples over them, and handlers that nest to any finite depth. -/
namespace Preemption

variable {σ ι κ : Type}

/-- A run of a list of instructions. Others may take the state before each of them. -/
inductive Runs (preempt : σ → σ → Prop) (exec : ι → σ → σ → Prop) : List ι → σ → σ → Prop
  | done (s : σ) : Runs preempt exec [] s s
  | step {i : ι} {code : List ι} {s s₁ s' : σ} (executed : exec i s s₁)
      (rest : Runs preempt exec code s₁ s') : Runs preempt exec (i :: code) s s'
  | preempted {i : ι} {code : List ι} {s s₁ s' : σ} (taken : preempt s s₁)
      (rest : Runs preempt exec (i :: code) s₁ s') : Runs preempt exec (i :: code) s s'

/-- An assertion that preemption keeps. -/
def Stable (preempt : σ → σ → Prop) (P : σ → Prop) : Prop :=
  ∀ s s', P s → preempt s s' → P s'

/-- Wherever code that starts in `P` ends, `Q` holds. -/
def Triple (preempt : σ → σ → Prop) (exec : ι → σ → σ → Prop) (P : σ → Prop) (code : List ι)
    (Q : σ → Prop) : Prop :=
  ∀ s s', P s → Runs preempt exec code s s' → Q s'

/-- Code that starts in `P` can end. -/
def CanEnd (preempt : σ → σ → Prop) (exec : ι → σ → σ → Prop) (P : σ → Prop)
    (code : List ι) : Prop :=
  ∀ s, P s → ∃ s', Runs preempt exec code s s'

variable {preempt : σ → σ → Prop} {exec : ι → σ → σ → Prop}

theorem Runs.append {first second : List ι} {s s₁ s₂ : σ} (run : Runs preempt exec first s s₁)
    (next : Runs preempt exec second s₁ s₂) : Runs preempt exec (first ++ second) s s₂ := by
  induction run with
  | done _ => exact next
  | step executed _ ih => exact .step executed (ih next)
  | preempted taken _ ih => exact .preempted taken (ih next)

theorem Runs.split {first second : List ι} {s s₂ : σ}
    (run : Runs preempt exec (first ++ second) s s₂) :
    ∃ s₁, Runs preempt exec first s s₁ ∧ Runs preempt exec second s₁ s₂ := by
  generalize whole : first ++ second = code at run
  induction run generalizing first with
  | done s =>
    obtain ⟨rfl, rfl⟩ := List.append_eq_nil_iff.mp whole
    exact ⟨s, .done s, .done s⟩
  | @step i code s s₁ s' executed rest ih =>
    cases first with
    | nil =>
      rw [List.nil_append] at whole
      subst whole
      exact ⟨s, .done s, .step executed rest⟩
    | cons j first =>
      rw [List.cons_append, List.cons.injEq] at whole
      obtain ⟨rfl, same⟩ := whole
      obtain ⟨m, before, after⟩ := ih same
      exact ⟨m, .step executed before, after⟩
  | @preempted i code s s₁ s' taken rest ih =>
    cases first with
    | nil =>
      rw [List.nil_append] at whole
      subst whole
      exact ⟨s, .done s, .preempted taken rest⟩
    | cons j first =>
      obtain ⟨m, before, after⟩ := ih whole
      rw [List.cons_append, List.cons.injEq] at whole
      obtain ⟨rfl, -⟩ := whole
      exact ⟨m, .preempted taken before, after⟩

theorem Triple.nil (P : σ → Prop) : Triple preempt exec P [] P := by
  intro s s' holds run
  cases run
  exact holds

/-- One instruction, from an assertion that preemption keeps. -/
theorem Stable.single {P Q : σ → Prop} {i : ι} (stable : Stable preempt P)
    (one : ∀ s s', P s → exec i s s' → Q s') : Triple preempt exec P [i] Q := by
  intro s s' holds run
  generalize whole : [i] = code at run
  induction run with
  | done _ => cases whole
  | step executed rest _ =>
    obtain ⟨rfl, rfl⟩ := List.cons.inj whole
    cases rest
    exact one _ _ holds executed
  | preempted taken _ ih => exact ih (stable _ _ holds taken) whole

theorem Triple.append {P Q R : σ → Prop} {first second : List ι}
    (before : Triple preempt exec P first Q) (after : Triple preempt exec Q second R) :
    Triple preempt exec P (first ++ second) R := by
  intro s s' holds run
  obtain ⟨s₁, ran, rest⟩ := run.split
  exact after s₁ s' (before s s₁ holds ran) rest

theorem Triple.weaken {P Q R : σ → Prop} {code : List ι} (triple : Triple preempt exec P code Q)
    (weaker : ∀ s, Q s → R s) : Triple preempt exec P code R :=
  fun s s' holds run => weaker s' (triple s s' holds run)

/-- A precondition with an unknown of which something is known. -/
theorem Triple.unknown {τ : Type} {K : τ → Prop} {P : τ → σ → Prop} {Q : σ → Prop}
    {code : List ι} (each : ∀ x, K x → Triple preempt exec (P x) code Q) :
    Triple preempt exec (fun s => ∃ x, K x ∧ P x s) code Q := by
  intro s s' holds run
  obtain ⟨x, known, here⟩ := holds
  exact each x known s s' here run

/-- A postcondition that forgets what exactly is known. -/
theorem Triple.forget {τ : Type} {K : τ → Prop} {P : σ → Prop} {Q : τ → σ → Prop}
    {code : List ι} {x : τ} (triple : Triple preempt exec P code (Q x)) (known : K x) :
    Triple preempt exec P code fun s => ∃ x, K x ∧ Q x s :=
  triple.weaken fun _ holds => ⟨x, known, holds⟩

/-- Code whose instructions each move an assertion's index as a function says. -/
theorem Triple.foldl {τ : Type} {A : τ → σ → Prop} {J : τ → Prop} {f : τ → ι → τ}
    {code : List ι} (kept : ∀ i ∈ code, ∀ x, J x → J (f x i))
    (one : ∀ i ∈ code, ∀ x, J x → Triple preempt exec (A x) [i] (A (f x i)))
    {x : τ} (start : J x) : Triple preempt exec (A x) code (A (code.foldl f x)) := by
  induction code generalizing x with
  | nil => exact .nil _
  | cons i code ih =>
    have here := one i List.mem_cons_self x start
    have later := ih (fun j member => kept j (List.mem_cons_of_mem i member))
      (fun j member => one j (List.mem_cons_of_mem i member))
      (kept i List.mem_cons_self x start)
    exact here.append later

theorem CanEnd.append {P Q : σ → Prop} {first second : List ι}
    (before : CanEnd preempt exec P first) (triple : Triple preempt exec P first Q)
    (after : CanEnd preempt exec Q second) : CanEnd preempt exec P (first ++ second) := by
  intro s holds
  obtain ⟨s₁, ran⟩ := before s holds
  obtain ⟨s₂, rest⟩ := after s₁ (triple s s₁ holds ran)
  exact ⟨s₂, ran.append rest⟩

theorem CanEnd.single {P : σ → Prop} {i : ι} (one : ∀ s, P s → ∃ s', exec i s s') :
    CanEnd preempt exec P [i] := by
  intro s holds
  obtain ⟨s', executed⟩ := one s holds
  exact ⟨s', .step executed (.done s')⟩

theorem CanEnd.of_total {code : List ι} (total : ∀ i ∈ code, ∀ s, ∃ s', exec i s s')
    (P : σ → Prop) : CanEnd preempt exec P code := by
  intro s holds
  clear holds
  induction code generalizing s with
  | nil => exact ⟨s, .done s⟩
  | cons i code ih =>
    obtain ⟨s₁, executed⟩ := total i List.mem_cons_self s
    obtain ⟨s', rest⟩ := ih (fun j member => total j (List.mem_cons_of_mem i member)) s₁
    exact ⟨s', .step executed rest⟩

/-- Handlers of a kind each, which others of at most some depth preempt. -/
def Nested (body : (κ → σ → σ → Prop) → κ → σ → σ → Prop) : Nat → κ → σ → σ → Prop
  | 0 => fun _ _ _ => False
  | depth + 1 => body (Nested body depth)

/-- What a handler guarantees when those that preempt it do, they all guarantee. -/
theorem Nested.guarantee {body : (κ → σ → σ → Prop) → κ → σ → σ → Prop}
    {good : κ → σ → σ → Prop}
    (sound : ∀ handlers : κ → σ → σ → Prop, (∀ k s s', handlers k s s' → good k s s') →
      ∀ k s s', body handlers k s s' → good k s s') (depth : Nat) {k : κ} {s s' : σ}
    (run : Nested body depth k s s') : good k s s' := by
  induction depth generalizing k s s' with
  | zero => exact run.elim
  | succ depth ih => exact sound (Nested body depth) (fun _ _ _ inner => ih inner) k s s' run

end Preemption
