import ZephyrRiscv.Transition
import Mathlib.Algebra.BigOperators.Group.Finset.Basic
import Mathlib.Data.Fintype.Basic

set_option autoImplicit false

/- Threads over a shared memory: each has the code that is left to it, and a step runs the
first statement of one thread. -/
namespace Interleaving

open Transition

variable {ι Stmt Shared Vars : Type}

structure Thread (Stmt Vars : Type) where
  code : List Stmt
  vars : Vars
deriving DecidableEq

structure Conf (ι Shared Stmt Vars : Type) where
  shared : Shared
  thread : ι → Thread Stmt Vars

/-- What a statement does: the thread that runs it, the code after it, the thread's own
variables and the shared memory give the new memory and the thread that goes on. -/
abbrev Exec (ι Shared Stmt Vars : Type) :=
  ι → Stmt → List Stmt → Vars → Shared → Shared × Thread Stmt Vars

/-- A bounded loop whose body does not read the index. -/
def forUpto (n : Nat) (body : List Stmt) : List Stmt :=
  (List.replicate n body).flatten

@[simp] theorem forUpto_zero (body : List Stmt) : forUpto 0 body = [] := rfl

@[simp] theorem forUpto_succ (n : Nat) (body : List Stmt) :
    forUpto (n + 1) body = body ++ forUpto n body := by
  simp [forUpto, List.replicate_succ]

theorem mem_forUpto {n : Nat} {body : List Stmt} {stmt : Stmt}
    (member : stmt ∈ forUpto n body) : stmt ∈ body := by
  simp only [forUpto, List.mem_flatten] at member
  obtain ⟨part, copied, member⟩ := member
  exact List.eq_of_mem_replicate copied ▸ member

variable [DecidableEq ι]

/-- A thread without code stays as it is. -/
def step (exec : Exec ι Shared Stmt Vars) (s : Conf ι Shared Stmt Vars) (i : ι) :
    Conf ι Shared Stmt Vars :=
  match (s.thread i).code with
  | [] => s
  | stmt :: rest =>
      let next := exec i stmt rest (s.thread i).vars s.shared
      { shared := next.1, thread := Function.update s.thread i next.2 }

/-- The interleavings: any thread may take the next step. -/
def interleave (exec : Exec ι Shared Stmt Vars) (s : Conf ι Shared Stmt Vars) (i : ι) :
    Option (Conf ι Shared Stmt Vars) :=
  some (step exec s i)

variable {exec : Exec ι Shared Stmt Vars} {s : Conf ι Shared Stmt Vars} {i j : ι}

theorem step_nil (here : (s.thread i).code = []) : step exec s i = s := by
  simp [step, here]

theorem step_cons {stmt : Stmt} {rest : List Stmt} (here : (s.thread i).code = stmt :: rest) :
    step exec s i =
      { shared := (exec i stmt rest (s.thread i).vars s.shared).1
        thread := Function.update s.thread i (exec i stmt rest (s.thread i).vars s.shared).2 } := by
  simp [step, here]

/-- A statement that waits. -/
theorem step_waits {stmt : Stmt} {rest : List Stmt} (here : (s.thread i).code = stmt :: rest)
    (waits : exec i stmt rest (s.thread i).vars s.shared =
      (s.shared, ⟨stmt :: rest, (s.thread i).vars⟩)) : step exec s i = s := by
  have same : (⟨stmt :: rest, (s.thread i).vars⟩ : Thread Stmt Vars) = s.thread i := by
    rw [← here]
  rw [step_cons here, waits]
  simp only [same, Function.update_eq_self]

theorem update_vars (thread : ι → Thread Stmt Vars) (i : ι) (t : Thread Stmt Vars) :
    (fun j => (Function.update thread i t j).vars) =
      Function.update (fun j => (thread j).vars) i t.vars := by
  funext j
  by_cases this : j = i
  · subst this
    simp
  · simp [this]

/-- The sum of a quantity over all threads after one of them moved. -/
theorem sum_update [Fintype ι] {P : Type} (f : P → Nat) (place : ι → P) (i : ι) (p : P) :
    ∑ j, f (Function.update place i p j) + f (place i) = ∑ j, f (place j) + f p := by
  have split (g : ι → P) : ∑ j, f (g j) = f (g i) + ∑ j ∈ Finset.univ.erase i, f (g j) :=
    (Finset.add_sum_erase _ (fun j => f (g j)) (Finset.mem_univ i)).symm
  have rest : ∑ j ∈ Finset.univ.erase i, f (Function.update place i p j) =
      ∑ j ∈ Finset.univ.erase i, f (place j) := by
    apply Finset.sum_congr rfl
    intro j member
    rw [Function.update_of_ne (Finset.ne_of_mem_erase member)]
  rw [split, split place, rest, Function.update_self]
  omega

structure Guards (held : Prop) (inside : ι → Prop) : Prop where
  held : held ↔ ∃ i, inside i
  one : ∀ i j, inside i → inside j → i = j

section Guards

omit [DecidableEq ι]

variable {held held' : Prop} {inside inside' : ι → Prop}

theorem Guards.keep (guards : Guards held inside) (same : held' ↔ held)
    (frame : ∀ j, inside' j ↔ inside j) : Guards held' inside' := by
  constructor
  · rw [same, guards.held]
    exact exists_congr fun j => (frame j).symm
  · intro i j left right
    exact guards.one i j ((frame i).mp left) ((frame j).mp right)

theorem Guards.acquire (guards : Guards held inside) (free : ¬ held) (now : held')
    (enters : inside' i) (frame : ∀ j, j ≠ i → (inside' j ↔ inside j)) :
    Guards held' inside' := by
  have only (j : ι) (there : inside' j) : j = i := by
    by_contra different
    exact free (guards.held.mpr ⟨j, (frame j different).mp there⟩)
  constructor
  · exact ⟨fun _ => ⟨i, enters⟩, fun _ => now⟩
  · intro j k left right
    rw [only j left, only k right]

theorem Guards.release (guards : Guards held inside) (owner : inside i) (now : ¬ held')
    (leaves : ¬ inside' i) (frame : ∀ j, j ≠ i → (inside' j ↔ inside j)) :
    Guards held' inside' := by
  have none (j : ι) : ¬ inside' j := by
    intro there
    by_cases same : j = i
    · exact leaves (same ▸ there)
    · exact same (guards.one j i ((frame j same).mp there) owner)
  constructor
  · exact ⟨fun held => absurd held now, fun ⟨j, there⟩ => absurd there (none j)⟩
  · intro j k left
    exact absurd left (none j)

end Guards

/-- Every thread is scheduled again after every moment. -/
def Fair (label : Nat → ι) : Prop :=
  ∀ i t, ∃ t', t ≤ t' ∧ label t' = i

omit [DecidableEq ι] in
/-- Where every step keeps the state or shrinks a measure, and some thread can change each state
outside `P`, every fair run comes to `P` again and again. -/
theorem Fair.eventually {σ : Type} {next : σ → ι → σ} {μ : σ → Nat} {P : σ → Prop}
    {run : Nat → σ} {label : Nat → ι} (fair : Fair label)
    (steps : ∀ t, run (t + 1) = next (run t) (label t))
    (shrinks : ∀ t, run (t + 1) = run t ∨ μ (run (t + 1)) < μ (run t))
    (moves : ∀ t, ¬ P (run t) → ∃ i, next (run t) i ≠ run t) (t : Nat) :
    ∃ t', t ≤ t' ∧ P (run t') := by
  induction bound : μ (run t) using Nat.strongRecOn generalizing t with
  | ind m ih =>
    by_cases there : P (run t)
    · exact ⟨t, Nat.le_refl t, there⟩
    · obtain ⟨i, changes⟩ := moves t there
      obtain ⟨t', later, scheduled⟩ := fair i t
      -- as long as nothing changes, the step of `i` still would change the state
      have shrunk : ∃ u, t ≤ u ∧ μ (run u) < μ (run t) := by
        by_contra never
        have unchanged : ∀ d, run (t + d) = run t := by
          intro d
          induction d with
          | zero => rfl
          | succ d same =>
            rcases shrinks (t + d) with kept | smaller
            · exact kept.trans same
            · rw [same] at smaller
              exact absurd ⟨t + d + 1, by omega, smaller⟩ never
        obtain ⟨d, rfl⟩ := Nat.exists_eq_add_of_le later
        have stepped := steps (t + d)
        rw [scheduled, unchanged d, Nat.add_assoc, unchanged (d + 1)] at stepped
        exact changes stepped.symm
      obtain ⟨u, after, smaller⟩ := shrunk
      obtain ⟨t'', before, reached⟩ := ih _ (bound ▸ smaller) u rfl
      exact ⟨t'', Nat.le_trans after before, reached⟩

end Interleaving
