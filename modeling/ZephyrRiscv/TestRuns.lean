import ZephyrRiscv.Transition

set_option autoImplicit false

/- Tests: straight-line code whose statements others interfere with, and of which some are checks.
A proof outline gives an assertion before each statement and the codes that the test may fail
with. A test whose statements come to an end where its outline finds them comes to its end. -/
namespace TestRuns

open Transition

variable {σ τ ι ε α : Type}

/-- The test goes on behind a statement, comes to it again, or fails. -/
inductive Outcome (σ ε : Type) where
  | next (s : σ)
  | again (s : σ)
  | fail (code : ε)
deriving Repr

def Outcome.map (f : σ → τ) : Outcome σ ε → Outcome τ ε
  | .next s => .next (f s)
  | .again s => .again (f s)
  | .fail e => .fail e

/-- What a statement of the test does to the state, and what others do. -/
structure Machine (σ ι ε α : Type) where
  exec : ι → σ → Option (Outcome σ ε)
  env : σ → α → Option σ

/-- A test that runs, with the statements left to it, or one that has failed. -/
inductive Conf (σ ι ε : Type) where
  | running (code : List ι) (s : σ)
  | failed (code : ε)

def Outcome.conf (i : ι) (code : List ι) : Outcome σ ε → Conf σ ι ε
  | .next s => .running code s
  | .again s => .running (i :: code) s
  | .fail e => .failed e

/-- A test without statements has passed. -/
def Machine.step (m : Machine σ ι ε α) : Conf σ ι ε → Option α → Option (Conf σ ι ε)
  | .running (i :: code) s, none => (m.exec i s).map (Outcome.conf i code)
  | .running (i :: code) s, some a => (m.env s a).map (.running (i :: code))
  | .running [] _, _ => none
  | .failed _, _ => none

/-- The states that a test comes to. -/
def Machine.Reaches (m : Machine σ ι ε α) (code : List ι) (s : σ) : Conf σ ι ε → Prop :=
  Reachable (· = .running code s) (Fires m.step)

/-- An assertion that others keep. -/
def Machine.Stable (m : Machine σ ι ε α) (P : σ → Prop) : Prop :=
  ∀ s a s', P s → m.env s a = some s' → P s'

/-- From `P` the test comes to `Q` behind the statement, to `P` before it, or fails as `E` says. -/
def Outcome.Meets (E : ε → Prop) (P Q : σ → Prop) : Outcome σ ε → Prop
  | .next s => Q s
  | .again s => P s
  | .fail e => E e

/-- Others keep `P`, from which the statement finds what `I` asks for it. -/
structure Machine.Does (m : Machine σ ι ε α) (I : ι → σ → Prop) (E : ε → Prop) (P : σ → Prop)
    (i : ι) (Q : σ → Prop) : Prop where
  finds : ∀ s, P s → I i s
  stable : m.Stable P
  one : ∀ s o, P s → m.exec i s = some o → o.Meets E P Q

/-- A proof outline of some code. -/
inductive Outline (m : Machine σ ι ε α) (I : ι → σ → Prop) (E : ε → Prop) :
    (σ → Prop) → List ι → (σ → Prop) → Prop
  | nil (P : σ → Prop) : Outline m I E P [] P
  | cons {P Q R : σ → Prop} {i : ι} {code : List ι} (one : m.Does I E P i Q)
      (rest : Outline m I E Q code R) : Outline m I E P (i :: code) R
  | weaken {P Q R : σ → Prop} {code : List ι} (weaker : ∀ s, P s → Q s)
      (rest : Outline m I E Q code R) : Outline m I E P code R

variable {m : Machine σ ι ε α} {I : ι → σ → Prop} {E : ε → Prop} {P Q R : σ → Prop}

theorem Machine.Does.outline {i : ι} (one : m.Does I E P i Q) : Outline m I E P [i] Q :=
  .cons one (.nil Q)

theorem Outline.append {first second : List ι} (before : Outline m I E P first Q)
    (after : Outline m I E Q second R) : Outline m I E P (first ++ second) R := by
  induction before with
  | nil P => exact after
  | cons one _ ih => exact .cons one (ih after)
  | weaken weaker _ ih => exact .weaken weaker (ih after)

/-- An assertion behind the code that forgets something. -/
theorem Outline.forget {code : List ι} (outline : Outline m I E P code Q)
    (weaker : ∀ s, Q s → R s) : Outline m I E P code R := by
  have whole := outline.append (.weaken weaker (.nil R))
  rwa [List.append_nil] at whole

/-- The rounds of a loop, each with its own assertion before it. -/
theorem Outline.rounds {A : Nat → σ → Prop} {body : Nat → List ι} (n : Nat)
    (each : ∀ i < n, Outline m I E (A i) (body i) (A (i + 1))) :
    Outline m I E (A 0) ((List.range n).flatMap body) (A n) := by
  induction n with
  | zero => exact .nil (A 0)
  | succ n ih =>
    rw [List.range_succ, List.flatMap_append, List.flatMap_singleton]
    exact (ih fun i below => each i (by omega)).append (each n (by omega))

theorem Outline.finished {code : List ι} {s : σ} (outline : Outline m I E P code Q)
    (empty : code = []) (holds : P s) : Q s := by
  induction outline with
  | nil P => exact holds
  | cons _ _ _ => cases empty
  | weaken weaker _ ih => exact ih empty (weaker s holds)

/-- An outline whose code is not done begins with what its first statement does. -/
theorem Outline.split {i : ι} {code : List ι} (outline : Outline m I E P (i :: code) R) :
    ∃ P' Q, (∀ s, P s → P' s) ∧ m.Does I E P' i Q ∧ Outline m I E Q code R := by
  generalize whole : i :: code = all at outline
  induction outline with
  | nil P => cases whole
  | cons one rest _ =>
    cases whole
    exact ⟨_, _, fun _ holds => holds, one, rest⟩
  | weaken weaker _ ih =>
    obtain ⟨P', Q', weaker', one, rest⟩ := ih whole
    exact ⟨P', Q', fun s holds => weaker' s (weaker s holds), one, rest⟩

/-- What an outline says of a test that has come so far. -/
def Conf.Meets (m : Machine σ ι ε α) (I : ι → σ → Prop) (E : ε → Prop) (Q : σ → Prop) :
    Conf σ ι ε → Prop
  | .running code s => ∃ P, Outline m I E P code Q ∧ P s
  | .failed e => E e

theorem Conf.Meets.step {c c' : Conf σ ι ε} {label : Option α} (meets : c.Meets m I E Q)
    (fired : m.step c label = some c') : c'.Meets m I E Q := by
  cases c with
  | failed e => cases fired
  | running code s =>
    obtain ⟨P, outline, holds⟩ := meets
    cases code with
    | nil => cases label <;> cases fired
    | cons i code =>
      obtain ⟨P', Q', weaker, one, rest⟩ := outline.split
      have now := weaker s holds
      cases label with
      | none =>
        obtain ⟨o, done, rfl⟩ := Option.map_eq_some_iff.mp fired
        have came := one.one s o now done
        cases o with
        | next s' => exact ⟨Q', rest, came⟩
        | again s' => exact ⟨P', .cons one rest, came⟩
        | fail e => exact came
      | some a =>
        obtain ⟨s', moved, rfl⟩ := Option.map_eq_some_iff.mp fired
        exact ⟨P', .cons one rest, one.stable s a s' now moved⟩

/-- An outline bounds what a test can come to, however the others interfere. -/
theorem Outline.sound {code : List ι} {s : σ} (outline : Outline m I E P code Q) (holds : P s)
    {c : Conf σ ι ε} (reached : m.Reaches code s c) : c.Meets m I E Q := by
  refine reached.invariant ?_ fun _ _ _ meets fired => meets.step fired
  rintro c rfl
  exact ⟨P, outline, holds⟩

theorem Outline.fails {code : List ι} {s : σ} (outline : Outline m I E P code Q) (holds : P s)
    {e : ε} (reached : m.Reaches code s (.failed e)) : E e :=
  outline.sound holds reached

theorem Outline.passes {code : List ι} {s s' : σ} (outline : Outline m I E P code Q) (holds : P s)
    (reached : m.Reaches code s (.running [] s')) : Q s' := by
  obtain ⟨P', rest, now⟩ := outline.sound holds reached
  exact rest.finished rfl now

/-- A statement that finds more than it is asked for. -/
theorem Machine.Does.finding {J : ι → σ → Prop} {i : ι} (one : m.Does I E P i Q)
    (finds : ∀ s, P s → J i s) : m.Does J E P i Q :=
  ⟨finds, one.stable, one.one⟩

theorem Machine.Does.both {J : ι → σ → Prop} {F : ε → Prop} {P' Q' : σ → Prop} {i : ι}
    (first : m.Does I E P i Q) (second : m.Does J F P' i Q') :
    m.Does (fun i s => I i s ∧ J i s) (fun e => E e ∧ F e) (fun s => P s ∧ P' s) i
      (fun s => Q s ∧ Q' s) := by
  refine ⟨fun s holds => ⟨first.finds s holds.1, second.finds s holds.2⟩, ?_, ?_⟩
  · intro s a s' holds moved
    exact ⟨first.stable s a s' holds.1 moved, second.stable s a s' holds.2 moved⟩
  · intro s o holds done
    have one := first.one s o holds.1 done
    have two := second.one s o holds.2 done
    cases o <;> exact ⟨one, two⟩

/-- Two outlines of the same code: it fails only as both say. -/
theorem Outline.both {J : ι → σ → Prop} {F : ε → Prop} {P' Q' : σ → Prop} {code : List ι}
    (first : Outline m I E P code Q) (second : Outline m J F P' code Q') :
    Outline m (fun i s => I i s ∧ J i s) (fun e => E e ∧ F e) (fun s => P s ∧ P' s) code
      (fun s => Q s ∧ Q' s) := by
  induction first generalizing P' with
  | nil P => exact .weaken (fun s holds => ⟨holds.1, second.finished rfl holds.2⟩) (.nil _)
  | cons one rest ih =>
    obtain ⟨P₁, Q₁, weaker, two, rest'⟩ := second.split
    exact .weaken (fun s holds => ⟨holds.1, weaker s holds.2⟩) (.cons (one.both two) (ih rest'))
  | weaken weaker rest ih =>
    exact .weaken (fun s holds => ⟨weaker s holds.1, holds.2⟩) (ih second)

/-- A machine whose states show those of another one and whose steps are steps of it. -/
structure Machine.Covers (m : Machine σ ι ε α) (m' : Machine τ ι ε α) (f : τ → σ) : Prop where
  env : ∀ x a x', m'.env x a = some x' → m.env (f x) a = some (f x')
  exec : ∀ i x o, m'.exec i x = some o → m.exec i (f x) = some (o.map f)

theorem Machine.Does.pull {m' : Machine τ ι ε α} {f : τ → σ} {i : ι} (one : m.Does I E P i Q)
    (covers : m.Covers m' f) :
    m'.Does (fun i x => I i (f x)) E (fun x => P (f x)) i (fun x => Q (f x)) := by
  refine ⟨fun x => one.finds (f x), ?_, ?_⟩
  · intro x a x' holds moved
    exact one.stable (f x) a (f x') holds (covers.env x a x' moved)
  · intro x o holds done
    have meets := one.one (f x) (o.map f) holds (covers.exec i x o done)
    cases o <;> exact meets

theorem Outline.pull {m' : Machine τ ι ε α} {f : τ → σ} {code : List ι}
    (outline : Outline m I E P code Q) (covers : m.Covers m' f) :
    Outline m' (fun i x => I i (f x)) E (fun x => P (f x)) code (fun x => Q (f x)) := by
  induction outline with
  | nil P => exact .nil _
  | cons one _ ih => exact .cons (one.pull covers) ih
  | weaken weaker _ ih => exact .weaken (fun x => weaker (f x)) ih

/-- A test that may fail in more ways, and whose statements find less. -/
theorem Outline.wider {J : ι → σ → Prop} {F : ε → Prop} {code : List ι}
    (outline : Outline m I E P code Q) (finds : ∀ i ∈ code, ∀ s, I i s → J i s)
    (wider : ∀ e, E e → F e) : Outline m J F P code Q := by
  induction outline with
  | nil P => exact .nil P
  | cons one _ ih =>
    refine .cons ⟨fun s holds => finds _ List.mem_cons_self s (one.finds s holds), one.stable,
      fun s o holds done => ?_⟩ (ih fun i member => finds i (List.mem_cons_of_mem _ member))
    have meets := one.one s o holds done
    cases o with
    | next s' => exact meets
    | again s' => exact meets
    | fail e => exact wider e meets
  | weaken weaker _ ih => exact .weaken weaker (ih finds)

/-- What the statement that a test has come to finds. -/
theorem Outline.finds {code rest : List ι} {i : ι} {s s' : σ} (outline : Outline m I E P code Q)
    (holds : P s) (reached : m.Reaches code s (.running (i :: rest) s')) : I i s' := by
  obtain ⟨P', ahead, now⟩ := outline.sound holds reached
  obtain ⟨P'', Q', weaker, one, rest'⟩ := ahead.split
  exact one.finds s' (weaker s' now)

/-- An outline splits where its code does. -/
theorem Outline.split_append {first second : List ι}
    (outline : Outline m I E P (first ++ second) R) :
    ∃ Q, Outline m I E P first Q ∧ Outline m I E Q second R := by
  induction first generalizing P with
  | nil => exact ⟨P, .nil P, outline⟩
  | cons i first ih =>
    obtain ⟨P', Q', weaker, one, rest⟩ := outline.split
    obtain ⟨Q, before, after⟩ := ih rest
    exact ⟨Q, .weaken weaker (.cons one before), after⟩

/-- The machine on its own: nobody interferes. -/
def Machine.alone (m : Machine σ ι ε α) : Machine σ ι ε α := { m with env := fun _ _ => none }

section
variable {code rest : List ι} {i : ι} {s t : σ} {c : Conf σ ι ε}

theorem Machine.Reaches.start (m : Machine σ ι ε α) (code : List ι) (s : σ) :
    m.Reaches code s (.running code s) :=
  Reachable.start rfl

theorem Machine.Reaches.exec {o : Outcome σ ε} (reached : m.Reaches code s (.running (i :: rest) t))
    (done : m.exec i t = some o) : m.Reaches code s (o.conf i rest) :=
  Reachable.next reached (a := none) (congrArg (Option.map (Outcome.conf i rest)) done)

theorem Machine.Reaches.env {a : α} {t' : σ} (reached : m.Reaches code s (.running (i :: rest) t))
    (moved : m.env t a = some t') : m.Reaches code s (.running (i :: rest) t') :=
  Reachable.next reached (a := some a) (congrArg (Option.map (Conf.running (i :: rest))) moved)

theorem Machine.Reaches.trans {code' : List ι} (reached : m.Reaches code s (.running code' t))
    (onward : m.Reaches code' t c) : m.Reaches code s c :=
  Reachable.trans reached onward

/-- The code behind what runs. -/
def Conf.onto (rest : List ι) : Conf σ ι ε → Conf σ ι ε
  | .running code s => .running (code ++ rest) s
  | .failed e => .failed e

/-- A test goes on in front of more code. -/
theorem Machine.Reaches.onto (reached : m.Reaches code s c) (rest : List ι) :
    m.Reaches (code ++ rest) s (c.onto rest) := by
  have start : ∀ c : Conf σ ι ε, c = .running code s →
      m.Reaches (code ++ rest) s (c.onto rest) := by
    rintro c rfl
    exact .start m (code ++ rest) s
  refine reached.invariant (I := fun c => m.Reaches (code ++ rest) s (c.onto rest)) start
    fun c label c' before fired => ?_
  cases c with
  | failed e => cases fired
  | running code t =>
    cases code with
    | nil => cases label <;> cases fired
    | cons i code =>
      cases label with
      | none =>
        obtain ⟨o, done, rfl⟩ := Option.map_eq_some_iff.mp fired
        have next := Machine.Reaches.exec before done
        cases o <;> exact next
      | some a =>
        obtain ⟨t', moved, rfl⟩ := Option.map_eq_some_iff.mp fired
        exact Machine.Reaches.env before moved

/-- The test has come to an end with so much left. -/
def Conf.Over (left : σ → Nat) (n : Nat) : Conf σ ι ε → Prop
  | .running [] s => n ≤ left s
  | .running (_ :: _) _ => False
  | .failed _ => True

/-- The statement can be brought to an end with so much left. -/
def Machine.Ends (m : Machine σ ι ε α) (left : σ → Nat) (n : Nat) (i : ι) (s : σ) : Prop :=
  ∃ c, m.Reaches [i] s c ∧ c.Over left n

variable {left : σ → Nat} {cost : Nat}

/-- A test that does not fail comes to its end when its statements do. -/
theorem Outline.completes (outline : Outline m I (fun _ => False) P code Q)
    (ends : ∀ i s n, I i s → n + cost ≤ left s → m.Ends left n i s) (holds : P s) {n : Nat}
    (enough : n + code.length * cost ≤ left s) :
    ∃ t, m.Reaches code s (.running [] t) ∧ Q t ∧ n ≤ left t := by
  induction outline generalizing s with
  | nil P => exact ⟨s, .start m [] s, holds, by simpa using enough⟩
  | weaken weaker _ ih => exact ih (weaker s holds) enough
  | @cons P Q R i code one rest ih =>
    rw [List.length_cons, Nat.succ_mul] at enough
    obtain ⟨c, reached, outcome⟩ := ends i s (n + code.length * cost) (one.finds s holds) (by omega)
    have meets := one.outline.sound holds reached
    match c, outcome with
    | .failed e, _ => exact absurd meets id
    | .running [] t, spare =>
      obtain ⟨t', onward, last, kept⟩ := ih (one.outline.passes holds reached) spare
      exact ⟨t', (reached.onto code).trans onward, last, kept⟩

/-- From wherever it has come to, it can be brought behind any part of what is ahead. -/
theorem Outline.goes_on {whole : List ι} (outline : Outline m I (fun _ => False) P whole R)
    (ends : ∀ i s n, I i s → n + cost ≤ left s → m.Ends left n i s) (holds : P s)
    (reached : m.Reaches whole s (.running (code ++ rest) t))
    (enough : code.length * cost ≤ left t) :
    ∃ t', m.Reaches (code ++ rest) t (.running rest t') := by
  obtain ⟨P', ahead, now⟩ := outline.sound holds reached
  obtain ⟨Q, before, -⟩ := ahead.split_append
  obtain ⟨t', onward, -, -⟩ := before.completes (n := 0) ends now (by omega)
  exact ⟨t', onward.onto rest⟩

end

end TestRuns
