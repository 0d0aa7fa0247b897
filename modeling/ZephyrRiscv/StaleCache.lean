import Mathlib.Data.List.Basic
import Mathlib.Algebra.Group.Nat.Defs
import Mathlib.Tactic.Common

set_option autoImplicit false

/- A cache of answers that nobody keeps up to date: it may take in the current answer to
any question and lose any entry at any time, and only a flush is sure to remove one. -/
namespace StaleCache

variable {μ ι κ ρ : Type} (key : ι → κ) (answer : μ → ι → Option ρ)

/-- The source of the answers, and the entries. Two entries of one key may differ. -/
structure State (μ κ ρ : Type) where
  source : μ
  entries : List (κ × ρ)

/-- A question may be answered from the cache or from the source. -/
def Answers (s : State μ κ ρ) (question : ι) (r : ρ) : Prop :=
  (key question, r) ∈ s.entries ∨ answer s.source question = some r

/-- The source answers the questions of a key within a set. -/
def Current (k : κ) (P : ρ → Prop) (source : μ) : Prop :=
  ∀ question r, key question = k → answer source question = some r → P r

/-- All answers to the questions of a key lie within a set. -/
structure Confined (k : κ) (P : ρ → Prop) (s : State μ κ ρ) : Prop where
  cached : ∀ r, (k, r) ∈ s.entries → P r
  current : Current key answer k P s.source

inductive Action (μ ι κ ρ : Type) where
  | fill (question : ι)
  | drop (entry : κ × ρ)
  | write (source : μ)
  | flush (k : κ)
  | flushAll

def next [DecidableEq κ] [DecidableEq ρ] (s : State μ κ ρ) : Action μ ι κ ρ → State μ κ ρ
  | .fill question =>
      match answer s.source question with
      | some r => { s with entries := (key question, r) :: s.entries }
      | none => s
  | .drop entry => { s with entries := s.entries.erase entry }
  | .write source => { s with source }
  | .flush k => { s with entries := s.entries.filter fun entry => entry.1 ≠ k }
  | .flushAll => { s with entries := [] }

variable {key answer} {k : κ} {P Q : ρ → Prop} {s : State μ κ ρ}

theorem Confined.answers (confined : Confined key answer k P s) {question : ι} {r : ρ}
    (same : key question = k) (answers : Answers key answer s question r) : P r := by
  cases answers with
  | inl cached =>
      rw [same] at cached
      exact confined.cached r cached
  | inr fresh => exact confined.current question r same fresh

theorem Confined.mono (confined : Confined key answer k P s) (weaker : ∀ r, P r → Q r) :
    Confined key answer k Q s :=
  ⟨fun r cached => weaker r (confined.cached r cached),
    fun question r same fresh => weaker r (confined.current question r same fresh)⟩

variable [DecidableEq κ] [DecidableEq ρ]

theorem next_source {action : Action μ ι κ ρ} (quiet : ∀ source, action ≠ .write source) :
    (next key answer s action).source = s.source := by
  cases action with
  | fill question =>
      simp only [next]
      split <;> rfl
  | write source => exact absurd rfl (quiet source)
  | _ => rfl

/-- A write keeps the entries, so both the old and the new answers must be allowed. -/
theorem Confined.write (confined : Confined key answer k P s) {source : μ}
    (current : Current key answer k P source) :
    Confined key answer k P (next key answer s (.write source)) :=
  ⟨confined.cached, current⟩

/-- Nothing but a write brings in new answers. -/
theorem Confined.quiet (confined : Confined key answer k P s) {action : Action μ ι κ ρ}
    (quiet : ∀ source, action ≠ .write source) :
    Confined key answer k P (next key answer s action) := by
  cases action with
  | fill question =>
      simp only [next]
      split
      · rename_i r fresh
        refine ⟨?_, confined.current⟩
        intro r' cached
        cases List.mem_cons.mp cached with
        | inl new =>
            obtain ⟨same, rfl⟩ := Prod.mk.inj new
            exact confined.current question r' same.symm fresh
        | inr old => exact confined.cached r' old
      · exact confined
  | drop entry =>
      exact ⟨fun r cached => confined.cached r (List.mem_of_mem_erase cached), confined.current⟩
  | write source => exact absurd rfl (quiet source)
  | flush k' =>
      exact ⟨fun r cached => confined.cached r (List.mem_of_mem_filter cached), confined.current⟩
  | flushAll => exact ⟨fun _ cached => absurd cached List.not_mem_nil, confined.current⟩

/-- After a flush of its key only the source answers. -/
theorem Confined.flushed (current : Current key answer k P s.source) :
    Confined key answer k P (next key answer s (.flush k)) := by
  refine ⟨?_, current⟩
  intro r cached
  have other := (List.mem_filter.mp cached).2
  exact absurd rfl (of_decide_eq_true other)

theorem Confined.flushedAll (current : Current key answer k P s.source) :
    Confined key answer k P (next key answer s .flushAll) :=
  ⟨fun _ cached => absurd cached List.not_mem_nil, current⟩

end StaleCache
