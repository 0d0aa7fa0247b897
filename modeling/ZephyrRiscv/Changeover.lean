import Mathlib.Data.List.Basic
import Mathlib.Tactic.Common

set_option autoImplicit false

/- What can be seen of a structure while an operation changes it word by word: answers
that switch from the old one to the new one, and a walker that follows the structure one
read at a time and may remember where it got to and what it found. -/
namespace Changeover

section Switches
variable {ι ρ : Type} {f₀ f₁ f₂ : ι → ρ} {early late : List (ι → ρ)}

/-- Whatever is seen on the way is what was seen before, or what is seen after. -/
def Switches (before after : ι → ρ) (seen : List (ι → ρ)) : Prop :=
  ∀ f ∈ seen, ∀ i, f i = before i ∨ f i = after i

theorem Switches.silent (same : ∀ f ∈ early, f = f₀) (after : ι → ρ) :
    Switches f₀ after early := by
  intro f member i
  rw [same f member]
  exact Or.inl rfl

theorem Switches.last (silent : ∀ f ∈ early, f = f₀) : Switches f₀ f₁ (early ++ [f₁]) := by
  intro f member i
  obtain old | new := List.mem_append.mp member
  · rw [silent f old]
    exact Or.inl rfl
  · rw [List.mem_singleton.mp new]
    exact Or.inr rfl

/-- Two changes in a row are one, where no answer changes twice. -/
theorem Switches.append (first : Switches f₀ f₁ early) (second : Switches f₁ f₂ late)
    (once : ∀ i, f₁ i = f₀ i ∨ f₂ i = f₁ i) : Switches f₀ f₂ (early ++ late) := by
  intro f member i
  obtain before | after := List.mem_append.mp member
  · obtain old | new := first f before i
    · exact Or.inl old
    · obtain unchanged | settled := once i
      · exact Or.inl (new.trans unchanged)
      · exact Or.inr (new.trans settled.symm)
  · obtain old | new := second f after i
    · obtain unchanged | settled := once i
      · exact Or.inl (old.trans unchanged)
      · exact Or.inr (old.trans settled.symm)
    · exact Or.inr new

end Switches

/-- What one read makes of a node. -/
inductive Reply (ν ρ : Type) where
  | next (node : ν)
  | answer (r : ρ)
  | fault
deriving DecidableEq

/-- How questions are answered: from a root node, through nodes that each serve some
questions, to an answer that is filed under the key of its question. -/
structure Walker (μ ν ι κ ρ : Type) where
  root : ν
  serves : ν → ι → Prop
  read : μ → ν → ι → Reply ν ρ
  key : ι → κ

/-- What is walked, and what the walker remembers. -/
structure State (μ ν κ ρ : Type) where
  source : μ
  nodes : List ν
  answers : List (κ × ρ)

inductive Action (μ ν ι κ ρ : Type) where
  | walk (node : ν) (question : ι)
  | forgetNode (node : ν)
  | forgetAnswer (entry : κ × ρ)
  | write (source : μ)
  | flush

variable {μ ν ι κ ρ : Type} (w : Walker μ ν ι κ ρ)

/-- A node from which the walk for a question may go on. -/
def Walker.Usable (s : State μ ν κ ρ) (node : ν) (question : ι) : Prop :=
  w.serves node question ∧ (node = w.root ∨ node ∈ s.nodes)

/-- A question is answered by what is filed under its key, or faults at some node. -/
def Walker.Sees (s : State μ ν κ ρ) (question : ι) : Option ρ → Prop
  | some r => (w.key question, r) ∈ s.answers
  | none => ∃ node, w.Usable s node question ∧ w.read s.source node question = .fault

def Walker.next [DecidableEq ν] [DecidableEq κ] [DecidableEq ρ] (s : State μ ν κ ρ) :
    Action μ ν ι κ ρ → State μ ν κ ρ
  | .walk node question =>
      match w.read s.source node question with
      | .next onward => { s with nodes := onward :: s.nodes }
      | .answer r => { s with answers := (w.key question, r) :: s.answers }
      | .fault => s
  | .forgetNode node => { s with nodes := s.nodes.erase node }
  | .forgetAnswer entry => { s with answers := s.answers.erase entry }
  | .write source => { s with source }
  | .flush => { s with nodes := [], answers := [] }

/-- All that the walker remembers is in order. -/
structure Remembers (good : ν → Prop) (fine : κ → ρ → Prop) (s : State μ ν κ ρ) : Prop where
  nodes : ∀ node ∈ s.nodes, good node
  answers : ∀ entry ∈ s.answers, fine entry.1 entry.2

/-- A read at a node in order leads to a node or an answer in order. -/
structure Walker.Sound (source : μ) (good : ν → Prop) (fine : κ → ρ → Prop) : Prop where
  root : good w.root
  next : ∀ node question onward, good node → w.serves node question →
    w.read source node question = .next onward → good onward
  answer : ∀ node question r, good node → w.serves node question →
    w.read source node question = .answer r → fine (w.key question) r

variable {w} {good good' : ν → Prop} {fine fine' : κ → ρ → Prop} {s : State μ ν κ ρ}

theorem Remembers.mono (remembers : Remembers good fine s) (nodes : ∀ node, good node → good' node)
    (answers : ∀ k r, fine k r → fine' k r) : Remembers good' fine' s :=
  ⟨fun node member => nodes node (remembers.nodes node member),
    fun entry member => answers entry.1 entry.2 (remembers.answers entry member)⟩

theorem Walker.Sound.usable {source : μ} {node : ν} {question : ι}
    (sound : w.Sound source good fine) (remembers : Remembers good fine s)
    (usable : w.Usable s node question) : good node := by
  obtain rfl | member := usable.2
  · exact sound.root
  · exact remembers.nodes node member

variable [DecidableEq ν] [DecidableEq κ] [DecidableEq ρ]

theorem Walker.next_source {action : Action μ ν ι κ ρ}
    (quiet : ∀ source, action ≠ .write source) : (w.next s action).source = s.source := by
  cases action with
  | walk node question =>
      simp only [Walker.next]
      split <;> rfl
  | write source => exact absurd rfl (quiet source)
  | _ => rfl

/-- Walking on from usable nodes, and forgetting, keep what is remembered in order. -/
theorem Walker.Sound.walk {node : ν} {question : ι} (sound : w.Sound s.source good fine)
    (remembers : Remembers good fine s) (usable : w.Usable s node question) :
    Remembers good fine (w.next s (.walk node question)) := by
  have start := sound.usable remembers usable
  simp only [Walker.next]
  split
  · rename_i onward read
    refine ⟨?_, remembers.answers⟩
    intro other member
    obtain rfl | old := List.mem_cons.mp member
    · exact sound.next node question _ start usable.1 read
    · exact remembers.nodes other old
  · rename_i r read
    refine ⟨remembers.nodes, ?_⟩
    intro entry member
    obtain rfl | old := List.mem_cons.mp member
    · exact sound.answer node question r start usable.1 read
    · exact remembers.answers entry old
  · exact remembers

theorem Remembers.forgetNode (remembers : Remembers good fine s) (node : ν) :
    Remembers good fine (w.next s (.forgetNode node)) :=
  ⟨fun other member => remembers.nodes other (List.mem_of_mem_erase member), remembers.answers⟩

theorem Remembers.forgetAnswer (remembers : Remembers good fine s) (entry : κ × ρ) :
    Remembers good fine (w.next s (.forgetAnswer entry)) :=
  ⟨remembers.nodes, fun other member => remembers.answers other (List.mem_of_mem_erase member)⟩

theorem Remembers.flushed : Remembers good fine (w.next s .flush) :=
  ⟨fun _ member => absurd member List.not_mem_nil, fun _ member => absurd member List.not_mem_nil⟩

end Changeover
