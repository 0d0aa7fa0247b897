import Mathlib.Data.List.Basic
import Mathlib.Data.List.Infix
import Mathlib.Logic.Function.Basic
import Mathlib.Algebra.Group.Nat.Defs
import Mathlib.Tactic.Common

set_option autoImplicit false

/- Multi-level tables whose words either link to a table of the next level or
end the descent. Tables, keys and words are arbitrary types; `child` reads the
link out of a word and `present` says whether a final word maps anything. -/
namespace RadixForest

variable {ν κ α : Type} (child : α → Option ν) (present : α → Bool)

/-- The table reached by following one link for each key. -/
def descend (words : ν → κ → α) : ν → List κ → Option ν
  | n, [] => some n
  | n, k :: ks => (child (words n k)).bind fun c => descend words c ks

/-- The first word on the path that is not followed, and the number of keys
left below it. The word of the last key is never followed. -/
def find (words : ν → κ → α) : ν → List κ → Option (Nat × α)
  | _, [] => none
  | n, [k] => some (0, words n k)
  | n, k :: k' :: ks =>
      match child (words n k) with
      | none => some (ks.length + 1, words n k)
      | some c => find words c (k' :: ks)

/-- The final word of a path when it maps something. -/
def leaf (words : ν → κ → α) (n : ν) (keys : List κ) : Option (Nat × α) :=
  (find child words n keys).filter fun found => present found.2

/-- Every link of a live table of positive level goes one level down to a live
table, and no two links go to the same table. -/
structure Forest (words : ν → κ → α) (level : ν → Nat) (live : ν → Prop) : Prop where
  linked : ∀ {n k c}, live n → 0 < level n → child (words n k) = some c →
    live c ∧ level c + 1 = level n
  unshared : ∀ {n k n' k' c}, live n → live n' → 0 < level n → 0 < level n' →
    child (words n k) = some c → child (words n' k') = some c → n = n' ∧ k = k'

variable {child present} {words words' : ν → κ → α} {level : ν → Nat} {live : ν → Prop}

@[simp] theorem descend_nil (n : ν) : descend child words n [] = some n := rfl

theorem descend_append (n : ν) (first second : List κ) :
    descend child words n (first ++ second) =
      (descend child words n first).bind fun m => descend child words m second := by
  induction first generalizing n with
  | nil => rfl
  | cons k first ih =>
      simp only [List.cons_append, descend, Option.bind_assoc]
      congr 1
      funext c
      exact ih c

theorem descend_snoc {n c : ν} {path : List κ} {k : κ} :
    descend child words n (path ++ [k]) = some c ↔
      ∃ m, descend child words n path = some m ∧ child (words m k) = some c := by
  simp only [descend_append, descend, Option.bind_eq_some_iff, Option.some.injEq]
  constructor
  · rintro ⟨m, reached, c', link, rfl⟩
    exact ⟨m, reached, link⟩
  · rintro ⟨m, reached, link⟩
    exact ⟨m, reached, c, link, rfl⟩

theorem find_cons {n : ν} {k : κ} {ks : List κ} (more : ks ≠ []) :
    find child words n (k :: ks) =
      match child (words n k) with
      | none => some (ks.length, words n k)
      | some c => find child words c ks := by
  cases ks with
  | nil => exact absurd rfl more
  | cons k' ks => rfl

/-- The descent along a prefix that links all the way. -/
theorem find_through {n m : ν} {path keys : List κ} (more : keys ≠ [])
    (reached : descend child words n path = some m) :
    find child words n (path ++ keys) = find child words m keys := by
  induction path generalizing n with
  | nil => rw [List.nil_append, Option.some.inj reached]
  | cons k path ih =>
      simp only [descend, Option.bind_eq_some_iff] at reached
      obtain ⟨c, link, onward⟩ := reached
      rw [List.cons_append, find_cons (by simp [more]), link]
      exact ih onward

/-- Words that agree along a path agree along what is left of it below its first link. -/
theorem agree_below {n c : ν} {k : κ} {keys : List κ}
    (same : ∀ front j m, front ++ [j] <+: k :: keys → descend child words n front = some m →
      words' m j = words m j)
    (link : child (words n k) = some c) :
    ∀ front j m, front ++ [j] <+: keys → descend child words c front = some m →
      words' m j = words m j := by
  intro front j m below reached
  exact same (k :: front) j m (by simpa using below) (by simpa [descend, link] using reached)

theorem descend_congr {n : ν} {path : List κ}
    (same : ∀ front k m, front ++ [k] <+: path → descend child words n front = some m →
      words' m k = words m k) :
    descend child words' n path = descend child words n path := by
  induction path generalizing n with
  | nil => rfl
  | cons k path ih =>
      simp only [descend, same [] k n (by simp) rfl]
      cases link : child (words n k) with
      | none => rfl
      | some c => exact ih (agree_below same link)

theorem find_congr {n : ν} {keys : List κ}
    (same : ∀ front k m, front ++ [k] <+: keys → descend child words n front = some m →
      words' m k = words m k) :
    find child words' n keys = find child words n keys := by
  induction keys generalizing n with
  | nil => rfl
  | cons k keys ih =>
      have here := same [] k n (by simp) rfl
      cases keys with
      | nil => simp only [find, here]
      | cons k' keys =>
          rw [find_cons (by simp), find_cons (by simp), here]
          cases link : child (words n k) with
          | none => rfl
          | some c => exact ih (agree_below same link)

theorem find_lt {n : ν} {keys : List κ} {l : Nat} {w : α}
    (found : find child words n keys = some (l, w)) : l < keys.length := by
  induction keys generalizing n with
  | nil => simp [find] at found
  | cons k keys ih =>
      cases keys with
      | nil =>
          simp only [find, Option.some.injEq, Prod.mk.injEq] at found
          simp [← found.1]
      | cons k' keys =>
          rw [find_cons (by simp)] at found
          cases link : child (words n k) with
          | none =>
              simp only [link, Option.some.injEq, Prod.mk.injEq] at found
              simp [← found.1]
          | some c =>
              simp only [link] at found
              exact Nat.lt_succ_of_lt (ih found)

/-- Only the keys above the final word decide where a descent ends. -/
theorem find_uniform {n : ν} {keys keys' : List κ} {l : Nat} {w : α}
    (length : keys'.length = keys.length)
    (agree : keys'.take (keys.length - l) = keys.take (keys.length - l))
    (found : find child words n keys = some (l, w)) :
    find child words n keys' = some (l, w) := by
  induction keys generalizing n keys' with
  | nil => simp [find] at found
  | cons k keys ih =>
      cases keys' with
      | nil => simp at length
      | cons j keys' =>
          have bound := find_lt found
          simp only [List.length_cons, Nat.add_right_cancel_iff] at length bound
          rw [List.length_cons, show keys.length + 1 - l = keys.length - l + 1 by omega,
            List.take_succ_cons, List.take_succ_cons] at agree
          obtain ⟨rfl, rest⟩ := List.cons.inj agree
          by_cases more : keys = []
          · subst more
            rw [List.length_eq_zero_iff.mp length]
            exact found
          · have more' : keys' ≠ [] := by
              rintro rfl
              exact more (List.length_eq_zero_iff.mp length.symm)
            rw [find_cons more] at found
            rw [find_cons more', length]
            cases link : child (words n j) with
            | none => simpa only [link] using found
            | some c =>
                simp only [link] at found ⊢
                exact ih length rest found

theorem Forest.descend_live (forest : Forest child words level live) {root n : ν}
    {path : List κ} (alive : live root) (bound : path.length ≤ level root)
    (reached : descend child words root path = some n) :
    live n ∧ level n + path.length = level root := by
  induction path generalizing root with
  | nil =>
      rw [← Option.some.inj reached]
      exact ⟨alive, rfl⟩
  | cons k path ih =>
      simp only [descend, Option.bind_eq_some_iff] at reached
      obtain ⟨c, link, onward⟩ := reached
      simp only [List.length_cons] at bound ⊢
      obtain ⟨aliveChild, down⟩ := forest.linked alive (by omega) link
      obtain ⟨aliveEnd, total⟩ := ih aliveChild (by omega) onward
      exact ⟨aliveEnd, by omega⟩

theorem Forest.descend_injective (forest : Forest child words level live) {root n : ν}
    {path other : List κ} (alive : live root) (bound : path.length ≤ level root)
    (otherBound : other.length ≤ level root) (reached : descend child words root path = some n)
    (otherReached : descend child words root other = some n) : path = other := by
  have total := (forest.descend_live alive bound reached).2
  have otherTotal := (forest.descend_live alive otherBound otherReached).2
  induction path using List.reverseRecOn generalizing other n with
  | nil =>
      simp only [List.length_nil] at total
      exact (List.length_eq_zero_iff.mp (by omega)).symm
  | append_singleton path k ih =>
      cases other using List.reverseRecOn with
      | nil => simp only [List.length_append, List.length_singleton, List.length_nil] at *; omega
      | append_singleton other j =>
          simp only [List.length_append, List.length_singleton] at bound otherBound
          obtain ⟨m, toM, link⟩ := descend_snoc.mp reached
          obtain ⟨m', toM', link'⟩ := descend_snoc.mp otherReached
          obtain ⟨aliveM, totalM⟩ := forest.descend_live alive (by omega) toM
          obtain ⟨aliveM', totalM'⟩ := forest.descend_live alive (by omega) toM'
          obtain ⟨rfl, rfl⟩ := forest.unshared aliveM aliveM' (by omega) (by omega) link link'
          rw [ih (by omega) (by omega) toM toM' totalM totalM']

/-- A path that does not go through a slot meets no word that a change of the slot changes. -/
theorem Forest.agree_off (forest : Forest child words level live) {root n : ν} {k : κ}
    {path keys : List κ} (alive : live root) (bound : path.length ≤ level root)
    (reached : descend child words root path = some n) (keysBound : keys.length ≤ level root + 1)
    (off : ∀ m j, live m → ¬ (m = n ∧ j = k) → words' m j = words m j)
    (apart : ¬ path ++ [k] <+: keys) :
    ∀ front j m, front ++ [j] <+: keys → descend child words root front = some m →
      words' m j = words m j := by
  intro front j m below toM
  have length := below.length_le
  simp only [List.length_append, List.length_singleton] at length
  refine off m j (forest.descend_live alive (by omega) toM).1 ?_
  rintro ⟨rfl, rfl⟩
  rw [forest.descend_injective alive (by omega) bound toM reached] at below
  exact apart below

theorem Forest.descend_frame (forest : Forest child words level live) {root n : ν} {k : κ}
    {path other : List κ} (alive : live root) (bound : path.length ≤ level root)
    (reached : descend child words root path = some n) (otherBound : other.length ≤ level root)
    (off : ∀ m j, live m → ¬ (m = n ∧ j = k) → words' m j = words m j)
    (apart : ¬ path ++ [k] <+: other) :
    descend child words' root other = descend child words root other :=
  descend_congr (forest.agree_off alive bound reached (by omega) off apart)

theorem Forest.find_frame (forest : Forest child words level live) {root n : ν} {k : κ}
    {path keys : List κ} (alive : live root) (bound : path.length ≤ level root)
    (reached : descend child words root path = some n) (keysBound : keys.length ≤ level root + 1)
    (off : ∀ m j, live m → ¬ (m = n ∧ j = k) → words' m j = words m j)
    (apart : ¬ path ++ [k] <+: keys) :
    find child words' root keys = find child words root keys :=
  find_congr (forest.agree_off alive bound reached keysBound off apart)

/-- The path to a table survives a change of one of the table's own slots. -/
theorem Forest.descend_own (forest : Forest child words level live) {root n : ν} {k : κ}
    {path : List κ} (alive : live root) (bound : path.length ≤ level root)
    (reached : descend child words root path = some n)
    (off : ∀ m j, live m → ¬ (m = n ∧ j = k) → words' m j = words m j) :
    descend child words' root path = some n := by
  rw [forest.descend_frame alive bound reached bound off, reached]
  intro below
  have length := below.length_le
  simp only [List.length_append, List.length_singleton] at length
  omega

theorem Forest.write (forest : Forest child words level live) {n : ν} {k : κ}
    (off : ∀ m j, live m → ¬ (m = n ∧ j = k) → words' m j = words m j)
    (ends : 0 < level n → child (words' n k) = none) : Forest child words' level live := by
  have old : ∀ {m j c}, live m → 0 < level m → child (words' m j) = some c →
      child (words m j) = some c := by
    intro m j c alive positive link
    by_cases same : m = n ∧ j = k
    · obtain ⟨rfl, rfl⟩ := same
      rw [ends positive] at link
      cases link
    · rwa [off m j alive same] at link
  constructor
  · intro m j c alive positive link
    exact forest.linked alive positive (old alive positive link)
  · intro m j m' j' c alive alive' positive positive' link link'
    exact forest.unshared alive alive' positive positive' (old alive positive link)
      (old alive' positive' link')

theorem Forest.find_write [DecidableEq κ] (forest : Forest child words level live) {root n : ν}
    {k : κ} {path : List κ} (alive : live root) (bound : path.length ≤ level root)
    (reached : descend child words root path = some n)
    (off : ∀ m j, live m → ¬ (m = n ∧ j = k) → words' m j = words m j)
    (ends : 0 < level n → child (words' n k) = none) {keys : List κ}
    (full : keys.length = level root + 1) :
    find child words' root keys =
      if path ++ [k] <+: keys then some (level n, words' n k) else find child words root keys := by
  have total := (forest.descend_live alive bound reached).2
  by_cases below : path ++ [k] <+: keys
  · rw [if_pos below]
    obtain ⟨rest, rfl⟩ := below
    have restLength : rest.length = level n := by
      simp only [List.length_append, List.length_singleton] at full
      omega
    rw [List.append_assoc, find_through (by simp) (forest.descend_own alive bound reached off)]
    cases rest with
    | nil => rw [← restLength]; rfl
    | cons j rest =>
        rw [List.singleton_append, find_cons (by simp), ends (by rw [← restLength]; simp),
          restLength]
  · rw [if_neg below]
    exact forest.find_frame alive bound reached (by omega) off below

variable (present) in
theorem Forest.leaf_write [DecidableEq κ] (forest : Forest child words level live) {root n : ν}
    {k : κ} {path : List κ} (alive : live root) (bound : path.length ≤ level root)
    (reached : descend child words root path = some n)
    (off : ∀ m j, live m → ¬ (m = n ∧ j = k) → words' m j = words m j)
    (ends : 0 < level n → child (words' n k) = none) {keys : List κ}
    (full : keys.length = level root + 1) :
    leaf child present words' root keys =
      if path ++ [k] <+: keys then
        if present (words' n k) then some (level n, words' n k) else none
      else leaf child present words root keys := by
  simp only [leaf, forest.find_write alive bound reached off ends full]
  by_cases below : path ++ [k] <+: keys
  · simp only [below, ↓reduceIte, Option.filter_some]
  · simp only [below, ↓reduceIte]

theorem Forest.graft [DecidableEq ν] (forest : Forest child words level live) {n c : ν} {k : κ}
    (aliveN : live n) (positive : 0 < level n) (fresh : ¬ live c)
    (off : ∀ m j, live m → ¬ (m = n ∧ j = k) → words' m j = words m j)
    (link : child (words' n k) = some c) (blank : ∀ j, child (words' c j) = none) :
    Forest child words' (Function.update level c (level n - 1)) (fun m => live m ∨ m = c) := by
  have levels : ∀ {m}, live m → Function.update level c (level n - 1) m = level m := by
    intro m alive
    rw [Function.update_of_ne]
    rintro rfl
    exact fresh alive
  -- a link of the grown forest is the new one or an old one, and only the new one goes to `c`
  have old : ∀ {m j d}, live m ∨ m = c → child (words' m j) = some d →
      live m ∧ (m = n ∧ j = k ∧ d = c ∨ ¬ (m = n ∧ j = k) ∧ child (words m j) = some d) := by
    intro m j d alive linked
    rcases alive with alive | rfl
    · refine ⟨alive, ?_⟩
      by_cases same : m = n ∧ j = k
      · obtain ⟨rfl, rfl⟩ := same
        rw [link] at linked
        exact Or.inl ⟨rfl, rfl, (Option.some.inj linked).symm⟩
      · exact Or.inr ⟨same, by rwa [off m j alive same] at linked⟩
    · rw [blank] at linked
      cases linked
  constructor
  · intro m j d alive above linked
    obtain ⟨aliveM, ⟨rfl, rfl, rfl⟩ | ⟨-, linkedOld⟩⟩ := old alive linked
    · refine ⟨Or.inr rfl, ?_⟩
      rw [levels aliveM, Function.update_self]
      omega
    · rw [levels aliveM] at above
      obtain ⟨aliveD, down⟩ := forest.linked aliveM above linkedOld
      refine ⟨Or.inl aliveD, ?_⟩
      rw [levels aliveM, levels aliveD]
      exact down
  · intro m j m' j' d alive alive' above above' linked linked'
    obtain ⟨aliveM, first⟩ := old alive linked
    obtain ⟨aliveM', second⟩ := old alive' linked'
    rw [levels aliveM] at above
    rw [levels aliveM'] at above'
    rcases first with ⟨rfl, rfl, rfl⟩ | ⟨-, linkedOld⟩
    · rcases second with ⟨rfl, rfl, -⟩ | ⟨-, linkedOld'⟩
      · exact ⟨rfl, rfl⟩
      · exact absurd (forest.linked aliveM' above' linkedOld').1 fresh
    · rcases second with ⟨rfl, rfl, rfl⟩ | ⟨-, linkedOld'⟩
      · exact absurd (forest.linked aliveM above linkedOld).1 fresh
      · exact forest.unshared aliveM aliveM' above above' linkedOld linkedOld'

/-- A descent through the new link ends in the blank table, one level down. -/
theorem Forest.find_graft [DecidableEq κ] (forest : Forest child words level live)
    {root n c : ν} {k : κ} {path : List κ} (alive : live root) (bound : path.length ≤ level root)
    (reached : descend child words root path = some n) (positive : 0 < level n)
    (off : ∀ m j, live m → ¬ (m = n ∧ j = k) → words' m j = words m j)
    (link : child (words' n k) = some c) {zero : α} (blank : ∀ j, words' c j = zero)
    (ends : child zero = none) {keys : List κ} (full : keys.length = level root + 1) :
    find child words' root keys =
      if path ++ [k] <+: keys then some (level n - 1, zero) else find child words root keys := by
  have total := (forest.descend_live alive bound reached).2
  by_cases below : path ++ [k] <+: keys
  · rw [if_pos below]
    obtain ⟨rest, rfl⟩ := below
    simp only [List.length_append, List.length_singleton] at full
    cases rest with
    | nil => simp only [List.length_nil] at full; omega
    | cons j rest =>
        simp only [List.length_cons] at full
        rw [List.append_assoc, find_through (by simp) (forest.descend_own alive bound reached off),
          List.singleton_append, find_cons (by simp), link]
        have final : find child words' c (j :: rest) = some (rest.length, zero) := by
          cases rest with
          | nil => simp only [find, blank j, List.length_nil]
          | cons i rest => simp only [find, blank j, ends, List.length_cons]
        rw [show level n - 1 = rest.length by omega]
        exact final
  · rw [if_neg below]
    exact forest.find_frame alive bound reached (by omega) off below

variable (present) in
theorem Forest.leaf_graft (forest : Forest child words level live) {root n c : ν} {k : κ}
    {path : List κ} (alive : live root) (bound : path.length ≤ level root)
    (reached : descend child words root path = some n) (positive : 0 < level n)
    (off : ∀ m j, live m → ¬ (m = n ∧ j = k) → words' m j = words m j)
    (absent : child (words n k) = none ∧ present (words n k) = false)
    (link : child (words' n k) = some c)
    (blank : ∀ j, child (words' c j) = none ∧ present (words' c j) = false) {keys : List κ}
    (full : keys.length = level root + 1) :
    leaf child present words' root keys = leaf child present words root keys := by
  have total := (forest.descend_live alive bound reached).2
  by_cases below : path ++ [k] <+: keys
  · obtain ⟨rest, rfl⟩ := below
    cases rest with
    | nil => simp only [List.length_append, List.length_singleton, List.length_nil] at full; omega
    | cons j rest =>
        have before : find child words root (path ++ [k] ++ j :: rest) =
            some ((j :: rest).length, words n k) := by
          rw [List.append_assoc, find_through (by simp) reached, List.singleton_append,
            find_cons (by simp), absent.1]
        have after : find child words' root (path ++ [k] ++ j :: rest) =
            some (rest.length, words' c j) := by
          rw [List.append_assoc,
            find_through (by simp) (forest.descend_own alive bound reached off),
            List.singleton_append, find_cons (by simp), link]
          cases rest with
          | nil => rfl
          | cons i rest => simp only [find, (blank j).1, List.length_cons]
        simp only [leaf, before, after, Option.filter_some, absent.2, (blank j).2,
          Bool.false_eq_true, ↓reduceIte]
  · simp only [leaf, forest.find_frame alive bound reached (by omega) off below]

variable (child) in
/-- The tables that a word of the given level leads to, by way of the given keys. -/
def below (keys : List κ) (words : ν → κ → α) : Nat → α → List ν
  | 0, _ => []
  | l + 1, w =>
      match child w with
      | none => []
      | some c => c :: keys.flatMap fun k => below keys words l (words c k)

theorem below_none {keys : List κ} {l : Nat} {w : α} (ends : child w = none) :
    below child keys words l w = [] := by
  cases l with
  | zero => rfl
  | succ l => simp only [below, ends]

theorem mem_below {keys : List κ} (all : ∀ k, k ∈ keys) {l : Nat} {w : α} {c n : ν}
    {path : List κ} (link : child w = some c) (reached : descend child words c path = some n)
    (bound : path.length < l) : n ∈ below child keys words l w := by
  induction path generalizing l w c with
  | nil =>
      obtain ⟨l, rfl⟩ := Nat.exists_eq_add_one.mpr bound
      simp only [below, link, Option.some.inj reached, List.mem_cons, true_or]
  | cons k path ih =>
      obtain ⟨l, rfl⟩ := Nat.exists_eq_add_one.mpr (Nat.zero_lt_of_lt bound)
      simp only [descend, Option.bind_eq_some_iff] at reached
      obtain ⟨d, linkD, onward⟩ := reached
      have inner := ih linkD onward (Nat.lt_of_succ_lt_succ bound)
      simp only [below, link]
      exact List.mem_cons_of_mem c (List.mem_flatMap.mpr ⟨k, all k, inner⟩)

/-- A table keeps its path, or the old word of the written slot led to it. -/
theorem Forest.descend_lost (forest : Forest child words level live) {root n m : ν} {k : κ}
    {path other keys : List κ} (all : ∀ k, k ∈ keys) (alive : live root)
    (bound : path.length ≤ level root) (reached : descend child words root path = some n)
    (otherBound : other.length ≤ level root)
    (otherReached : descend child words root other = some m)
    (off : ∀ m j, live m → ¬ (m = n ∧ j = k) → words' m j = words m j) :
    descend child words' root other = some m ∨
      m ∈ below child keys words (level n) (words n k) := by
  by_cases through : path ++ [k] <+: other
  · apply Or.inr
    obtain ⟨rest, rfl⟩ := through
    have total := (forest.descend_live alive bound reached).2
    simp only [List.length_append, List.length_singleton] at otherBound
    rw [List.append_assoc, descend_append, reached] at otherReached
    simp only [List.singleton_append, Option.bind_some, descend, Option.bind_eq_some_iff]
      at otherReached
    obtain ⟨c, link, onward⟩ := otherReached
    apply mem_below all link onward
    omega
  · apply Or.inl
    rw [forest.descend_frame alive bound reached otherBound off through]
    exact otherReached

end RadixForest
