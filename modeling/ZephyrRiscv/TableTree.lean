import ZephyrRiscv.MmuRefinement

set_option autoImplicit false

namespace ZephyrRiscv.Tables

open Sv39 Mmu RadixForest

def words (m : Mem) (t : BitVec 64) (k : BitVec 9) : BitVec 64 := m (slot t k)

/-- The address and level of the entry at which the links of an address end. -/
def endOf (m : Mem) (va : BitVec 64) : Nat → BitVec 64 → BitVec 64 × Nat
  | 0, table => (slot table (vpn va 0), 0)
  | l + 1, table =>
      match child (m (slot table (vpn va (l + 1)))) with
      | none => (slot table (vpn va (l + 1)), l + 1)
      | some next => endOf m va l next

/-- The level and word at which the links of each address end. -/
abbrev View := BitVec 64 → Nat × BitVec 64

def view (m : Mem) (root : BitVec 64) : View :=
  fun va => ((endOf m va 2 root).2, m (endOf m va 2 root).1)

/-- Every address of one block ends in the same entry. -/
def View.setBlock (v : View) (level : Nat) (va : BitVec 64) (final : Nat × BitVec 64) : View :=
  fun a => if SameBlock level va a then final else v a

/-- A blank table under the entry in which an address ends. -/
def View.deepen (v : View) (va : BitVec 64) (l : Nat) : View :=
  if (v va).1 = l + 1 then v.setBlock (l + 1) va (l, 0#64) else v

/-- The tables that an entry of a level needs, from the top down. -/
def View.deepenTo (v : View) (va : BitVec 64) (level : Nat) : Nat → View
  | 0 => v
  | steps + 1 => (v.deepen va (level + steps)).deepenTo va level steps

/-- An entry of a level, with the tables it needs. -/
def View.map (v : View) (va : BitVec 64) (level : Nat) (pte : BitVec 64) : View :=
  (v.deepenTo va level (2 - level)).setBlock level va (level, pte)

/-- No valid leaf covers an address above a level. -/
def View.Clear (v : View) (level : Nat) (va : BitVec 64) : Prop :=
  level < (v va).1 → (v va).2 &&& PTE_V = 0#64

instance (v : View) (level : Nat) (va : BitVec 64) : Decidable (v.Clear level va) :=
  inferInstanceAs (Decidable (_ → _))

/-- The table that the links of an address lead to at a level. -/
def At (m : Mem) (root va : BitVec 64) (l : Nat) (t : BitVec 64) : Prop :=
  descend child (words m) root (pathTo va l) = some t

/-- Live tables that form a forest under a root of level 2, each link exactly a page
number with V. -/
structure TableTree (m : Mem) (live : BitVec 64 → Prop) (root : BitVec 64)
    (level : BitVec 64 → Nat) : Prop where
  rooted : live root
  rootLevel : level root = 2
  aligned : ∀ {t}, live t → t.toNat % 4096 = 0
  physical : ∀ {t}, live t → t.toNat + 4096 ≤ 2 ^ 56
  forest : Forest child (words m) level live
  exact : ∀ {t k c}, live t → 0 < level t → child (words m t k) = some c →
    words m t k = physToPpn c ||| PTE_V

theorem at_root (m : Mem) (root va : BitVec 64) : At m root va 2 root := rfl

theorem at_succ {m : Mem} {root va t : BitVec 64} {l : Nat} (bound : l + 1 ≤ 2) :
    At m root va l t ↔
      ∃ above, At m root va (l + 1) above ∧ child (m (slot above (vpn va (l + 1)))) = some t := by
  rw [At, pathTo_succ va bound, descend_snoc]
  exact Iff.rfl

theorem endOf_link {m : Mem} {va t next : BitVec 64} {l : Nat}
    (link : child (m (slot t (vpn va (l + 1)))) = some next) :
    endOf m va (l + 1) t = endOf m va l next := by
  rw [endOf, link]

/-- The links of an address end where they end from any table on the way. -/
theorem At.endOf_eq {m : Mem} {root va t : BitVec 64} {l : Nat} (bound : l ≤ 2)
    (here : At m root va l t) : endOf m va 2 root = endOf m va l t := by
  induction steps : 2 - l generalizing l t with
  | zero =>
      obtain rfl : l = 2 := by omega
      rw [Option.some.inj here]
  | succ n ih =>
      obtain ⟨above, reached, link⟩ := (at_succ (by omega)).mp here
      rw [ih (by omega) reached (by omega), endOf_link link]

/-- Where the links of an address end, the entry is of level 0 or is no link. -/
theorem endOf_spec (m : Mem) (root va : BitVec 64) {l : Nat} (bound : l ≤ 2) {t : BitVec 64}
    (here : At m root va l t) :
    ∃ k table, k ≤ 2 ∧ At m root va k table ∧
      endOf m va 2 root = (slot table (vpn va k), k) ∧
      (0 < k → child (m (slot table (vpn va k))) = none) := by
  induction l generalizing t with
  | zero =>
      refine ⟨0, t, bound, here, ?_, fun positive => absurd positive (by omega)⟩
      rw [here.endOf_eq bound, endOf]
  | succ l ih =>
      cases link : child (m (slot t (vpn va (l + 1)))) with
      | none =>
          refine ⟨l + 1, t, bound, here, ?_, fun _ => link⟩
          rw [here.endOf_eq bound, endOf, link]
      | some next => exact ih (by omega) ((at_succ (by omega)).mpr ⟨t, here, link⟩)

theorem view_stop {m : Mem} {root va t : BitVec 64} {l : Nat} (bound : l ≤ 2)
    (here : At m root va l t) (ends : 0 < l → child (m (slot t (vpn va l))) = none) :
    endOf m va 2 root = (slot t (vpn va l), l) := by
  rw [here.endOf_eq bound]
  cases l with
  | zero => rfl
  | succ l => rw [endOf, ends (by omega)]

/-- A view is what the descent finds. -/
theorem find_view (m : Mem) (root va : BitVec 64) :
    find child (words m) root (keys va) = some (view m root va) := by
  obtain ⟨l, t, bound, here, final, ends⟩ := endOf_spec m root va (le_refl 2) (at_root m root va)
  obtain ⟨rest, length, split⟩ := keys_split va bound
  rw [view, final, split, find_through (by simp) here]
  cases rest with
  | nil =>
      rw [← length]
      rfl
  | cons k rest =>
      rw [find_cons (by simp)]
      have stops : child (words m t (vpn va l)) = none := ends (by rw [← length]; simp)
      rw [stops, length]
      rfl

theorem view_level (m : Mem) (root va : BitVec 64) : (view m root va).1 ≤ 2 := by
  obtain ⟨l, t, bound, -, final, -⟩ := endOf_spec m root va (le_refl 2) (at_root m root va)
  rw [view, final]
  exact bound

theorem endOf_level (m : Mem) (va : BitVec 64) (l : Nat) (t : BitVec 64) :
    (endOf m va l t).2 ≤ l := by
  induction l generalizing t with
  | zero => exact le_refl 0
  | succ l ih =>
      rw [endOf]
      split
      · exact le_refl (l + 1)
      · rename_i next _
        exact Nat.le_succ_of_le (ih next)

theorem At.view_level {m : Mem} {root va t : BitVec 64} {l : Nat} (bound : l ≤ 2)
    (here : At m root va l t) : (view m root va).1 ≤ l := by
  rw [view, here.endOf_eq bound]
  exact endOf_level m va l t

/-- One entry serves its whole block. -/
theorem view_uniform {m : Mem} {root va a : BitVec 64}
    (same : SameBlock (view m root va).1 va a) : view m root a = view m root va := by
  have bound := view_level m root va
  have agree := (prefix_keys_iff va a bound).mpr same
  have split : (keys va).take (3 - (view m root va).1) =
      pathTo va (view m root va).1 ++ [vpn va (view m root va).1] := by
    generalize (view m root va).1 = l at *
    rcases (by omega : l = 0 ∨ l = 1 ∨ l = 2) with rfl | rfl | rfl <;> rfl
  rw [← split] at agree
  have heads := List.prefix_iff_eq_take.mp agree
  rw [List.length_take, show (keys va).length = 3 from rfl, Nat.min_eq_left (by omega)] at heads
  have length : (keys a).length = (keys va).length := rfl
  have found := find_uniform length heads.symm (find_view m root va)
  exact Option.some.inj ((find_view m root a).symm.trans found)

theorem View.setBlock_same {v : View} {l : Nat} {va a : BitVec 64} {final : Nat × BitVec 64}
    (same : SameBlock l va a) : v.setBlock l va final a = final := if_pos same

theorem View.setBlock_other {v : View} {l : Nat} {va a : BitVec 64} {final : Nat × BitVec 64}
    (other : ¬ SameBlock l va a) : v.setBlock l va final a = v a := if_neg other

theorem View.Clear.deepen {v : View} {level : Nat} {va : BitVec 64} (clear : v.Clear level va)
    (l : Nat) : (v.deepen va l).Clear level va := by
  intro above
  by_cases ends : (v va).1 = l + 1
  · rw [View.deepen, if_pos ends, View.setBlock_same rfl]
    exact BitVec.zero_and
  · rw [View.deepen, if_neg ends] at above ⊢
    exact clear above

theorem sameBlock_mono {l k : Nat} {va a : BitVec 64} (order : l ≤ k)
    (same : SameBlock l va a) : SameBlock k va a := by
  obtain ⟨n, rfl⟩ := Nat.exists_eq_add_of_le order
  unfold SameBlock at same ⊢
  rw [Nat.pow_add, ← Nat.div_div_eq_div_mul, same, Nat.div_div_eq_div_mul]

/-- One entry serves its whole block. -/
def View.Uniform (v : View) : Prop := ∀ va a, SameBlock (v va).1 va a → v a = v va

theorem View.Uniform.setBlock {v : View} {l k : Nat} {va : BitVec 64} (uniform : v.Uniform)
    (pte : BitVec 64) (order : l ≤ k) (ends : (v va).1 ≤ k) :
    (v.setBlock k va (l, pte)).Uniform := by
  intro b a same
  by_cases inside : SameBlock k va b
  · rw [setBlock_same inside] at same ⊢
    exact setBlock_same (inside.trans (sameBlock_mono order same))
  · rw [setBlock_other inside] at same ⊢
    have outside : ¬ SameBlock k va a := by
      intro insideA
      by_cases small : (v b).1 ≤ k
      · exact inside (insideA.trans (sameBlock_mono small same).symm)
      · -- the entry of `b` would serve `va` too, from a level above `k`
        have upper := sameBlock_mono (k := (v b).1) (by omega) insideA
        have shared := uniform b va (same.trans upper.symm)
        rw [shared] at ends
        exact small ends
    rw [setBlock_other outside]
    exact uniform b a same

theorem View.Uniform.deepen {v : View} (uniform : v.Uniform) (va : BitVec 64) (l : Nat) :
    (v.deepen va l).Uniform := by
  rw [View.deepen]
  split
  · rename_i ends
    exact uniform.setBlock 0#64 (Nat.le_succ l) (by omega)
  · exact uniform

/-- The entry of an address is the same one, or a zero entry of a lower level. -/
def View.Deeper (v v' : View) (a : BitVec 64) : Prop :=
  v' a = v a ∨ (v' a).1 < (v a).1 ∧ (v' a).2 = 0#64

theorem View.Deeper.trans {v v' v'' : View} {a : BitVec 64} (first : v.Deeper v' a)
    (second : v'.Deeper v'' a) : v.Deeper v'' a := by
  obtain same | ⟨lower, zero⟩ := second
  · rw [View.Deeper, same]
    exact first
  · apply Or.inr
    refine ⟨?_, zero⟩
    obtain same | ⟨below, -⟩ := first
    · rwa [← same]
    · exact Nat.lt_trans lower below

theorem View.Uniform.deepenTo {v : View} (uniform : v.Uniform) (va : BitVec 64) (level : Nat)
    (steps : Nat) (a : BitVec 64) : v.Deeper (v.deepenTo va level steps) a := by
  induction steps generalizing v with
  | zero => exact Or.inl rfl
  | succ steps ih =>
      have below : v.Deeper (v.deepen va (level + steps)) a := by
        rw [View.Deeper, View.deepen]
        split
        · rename_i ends
          by_cases inside : SameBlock (level + steps + 1) va a
          · have shared := uniform va a (ends ▸ inside)
            rw [setBlock_same inside, shared, ends]
            exact Or.inr ⟨Nat.lt_succ_self _, rfl⟩
          · exact Or.inl (setBlock_other inside)
        · exact Or.inl rfl
      exact below.trans (ih (uniform.deepen va (level + steps)))

/-- Off its block a mapping leaves entries alone or puts zero entries below them. -/
theorem View.Uniform.map_other {v : View} (uniform : v.Uniform) {va a : BitVec 64} {level : Nat}
    (pte : BitVec 64) (other : ¬ SameBlock level va a) : v.Deeper (v.map va level pte) a := by
  rw [View.Deeper, View.map, setBlock_other other]
  exact uniform.deepenTo va level (2 - level) a

/-- A view in which one entry serves its whole block, and whose invalid entries above
the last level are zero. -/
structure View.Regular (v : View) : Prop where
  bounded : ∀ a, (v a).1 ≤ 2
  uniform : ∀ va a, SameBlock (v va).1 va a → v a = v va
  blank : ∀ a, 0 < (v a).1 → (v a).2 &&& PTE_V = 0#64 → (v a).2 = 0#64

theorem View.deepen_level {v : View} {va : BitVec 64} {l : Nat} (ends : (v va).1 ≤ l + 1) :
    (v.deepen va l va).1 ≤ l := by
  rw [View.deepen]
  split
  · rw [View.setBlock_same rfl]
  · omega

namespace View.Regular

variable {v : View} {level l k : Nat} {va a pte : BitVec 64}

theorem setBlock (regular : v.Regular) (va pte : BitVec 64) (bound : l ≤ 2) (order : l ≤ k)
    (ends : (v va).1 ≤ k) (blank : 0 < l → pte &&& PTE_V = 0#64 → pte = 0#64) :
    (v.setBlock k va (l, pte)).Regular := by
  constructor
  · intro b
    by_cases inside : SameBlock k va b
    · rw [setBlock_same inside]
      exact bound
    · rw [setBlock_other inside]
      exact regular.bounded b
  · exact View.Uniform.setBlock regular.uniform pte order ends
  · intro b above invalid
    by_cases inside : SameBlock k va b
    · rw [setBlock_same inside] at above invalid ⊢
      exact blank above invalid
    · rw [setBlock_other inside] at above invalid ⊢
      exact regular.blank b above invalid

theorem deepen (regular : v.Regular) (bound : l + 1 ≤ 2) (va : BitVec 64) :
    (v.deepen va l).Regular := by
  rw [View.deepen]
  split
  · rename_i ends
    exact regular.setBlock va 0#64 (by omega) (Nat.le_succ l) (by omega) fun _ _ => rfl
  · exact regular

/-- Only addresses that end in the deepened entry see a change. -/
theorem deepen_apply (regular : v.Regular) (va a : BitVec 64) (l : Nat) :
    v.deepen va l a = v a ∨
      v.deepen va l a = (l, 0#64) ∧ v a = v va ∧ (v va).1 = l + 1 := by
  rw [View.deepen]
  split
  · rename_i ends
    by_cases inside : SameBlock (l + 1) va a
    · refine Or.inr ⟨setBlock_same inside, ?_, ends⟩
      exact regular.uniform va a (ends ▸ inside)
    · exact Or.inl (setBlock_other inside)
  · exact Or.inl rfl

theorem deepenTo (regular : v.Regular) (va : BitVec 64) (level steps : Nat)
    (bound : level + steps ≤ 2) (ends : (v va).1 ≤ level + steps) :
    (v.deepenTo va level steps).Regular ∧ (v.deepenTo va level steps va).1 ≤ level := by
  induction steps generalizing v with
  | zero => exact ⟨regular, ends⟩
  | succ steps ih =>
      exact ih (regular.deepen (by omega) va) (by omega) (View.deepen_level (by omega))

/-- Descending changes neither an entry's word nor what ends low enough. -/
theorem deepenTo_apply (regular : v.Regular) (steps : Nat) (bound : level + steps ≤ 2)
    (clear : v.Clear level va) (a : BitVec 64) :
    (v.deepenTo va level steps a).2 = (v a).2 ∧
      ((v a).1 ≤ level → v.deepenTo va level steps a = v a) := by
  induction steps generalizing v with
  | zero => exact ⟨rfl, fun _ => rfl⟩
  | succ steps ih =>
      have rest := ih (v := v.deepen va (level + steps)) (regular.deepen (by omega) va) (by omega)
        (clear.deepen (level + steps))
      rcases regular.deepen_apply va a (level + steps) with same | ⟨changed, shared, ends⟩
      · rw [same] at rest
        exact rest
      · rw [changed] at rest
        have zero : (v va).2 = 0#64 :=
          regular.blank va (by omega) (clear (by omega))
        refine ⟨rest.1.trans ?_, ?_⟩
        · rw [shared, zero]
        · intro low
          rw [shared, ends] at low
          omega

theorem map (regular : v.Regular) (va pte : BitVec 64) (bound : level ≤ 2)
    (blank : 0 < level → pte &&& PTE_V = 0#64 → pte = 0#64) :
    (v.map va level pte).Regular := by
  have ends := regular.bounded va
  obtain ⟨regular', low⟩ := regular.deepenTo va level (2 - level) (by omega) (by omega)
  exact regular'.setBlock va pte bound (le_refl level) low blank

theorem map_other (regular : v.Regular) (pte : BitVec 64) (bound : level ≤ 2)
    (clear : v.Clear level va) (other : ¬ SameBlock level va a) :
    (v.map va level pte a).2 = (v a).2 ∧ ((v a).1 ≤ level → v.map va level pte a = v a) := by
  rw [View.map, setBlock_other other]
  exact regular.deepenTo_apply (2 - level) (by omega) clear a

end View.Regular

theorem View.map_same {v : View} {level : Nat} {va a pte : BitVec 64}
    (same : SameBlock level va a) : v.map va level pte a = (level, pte) :=
  View.setBlock_same same

/-- The entry of an address can be unmapped. -/
def Unmappable (final : Nat × BitVec 64) : Prop := final.1 = 0 ∨ final.2 &&& PTE_V ≠ 0#64

instance (final : Nat × BitVec 64) : Decidable (Unmappable final) :=
  inferInstanceAs (Decidable (_ ∨ _))

/-- The entries left by an unmapping of `n` pages. -/
def View.unmap (v : View) (addr : BitVec 64) (n : Nat) : View :=
  fun a =>
    if Unmappable (v a) ∧ ∃ i < n, SameBlock (v a).1 (pageAfter addr i) a then ((v a).1, 0#64)
    else v a

theorem View.unmap_level (v : View) (addr a : BitVec 64) (n : Nat) :
    (v.unmap addr n a).1 = (v a).1 := by
  rw [View.unmap]
  split
  · rfl
  · rfl

theorem View.unmap_succ {v : View} (uniform : v.Uniform) (addr : BitVec 64) (n : Nat)
    (uniform' : (v.unmap addr n).Uniform) :
    v.unmap addr (n + 1) =
      if Unmappable (v.unmap addr n (pageAfter addr n)) then
        (v.unmap addr n).setBlock (v.unmap addr n (pageAfter addr n)).1 (pageAfter addr n)
          ((v.unmap addr n (pageAfter addr n)).1, 0#64)
      else v.unmap addr n := by
  funext a
  by_cases here : SameBlock (v a).1 (pageAfter addr n) a
  · -- the page of this step ends in the entry of `a`
    have shared := uniform a (pageAfter addr n) here.symm
    have level : (v.unmap addr n (pageAfter addr n)).1 = (v a).1 := by
      rw [View.unmap_level, shared]
    have now : v.unmap addr n (pageAfter addr n) = v.unmap addr n a := by
      apply uniform' a
      rw [View.unmap_level]
      exact here.symm
    have whole : v.unmap addr (n + 1) a =
        if Unmappable (v a) then ((v a).1, 0#64) else v a := by
      rw [View.unmap]
      by_cases clears : Unmappable (v a)
      · rw [if_pos clears, if_pos ⟨clears, n, Nat.lt_succ_self n, here⟩]
      · rw [if_neg clears, if_neg fun both => clears both.1]
    rw [whole, level]
    by_cases clears : Unmappable (v.unmap addr n a)
    · rw [now, if_pos clears, View.setBlock_same here]
      apply if_pos
      rw [View.unmap] at clears
      split at clears
      · rename_i both
        exact both.1
      · exact clears
    · rw [now, if_neg clears]
      rw [View.unmap] at clears ⊢
      by_cases both : Unmappable (v a) ∧ ∃ i < n, SameBlock (v a).1 (pageAfter addr i) a
      · rw [if_pos both, if_pos both.1]
      · rw [if_neg both] at clears ⊢
        rw [if_neg clears]
  · have whole : v.unmap addr (n + 1) a = v.unmap addr n a := by
      rw [View.unmap, View.unmap]
      congr 1
      apply propext
      rw [Nat.exists_lt_succ_right]
      constructor
      · rintro ⟨clears, earlier | last⟩
        · exact ⟨clears, earlier⟩
        · exact absurd last here
      · rintro ⟨clears, earlier⟩
        exact ⟨clears, Or.inl earlier⟩
    rw [whole]
    split
    · apply (View.setBlock_other _).symm
      intro same
      have shared := uniform' (pageAfter addr n) a same
      apply here
      rw [View.unmap_level] at same
      have levels := congrArg Prod.fst shared
      rw [View.unmap_level, View.unmap_level] at levels
      rw [levels]
      exact same
    · rfl

section
variable {m m' : Mem} {live : BitVec 64 → Prop} {root va t : BitVec 64} {level : BitVec 64 → Nat}
  {l : Nat}

/-- Distinct words of page-aligned tables sit at distinct addresses. -/
theorem slot_inj {t t' : BitVec 64} {k k' : BitVec 9} (aligned : t.toNat % 4096 = 0)
    (aligned' : t'.toNat % 4096 = 0) (physical : t.toNat + 4096 ≤ 2 ^ 56)
    (physical' : t'.toNat + 4096 ≤ 2 ^ 56) (same : slot t k = slot t' k') : t = t' ∧ k = k' := by
  have equal := congrArg BitVec.toNat same
  rw [slot_toNat t k (by omega), slot_toNat t' k' (by omega)] at equal
  have small := k.isLt
  have small' := k'.isLt
  exact ⟨BitVec.eq_of_toNat_eq (by omega), BitVec.eq_of_toNat_eq (by omega)⟩

theorem TableTree.store_off (tree : TableTree m live root level) (out : live t) {k : BitVec 9}
    (pte t' : BitVec 64) (k' : BitVec 9) (out' : live t') (other : ¬ (t' = t ∧ k' = k)) :
    words (m.store (slot t k) pte) t' k' = words m t' k' := by
  apply Mem.store_other
  intro same
  exact other (slot_inj (tree.aligned out') (tree.aligned out) (tree.physical out')
    (tree.physical out) same)

theorem TableTree.at_live (tree : TableTree m live root level) (bound : l ≤ 2)
    (here : At m root va l t) :
    live t ∧ level t = l := by
  have length := pathTo_length va bound
  have total := tree.forest.descend_live tree.rooted (by rw [tree.rootLevel]; omega) here
  rw [tree.rootLevel] at total
  exact ⟨total.1, by omega⟩

theorem TableTree.path_bound (tree : TableTree m live root level) (bound : l ≤ 2) (va : BitVec 64) :
    (pathTo va l).length ≤ level root := by
  have length := pathTo_length va bound
  rw [tree.rootLevel]
  omega

/-- The entry of an address lies in a live table. -/
theorem TableTree.endOf_live (tree : TableTree m live root level) (va : BitVec 64) :
    ∃ table, live table ∧ At m root va (view m root va).1 table ∧
      (endOf m va 2 root).1 = slot table (vpn va (view m root va).1) := by
  obtain ⟨l, t, bound, here, final, -⟩ := endOf_spec m root va (le_refl 2) (at_root m root va)
  rw [view, final]
  exact ⟨t, (tree.at_live bound here).1, here, rfl⟩

theorem clearTable_blank (m : Mem) {page : BitVec 64} (physical : page.toNat + 4096 ≤ 2 ^ 56)
    (k : BitVec 9) : words (clearTable m page) page k = 0#64 := by
  have small := k.isLt
  have inside : (slot page k - page).toNat < 8 * PT_ENTRIES := by
    rw [BitVec.toNat_sub, slot_toNat page k (by omega), PT_ENTRIES]
    omega
  simp only [words, clearTable, inside, ↓reduceIte, BitVec.ofNat_eq_ofNat]

theorem clearTable_off (m : Mem) {page t : BitVec 64} (apart : t ≠ page)
    (aligned : page.toNat % 4096 = 0) (physical : page.toNat + 4096 ≤ 2 ^ 56)
    (alignedT : t.toNat % 4096 = 0) (physicalT : t.toNat + 4096 ≤ 2 ^ 56) (k : BitVec 9) :
    words (clearTable m page) t k = words m t k := by
  have small := k.isLt
  have distinct : t.toNat ≠ page.toNat := fun same => apart (BitVec.eq_of_toNat_eq same)
  have outside : ¬ (slot t k - page).toNat < 8 * PT_ENTRIES := by
    rw [BitVec.toNat_sub, slot_toNat t k (by omega), PT_ENTRIES]
    omega
  simp only [words, clearTable, outside, ↓reduceIte]

theorem view_of_find {v : Nat × BitVec 64}
    (found : find child (words m) root (keys va) = some v) : view m root va = v :=
  Option.some.inj ((find_view m root va).symm.trans found)

/-- A blank root. -/
theorem TableTree.blank {root : BitVec 64} (aligned : root.toNat % 4096 = 0)
    (physical : root.toNat + 4096 ≤ 2 ^ 56) (blank : ∀ k, words m root k = 0#64) :
    TableTree m (fun t => t = root) root (fun _ => 2) ∧ view m root = fun _ => (2, 0#64) := by
  refine ⟨⟨rfl, rfl, ?_, ?_, ?_, ?_⟩, ?_⟩
  · rintro t rfl
    exact aligned
  · rintro t rfl
    exact physical
  · constructor
    · rintro n k c rfl _ link
      rw [blank k, child_zero.1] at link
      cases link
    · rintro n k n' k' c rfl _ _ _ link
      rw [blank k, child_zero.1] at link
      cases link
  · rintro t k c rfl _ link
    rw [blank k, child_zero.1] at link
    cases link
  · funext va
    have ends : 0 < 2 → child (m (slot root (vpn va 2))) = none := by
      intro _
      have word : m (slot root (vpn va 2)) = 0#64 := blank (vpn va 2)
      rw [word, child_zero.1]
    rw [view, view_stop (le_refl 2) (at_root m root va) ends]
    exact congrArg (Prod.mk 2) (blank (vpn va 2))

/-- A change outside the live tables. -/
theorem TableTree.frame (tree : TableTree m live root level)
    (same : ∀ t k, live t → words m' t k = words m t k) :
    TableTree m' live root level ∧ view m' root = view m root := by
  refine ⟨⟨tree.rooted, tree.rootLevel, tree.aligned, tree.physical, ?_, ?_⟩, ?_⟩
  · constructor
    · intro n k c alive positive link
      rw [same n k alive] at link
      exact tree.forest.linked alive positive link
    · intro n k n' k' c alive alive' positive positive' link link'
      rw [same n k alive] at link
      rw [same n' k' alive'] at link'
      exact tree.forest.unshared alive alive' positive positive' link link'
  · intro t k c alive positive link
    rw [same t k alive] at link ⊢
    exact tree.exact alive positive link
  · funext va
    apply view_of_find
    rw [← find_view m root va]
    apply find_congr
    intro front k n below reached
    have length := below.length_le
    simp only [List.length_append, List.length_singleton] at length
    refine same n k (tree.forest.descend_live tree.rooted ?_ reached).1
    rw [tree.rootLevel]
    have full : (keys va).length = 3 := rfl
    omega

theorem TableTree.at_frame (tree : TableTree m live root level)
    (same : ∀ t k, live t → words m' t k = words m t k) (bound : l ≤ 2)
    (here : At m root va l t) : At m' root va l t := by
  rw [At, descend_congr, ← At]
  · exact here
  · intro front k n below reached
    have length := below.length_le
    have total := pathTo_length va bound
    simp only [List.length_append, List.length_singleton] at length
    refine same n k (tree.forest.descend_live tree.rooted ?_ reached).1
    rw [tree.rootLevel]
    omega

/-- One entry on the path of an address written with a word that does not link. -/
theorem TableTree.write (tree : TableTree m live root level) (bound : l ≤ 2)
    (here : At m root va l t) (pte : BitVec 64) (ends : 0 < l → child pte = none) :
    TableTree (m.store (slot t (vpn va l)) pte) live root level ∧
      view (m.store (slot t (vpn va l)) pte) root = (view m root).setBlock l va (l, pte) := by
  obtain ⟨out, levelT⟩ := tree.at_live bound here
  have own : words (m.store (slot t (vpn va l)) pte) t (vpn va l) = pte := Mem.store_same ..
  have off := tree.store_off (k := vpn va l) out pte
  have stops : 0 < level t →
      child (words (m.store (slot t (vpn va l)) pte) t (vpn va l)) = none := by
    intro positive
    rw [own]
    exact ends (levelT ▸ positive)
  refine ⟨⟨tree.rooted, tree.rootLevel, tree.aligned, tree.physical,
    tree.forest.write off stops, ?_⟩, ?_⟩
  · intro n k c alive positive link
    by_cases same : n = t ∧ k = vpn va l
    · obtain ⟨rfl, rfl⟩ := same
      rw [stops positive] at link
      cases link
    · rw [off n k alive same] at link ⊢
      exact tree.exact alive positive link
  · funext a
    apply view_of_find
    have changed := tree.forest.find_write tree.rooted (tree.path_bound bound va) here off stops
      (show (keys a).length = level root + 1 by rw [tree.rootLevel]; rfl)
    rw [own, levelT, find_view m root a] at changed
    simp only [prefix_keys_iff va a bound] at changed
    rw [changed, View.setBlock]
    by_cases same : SameBlock l va a
    · rw [if_pos same, if_pos same]
    · rw [if_neg same, if_neg same]

/-- A blank page linked into an invalid entry on the path of an address. -/
theorem TableTree.link {cleared : Mem} {next : BitVec 64} (tree : TableTree m live root level)
    (bound : l + 1 ≤ 2) (here : At m root va (l + 1) t)
    (invalid : words m t (vpn va (l + 1)) &&& PTE_V = 0#64) (fresh : ¬ live next)
    (aligned : next.toNat % 4096 = 0) (physical : next.toNat + 4096 ≤ 2 ^ 56)
    (blank : ∀ k, words cleared next k = 0#64)
    (kept : ∀ t k, live t → words cleared t k = words m t k) :
    let linked := cleared.store (slot t (vpn va (l + 1))) (physToPpn next ||| PTE_V)
    TableTree linked (fun t => live t ∨ t = next) root (Function.update level next l) ∧
      At linked root va l next ∧
      view linked root = (view m root).setBlock (l + 1) va (l, 0#64) := by
  intro linked
  obtain ⟨out, levelT⟩ := tree.at_live bound here
  have apart : next ≠ t := fun same => fresh (same ▸ out)
  have linkWord : child (physToPpn next ||| PTE_V) = some next := child_link aligned (by omega)
  have own : words linked t (vpn va (l + 1)) = physToPpn next ||| PTE_V := Mem.store_same ..
  have linkNow : child (words linked t (vpn va (l + 1))) = some next := by rw [own, linkWord]
  have elsewhere : ∀ n j, n.toNat % 4096 = 0 → n.toNat + 4096 ≤ 2 ^ 56 →
      ¬ (n = t ∧ j = vpn va (l + 1)) → words linked n j = words cleared n j := by
    intro n j alignedN physicalN other
    apply Mem.store_other
    intro same
    exact other (slot_inj alignedN (tree.aligned out) physicalN (tree.physical out) same)
  have off : ∀ n j, live n → ¬ (n = t ∧ j = vpn va (l + 1)) → words linked n j = words m n j := by
    intro n j alive other
    rw [elsewhere n j (tree.aligned alive) (tree.physical alive) other, kept n j alive]
  have blankNow : ∀ j, words linked next j = 0#64 := by
    intro j
    rw [elsewhere next j aligned physical (fun same => apart same.1), blank j]
  have grown := tree.forest.graft out (by omega) fresh off (linkNow)
    (fun j => by rw [blankNow j]; exact child_zero.1)
  rw [levelT, Nat.add_sub_cancel] at grown
  have rootApart : root ≠ next := fun same => fresh (same ▸ tree.rooted)
  refine ⟨⟨Or.inl tree.rooted, ?_, ?_, ?_, grown, ?_⟩, ?_, ?_⟩
  · rw [Function.update_of_ne rootApart, tree.rootLevel]
  · intro n alive
    rcases alive with alive | rfl
    · exact tree.aligned alive
    · exact aligned
  · intro n alive
    rcases alive with alive | rfl
    · exact tree.physical alive
    · exact physical
  · intro n k c alive positive link
    rcases alive with alive | rfl
    · have apartN : n ≠ next := fun same => fresh (same ▸ alive)
      rw [Function.update_of_ne apartN] at positive
      by_cases same : n = t ∧ k = vpn va (l + 1)
      · obtain ⟨rfl, rfl⟩ := same
        rw [own] at link ⊢
        rw [Option.some.inj (linkWord.symm.trans link)]
      · rw [off n k alive same] at link ⊢
        exact tree.exact alive positive link
    · rw [blankNow k, child_zero.1] at link
      cases link
  · have keptPath := tree.forest.descend_own tree.rooted (tree.path_bound bound va) here off
    exact (at_succ bound).mpr ⟨t, keptPath, linkNow⟩
  · funext a
    apply view_of_find
    have changed := tree.forest.find_graft tree.rooted (tree.path_bound bound va) here (by omega)
      off (linkNow) blankNow child_zero.1
      (show (keys a).length = level root + 1 by rw [tree.rootLevel]; rfl)
    rw [levelT, find_view m root a, Nat.add_sub_cancel] at changed
    simp only [prefix_keys_iff va a bound] at changed
    rw [changed, View.setBlock]
    by_cases same : SameBlock (l + 1) va a
    · rw [if_pos same, if_pos same]
    · rw [if_neg same, if_neg same]

end

/-- The table of one address is the table of every address under the same entry. -/
theorem At.block {m : Mem} {root va a t : BitVec 64} {l : Nat} (bound : l ≤ 2)
    (here : At m root va l t) (same : SameBlock l va a) :
    At m root a l t ∧ vpn a l = vpn va l := by
  have mine := (prefix_keys_iff a a bound).mpr rfl
  have other := (prefix_keys_iff va a bound).mpr same
  have lengths : (pathTo va l ++ [vpn va l]).length = (pathTo a l ++ [vpn a l]).length := by
    have length := pathTo_length va bound
    have length' := pathTo_length a bound
    rw [List.length_append, List.length_append, List.length_singleton, List.length_singleton]
    omega
  have paths := List.prefix_of_prefix_length_le other mine (Nat.le_of_eq lengths)
  obtain ⟨path, last⟩ := List.append_inj' (paths.eq_of_length lengths) rfl
  rw [At, ← path]
  exact ⟨here, (List.singleton_inj.mp last).symm⟩

theorem At.endOf_block {m : Mem} {root va a t : BitVec 64} {l : Nat} (bound : l ≤ 2)
    (here : At m root va l t) (ends : 0 < l → child (m (slot t (vpn va l))) = none)
    (same : SameBlock l va a) : endOf m a 2 root = (slot t (vpn va l), l) := by
  obtain ⟨there, index⟩ := here.block bound same
  have stop := view_stop bound there (by rw [index]; exact ends)
  rw [stop, index]

/-- A write to the entry of an address leaves the path to it. -/
theorem TableTree.at_write {m : Mem} {live : BitVec 64 → Prop} {root va t : BitVec 64}
    {level : BitVec 64 → Nat} {l : Nat} (tree : TableTree m live root level) (bound : l ≤ 2)
    (here : At m root va l t) (pte : BitVec 64) :
    At (m.store (slot t (vpn va l)) pte) root va l t :=
  tree.forest.descend_own tree.rooted (tree.path_bound bound va) here
    (tree.store_off (tree.at_live bound here).1 pte)

/-- What the walk makes of the entry in which it ends. -/
def finalTranslation (va : BitVec 64) (final : Nat × BitVec 64) : Option Translation :=
  if !final.2.getLsbD 0 || (!final.2.getLsbD 1 && final.2.getLsbD 2) ||
      decide (2 ^ 54 ≤ final.2.toNat) then
    none
  else if final.2.getLsbD 1 || final.2.getLsbD 3 then leafTranslation va final.1 final.2
  else none

/-- An entry that the walk follows to the table of its page number. -/
def hardwareLink (pte : BitVec 64) : Bool :=
  pte.getLsbD 0 && !pte.getLsbD 1 && !pte.getLsbD 2 && !pte.getLsbD 3 && !pte.getLsbD 4 &&
    !pte.getLsbD 6 && !pte.getLsbD 7 && decide (pte.toNat < 2 ^ 54)

theorem walkFrom_follow {m : Mem} {va t : BitVec 64} {l : Nat}
    (link : hardwareLink (m (slot t (vpn va (l + 1)))) = true) :
    walkFrom m va (l + 1) t =
      walkFrom m va l (BitVec.ofNat 64 (ppn (m (slot t (vpn va (l + 1)))) * 4096)) := by
  simp only [hardwareLink, Bool.and_eq_true, Bool.not_eq_true', decide_eq_true_eq] at link
  obtain ⟨⟨⟨⟨⟨⟨⟨v, r⟩, w⟩, x⟩, u⟩, a⟩, d⟩, fits⟩ := link
  have high : ¬ 2 ^ 54 ≤ (m (slot t (vpn va (l + 1)))).toNat := by omega
  conv_lhs => rw [walkFrom]
  simp only [v, r, w, x, u, a, d, high, Bool.not_true, Bool.not_false, Bool.and_false,
    Bool.or_false, decide_false, Bool.false_eq_true, ↓reduceIte]

theorem walkFrom_stop {m : Mem} {va t : BitVec 64} {l : Nat}
    (stops : 0 < l → hardwareLink (m (slot t (vpn va l))) = false) :
    walkFrom m va l t = finalTranslation va (l, m (slot t (vpn va l))) := by
  rw [walkFrom.eq_def, finalTranslation]
  dsimp only
  generalize m (slot t (vpn va l)) = pte at *
  by_cases faults : (!pte.getLsbD 0 || (!pte.getLsbD 1 && pte.getLsbD 2) ||
      decide (2 ^ 54 ≤ pte.toNat)) = true
  · rw [if_pos faults, if_pos faults]
  · rw [if_neg faults, if_neg faults]
    by_cases leafBits : (pte.getLsbD 1 || pte.getLsbD 3) = true
    · rw [if_pos leafBits, if_pos leafBits]
    · rw [if_neg leafBits, if_neg leafBits]
      cases l with
      | zero => exact ite_self none
      | succ l =>
          refine if_pos ?_
          by_contra clean
          have followed := stops (by omega)
          revert followed faults leafBits clean
          simp only [hardwareLink, Bool.or_eq_true, Bool.not_eq_true', Bool.and_eq_true,
            decide_eq_true_eq, not_or, not_and, Bool.not_eq_true, Nat.not_le, and_imp]
          intro v readable fits r x u a d
          simp only [v, r, x, u, a, d, readable r, fits, decide_true, Bool.not_false,
            Bool.and_true, Bool.true_eq_false, imp_self]

theorem hardwareLink_child {pte : BitVec 64} (link : hardwareLink pte = true) :
    child pte ≠ none := by
  simp only [hardwareLink, Bool.and_eq_true, Bool.not_eq_true'] at link
  intro stops
  refine child_eq_none.mp stops ?_ ((and_PTE_XWR pte).mpr ⟨?_, ?_, ?_⟩)
  · rw [ne_eq, and_PTE_V, link.1.1.1.1.1.1.1]
    decide
  · exact link.1.1.1.1.1.1.2
  · exact link.1.1.1.1.1.2
  · exact link.1.1.1.1.2

/-- The walk follows a page number with V to that page. -/
theorem hardwareLink_exact {c : BitVec 64} (aligned : c.toNat % 4096 = 0)
    (physical : c.toNat < 2 ^ 56) :
    hardwareLink (physToPpn c ||| PTE_V) = true ∧
      BitVec.ofNat 64 (ppn (physToPpn c ||| PTE_V) * 4096) = c := by
  have value := toNat_physToPpn_or c PTE_V physical (by decide)
  have fits : (physToPpn c ||| PTE_V).toNat < 2 ^ 54 := by
    rw [value, show PTE_V.toNat = 1 from rfl]
    omega
  have bit := fun i low => getLsbD_physToPpn_or c PTE_V i low
  constructor
  · simp only [hardwareLink, bit, Nat.reduceLT, fits, decide_true]
    decide
  · apply BitVec.eq_of_toNat_eq
    rw [ppn_physToPpn_or c PTE_V physical (by decide), BitVec.toNat_ofNat]
    omega

theorem walkFrom_end {m : Mem} {va t : BitVec 64} {l : Nat}
    (ends : 0 < l → child (m (slot t (vpn va l))) = none) :
    walkFrom m va l t = finalTranslation va (l, m (slot t (vpn va l))) := by
  apply walkFrom_stop
  intro positive
  cases link : hardwareLink (m (slot t (vpn va l))) with
  | false => rfl
  | true => exact absurd (ends positive) (hardwareLink_child link)

/-- The walk of the hardware takes the links of the tree. -/
theorem TableTree.walk_eq {m : Mem} {live : BitVec 64 → Prop} {root : BitVec 64}
    {level : BitVec 64 → Nat} (tree : TableTree m live root level) (va : BitVec 64) :
    walk m root va = if Canonical va then finalTranslation va (view m root va) else none := by
  have from_table : ∀ l t, l ≤ 2 → At m root va l t →
      walkFrom m va l t = finalTranslation va (view m root va) := by
    intro l
    induction l with
    | zero =>
        intro t bound here
        have ends : 0 < 0 → child (m (slot t (vpn va 0))) = none := fun positive =>
          absurd positive (by omega)
        rw [walkFrom_end ends, view, view_stop bound here ends]
    | succ l ih =>
        intro t bound here
        obtain ⟨out, levelT⟩ := tree.at_live bound here
        cases link : child (m (slot t (vpn va (l + 1)))) with
        | none => rw [walkFrom_end fun _ => link, view, view_stop bound here fun _ => link]
        | some next =>
            have below := (at_succ bound).mpr ⟨t, here, link⟩
            obtain ⟨outNext, -⟩ := tree.at_live (by omega) below
            have physical := tree.physical outNext
            rw [walkFrom_link (tree.exact out (by omega) link) (tree.aligned outNext) (by omega)]
            exact ih next (by omega) below
  rw [walk, from_table 2 root (le_refl 2) (at_root m root va)]

/-- `satp` names the root that it was made from. -/
theorem satp_root {root : BitVec 64} (aligned : root.toNat % 4096 = 0)
    (physical : root.toNat + 4096 ≤ 2 ^ 56) :
    ((Mmu.SATP_MODE_SV39 <<< 60 ||| root >>> 12) &&& 0x00000FFFFFFFFFFF) <<< 12 = root := by
  have mode : (Mmu.SATP_MODE_SV39 <<< 60) &&& 0x00000FFFFFFFFFFF#64 = 0#64 := by decide
  have field : (root >>> 12) &&& 0x00000FFFFFFFFFFF#64 = root >>> 12 := by
    apply BitVec.eq_of_toNat_eq
    rw [BitVec.toNat_and, BitVec.toNat_ushiftRight, Nat.shiftRight_eq_div_pow,
      show (0x00000FFFFFFFFFFF#64).toNat = 2 ^ 44 - 1 from rfl, Nat.and_two_pow_sub_one_eq_mod]
    omega
  show ((Mmu.SATP_MODE_SV39 <<< 60 ||| root >>> 12) &&& 0x00000FFFFFFFFFFF#64) <<< 12 = root
  rw [BitVec.and_or_distrib_right, mode, field, BitVec.zero_or]
  apply BitVec.eq_of_toNat_eq
  simp only [BitVec.toNat_shiftLeft, BitVec.toNat_ushiftRight, Nat.shiftRight_eq_div_pow,
    Nat.shiftLeft_eq]
  omega

end ZephyrRiscv.Tables
