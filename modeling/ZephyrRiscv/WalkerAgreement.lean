import ZephyrRiscv.KernelViews
import ZephyrRiscv.PageFaults

set_option autoImplicit false

namespace ZephyrRiscv.PageFaults

open Sv39 Mmu RadixForest Tables

/-- The address and level of the leaf entry that the Sv39 walk reaches. -/
def walkLeafFrom (m : Mem) (va : BitVec 64) (level : Nat) (table : BitVec 64) :
    Option (BitVec 64 × Nat) :=
  let pte := m (slot table (vpn va level))
  if !pte.getLsbD 0 || (!pte.getLsbD 1 && pte.getLsbD 2) || decide (2 ^ 54 ≤ pte.toNat) then
    none
  else if pte.getLsbD 1 || pte.getLsbD 3 then
    if ppn pte % 512 ^ level = 0 then some (slot table (vpn va level), level) else none
  else if pte.getLsbD 4 || pte.getLsbD 6 || pte.getLsbD 7 then
    none
  else
    match level with
    | 0 => none
    | below + 1 => walkLeafFrom m va below (BitVec.ofNat 64 (ppn pte * 4096))

def walkLeaf (m : Mem) (root va : BitVec 64) : Option (BitVec 64 × Nat) :=
  if Canonical va then walkLeafFrom m va 2 root else none

/-- The walk translates through the leaf that it reaches, and otherwise faults. -/
theorem walkFrom_walkLeafFrom (m : Mem) (va : BitVec 64) (l : Nat) (t : BitVec 64) :
    walkFrom m va l t =
      (walkLeafFrom m va l t).bind fun leaf => leafTranslation va leaf.2 (m leaf.1) := by
  induction l generalizing t with
  | zero =>
      rw [walkFrom, walkLeafFrom]
      split_ifs with faults leaf aligned
      · rfl
      · rfl
      · rw [leafTranslation, if_neg aligned]
        rfl
      · rfl
      · rfl
  | succ l ih =>
      rw [walkFrom, walkLeafFrom]
      split_ifs with faults leaf aligned
      · rfl
      · rfl
      · rw [leafTranslation, if_neg aligned]
        rfl
      · rfl
      · exact ih _

theorem walk_walkLeaf (m : Mem) (root va : BitVec 64) :
    walk m root va =
      (walkLeaf m root va).bind fun leaf => leafTranslation va leaf.2 (m leaf.1) := by
  rw [walk, walkLeaf, walkFrom_walkLeafFrom]
  split_ifs
  · rfl
  · rfl

/-- Below 2^54 the hardware takes the table address that the software computes. -/
theorem ppn_pteToPhys {pte : BitVec 64} (fits : pte.toNat < 2 ^ 54) :
    BitVec.ofNat 64 (ppn pte * 4096) = pteToPhys pte := by
  apply BitVec.eq_of_toNat_eq
  simp only [pteToPhys, ppn, BitVec.toNat_ofNat, BitVec.toNat_shiftLeft,
    BitVec.toNat_ushiftRight, Nat.shiftRight_eq_div_pow, Nat.shiftLeft_eq]
  omega

/-- Only a valid entry is a leaf of the hardware. -/
theorem walkLeafFrom_valid {m : Mem} {va : BitVec 64} {l : Nat} {t : BitVec 64}
    {leaf : BitVec 64 × Nat} (reached : walkLeafFrom m va l t = some leaf) :
    m leaf.1 &&& PTE_V ≠ 0#64 := by
  have valid : ∀ {pte : BitVec 64} {others : Bool}, ¬ (!pte.getLsbD 0 || others) = true →
      pte &&& PTE_V ≠ 0#64 := by
    intro pte others accepted
    rw [ne_eq, and_PTE_V]
    intro clear
    rw [clear] at accepted
    exact accepted rfl
  induction l generalizing t with
  | zero =>
      rw [walkLeafFrom] at reached
      split_ifs at reached with faults
      obtain rfl := Option.some.inj reached
      rw [Bool.or_assoc] at faults
      exact valid faults
  | succ l ih =>
      rw [walkLeafFrom] at reached
      split_ifs at reached with faults
      · obtain rfl := Option.some.inj reached
        rw [Bool.or_assoc] at faults
        exact valid faults
      · exact ih reached

/-- A leaf of the hardware is where the links of the software end. -/
theorem walkLeafFrom_endOf {m : Mem} {va : BitVec 64} {l : Nat} {t : BitVec 64}
    {leaf : BitVec 64 × Nat} (reached : walkLeafFrom m va l t = some leaf) :
    endOf m va l t = leaf := by
  induction l generalizing t with
  | zero =>
      rw [walkLeafFrom] at reached
      split_ifs at reached
      exact Option.some.inj reached
  | succ l ih =>
      rw [walkLeafFrom] at reached
      split_ifs at reached with faults leafBits aligned reserved
      · have ends : child (m (slot t (vpn va (l + 1)))) = none := by
          refine child_eq_none.mpr fun _ links => ?_
          obtain ⟨r, -, x⟩ := (and_PTE_XWR _).mp links
          rw [r, x] at leafBits
          cases leafBits
        rw [endOf, ends]
        exact Option.some.inj reached
      · simp only [Bool.or_eq_true, Bool.not_eq_true', Bool.and_eq_true, decide_eq_true_eq, not_or,
          not_and, Bool.not_eq_true, Bool.not_eq_false, Nat.not_le] at faults leafBits
        obtain ⟨⟨valid, readable⟩, fits⟩ := faults
        have link : child (m (slot t (vpn va (l + 1)))) =
            some (pteToPhys (m (slot t (vpn va (l + 1))))) := by
          refine child_eq_some.mpr ⟨?_, ?_, rfl⟩
          · rw [ne_eq, and_PTE_V, valid]
            decide
          · exact (and_PTE_XWR _).mpr ⟨leafBits.1, readable leafBits.1, leafBits.2⟩
        rw [ppn_pteToPhys fits] at reached
        rw [endOf_link link]
        exact ih reached

/-- What the walkers make of one address. The address of an entry at physical address 0 is
NULL. -/
structure WalkersAgree (s : MmuState) (va : BitVec 64) : Prop where
  leaf : ∀ {pte level}, walkLeaf s.mem s.kernelRoot va = some (pte, level) →
    zRiscvMmuPteLookup s va = pte ∧ ptWalk s.mem s.kernelRoot va = (pte, level)
  null : zRiscvMmuPteLookup s va = NULL ↔
    (0 < (ptWalk s.mem s.kernelRoot va).2 ∧
      s.mem (ptWalk s.mem s.kernelRoot va).1 &&& PTE_V = 0#64) ∨
    (ptWalk s.mem s.kernelRoot va).1 = NULL
  same : ¬ (0 < (ptWalk s.mem s.kernelRoot va).2 ∧
      s.mem (ptWalk s.mem s.kernelRoot va).1 &&& PTE_V = 0#64) →
    zRiscvMmuPteLookup s va = (ptWalk s.mem s.kernelRoot va).1
  faults : (zRiscvMmuPteLookup s va = NULL ∧ (ptWalk s.mem s.kernelRoot va).1 ≠ NULL) ∨
      0 < (ptWalk s.mem s.kernelRoot va).2 ∧
        s.mem (ptWalk s.mem s.kernelRoot va).1 &&& PTE_V = 0#64 →
    ∀ satp status kind, satpRoot satp = s.kernelRoot → access s.mem satp status kind va = none

/-- `z_riscv_mmu_pte_lookup`, `pt_walk` and the Sv39 walk agree on any memory. -/
theorem walkers_agree (s : MmuState) (va : BitVec 64) : WalkersAgree s va := by
  have view : s.view va = ((ptWalk s.mem s.kernelRoot va).2,
      s.mem (ptWalk s.mem s.kernelRoot va).1) := by
    rw [ptWalk_eq]
    rfl
  have lookup := pteLookup_eq s va
  have null := pteLookup_null_iff s va
  rw [view, ← ptWalk_eq] at lookup null
  have hardware : ∀ {leaf}, walkLeaf s.mem s.kernelRoot va = some leaf →
      ptWalk s.mem s.kernelRoot va = leaf ∧ s.mem leaf.1 &&& PTE_V ≠ 0#64 := by
    intro leaf reached
    rw [walkLeaf] at reached
    split_ifs at reached
    rw [ptWalk_eq]
    exact ⟨walkLeafFrom_endOf reached, walkLeafFrom_valid reached⟩
  have same : ¬ (0 < (ptWalk s.mem s.kernelRoot va).2 ∧
      s.mem (ptWalk s.mem s.kernelRoot va).1 &&& PTE_V = 0#64) →
      zRiscvMmuPteLookup s va = (ptWalk s.mem s.kernelRoot va).1 := by
    intro valid
    rw [lookup, if_neg valid]
  refine ⟨?_, null, same, ?_⟩
  · intro pte level reached
    obtain ⟨walked, valid⟩ := hardware reached
    have found := same fun stops => by
      have invalid := stops.2
      rw [walked] at invalid
      exact valid invalid
    rw [walked] at found
    exact ⟨found, walked⟩
  · intro stops satp status kind root
    have invalid : s.mem (ptWalk s.mem s.kernelRoot va).1 &&& PTE_V = 0#64 := by
      obtain ⟨nothing, entry⟩ | above := stops
      · exact ((null.mp nothing).resolve_right entry).2
      · exact above.2
    rw [access, root, walk_walkLeaf]
    cases reached : walkLeaf s.mem s.kernelRoot va with
    | none => rfl
    | some leaf =>
        obtain ⟨walked, valid⟩ := hardware reached
        rw [walked] at invalid
        exact absurd invalid valid

/-- Tables at 0x1000 and 0x2000, and a link to physical page 0 with a leaf in its first entry. -/
def linkedToZero : MmuState where
  mem a := if a = 0x1000 then 0x801 else if a = 0x2000 then PTE_V else if a = 0 then 0xcf else 0
  mmuTableUsed _ := false
  kernelRoot := 0x1000
  satp := 1
  touched := []
  granted := []

/-- The look-up of a mapped address can be NULL, so NULL does not say that its access faults. -/
theorem leaf_at_zero_is_null :
    (¬ ∀ (s : MmuState) (va : BitVec 64), Canonical va →
      (zRiscvMmuPteLookup s va = NULL ↔ 0 < (ptWalk s.mem s.kernelRoot va).2 ∧
        s.mem (ptWalk s.mem s.kernelRoot va).1 &&& PTE_V = 0#64)) ∧
    ¬ ∀ (s : MmuState) (va : BitVec 64), Canonical va → zRiscvMmuPteLookup s va = NULL →
      ∀ satp status kind, satpRoot satp = s.kernelRoot →
        access s.mem satp status kind va = none := by
  have null : zRiscvMmuPteLookup linkedToZero 0 = NULL := by decide +kernel
  constructor
  · intro claim
    obtain ⟨above, -⟩ := (claim linkedToZero 0 (by decide)).mp null
    revert above
    decide +kernel
  · intro claim
    have fault := claim linkedToZero 0 (by decide) null 1 plain .load (by decide)
    revert fault
    decide +kernel

end ZephyrRiscv.PageFaults
