import ZephyrRiscv.TableTree

set_option autoImplicit false

namespace ZephyrRiscv.Mmu

open Sv39 RadixForest Tables

/-- The view of the address space from the kernel's root. -/
def MmuState.view (s : MmuState) : View := Tables.view s.mem s.kernelRoot

/-- The used tables form a tree under the kernel's root. -/
def Planted (cfg : Config) (s : MmuState) : Prop :=
  ∃ level, TableTree s.mem (HandedOut cfg s) s.kernelRoot level

def NULL : BitVec 64 := 0

/-- `z_riscv_mmu_pte_lookup` from a table of the given level: NULL where an entry above
level 0 is not valid. The address of an entry at physical address 0 is NULL too. -/
def pteLookupFrom (m : Mem) (va : BitVec 64) : Nat → BitVec 64 → BitVec 64
  | 0, tbl => slot tbl (vpn va 0)
  | level + 1, tbl =>
      let pte := slot tbl (vpn va (level + 1))
      if m pte &&& PTE_V = 0#64 then NULL
      else if m pte &&& PTE_XWR ≠ 0#64 then pte
      else pteLookupFrom m va level (pteToPhys (m pte))

def zRiscvMmuPteLookup (s : MmuState) (va : BitVec 64) : BitVec 64 :=
  pteLookupFrom s.mem va (SV39_LEVELS - 1) s.kernelRoot

theorem pteLookupFrom_eq (m : Mem) (va : BitVec 64) (l : Nat) (tbl : BitVec 64) :
    pteLookupFrom m va l tbl =
      if 0 < (endOf m va l tbl).2 ∧ m (endOf m va l tbl).1 &&& PTE_V = 0#64 then NULL
      else (endOf m va l tbl).1 := by
  induction l generalizing tbl with
  | zero => exact (if_neg fun invalid => absurd invalid.1 (Nat.lt_irrefl 0)).symm
  | succ l ih =>
      rw [pteLookupFrom, endOf]
      by_cases invalid : m (slot tbl (vpn va (l + 1))) &&& PTE_V = 0#64
      · simp only [child_invalid invalid, invalid, Nat.zero_lt_succ, and_self, ↓reduceIte]
      · by_cases links : m (slot tbl (vpn va (l + 1))) &&& PTE_XWR = 0#64
        · have link : child (m (slot tbl (vpn va (l + 1)))) = some _ :=
            child_eq_some.mpr ⟨invalid, links, rfl⟩
          simp only [link, invalid, links, ne_eq, not_true_eq_false, ↓reduceIte]
          exact ih _
        · have stops : child (m (slot tbl (vpn va (l + 1)))) = none :=
            child_eq_none.mpr fun _ => links
          simp only [stops, invalid, links, ne_eq, not_false_eq_true, and_false, ↓reduceIte]

/-- The look-up finds the entry in which an address ends, unless that is invalid above
level 0. -/
theorem pteLookup_eq (s : MmuState) (va : BitVec 64) :
    zRiscvMmuPteLookup s va =
      if 0 < (s.view va).1 ∧ (s.view va).2 &&& PTE_V = 0#64 then NULL
      else (endOf s.mem va 2 s.kernelRoot).1 :=
  pteLookupFrom_eq s.mem va 2 s.kernelRoot

/-- NULL stands for an entry above level 0 that is not valid, or for one at address 0. -/
theorem pteLookup_null_iff (s : MmuState) (va : BitVec 64) :
    zRiscvMmuPteLookup s va = NULL ↔
      0 < (s.view va).1 ∧ (s.view va).2 &&& PTE_V = 0#64 ∨
        (endOf s.mem va 2 s.kernelRoot).1 = NULL := by
  rw [pteLookup_eq]
  by_cases invalid : 0 < (s.view va).1 ∧ (s.view va).2 &&& PTE_V = 0#64
  · rw [if_pos invalid]
    exact iff_of_true rfl (Or.inl invalid)
  · rw [if_neg invalid, or_iff_right invalid]

theorem pteLookup_found {s : MmuState} {va : BitVec 64} (found : zRiscvMmuPteLookup s va ≠ NULL) :
    zRiscvMmuPteLookup s va = (endOf s.mem va 2 s.kernelRoot).1 := by
  have listed := pteLookup_eq s va
  split at listed
  · exact absurd listed found
  · exact listed

/-- In the tables of the pool no entry sits at address 0. -/
theorem Planted.entry_not_null {cfg : Config} {s : MmuState} (planted : Planted cfg s)
    (va : BitVec 64) : (endOf s.mem va 2 s.kernelRoot).1 ≠ NULL := by
  obtain ⟨level, tree⟩ := planted
  obtain ⟨table, out, -, final⟩ := tree.endOf_live va
  rw [final]
  exact out.slot_ne_null _

/-- A descent to a level, in terms of views. -/
structure Reached (cfg : Config) (s : MmuState) (va : BitVec 64) (level steps : Nat)
    (t : BitVec 64) (s' : MmuState) : Prop where
  planted : Planted cfg s'
  here : At s'.mem s'.kernelRoot va level t
  view : s'.view = s.view.deepenTo va level steps
  kernelRoot : s'.kernelRoot = s.kernelRoot
  used : ∀ i, s.mmuTableUsed i = true → s'.mmuTableUsed i = true

theorem allocTable_used {cfg : Config} {s s' : MmuState} {t : BitVec 64}
    (allocated : allocTable cfg s = .ok (t, s')) {i : Nat} (used : s.mmuTableUsed i = true) :
    s'.mmuTableUsed i = true := by
  unfold allocTable at allocated
  split at allocated
  · simp only [Except.ok.injEq, Prod.mk.injEq] at allocated
    rw [← allocated.2]
    simp only [used, ite_self]
  · cases allocated

/-- Linking a newly allocated table deepens the view. -/
theorem Planted.link {cfg : Config} {s s' : MmuState} {va t next : BitVec 64} {l : Nat}
    (planted : Planted cfg s) (bound : l + 1 ≤ 2) (here : At s.mem s.kernelRoot va (l + 1) t)
    (invalid : s.words t (vpn va (l + 1)) &&& PTE_V = 0#64)
    (allocated : Allocated cfg s next s') :
    let linked := s'.writePte (slot t (vpn va (l + 1))) (physToPpn next ||| PTE_V)
    Planted cfg linked ∧ At linked.mem linked.kernelRoot va l next ∧
      linked.view = s.view.deepen va l ∧ linked.kernelRoot = s.kernelRoot := by
  intro linked
  obtain ⟨level, tree⟩ := planted
  have outNext : HandedOut cfg s' next := (allocated.handedOut next).mpr (Or.inr rfl)
  have grown := tree.link bound here invalid allocated.fresh outNext.aligned outNext.physical
    allocated.blank allocated.off
  have live : HandedOut cfg s' = fun t => HandedOut cfg s t ∨ t = next :=
    funext fun t => propext (allocated.handedOut t)
  have stops := view_stop bound here fun _ => child_invalid invalid
  have ends : (s.view va).1 = l + 1 := by
    rw [MmuState.view, Tables.view, stops]
  have rootSame : linked.kernelRoot = s.kernelRoot := allocated.kernelRoot
  rw [← live] at grown
  refine ⟨⟨Function.update level next l, ?_⟩, ?_, ?_, rootSame⟩
  · rw [rootSame]
    exact grown.1
  · rw [rootSame]
    exact grown.2.1
  · rw [View.deepen, if_pos ends, MmuState.view, rootSame]
    exact grown.2.2

/-- A valid entry above the level of a clear path is a link. -/
theorem clear_follows {s : MmuState} {va t : BitVec 64} {level l : Nat}
    (clear : s.view.Clear level va) (above : level < l) (bound : l ≤ 2)
    (here : At s.mem s.kernelRoot va l t) (valid : ¬ s.words t (vpn va l) &&& PTE_V = 0#64) :
    child (s.words t (vpn va l)) = some (pteToPhys (s.words t (vpn va l))) := by
  refine child_eq_some.mpr ⟨valid, ?_, rfl⟩
  by_contra leafBits
  have stops := view_stop bound here fun _ => child_eq_none.mpr fun _ => leafBits
  have final : s.view va = (l, s.words t (vpn va l)) := by
    rw [MmuState.view, Tables.view, stops]
    rfl
  rw [View.Clear, final] at clear
  exact valid (clear above)

theorem walkDown_reached {cfg : Config} {va : BitVec 64} {level : Nat} (steps : Nat)
    {tbl t : BitVec 64} {s s' : MmuState} (planted : Planted cfg s) (bound : level + steps ≤ 2)
    (here : At s.mem s.kernelRoot va (level + steps) tbl) (clear : s.view.Clear level va)
    (ran : walkDown cfg va level steps tbl s = .ok (t, s')) :
    Reached cfg s va level steps t s' := by
  induction steps generalizing tbl s with
  | zero =>
      simp only [walkDown, Except.ok.injEq, Prod.mk.injEq] at ran
      obtain ⟨rfl, rfl⟩ := ran
      exact ⟨planted, here, rfl, rfl, fun _ used => used⟩
  | succ steps ih =>
      have touched : Planted cfg (s.touch (slot tbl (vpn va (level + steps + 1)))) := planted
      by_cases invalid : s.words tbl (vpn va (level + steps + 1)) &&& PTE_V = 0#64
      · rw [walkDown_invalid invalid] at ran
        split at ran
        · cases ran
        · rename_i next s₁ allocation
          have allocated := allocTable_spec allocation
          have outNext : HandedOut cfg s₁ next := (allocated.handedOut next).mpr (Or.inr rfl)
          have physical := outNext.physical
          rw [pteToPhys_physToPpn_or next PTE_V (by omega) (by decide) outNext.aligned] at ran
          obtain ⟨planted₂, here₂, view₂, root₂⟩ :=
            touched.link (l := level + steps) bound here invalid allocated
          have rest := ih planted₂ (by omega) here₂ (by rw [view₂]; exact clear.deepen _) ran
          refine ⟨rest.planted, rest.here, ?_, rest.kernelRoot.trans root₂, ?_⟩
          · rw [rest.view, view₂]
            rfl
          · exact fun i used => rest.used i (allocTable_used allocation used)
      · rw [walkDown_valid invalid] at ran
        have below := (at_succ (l := level + steps) bound).mpr
          ⟨tbl, here, clear_follows clear (by omega) bound here invalid⟩
        have level_le : (s.view va).1 ≤ level + steps := below.view_level (by omega)
        have rest := ih touched (by omega) below clear ran
        refine ⟨rest.planted, rest.here, ?_, rest.kernelRoot, rest.used⟩
        rw [rest.view, View.deepenTo, View.deepen, if_neg (by omega)]
        rfl

/-- The write at the end of a descent maps an entry. -/
theorem Reached.write {cfg : Config} {s s' : MmuState} {va t : BitVec 64} {level : Nat}
    (reached : Reached cfg s va level (2 - level) t s') (bound : level ≤ 2) (pte : BitVec 64)
    (ends : 0 < level → child pte = none) :
    Planted cfg (s'.writePte (slot t (vpn va level)) pte) ∧
      (s'.writePte (slot t (vpn va level)) pte).view = s.view.map va level pte := by
  obtain ⟨lvl, tree⟩ := reached.planted
  have wrote := tree.write bound reached.here pte ends
  refine ⟨⟨lvl, wrote.1⟩, ?_⟩
  rw [View.map, ← reached.view]
  exact wrote.2

theorem mapPage_view {cfg : Config} {va pa perm : BitVec 64} {s s' : MmuState}
    (planted : Planted cfg s) (clear : s.view.Clear 0 va)
    (ran : mapPage cfg va pa perm s = .ok s') :
    Planted cfg s' ∧ s'.view = s.view.map va 0 (leafPte pa perm) := by
  unfold mapPage at ran
  split at ran
  · cases ran
  · rename_i tbl s₁ descent
    have reached : Reached cfg s va 0 2 tbl s₁ :=
      walkDown_reached 2 planted (le_refl 2) (at_root s.mem s.kernelRoot va) clear descent
    rw [← Except.ok.inj ran]
    exact reached.write (Nat.zero_le 2) (leafPte pa perm) fun positive =>
      absurd positive (by decide)

/-- A raw mapping that returns stores at the end of a descent. -/
theorem zRiscvMmuMapRaw_reached {cfg : Config} {va pa pteBits : BitVec 64} {level : Nat}
    {s s' : MmuState} (planted : Planted cfg s) (clear : s.view.Clear level va)
    (ran : zRiscvMmuMapRaw cfg va pa pteBits level s = .ok s') :
    level ≤ 2 ∧ ∃ t s₁, Reached cfg s va level (2 - level) t s₁ ∧
      s' = s₁.writePte (slot t (vpn va level)) (physToPpn pa ||| pteBits) := by
  unfold zRiscvMmuMapRaw at ran
  split at ran
  · rename_i asserted
    have inside : level ≤ 2 := Nat.le_of_lt_succ asserted.1
    have top : level + (SV39_LEVELS - 1 - level) = 2 := by
      rw [SV39_LEVELS]
      omega
    have atRoot : At s.mem s.kernelRoot va (level + (SV39_LEVELS - 1 - level)) s.kernelRoot := by
      rw [top]
      exact at_root s.mem s.kernelRoot va
    split at ran
    · cases ran
    · rename_i t s₁ descent
      have reached := walkDown_reached _ planted (Nat.le_of_eq top) atRoot clear descent
      exact ⟨inside, t, s₁, reached, (Except.ok.inj ran).symm⟩
  · cases ran

/-- A raw mapping on a clear path maps its entry, or stops for want of a table. -/
theorem zRiscvMmuMapRaw_view {cfg : Config} {va pa pteBits : BitVec 64} {level : Nat}
    {s s' : MmuState} (planted : Planted cfg s) (clear : s.view.Clear level va)
    (ends : 0 < level → child (physToPpn pa ||| pteBits) = none)
    (ran : zRiscvMmuMapRaw cfg va pa pteBits level s = .ok s') :
    Planted cfg s' ∧ s'.view = s.view.map va level (physToPpn pa ||| pteBits) ∧
      s'.kernelRoot = s.kernelRoot ∧
      ∀ i, s.mmuTableUsed i = true → s'.mmuTableUsed i = true := by
  obtain ⟨inside, t, s₁, reached, rfl⟩ := zRiscvMmuMapRaw_reached planted clear ran
  have wrote := reached.write inside (physToPpn pa ||| pteBits) ends
  exact ⟨wrote.1, wrote.2, reached.kernelRoot, reached.used⟩

theorem MmuState.view_uniform (s : MmuState) : s.view.Uniform :=
  fun _ _ same => Tables.view_uniform same

/-- `unmap_page` clears the entry in which an address ends, unless that is invalid above
level 0. -/
theorem unmapFrom_mem (va : BitVec 64) (l : Nat) (tbl : BitVec 64) (s : MmuState) :
    (unmapFrom va l tbl s).mem =
      if 0 < (endOf s.mem va l tbl).2 ∧ s.mem (endOf s.mem va l tbl).1 &&& PTE_V = 0#64 then s.mem
      else s.mem.store (endOf s.mem va l tbl).1 0#64 := by
  induction l generalizing tbl s with
  | zero => exact (if_neg fun invalid => absurd invalid.1 (Nat.lt_irrefl 0)).symm
  | succ l ih =>
      rw [endOf]
      by_cases invalid : s.mem (slot tbl (vpn va (l + 1))) &&& PTE_V = 0#64
      · rw [unmapFrom_invalid invalid, child_invalid invalid]
        exact (if_pos ⟨Nat.zero_lt_succ l, invalid⟩).symm
      · by_cases links : s.mem (slot tbl (vpn va (l + 1))) &&& PTE_XWR = 0#64
        · rw [unmapFrom_link invalid links, child_eq_some.mpr ⟨invalid, links, rfl⟩]
          exact ih _ (s.touch (slot tbl (vpn va (l + 1))))
        · rw [unmapFrom_leaf invalid links, child_eq_none.mpr fun _ => links]
          exact (if_neg fun both => invalid both.2).symm

theorem unmapFrom_fixed (va : BitVec 64) (l : Nat) (tbl : BitVec 64) (s : MmuState) :
    (unmapFrom va l tbl s).kernelRoot = s.kernelRoot ∧ (unmapFrom va l tbl s).satp = s.satp ∧
      (unmapFrom va l tbl s).mmuTableUsed = s.mmuTableUsed := by
  induction l generalizing tbl s with
  | zero => exact ⟨rfl, rfl, rfl⟩
  | succ l ih =>
      rw [unmapFrom]
      split
      · exact ⟨rfl, rfl, rfl⟩
      · split
        · exact ⟨rfl, rfl, rfl⟩
        · exact ih _ _

theorem Planted.write {cfg : Config} {s s' : MmuState} {va value : BitVec 64}
    (planted : Planted cfg s) (ends : 0 < (s.view va).1 → child value = none)
    (memory : s'.mem = s.mem.store (endOf s.mem va 2 s.kernelRoot).1 value)
    (root : s'.kernelRoot = s.kernelRoot) (used : s'.mmuTableUsed = s.mmuTableUsed) :
    Planted cfg s' ∧ s'.view = s.view.setBlock (s.view va).1 va ((s.view va).1, value) := by
  obtain ⟨lvl, tree⟩ := planted
  obtain ⟨t, -, here, final⟩ := tree.endOf_live va
  have wrote := tree.write (view_level s.mem s.kernelRoot va) here value ends
  rw [final] at memory
  have live : HandedOut cfg s' = HandedOut cfg s := by
    funext t
    rw [HandedOut, HandedOut, used]
  constructor
  · refine ⟨lvl, ?_⟩
    rw [memory, root, live]
    exact wrote.1
  · rw [MmuState.view, memory, root]
    exact wrote.2

theorem unmapPage_view {cfg : Config} (va : BitVec 64) {s : MmuState} (planted : Planted cfg s) :
    Planted cfg (unmapPage va s) ∧
      (unmapPage va s).view =
        if Unmappable (s.view va) then s.view.setBlock (s.view va).1 va ((s.view va).1, 0#64)
        else s.view := by
  obtain ⟨root, -, used⟩ := unmapFrom_fixed va 2 s.kernelRoot s
  have memory := unmapFrom_mem va 2 s.kernelRoot s
  show Planted cfg (unmapFrom va 2 s.kernelRoot s) ∧ (unmapFrom va 2 s.kernelRoot s).view = _
  by_cases clears : Unmappable (s.view va)
  · rw [if_pos clears]
    apply planted.write (fun _ => child_zero.1) _ root used
    rw [memory]
    apply if_neg
    rintro ⟨above, invalid⟩
    obtain bottom | valid := clears
    · exact absurd above (Nat.not_lt.mpr (Nat.le_of_eq bottom))
    · exact valid invalid
  · rw [if_neg clears]
    rw [Unmappable, not_or, ne_eq, not_not] at clears
    rw [if_pos ⟨Nat.pos_of_ne_zero clears.1, clears.2⟩] at memory
    have live : HandedOut cfg (unmapFrom va 2 s.kernelRoot s) = HandedOut cfg s := by
      funext t
      rw [HandedOut, HandedOut, used]
    obtain ⟨lvl, tree⟩ := planted
    constructor
    · refine ⟨lvl, ?_⟩
      rw [live, memory, root]
      exact tree
    · rw [MmuState.view, memory, root]
      rfl

theorem forPages_invariant {size : BitVec 64} {body : MmuState → Nat → Except Stop MmuState}
    {s s' : MmuState} {I : Nat → MmuState → Prop} (first : I 0 s)
    (step : ∀ i s₁ s₂, i < pageCount size → I i s₁ → body s₁ i = .ok s₂ → I (i + 1) s₂)
    (ran : forPages size body s = .ok s') : I (pageCount size) s' := by
  obtain ⟨reached, returned, holds⟩ | ⟨-, -, stop, -, -, -, stops⟩ | ⟨-, spins⟩ :=
    forPages_cases first step
  · rw [← Except.ok.inj (returned.symm.trans ran)]
    exact holds
  · cases stops.symm.trans ran
  · cases spins.symm.trans ran

/-- The first `n` pages of a range hold entries; elsewhere entries are as before, or zero
entries of tables that the pages needed. -/
structure PagesMapped (v v' : View) (virt : BitVec 64) (n : Nat) : Prop where
  covered : ∀ a i, i < n → SameBlock 0 (pageAfter virt i) a → (v' a).1 = 0 ∧ (v' a).2 ≠ 0#64
  elsewhere : ∀ a, (∀ i, i < n → ¬ SameBlock 0 (pageAfter virt i) a) → v.Deeper v' a

theorem PagesMapped.clear {v v' : View} {virt a : BitVec 64} {n : Nat}
    (mapped : PagesMapped v v' virt n) (clear : v.Clear 0 a) : v'.Clear 0 a := by
  intro above
  by_cases inside : ∃ i, i < n ∧ SameBlock 0 (pageAfter virt i) a
  · obtain ⟨i, below, same⟩ := inside
    have bottom := (mapped.covered a i below same).1
    omega
  · obtain same | ⟨-, zero⟩ := mapped.elsewhere a (fun i below same => inside ⟨i, below, same⟩)
    · rw [same] at above ⊢
      exact clear above
    · rw [zero]
      exact BitVec.zero_and

theorem leafPte_ne_zero (pa perm : BitVec 64) : leafPte pa perm ≠ 0#64 := by
  intro zero
  have bit := congrArg (fun w : BitVec 64 => w.getLsbD 0) zero
  have set : PTE_V.getLsbD 0 = true := by decide
  simp only [leafPte, BitVec.getLsbD_or, set, Bool.or_true, Bool.true_or] at bit
  cases bit

theorem mapPages_view {cfg : Config} {virt phys size perm : BitVec 64} {s s' : MmuState}
    (planted : Planted cfg s)
    (clear : ∀ i, i < pageCount size → s.view.Clear 0 (pageAfter virt i))
    (ran : forPages size
      (fun s i => mapPage cfg (pageAfter virt i) (pageAfter phys i) perm s) s = .ok s') :
    Planted cfg s' ∧ PagesMapped s.view s'.view virt (pageCount size) := by
  let I : Nat → MmuState → Prop := fun n s' => Planted cfg s' ∧ PagesMapped s.view s'.view virt n
  have loop : I (pageCount size) s' := by
    apply forPages_invariant _ _ ran
    · refine ⟨planted, ?_, fun a _ => Or.inl rfl⟩
      intro a i below
      exact absurd below (Nat.not_lt_zero i)
    · intro n s₁ s₂ inside before page
      obtain ⟨planted₁, mapped⟩ := before
      obtain ⟨planted₂, viewed⟩ := mapPage_view planted₁ (mapped.clear (clear n inside)) page
      have others : ∀ {a}, ¬ SameBlock 0 (pageAfter virt n) a → s₁.view.Deeper s₂.view a := by
        intro a other
        rw [viewed]
        exact s₁.view_uniform.map_other _ other
      refine ⟨planted₂, ?_, ?_⟩
      · intro a i below same
        by_cases here : SameBlock 0 (pageAfter virt n) a
        · rw [viewed, View.map_same here]
          exact ⟨rfl, leafPte_ne_zero _ _⟩
        · have earlier : i < n := by
            apply Nat.lt_of_le_of_ne (Nat.le_of_lt_succ below)
            rintro rfl
            exact here same
          have before := mapped.covered a i earlier same
          obtain kept | ⟨lower, -⟩ := others here
          · rw [kept]
            exact before
          · omega
      · intro a outside
        have earlier := mapped.elsewhere a fun i below => outside i (Nat.lt_succ_of_lt below)
        exact earlier.trans (others (outside n (Nat.lt_succ_self n)))
  exact loop

theorem archMemUnmap_view {cfg : Config} {addr size : BitVec 64} {s s' : MmuState}
    (planted : Planted cfg s) (ran : archMemUnmap addr size s = .ok s') :
    Planted cfg s' ∧ s'.view = s.view.unmap addr (pageCount size) := by
  let I : Nat → MmuState → Prop := fun n s' => Planted cfg s' ∧ s'.view = s.view.unmap addr n
  have loop : I (pageCount size) s' := by
    apply forPages_invariant _ _ ran
    · refine ⟨planted, ?_⟩
      funext a
      symm
      apply if_neg
      rintro ⟨-, i, below, -⟩
      exact Nat.not_lt_zero i below
    · intro n s₁ s₂ _ before page
      obtain ⟨planted₁, viewed₁⟩ := before
      obtain ⟨planted₂, viewed₂⟩ := unmapPage_view (pageAfter addr n) planted₁
      have uniform' := s₁.view_uniform
      rw [← Except.ok.inj page]
      refine ⟨planted₂, ?_⟩
      rw [viewed₁] at viewed₂ uniform'
      rw [viewed₂, View.unmap_succ s.view_uniform addr n uniform']
  exact loop

theorem MmuState.leafAt_view (s : MmuState) (va : BitVec 64) :
    s.leafAt va = (some (s.view va)).filter fun found => present found.2 := by
  rw [MmuState.view, ← find_view]
  rfl

/-- The two ways to say that a path is clear. -/
theorem MmuState.clear_view (s : MmuState) (va : BitVec 64) (level : Nat) :
    s.Clear va level ↔ s.view.Clear level va := by
  rw [MmuState.Clear, View.Clear, s.leafAt_view, Option.filter_some]
  by_cases valid : (s.view va).2 &&& PTE_V = 0#64
  · rw [present_invalid valid]
    simp only [Bool.false_eq_true, ↓reduceIte, reduceCtorEq, false_implies, implies_true, valid]
  · have final : present (s.view va).2 = true := decide_eq_true valid
    rw [if_pos final]
    constructor
    · intro clear above
      exact absurd (clear _ _ rfl) (Nat.not_le.mpr above)
    · intro clear l pte same
      rw [Option.some.inj same] at clear valid
      by_contra above
      exact valid (clear (Nat.not_le.mp above))

/-- The root and `satp` of two states agree. -/
def SameRoot (s s' : MmuState) : Prop := s'.kernelRoot = s.kernelRoot ∧ s'.satp = s.satp

theorem SameRoot.trans {s s' s'' : MmuState} (first : SameRoot s s') (second : SameRoot s' s'') :
    SameRoot s s'' := ⟨second.1.trans first.1, second.2.trans first.2⟩

theorem allocTable_sameRoot {cfg : Config} {s s' : MmuState} {t : BitVec 64}
    (allocated : allocTable cfg s = .ok (t, s')) : SameRoot s s' := by
  have spec := allocTable_spec allocated
  exact ⟨spec.kernelRoot, spec.satp⟩

theorem walkDown_sameRoot {cfg : Config} {va tbl t : BitVec 64} {level steps : Nat}
    {s s' : MmuState} (ran : walkDown cfg va level steps tbl s = .ok (t, s')) : SameRoot s s' := by
  induction steps generalizing tbl s with
  | zero =>
      simp only [walkDown, Except.ok.injEq, Prod.mk.injEq] at ran
      rw [← ran.2]
      exact ⟨rfl, rfl⟩
  | succ steps ih =>
      by_cases invalid : s.words tbl (vpn va (level + steps + 1)) &&& PTE_V = 0#64
      · rw [walkDown_invalid invalid] at ran
        split at ran
        · cases ran
        · rename_i next s₁ allocation
          have allocated := allocTable_sameRoot allocation
          have rest := ih ran
          exact ⟨rest.1.trans allocated.1, rest.2.trans allocated.2⟩
      · rw [walkDown_valid invalid] at ran
        have rest := ih ran
        exact ⟨rest.1, rest.2⟩

theorem mapPage_sameRoot {cfg : Config} {va pa perm : BitVec 64} {s s' : MmuState}
    (ran : mapPage cfg va pa perm s = .ok s') : SameRoot s s' := by
  unfold mapPage at ran
  split at ran
  · cases ran
  · rename_i tbl s₁ descent
    have walked := walkDown_sameRoot descent
    rw [← Except.ok.inj ran]
    exact walked

theorem Returns.sameRoot {cfg : Config} {s s' : MmuState} {call : Call}
    (returns : Returns cfg s call s') : SameRoot s s' := by
  cases call with
  | memMap virt phys size flags =>
      apply forPages_invariant (I := fun _ => SameRoot s) ⟨rfl, rfl⟩ _ returns
      intro i s₁ s₂ _ before page
      exact before.trans (mapPage_sameRoot page)
  | memUnmap addr size =>
      apply forPages_invariant (I := fun _ => SameRoot s) ⟨rfl, rfl⟩ _ returns
      intro i s₁ s₂ _ before page
      rw [← Except.ok.inj page]
      obtain ⟨root, satp, -⟩ := unmapFrom_fixed (pageAfter addr i) 2 s₁.kernelRoot s₁
      exact before.trans ⟨root, satp⟩
  | mapRaw va pa pteBits level =>
      have ran : zRiscvMmuMapRaw cfg va pa pteBits level s = .ok s' := returns
      unfold zRiscvMmuMapRaw at ran
      split at ran
      · split at ran
        · cases ran
        · rename_i tbl s₁ descent
          have walked := walkDown_sameRoot descent
          rw [← Except.ok.inj ran]
          exact walked
      · cases ran

/-- The first table allocated, as the root. -/
theorem Allocated.blank_root {cfg : Config} {s s' : MmuState} {t : BitVec 64}
    (unused : ∀ m, ¬ HandedOut cfg s m) (allocated : Allocated cfg s t s') :
    Planted cfg { s' with kernelRoot := t } ∧
      ({ s' with kernelRoot := t } : MmuState).view = fun _ => (2, 0#64) := by
  have out : HandedOut cfg s' t := (allocated.handedOut t).mpr (Or.inr rfl)
  have only : HandedOut cfg s' = fun m => m = t := by
    funext m
    apply propext
    rw [allocated.handedOut m]
    exact or_iff_right (unused m)
  have blank := TableTree.blank out.aligned out.physical allocated.blank
  refine ⟨⟨fun _ => 2, ?_⟩, blank.2⟩
  show TableTree s'.mem (HandedOut cfg s') t fun _ => 2
  rw [only]
  exact blank.1

/-- The view with the device gigabyte alone. -/
def deviceView : View := fun a =>
  if SameBlock 2 0#64 a then (2, leafPte 0#64 (PTE_R ||| PTE_W)) else (2, 0#64)

theorem Booted.view {cfg : Config} {s : MmuState} (booted : Booted cfg s) :
    Planted cfg s ∧
      PagesMapped deviceView s.view cfg.zMappedStart
        (pageCount (cfg.zMappedEnd - cfg.zMappedStart)) ∧
      (s.satp &&& 0x00000FFFFFFFFFFF) <<< 12 = s.kernelRoot := by
  obtain ⟨reset, atReset, ran⟩ := booted
  unfold zRiscvMmuInit at ran
  split at ran
  · cases ran
  · rename_i root s₁ allocation
    have allocated := allocTable_spec allocation
    have unused : ∀ m, ¬ HandedOut cfg reset m := by
      rintro m ⟨i, -, used, -⟩
      rw [atReset.unused i] at used
      cases used
    obtain ⟨planted, blank⟩ := allocated.blank_root unused
    have out : HandedOut cfg s₁ root := (allocated.handedOut root).mpr (Or.inr rfl)
    let s₂ := mapGigapage 0#64 0#64 (PTE_R ||| PTE_W) { s₁ with kernelRoot := root }
    have device : Planted cfg s₂ ∧ s₂.view = deviceView := by
      obtain ⟨lvl, tree⟩ := planted
      have ends : child (leafPte 0#64 (PTE_R ||| PTE_W)) = none := by decide
      have wrote := tree.write (le_refl 2) (at_root s₁.mem root 0#64)
        (leafPte 0#64 (PTE_R ||| PTE_W)) fun _ => ends
      refine ⟨⟨lvl, wrote.1⟩, wrote.2.trans ?_⟩
      rw [show Tables.view s₁.mem root = fun _ => (2, 0#64) from blank]
      rfl
    have clear : ∀ i, i < pageCount (cfg.zMappedEnd - cfg.zMappedStart) →
        s₂.view.Clear 0 (pageAfter cfg.zMappedStart i) := by
      intro i inside
      exact (s₂.clear_view _ 0).mp (allocated.imagePage_clear unused inside)
    dsimp only at ran
    split at ran
    · cases ran
    · rename_i s₃ image
      obtain ⟨planted₃, mapped⟩ := mapPages_view device.1 clear image
      have sameRoot : SameRoot s₂ s₃ := by
        apply forPages_invariant (I := fun _ => SameRoot s₂) ⟨rfl, rfl⟩ _ image
        intro i s₄ s₅ _ before page
        exact before.trans (mapPage_sameRoot page)
      rw [← Except.ok.inj ran]
      refine ⟨planted₃, ?_, ?_⟩
      · rw [← device.2]
        exact mapped
      · rw [sameRoot.1]
        exact satp_root out.aligned out.physical

end ZephyrRiscv.Mmu
