import ZephyrRiscv.KernelViews
import ZephyrRiscv.PageFaults

set_option autoImplicit false

namespace ZephyrRiscv.FaultResolver

open Sv39 Mmu Tables PageFaults Transition

def EXC_INST_PAGE_FAULT : BitVec 64 := 12
def EXC_LOAD_PAGE_FAULT : BitVec 64 := 13
def EXC_STORE_PAGE_FAULT : BitVec 64 := 15

/-- The kernel's tables and the counter of the suite. -/
structure P1c where
  tables : MmuState
  fixCount : BitVec 32

/-- A resolver says whether to retry, from `scause` and `stval`. -/
abbrev Resolver := P1c → BitVec 64 → BitVec 64 → Bool × P1c

/-- `*pte |= bits`, counted. -/
def P1c.repair (s : P1c) (pte bits : BitVec 64) : Bool × P1c :=
  (true, { tables := s.tables.writePte pte (s.tables.mem pte ||| bits)
           fixCount := s.fixCount + 1 })

def p1cFixup : Resolver := fun s scause stval =>
  let pte := zRiscvMmuPteLookup s.tables stval
  if pte = NULL then (false, s)
  else if scause = EXC_LOAD_PAGE_FAULT then s.repair pte (PTE_V ||| PTE_R ||| PTE_A)
  else if scause = EXC_STORE_PAGE_FAULT then
    s.repair pte (PTE_V ||| PTE_R ||| PTE_W ||| PTE_A ||| PTE_D)
  else if scause = EXC_INST_PAGE_FAULT then s.repair pte (PTE_V ||| PTE_R ||| PTE_X ||| PTE_A)
  else (false, s)

def zRiscvMmuTryFaultFixup (mmuFaultFixup : Option Resolver) : Resolver := fun s scause stval =>
  match mmuFaultFixup with
  | none => (false, s)
  | some fn => fn s scause stval

/-- Whether `z_riscv_fault` returns, to the same instruction, before the fatal path. -/
def zRiscvFault (mmuFaultFixup : Option Resolver) : Resolver := fun s scause stval =>
  if scause = 12 ∨ scause = 13 ∨ scause = 15 then
    zRiscvMmuTryFaultFixup mmuFaultFixup s scause stval
  else (false, s)

/-- A call, or a store through the pointer that `z_riscv_mmu_pte_lookup` returns. -/
inductive Action where
  | call (call : Call)
  | edit (va value : BitVec 64)

/-- An edit through a null pointer does not happen. -/
def edit (s : MmuState) (va value : BitVec 64) : MmuState :=
  let pte := zRiscvMmuPteLookup s va
  if pte = NULL then s else s.writePte pte value

/-- The tables, with a ghost: the addresses for which an entry is installed. -/
structure Traced where
  tables : MmuState
  installed : BitVec 64 → Bool

/-- Whether an action stores in the entry of an address, and if so, other than zero. -/
def stores (s : MmuState) (action : Action) (a : BitVec 64) : Option Bool :=
  match action with
  | .call (.memMap virt _ size _) =>
      if ∃ i < pageCount size, SameBlock 0 (pageAfter virt i) a then some true else none
  | .call (.memUnmap addr size) =>
      if Unmappable (s.view a) ∧ ∃ i < pageCount size, SameBlock (s.view a).1 (pageAfter addr i) a
      then some false else none
  | .call (.mapRaw va pa pteBits level) =>
      if SameBlock level va a then some (decide (physToPpn pa ||| pteBits ≠ 0#64)) else none
  | .edit va value =>
      if zRiscvMmuPteLookup s va ≠ NULL ∧ SameBlock (s.view va).1 va a then
        some (decide (value ≠ 0#64))
      else none

/-- An entry other than zero is installed until it is zeroed, or until the address gets
an entry of another level, because a table is linked in or cut off. -/
def installedAfter (t : Traced) (action : Action) (s' : MmuState) (a : BitVec 64) : Bool :=
  match stores t.tables action a with
  | some nonzero => nonzero
  | none => t.installed a && decide ((s'.view a).1 = (t.tables.view a).1)

def Action.Runs (cfg : Config) (s : MmuState) (s' : MmuState) : Action → Prop
  | .call c => Returns cfg s c s'
  | .edit va value => s' = FaultResolver.edit s va value

/-- From boot the device gigabyte and the image are installed. -/
def Traced.Start (cfg : Config) (t : Traced) : Prop :=
  Booted cfg t.tables ∧ ∀ a, t.installed a = true ↔
    SameBlock 2 0#64 a ∨ ∃ i < pageCount (cfg.zMappedEnd - cfg.zMappedStart),
      SameBlock 0 (pageAfter cfg.zMappedStart i) a

def Traced.Step (cfg : Config) (t : Traced) (action : Action) (t' : Traced) : Prop :=
  action.Runs cfg t.tables t'.tables ∧ t'.installed = installedAfter t action t'.tables

/-- No call maps under a valid leaf, and no raw entry or edit makes a link of an entry. -/
def Tidy (t : Traced) : Action → Prop
  | .call c => c.Clear t.tables ∧ c.RawLeaf
  | .edit va value => 0 < (t.tables.view va).1 → child value = none

/-- What the hook should do with a fault: retry with the entry repaired and the access going
through, when the page has an entry; otherwise leave the tables alone. -/
def Sound (t : Traced) (fixCount : BitVec 32) (status : Status) (kind : AccessKind)
    (stval : BitVec 64) : Prop :=
  let before : P1c := ⟨t.tables, fixCount⟩
  let (retry, after) := zRiscvFault (some p1cFixup) before kind.cause stval
  let pte := (endOf t.tables.mem stval 2 t.tables.kernelRoot).1
  (retry = true →
    t.installed stval = true ∧ ppn (after.tables.mem pte) = ppn (t.tables.mem pte) ∧
    (∀ a, a ≠ pte → after.tables.mem a = t.tables.mem a) ∧
    access after.tables.mem t.tables.satp status kind stval ≠ none) ∧
  (retry = false → after = before)

theorem edit_sameRoot (s : MmuState) (va value : BitVec 64) : SameRoot s (edit s va value) := by
  rw [edit]
  split
  · exact ⟨rfl, rfl⟩
  · exact ⟨rfl, rfl⟩

theorem Action.Runs.sameRoot {cfg : Config} {s s' : MmuState} {action : Action}
    (runs : action.Runs cfg s s') : SameRoot s s' := by
  cases action with
  | call c => exact Returns.sameRoot runs
  | edit va value =>
      rw [show s' = FaultResolver.edit s va value from runs]
      exact edit_sameRoot s va value

/-- The tables form a tree, and an entry is installed when it is not zero. -/
structure Orderly (cfg : Config) (t : Traced) : Prop where
  planted : Planted cfg t.tables
  exact : ∀ a, t.installed a = true ↔ (t.tables.view a).2 ≠ 0#64

/-- An address at which an action stores nothing keeps its entry or gets a zero one. -/
theorem Orderly.elsewhere {cfg : Config} {t : Traced} (orderly : Orderly cfg t)
    {s' : MmuState} {a : BitVec 64} (deeper : t.tables.view.Deeper s'.view a) :
    (t.installed a && decide ((s'.view a).1 = (t.tables.view a).1)) = true ↔
      (s'.view a).2 ≠ 0#64 := by
  rw [Bool.and_eq_true, decide_eq_true_eq, orderly.exact a]
  obtain same | ⟨lower, zero⟩ := deeper
  · rw [same]
    exact and_iff_left rfl
  · rw [zero]
    constructor
    · rintro ⟨-, level⟩
      omega
    · intro absurdity
      exact absurd rfl absurdity

theorem Orderly.call {cfg : Config} {t : Traced} {s' : MmuState} {c : Call}
    (orderly : Orderly cfg t) (clear : c.Clear t.tables) (raw : c.RawLeaf)
    (returns : Returns cfg t.tables c s') :
    Orderly cfg ⟨s', installedAfter t (.call c) s'⟩ := by
  cases c with
  | memMap virt phys size flags =>
      obtain ⟨planted, mapped⟩ := mapPages_view orderly.planted
        (fun i inside => (t.tables.clear_view _ 0).mp (clear i inside)) returns
      refine ⟨planted, fun a => ?_⟩
      simp only [installedAfter, stores]
      by_cases covered : ∃ i < pageCount size, SameBlock 0 (pageAfter virt i) a
      · obtain ⟨i, inside, same⟩ := covered
        rw [if_pos ⟨i, inside, same⟩]
        exact iff_of_true rfl (mapped.covered a i inside same).2
      · rw [if_neg covered]
        apply orderly.elsewhere
        exact mapped.elsewhere a fun i inside same => covered ⟨i, inside, same⟩
  | memUnmap addr size =>
      obtain ⟨planted, viewed⟩ := archMemUnmap_view orderly.planted returns
      refine ⟨planted, fun a => ?_⟩
      simp only [installedAfter, stores]
      by_cases gone : Unmappable (t.tables.view a) ∧
          ∃ i < pageCount size, SameBlock (t.tables.view a).1 (pageAfter addr i) a
      · rw [if_pos gone, viewed, View.unmap, if_pos gone]
        simp only [Bool.false_eq_true, ne_eq, not_true_eq_false]
      · rw [if_neg gone]
        apply orderly.elsewhere
        apply Or.inl
        rw [viewed, View.unmap, if_neg gone]
  | mapRaw va pa pteBits level =>
      obtain ⟨planted, viewed, -⟩ := zRiscvMmuMapRaw_view orderly.planted
        ((t.tables.clear_view va level).mp clear) (fun positive => raw.ends positive) returns
      refine ⟨planted, fun a => ?_⟩
      simp only [installedAfter, stores]
      by_cases covered : SameBlock level va a
      · rw [if_pos covered, viewed, View.map_same covered]
        exact decide_eq_true_iff
      · rw [if_neg covered]
        apply orderly.elsewhere
        rw [viewed]
        exact t.tables.view_uniform.map_other _ covered

theorem Orderly.edit {cfg : Config} {t : Traced} {va value : BitVec 64}
    (orderly : Orderly cfg t) (tidy : 0 < (t.tables.view va).1 → child value = none) :
    Orderly cfg ⟨FaultResolver.edit t.tables va value,
      installedAfter t (.edit va value) (FaultResolver.edit t.tables va value)⟩ := by
  by_cases null : zRiscvMmuPteLookup t.tables va = NULL
  · have unchanged : FaultResolver.edit t.tables va value = t.tables := if_pos null
    rw [unchanged]
    refine ⟨orderly.planted, fun a => ?_⟩
    have same : (t.installed a && decide ((t.tables.view a).1 = (t.tables.view a).1)) = true ↔
        (t.tables.view a).2 ≠ 0#64 := orderly.elsewhere (Or.inl rfl)
    simpa only [installedAfter, stores, null, ne_eq, not_true_eq_false, false_and,
      ↓reduceIte] using same
  · have written : FaultResolver.edit t.tables va value =
        t.tables.writePte (endOf t.tables.mem va 2 t.tables.kernelRoot).1 value := by
      rw [← pteLookup_found null]
      exact if_neg null
    have wrote : Planted cfg (FaultResolver.edit t.tables va value) ∧
        (FaultResolver.edit t.tables va value).view = t.tables.view.setBlock
          (t.tables.view va).1 va ((t.tables.view va).1, value) := by
      rw [written]
      exact orderly.planted.write tidy rfl rfl rfl
    obtain ⟨planted, viewed⟩ := wrote
    refine ⟨planted, fun a => ?_⟩
    simp only [installedAfter, stores, null, ne_eq, not_false_eq_true, true_and]
    by_cases covered : SameBlock (t.tables.view va).1 va a
    · rw [if_pos covered, viewed, View.setBlock_same covered]
      exact decide_eq_true_iff
    · rw [if_neg covered]
      apply orderly.elsewhere
      apply Or.inl
      rw [viewed, View.setBlock_other covered]

theorem Orderly.start {cfg : Config} {t : Traced} (start : Traced.Start cfg t) :
    Orderly cfg t := by
  obtain ⟨booted, installed⟩ := start
  obtain ⟨planted, mapped, -⟩ := booted.view
  refine ⟨planted, fun a => ?_⟩
  rw [installed]
  by_cases image : ∃ i < pageCount (cfg.zMappedEnd - cfg.zMappedStart),
      SameBlock 0 (pageAfter cfg.zMappedStart i) a
  · obtain ⟨i, inside, same⟩ := image
    exact iff_of_true (Or.inr ⟨i, inside, same⟩) (mapped.covered a i inside same).2
  · have outside := mapped.elsewhere a fun i inside same => image ⟨i, inside, same⟩
    by_cases device : SameBlock 2 0#64 a
    · -- the image lies outside the gigapage, so no table comes in below it
      have leaf : t.tables.leafAt a = some (2, leafPte 0#64 (PTE_R ||| PTE_W)) := by
        obtain ⟨i, inside, same, -⟩ | ⟨-, old⟩ := booted.bootMap.leaves a
        · exact absurd ⟨i, inside, same⟩ image
        · exact old.trans (if_pos device)
      rw [t.tables.leafAt_view] at leaf
      have found := Option.some.inj (Option.filter_eq_some_iff.mp leaf).1
      rw [found]
      exact iff_of_true (Or.inl device) (leafPte_ne_zero _ _)
    · obtain same | ⟨-, zero⟩ := outside
      · rw [same, deviceView, if_neg device]
        simp [device, image]
      · rw [zero]
        simp [device, image]

theorem run_orderly {cfg : Config} {actions : List Action} {t : Traced}
    (run : Run (Traced.Start cfg) (Guarded Tidy (Traced.Step cfg)) actions t) :
    Orderly cfg t := by
  apply run.invariant
  · exact fun t start => Orderly.start start
  · rintro t action ⟨s', installed'⟩ orderly ⟨tidy, runs, grown⟩
    have traced : installed' = installedAfter t action s' := grown
    rw [traced]
    cases action with
    | call c => exact orderly.call tidy.1 tidy.2 runs
    | edit va value =>
        have edited : s' = edit t.tables va value := runs
        rw [edited]
        exact orderly.edit tidy

/-- The tables after boot on the small board. -/
def bootTraced (s : MmuState) : Traced where
  tables := s
  installed a := decide (SameBlock 2 0#64 a ∨
    ∃ i < pageCount (smallBoard.zMappedEnd - smallBoard.zMappedStart),
      SameBlock 0 (pageAfter smallBoard.zMappedStart i) a)

theorem bootTraced_start {s : MmuState} (booted : Booted smallBoard s) :
    Traced.Start smallBoard (bootTraced s) :=
  ⟨booted, fun _ => decide_eq_true_iff⟩

end ZephyrRiscv.FaultResolver
