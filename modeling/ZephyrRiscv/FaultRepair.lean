import ZephyrRiscv.PageFaults

set_option autoImplicit false

namespace ZephyrRiscv.PageFaults

open Sv39 Mmu RadixForest Tables Pt

/-- What the handler finds with Sv39 on the tables that some calls built. -/
def onTables (pool : Pool) (start : PtState) (calls : List PtCall) (handlerAction : BitVec 32) :
    SContext where
  satp := mmuEnableSv39 (build pool start calls).1
  mem := (build pool start calls).2.mem
  handlerAction := handlerAction

/-- The tables that calls clear of valid leaves build, as the handler finds them. -/
structure Standing (pool : Pool) (calls : List PtCall) (ctx : SContext) : Prop where
  tree : ∃ live level, TableTree ctx.mem live (satpRoot ctx.satp) level ∧
    ∀ t, live t → SRAM_BASE.toNat ≤ t.toNat
  view_eq : view ctx.mem (satpRoot ctx.satp) = calls.foldl PtCall.view identityView

theorem standing {pool : Pool} {start : PtState} {calls : List PtCall} (action : BitVec 32)
    (clears : Clears identityView calls)
    (room : (build pool start calls).2.ptPoolNextPage ≤ pool.pages) :
    Standing pool calls (onTables pool start calls action) := by
  obtain ⟨⟨level, tree⟩, viewed⟩ := build_spec clears room
  have rooted : satpRoot (onTables pool start calls action).satp = (build pool start calls).1 := by
    obtain ⟨aligned, physical, -⟩ := tree.rooted.geometry room
    exact mmuEnableSv39_root aligned physical
  constructor
  · rw [rooted]
    exact ⟨_, level, tree, fun t alive => (Live.geometry alive room).2.2⟩
  · rw [rooted]
    exact viewed

/-- No entry of tables in SRAM sits at address 0. -/
theorem entry_not_null {m : Mem} {live : BitVec 64 → Prop} {root : BitVec 64}
    {level : BitVec 64 → Nat} (tree : TableTree m live root level)
    (inSram : ∀ t, live t → SRAM_BASE.toNat ≤ t.toNat) (va : BitVec 64) :
    (endOf m va 2 root).1 ≠ 0 := by
  obtain ⟨table, alive, -, final⟩ := tree.endOf_live va
  have physical := tree.physical alive
  have low := inSram table alive
  intro null
  have address := congrArg BitVec.toNat (final.symm.trans null)
  rw [slot_toNat _ _ (by omega)] at address
  have base : SRAM_BASE.toNat = 0x80000000 := rfl
  have zero : (0 : BitVec 64).toNat = 0 := rfl
  omega

theorem Standing.entry_not_null {pool : Pool} {calls : List PtCall} {ctx : SContext}
    (stands : Standing pool calls ctx) (va : BitVec 64) :
    (endOf ctx.mem va 2 (satpRoot ctx.satp)).1 ≠ 0 := by
  obtain ⟨live, level, tree, inSram⟩ := stands.tree
  exact PageFaults.entry_not_null tree inSram va

/-- The handler returned to the access, which then goes through. -/
def NoLivelock (ctx : SContext) (status : Status) (kind : AccessKind) (va sepc : BitVec 64) :
    Prop :=
  let effects := sTrapHandler ctx kind.cause va sepc
  Resumes effects → access (memAfter ctx.mem effects) ctx.satp status kind va ≠ none

instance (ctx : SContext) (status : Status) (kind : AccessKind) (va sepc : BitVec 64) :
    Decidable (NoLivelock ctx status kind va sepc) :=
  inferInstanceAs (Decidable (_ → _))

theorem noLivelock_iff {ctx : SContext} {status : Status} {kind : AccessKind} {va : BitVec 64}
    (fixMode : ctx.handlerAction ≠ 1) (fault : access ctx.mem ctx.satp status kind va = none)
    (sepc : BitVec 64) :
    NoLivelock ctx status kind va sepc ↔
      (endOf ctx.mem va 2 (satpRoot ctx.satp)).1 = 0 ∨
        Repairable ctx.mem (satpRoot ctx.satp) va status kind := by
  by_cases null : (endOf ctx.mem va 2 (satpRoot ctx.satp)).1 = 0
  · have reports := (handler_reports fixMode kind sepc null).2.2
    exact ⟨fun _ => Or.inl null, fun _ resumes => absurd resumes reports⟩
  · obtain ⟨stored, resumes, -⟩ := handler_repairs fixMode kind sepc null
    rw [NoLivelock, stored, (fixBits_grants kind).access_repaired fault]
    constructor
    · intro repaired
      exact Or.inr (repaired resumes)
    · rintro (absent | repairable) _
      · exact absurd absent null
      · exact repairable

/-- A repaired access livelocks unless its address is canonical and its entry is
aligned to its level, has no reserved bit and lets S-mode in. -/
theorem fix_mode_retries (pool : Pool) (start : PtState) (calls : List PtCall)
    (action : BitVec 32) (status : Status) (kind : AccessKind) (va sepc : BitVec 64)
    (fixMode : action ≠ 1)
    (fault : access (onTables pool start calls action).mem (onTables pool start calls action).satp
      status kind va = none) :
    let ctx := onTables pool start calls action
    let root := satpRoot ctx.satp
    (NoLivelock ctx status kind va sepc ↔
      (endOf ctx.mem va 2 root).1 = 0 ∨ Repairable ctx.mem root va status kind) ∧
    (Clears identityView calls → (build pool start calls).2.ptPoolNextPage ≤ pool.pages →
      (NoLivelock ctx status kind va sepc ↔
        Canonical va ∧ Fixable status kind (view ctx.mem root va).1 (view ctx.mem root va).2)) := by
  intro ctx root
  have exact_condition : NoLivelock ctx status kind va sepc ↔ _ := noLivelock_iff fixMode fault sepc
  refine ⟨exact_condition, fun clears room => ?_⟩
  have stands := standing action clears room
  obtain ⟨live, level, tree, -⟩ := stands.tree
  rw [exact_condition, ← repairable_tree tree]
  constructor
  · rintro (null | repairable)
    · exact absurd null (stands.entry_not_null va)
    · exact repairable
  · exact Or.inr

theorem fix_mode_retries_invalid :
    let calls := [PtCall.mapPage 0xD0000000 0x801A0000 (PTE_R ||| PTE_W) false]
    NoLivelock (onTables linkerPool coldStart calls 0) plain .load 0xD0000000 0x80000100 :=
  (fix_mode_retries linkerPool coldStart
    [PtCall.mapPage 0xD0000000 0x801A0000 (PTE_R ||| PTE_W) false] 0 plain .load 0xD0000000
    0x80000100 (by decide) (by decide +kernel)).2 (by decide +kernel) (by decide +kernel) |>.mpr
    (by decide +kernel)

/-- A load from a U page with SUM clear, as in P1B.7 but with the fix mode on. -/
theorem user_page_livelocks :
    ¬ ∀ (pool : Pool) (start : PtState) (calls : List PtCall) (action : BitVec 32)
      (status : Status) (kind : AccessKind) (va sepc : BitVec 64), action ≠ 1 →
      access (onTables pool start calls action).mem (onTables pool start calls action).satp
        status kind va = none →
      NoLivelock (onTables pool start calls action) status kind va sepc := by
  intro claim
  have retried := claim linkerPool coldStart
    [PtCall.mapPage 0xD0070000 0x801A7000 (PTE_R ||| PTE_W ||| PTE_U) true] 0 plain .load
    0xD0070000 0x80000100 (by decide) (by decide +kernel)
  revert retried
  decide +kernel

/-- An entry that no request reached is zero. -/
theorem Standing.stray {pool : Pool} {requests : List Request} {ctx : SContext}
    (stands : Standing pool (requests.map Request.call) ctx)
    (clears : Clears identityView (requests.map Request.call)) {va : BitVec 64}
    (stray : ¬ Installed requests va) : (view ctx.mem (satpRoot ctx.satp) va).2 = 0#64 := by
  simp only [Installed, not_or, not_exists, not_and] at stray
  obtain ⟨sram, io, apart⟩ := stray
  rw [stands.view_eq, (requests_other identityView_regular clears apart).1,
    identityView_outside sram io]

/-- The test fails with code 200 and no entry changes. -/
def ReportsStray (ctx : SContext) (kind : AccessKind) (stval sepc : BitVec 64) : Prop :=
  let effects := sTrapHandler ctx kind.cause stval sepc
  effects.getLast? = some (.testFail 200) ∧ memAfter ctx.mem effects = ctx.mem

theorem reportsStray_iff {ctx : SContext} {kind : AccessKind} {stval : BitVec 64}
    (fixMode : ctx.handlerAction ≠ 1) (sepc : BitVec 64) :
    ReportsStray ctx kind stval sepc ↔ (endOf ctx.mem stval 2 (satpRoot ctx.satp)).1 = 0 := by
  constructor
  · rintro ⟨failed, -⟩
    by_contra entry
    have fails := (handler_repairs fixMode kind sepc entry).2.2
    rw [List.filter_eq_nil_iff] at fails
    exact fails _ (List.mem_of_getLast? failed) rfl
  · intro null
    have reports := handler_reports fixMode kind sepc null
    exact ⟨reports.1, reports.2.1⟩

/-- A zero entry becomes a leaf of page number 0: its whole block now translates to the
bottom of physical memory. -/
theorem Standing.papered {pool : Pool} {calls : List PtCall} {ctx : SContext}
    (stands : Standing pool calls ctx) {kind : AccessKind} {stval : BitVec 64}
    (fixMode : ctx.handlerAction ≠ 1) (sepc : BitVec 64)
    (zero : (view ctx.mem (satpRoot ctx.satp) stval).2 = 0#64) (status : Status)
    {va : BitVec 64} (canonical : Canonical va)
    (same : SameBlock (view ctx.mem (satpRoot ctx.satp) stval).1 stval va) :
    access ctx.mem ctx.satp status kind va = none ∧
      access (memAfter ctx.mem (sTrapHandler ctx kind.cause stval sepc)) ctx.satp status kind va =
        some (va.toNat % (4096 * 512 ^ (view ctx.mem (satpRoot ctx.satp) stval).1)) := by
  obtain ⟨live, level, tree, -⟩ := stands.tree
  have shared := view_uniform same
  have stored := (handler_repairs fixMode kind sepc (stands.entry_not_null stval)).1
  constructor
  · rw [access, tree.walk_eq, if_pos canonical, shared, finalTranslation, zero]
    rfl
  · obtain ⟨table, -, here, final⟩ := tree.endOf_live stval
    have word : ctx.mem (endOf ctx.mem stval 2 (satpRoot ctx.satp)).1 = 0#64 := zero
    obtain ⟨tree', viewed⟩ := tree.write (view_level _ _ _) here (0#64 ||| fixBits kind)
      fun _ => by cases kind <;> decide
    rw [stored, word, final, access, tree'.walk_eq, if_pos canonical, viewed,
      View.setBlock_same same, (fixBits_grants kind).translation, if_pos]
    · rw [show ppn 0#64 = 0 from rfl, Nat.zero_mul, Nat.zero_add]
    · exact ⟨by decide, by rw [show ppn 0#64 = 0 from rfl, Nat.zero_mod], fun user => by cases user⟩

/-- The walk hands the handler an entry whatever it holds, so a stray fault is fixed
and not reported: the page, megapage or gigapage of the level at which the walk has stopped
starts to translate. -/
theorem stray_fault_translates (pool : Pool) (start : PtState) (requests : List Request)
    (action : BitVec 32) (kind : AccessKind) (stval sepc : BitVec 64) (fixMode : action ≠ 1) :
    let calls := requests.map Request.call
    let ctx := onTables pool start calls action
    let after := memAfter ctx.mem (sTrapHandler ctx kind.cause stval sepc)
    let level := (ptWalk ctx.mem (satpRoot ctx.satp) stval).2
    (ReportsStray ctx kind stval sepc ↔ (endOf ctx.mem stval 2 (satpRoot ctx.satp)).1 = 0) ∧
    (¬ Installed requests stval → Clears identityView calls →
      (build pool start calls).2.ptPoolNextPage ≤ pool.pages →
      ¬ ReportsStray ctx kind stval sepc ∧
      ∀ va status, Canonical va → SameBlock level stval va →
        access ctx.mem ctx.satp status kind va = none ∧
        access after ctx.satp status kind va = some (va.toNat % (4096 * 512 ^ level))) := by
  intro calls ctx after level
  have reported : ReportsStray ctx kind stval sepc ↔
      (endOf ctx.mem stval 2 (satpRoot ctx.satp)).1 = 0 := reportsStray_iff fixMode sepc
  refine ⟨reported, fun stray clears room => ?_⟩
  have stands := standing action clears room
  constructor
  · rw [reported]
    exact stands.entry_not_null stval
  · intro va status canonical same
    have stopped : level = (view ctx.mem (satpRoot ctx.satp) stval).1 :=
      congrArg Prod.snd (ptWalk_eq ctx.mem (satpRoot ctx.satp) stval)
    rw [stopped] at same ⊢
    exact stands.papered fixMode sepc (stands.stray clears stray) status canonical same

/-- On the identity map alone a stray load maps a whole gigabyte. -/
theorem stray_fault_translates_gigabyte :
    let ctx := onTables linkerPool coldStart [] 0
    let after := memAfter ctx.mem (sTrapHandler ctx CAUSE_LOAD_PAGE_FAULT 0xD0000000 0x80000100)
    ¬ ReportsStray ctx .load 0xD0000000 0x80000100 ∧
      ∀ va status, Canonical va → SameBlock 2 0xD0000000 va →
        access ctx.mem ctx.satp status .load va = none ∧
        access after ctx.satp status .load va = some (va.toNat % 2 ^ 30) := by
  intro ctx after
  have level : (ptWalk ctx.mem (satpRoot ctx.satp) 0xD0000000).2 = 2 := by decide +kernel
  have translates := (stray_fault_translates linkerPool coldStart [] 0 .load 0xD0000000 0x80000100
    (by decide)).2 (by decide +kernel) trivial (by decide +kernel)
  rw [show (ptWalk (onTables linkerPool coldStart ([].map Request.call) 0).mem
    (satpRoot (onTables linkerPool coldStart ([].map Request.call) 0).satp) 0xD0000000).2 = 2 from
      level] at translates
  exact translates

theorem stray_load_not_reported :
    ¬ ∀ (pool : Pool) (start : PtState) (requests : List Request) (action : BitVec 32)
      (kind : AccessKind) (stval sepc : BitVec 64), action ≠ 1 → ¬ Installed requests stval →
      ReportsStray (onTables pool start (requests.map Request.call) action) kind stval sepc := by
  intro claim
  have reported := claim linkerPool coldStart [] 0 .load 0xD0000000 0x80000100 (by decide)
    (by decide +kernel)
  rw [reportsStray_iff (by decide)] at reported
  revert reported
  decide +kernel

end ZephyrRiscv.PageFaults
