import ZephyrRiscv.FaultAccounts
import ZephyrRiscv.P2Program
import ZephyrRiscv.SuiteMapper

set_option autoImplicit false

namespace ZephyrRiscv.P2

open Sv39 Mmu RadixForest Tables Pt PageFaults

variable {p : Platform} {pool : Pool}

/-- The tables that P2.4 has built so far. -/
structure Built (pool : Pool) (w : View) (root : BitVec 64) (next : Nat) (m : Mem) : Prop where
  shaped : Shaped pool 0 root ⟨m, next⟩
  viewed : view m root = w
  few : next ≤ 3

/-- They are live, and the handler repairs what faults. -/
structure Paged (pool : Pool) (w : View) (root : BitVec 64) (next : Nat) (space : Space) :
    Prop where
  built : Built pool w root next space.mem
  satp : space.satp = Pt.mmuEnableSv39 root
  fixMode : space.handlerAction = 0

/-- What the test needs of the pool: three pages, and none of them is the page it maps. -/
structure RoomFor (pool : Pool) : Prop where
  three : 3 ≤ pool.pages
  apart : ∀ i < 3, pool.page i ≠ faultPa

theorem RoomFor.off_table (room : RoomFor pool) {i : Nat} (below : i < 3) (j : BitVec 9) :
    slot (pool.page i) j ≠ doubleword faultPa.toNat := by
  intro same
  obtain ⟨aligned, physical, -⟩ := page_geometry pool (Nat.lt_of_lt_of_le below room.three)
  have small := j.isLt
  have address := congrArg BitVec.toNat same
  have word : (doubleword faultPa.toNat).toNat = faultPa.toNat := by decide
  have page : faultPa.toNat % 4096 = 0 := by decide
  rw [slot_toNat _ _ (by omega), word] at address
  exact room.apart i below (BitVec.eq_of_toNat_eq (by omega))

theorem ptNextTable_takes (pool : Pool) (pte : BitVec 64) (s : PtState) :
    (ptNextTable pool pte s).2.ptPoolNextPage ≤ s.ptPoolNextPage + 1 := by
  rw [ptNextTable]
  split
  · exact Nat.le_refl _
  · exact Nat.le_succ _

theorem ptMapPage_takes (pool : Pool) (root va pa perm : BitVec 64) (valid : Bool) (s : PtState) :
    (ptMapPage pool root va pa perm valid s).ptPoolNextPage ≤ s.ptPoolNextPage + 2 :=
  Nat.le_trans (ptNextTable_takes pool _ _)
    (Nat.add_le_add_right (ptNextTable_takes pool _ s) 1)

section
variable {w : View} {root : BitVec 64} {next : Nat} {m : Mem} {space : Space}

/-- The word behind the mapped page is in no table. -/
theorem Built.store (built : Built pool w root next m) (room : RoomFor pool)
    (value : BitVec 64) : Built pool w root next (m.store (doubleword faultPa.toNat) value) := by
  obtain ⟨level, tree⟩ := built.shaped
  have untouched : ∀ t j, Live pool 0 next t →
      words (m.store (doubleword faultPa.toNat) value) t j = words m t j := by
    rintro t j ⟨i, -, below, rfl⟩
    have few := built.few
    exact Mem.store_other _ _ _ _ (room.off_table (by omega) j)
  have frame := tree.frame untouched
  exact ⟨⟨level, frame.1⟩, frame.2.trans built.viewed, built.few⟩

/-- The space of a hart on which no handler runs. -/
def hartSpace (h : Hart) : Space := ⟨h.mem, h.csrs.satp, h.trap.handlerAction⟩

/-- The address of an access through live tables. -/
theorem Paged.translate {h : Hart} {kind : AccessKind} {va : BitVec 64}
    (paged : Paged p.pool w root next (hartSpace h)) (room : RoomFor p.pool)
    (canonical : Canonical va) :
    translate p h kind va =
      if allows (status p h) kind (w va) then
        some (ppn (w va).2 * 4096 + va.toNat % (4096 * 512 ^ (w va).1))
      else none := by
  obtain ⟨level, tree⟩ := paged.built.shaped
  have within := Nat.le_trans paged.built.few room.three
  obtain ⟨aligned, physical, -⟩ := tree.rooted.geometry within
  have satp : h.csrs.satp = Pt.mmuEnableSv39 root := paged.satp
  have rooted : satpRoot h.csrs.satp = root := by
    rw [satp]
    exact mmuEnableSv39_root aligned physical
  have mode : h.csrs.satp >>> 60 = Pt.SATP_MODE_SV39 := by
    have top : root >>> 12 >>> 60 = 0#64 := by
      apply BitVec.eq_of_toNat_eq
      have small := root.isLt
      simp only [BitVec.toNat_ushiftRight, Nat.shiftRight_eq_div_pow, BitVec.toNat_ofNat]
      omega
    rw [satp, Pt.mmuEnableSv39, BitVec.ushiftRight_or_distrib, top, BitVec.or_zero]
    decide
  have walked : walk h.mem root va = finalTranslation va (w va) := by
    rw [← paged.built.viewed]
    exact (tree.walk_eq va).trans (if_pos canonical)
  rw [P2.translate, if_pos mode, access, rooted, walked, final_access]

/-- The entry that `pt_map_page` writes, and the views with it and with it repaired. -/
def faultEntry : BitVec 64 := pageEntry faultPa (PTE_R ||| PTE_W) false
def mappedView : View := identityView.map faultVa 0 faultEntry
def repairedView : View := mappedView.setBlock 0 faultVa (0, faultEntry ||| fixBits .load)

theorem mappedView_page : mappedView faultVa = (0, faultEntry) := View.map_same rfl

theorem repairedView_page : repairedView faultVa = (0, faultEntry ||| fixBits .load) :=
  View.setBlock_same rfl

/-- The SRAM gigapage lets every store of S-mode through. -/
theorem identity_store (room : RoomFor p.pool) {h : Hart}
    (paged : Paged p.pool identityView root next (hartSpace h)) :
    translate p h .store faultPa = some faultPa.toNat := by
  have final : identityView faultPa = (2, pteLeaf SRAM_BASE (PTE_R ||| PTE_W ||| PTE_X)) := by
    decide
  have allowed : ∀ status, allows status .store
      (2, pteLeaf SRAM_BASE (PTE_R ||| PTE_W ||| PTE_X)) = true := by
    rintro ⟨sum, mxr, svade⟩
    cases sum <;> cases mxr <;> cases svade <;> decide
  rw [paged.translate room (by decide), final, if_pos (allowed _)]
  decide

/-- The invalid entry lets nothing through. -/
theorem mapped_load (room : RoomFor p.pool) {h : Hart}
    (paged : Paged p.pool mappedView root next (hartSpace h)) :
    translate p h .load faultVa = none := by
  have refused : ∀ status, allows status .load (0, faultEntry) ≠ true := by
    intro status allowed
    have valid := ((allows_iff status .load 0 faultEntry).mp allowed).1
    exact absurd valid (by decide)
  rw [paged.translate room (by decide), mappedView_page, if_neg (refused _)]

/-- The repaired one leads to the page. -/
theorem repaired_load (room : RoomFor p.pool) {h : Hart}
    (paged : Paged p.pool repairedView root next (hartSpace h)) :
    translate p h .load faultVa = some faultPa.toNat := by
  have allowed : ∀ status, allows status .load (0, faultEntry ||| fixBits .load) = true :=
    fun status => (allows_fixed_iff status .load 0 faultEntry).mpr (by
      refine ⟨by decide, by decide, fun user => absurd user (by decide)⟩)
  rw [paged.translate room (by decide), repairedView_page, if_pos (allowed _)]
  decide

/-- The word behind the page has been stored. -/
structure Loaded (pool : Pool) (w : View) (root : BitVec 64) (next : Nat) (space : Space) :
    Prop where
  paged : Paged pool w root next space
  word : space.mem (doubleword faultPa.toNat) = faultWord

theorem Built.setup (room : RoomFor pool) (m : Mem) :
    let built := ptSetupIdentityKernel pool ⟨m, 0⟩
    Built pool identityView built.1 built.2.ptPoolNextPage built.2.mem := by
  intro built
  have inside : 0 < pool.pages := Nat.lt_of_lt_of_le (by omega) room.three
  obtain ⟨shaped, viewed, -⟩ := ptSetupIdentityKernel_spec (s := ⟨m, 0⟩) inside
  exact ⟨shaped, viewed, show 0 + 1 ≤ 3 by omega⟩

theorem Loaded.mapPage (loaded : Loaded pool identityView root next space) (room : RoomFor pool)
    (one : next ≤ 1) :
    let mapped := ptMapPage pool root faultVa faultPa (PTE_R ||| PTE_W) false ⟨space.mem, next⟩
    Loaded pool mappedView root mapped.ptPoolNextPage { space with mem := mapped.mem } := by
  intro mapped
  have three := room.three
  obtain ⟨shaped, viewed, -⟩ := loaded.paged.built
  have takes : mapped.ptPoolNextPage ≤ next + 2 := ptMapPage_takes pool _ _ _ _ _ _
  have few : mapped.ptPoolNextPage ≤ 3 := by omega
  have clear : (view space.mem root).Clear 0 faultVa := by
    rw [viewed]
    decide
  have within : mapped.ptPoolNextPage ≤ pool.pages := Nat.le_trans few three
  obtain ⟨shaped', viewed'⟩ := ptMapPage_spec shaped clear within
  have off : doubleword faultPa.toNat ∉ mapPageStores pool root faultVa ⟨space.mem, next⟩ := by
    intro stored
    obtain ⟨t, ⟨i, -, below, rfl⟩, j, same⟩ := mapPageStores_confined shaped clear within stored
    exact room.off_table (Nat.lt_of_lt_of_le below few) j same.symm
  have word : mapped.mem (doubleword faultPa.toNat) = space.mem (doubleword faultPa.toNat) :=
    ptMapPage_untouched within (by decide) off
  refine ⟨⟨⟨shaped', ?_, few⟩, loaded.paged.satp, loaded.paged.fixMode⟩, word.trans loaded.word⟩
  rw [viewed', viewed]
  rfl

/-- The handler stores the repaired entry, and returns to the load. -/
theorem Loaded.repair (loaded : Loaded pool mappedView root next space) (room : RoomFor pool)
    (sepc : BitVec 64) :
    let ctx : SContext := ⟨space.satp, space.mem, space.handlerAction⟩
    let effects := sTrapHandler ctx AccessKind.load.cause faultVa sepc
    Loaded pool repairedView root next { space with mem := memAfter space.mem effects } ∧
      (∀ e ∈ effects, e.mild = true) ∧ uncounted .fault (some effects) = 1 := by
  intro ctx effects
  have few := loaded.paged.built.few
  have within := Nat.le_trans few room.three
  have fixMode : ctx.handlerAction ≠ 1 := by
    rw [show ctx.handlerAction = 0 from loaded.paged.fixMode]
    decide
  obtain ⟨level, tree⟩ := loaded.paged.built.shaped
  obtain ⟨aligned, physical, -⟩ := tree.rooted.geometry within
  have rooted : satpRoot ctx.satp = root := by
    rw [show ctx.satp = Pt.mmuEnableSv39 root from loaded.paged.satp]
    exact mmuEnableSv39_root aligned physical
  have final : view space.mem root faultVa = (0, faultEntry) := by
    rw [loaded.paged.built.viewed]
    exact mappedView_page
  have entry : (endOf ctx.mem faultVa 2 (satpRoot ctx.satp)).1 ≠ 0 := by
    rw [rooted]
    exact entry_not_null tree (fun t alive => (Live.geometry alive within).2.2) faultVa
  have stored := (handler_repairs fixMode .load sepc entry).1
  obtain ⟨table, ⟨i, -, below, rfl⟩, here, slotted⟩ := tree.endOf_live faultVa
  have old : space.mem (endOf space.mem faultVa 2 root).1 = faultEntry := congrArg Prod.snd final
  rw [rooted] at stored
  rw [final] at here slotted
  have wrote := tree.write (Nat.zero_le 2) here (faultEntry ||| fixBits .load)
    fun positive => absurd positive (by omega)
  have mem : memAfter space.mem effects = space.mem.store
      (slot (pool.page i) (vpn faultVa 0)) (faultEntry ||| fixBits .load) := by
    refine stored.trans ?_
    show space.mem.store _ (space.mem _ ||| _) = _
    rw [old, slotted]
  refine ⟨⟨⟨⟨⟨level, ?_⟩, ?_, few⟩, loaded.paged.satp, loaded.paged.fixMode⟩, ?_⟩,
    repair_mild fixMode .load sepc entry⟩
  · simp only [mem]
    exact wrote.1
  · simp only [mem]
    rw [wrote.2, loaded.paged.built.viewed]
    rfl
  · simp only [mem]
    have apart := room.off_table (Nat.lt_of_lt_of_le below few) (vpn faultVa 0)
    exact (Mem.store_other _ _ _ _ apart.symm).trans loaded.word

end

end ZephyrRiscv.P2
