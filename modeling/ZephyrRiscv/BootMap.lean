import ZephyrRiscv.KernelViews
import ZephyrRiscv.TableBudget
import Mathlib.Order.Interval.Finset.Nat

set_option autoImplicit false

namespace ZephyrRiscv.Mmu

open Sv39 RadixForest Tables TableBudget

/-- The regions of a number of bytes that a range of addresses reaches into. -/
def spanned (bytes start stop : Nat) : Nat :=
  if start < stop then (stop - 1) / bytes - start / bytes + 1 else 0

/-- The root, and one table for each 1 GB and for each 2 MB region of the image. -/
def tablesNeeded (cfg : Config) : Nat :=
  1 + spanned (2 ^ 30) cfg.zMappedStart.toNat cfg.zMappedEnd.toNat +
    spanned (2 ^ 21) cfg.zMappedStart.toNat cfg.zMappedEnd.toNat

def identity (va : BitVec 64) (executable : Bool) : Translation where
  pa := va.toNat
  r := true
  w := true
  x := executable
  u := false
  a := true
  d := true

/-- The address space that boot is meant to set up: the device gigabyte and the pages of
the image. -/
def intendedMap (cfg : Config) (va : BitVec 64) : Option Translation :=
  if va.toNat < 2 ^ 30 then some (identity va false)
  else if cfg.zMappedStart.toNat ≤ va.toNat ∧
      va.toNat < (cfg.zMappedEnd.toNat + 4095) / 4096 * 4096 then
    some (identity va true)
  else none

/-- The walk from the root that `satp` names. -/
def satpWalk (s : MmuState) (va : BitVec 64) : Option Translation :=
  walk s.mem ((s.satp &&& 0x00000FFFFFFFFFFF) <<< 12) va

theorem imagePages (cfg : Config) : pageCount (cfg.zMappedEnd - cfg.zMappedStart) =
    (cfg.zMappedEnd.toNat + 4095) / 4096 - cfg.zMappedStart.toNat / 4096 := by
  have aligned := cfg.imageAligned
  have ordered := cfg.imageOrdered
  rw [pageCount, BitVec.toNat_sub_of_le (BitVec.le_def.mpr ordered)]
  omega

theorem page_image (cfg : Config) {i : Nat}
    (inside : i < pageCount (cfg.zMappedEnd - cfg.zMappedStart)) :
    page (pageAfter cfg.zMappedStart i) = cfg.zMappedStart.toNat / 4096 + i := by
  obtain ⟨value, below⟩ := imagePage_toNat cfg inside
  have canonical := cfg.imageCanonical
  rw [page, value]
  omega

/-- The quotients of consecutive numbers are consecutive. -/
theorem card_quotients (first count size : Nat) (positive : 0 < size) :
    ((List.range count).map fun i => (first + i) / size).toFinset.card =
      if 0 < count then (first + count - 1) / size - first / size + 1 else 0 := by
  by_cases nonempty : 0 < count
  · rw [if_pos nonempty]
    have interval : ((List.range count).map fun i => (first + i) / size).toFinset =
        Finset.Icc (first / size) ((first + count - 1) / size) := by
      ext q
      simp only [List.mem_toFinset, List.mem_map, List.mem_range, Finset.mem_Icc]
      constructor
      · rintro ⟨i, below, rfl⟩
        exact ⟨Nat.div_le_div_right (by omega), Nat.div_le_div_right (by omega)⟩
      · rintro ⟨low, high⟩
        -- the first number of the block, or the first of all
        refine ⟨max first (q * size) - first, ?_, ?_⟩
        · have fits := (Nat.le_div_iff_mul_le positive).mp high
          omega
        · have below := Nat.lt_succ_iff.mpr low
          rw [Nat.div_lt_iff_lt_mul positive] at below
          have total : first + (max first (q * size) - first) = max first (q * size) := by omega
          rw [total]
          apply Nat.div_eq_of_lt_le
          · exact le_max_right _ _
          · rw [Nat.succ_mul] at below ⊢
            omega
    rw [interval, Nat.card_Icc]
    have order : first / size ≤ (first + count - 1) / size := Nat.div_le_div_right (by omega)
    omega
  · rw [if_neg nonempty, Nat.eq_zero_of_not_pos nonempty]
    rfl

theorem regions_spanned (cfg : Config) (level : Nat) :
    (regions cfg [] level).card =
      spanned (4096 * 512 ^ level) cfg.zMappedStart.toNat cfg.zMappedEnd.toNat := by
  have aligned := cfg.imageAligned
  have ordered := cfg.imageOrdered
  have pages := imagePages cfg
  have numbers : pageRegions level cfg.zMappedStart (cfg.zMappedEnd - cfg.zMappedStart) =
      (List.range (pageCount (cfg.zMappedEnd - cfg.zMappedStart))).map fun i =>
        (cfg.zMappedStart.toNat / 4096 + i) / 512 ^ level := by
    apply List.map_congr_left
    intro i inside
    rw [region, page_image cfg (List.mem_range.mp inside)]
  rw [regions, List.flatMap_nil, List.append_nil, numbers,
    card_quotients _ _ _ (Nat.pow_pos (by decide)), pages, spanned]
  by_cases empty : cfg.zMappedStart.toNat < cfg.zMappedEnd.toNat
  · rw [if_pos empty, if_pos (by omega)]
    have last : cfg.zMappedStart.toNat / 4096 + ((cfg.zMappedEnd.toNat + 4095) / 4096 -
        cfg.zMappedStart.toNat / 4096) - 1 = (cfg.zMappedEnd.toNat - 1) / 4096 := by omega
    rw [last, Nat.div_div_eq_div_mul, Nat.div_div_eq_div_mul]
  · rw [if_neg empty, if_neg (by omega)]

theorem tablesNeeded_eq (cfg : Config) : tablesNeeded cfg = budget cfg [] := by
  rw [budget, regions_spanned, regions_spanned]
  rfl

variable {cfg : Config} {s : MmuState}

/-- The path to a table decides its region. -/
theorem region_pathTo {va va' : BitVec 64} {l : Nat} (bound : l ≤ 2)
    (same : pathTo va l = pathTo va' l) : region (l + 1) va = region (l + 1) va' := by
  have index : ∀ i, vpn va i = vpn va' i →
      va.toNat / (4096 * 512 ^ i) % 512 = va'.toNat / (4096 * 512 ^ i) % 512 := by
    intro i equal
    rw [← vpn_toNat, ← vpn_toNat, equal]
  simp only [region, page]
  obtain rfl | rfl | rfl : l = 0 ∨ l = 1 ∨ l = 2 := by omega
  · simp only [pathTo, keys, List.take_succ_cons, List.take_zero, List.cons.injEq, and_true] at same
    have top := index 2 same.1
    have middle := index 1 same.2
    omega
  · simp only [pathTo, keys, List.take_succ_cons, List.take_zero, List.cons.injEq, and_true] at same
    have top := index 2 same
    omega
  · omega

/-- The table of a place: a level, and a region of the level above. -/
def Placed (s : MmuState) (place : Nat × Nat) (t : BitVec 64) : Prop :=
  ∃ va, place.1 ≤ 2 ∧ region (place.1 + 1) va = place.2 ∧ At s.mem s.kernelRoot va place.1 t

theorem Placed.unique {level : BitVec 64 → Nat}
    (tree : TableTree s.mem (HandedOut cfg s) s.kernelRoot level) {place place' : Nat × Nat}
    {t : BitVec 64} (first : Placed s place t) (second : Placed s place' t) : place = place' := by
  obtain ⟨l, r⟩ := place
  obtain ⟨l', r'⟩ := place'
  obtain ⟨va, bound, here, reached⟩ := first
  obtain ⟨va', bound', here', reached'⟩ := second
  obtain rfl : l = l' := (tree.at_live bound reached).2.symm.trans (tree.at_live bound' reached').2
  have paths := tree.forest.descend_injective tree.rooted (tree.path_bound bound va)
    (tree.path_bound bound' va') reached reached'
  have regions : r = r' := here.symm.trans ((region_pathTo bound paths).trans here')
  rw [regions]

/-- A page of level 0 has a table at every level. -/
theorem placed_of_page {va : BitVec 64} (bottom : (s.view va).1 = 0) {l : Nat} (bound : l ≤ 2) :
    ∃ t, Placed s (l, region (l + 1) va) t := by
  obtain ⟨l', t, bound', here, final, -⟩ :=
    endOf_spec s.mem s.kernelRoot va (le_refl 2) (at_root s.mem s.kernelRoot va)
  have lowest : l' = 0 := by
    rw [MmuState.view, Tables.view, final] at bottom
    exact bottom
  rw [lowest] at here
  obtain ⟨t₁, here₁, -⟩ := (at_succ (l := 0) (by omega)).mp here
  obtain rfl | rfl | rfl : l = 0 ∨ l = 1 ∨ l = 2 := by omega
  · exact ⟨t, va, bound, rfl, here⟩
  · exact ⟨t₁, va, bound, rfl, here₁⟩
  · exact ⟨s.kernelRoot, va, bound, rfl, at_root s.mem s.kernelRoot va⟩

theorem runPlaces_budget (cfg : Config) (calls : List Call) :
    (runPlaces cfg calls).card = budget cfg calls := by
  have apart : Disjoint ((regions cfg calls 2).image (Prod.mk 1))
      ((regions cfg calls 1).image (Prod.mk 0)) := by
    rw [Finset.disjoint_left]
    intro place first second
    obtain ⟨r, -, rfl⟩ := Finset.mem_image.mp first
    obtain ⟨r', -, same⟩ := Finset.mem_image.mp second
    cases same
  have root : (2, 0) ∉ (regions cfg calls 2).image (Prod.mk 1) ∪
      (regions cfg calls 1).image (Prod.mk 0) := by
    intro member
    obtain first | second := Finset.mem_union.mp member
    · obtain ⟨r, -, same⟩ := Finset.mem_image.mp first
      cases same
    · obtain ⟨r, -, same⟩ := Finset.mem_image.mp second
      cases same
  rw [runPlaces, Finset.card_insert_of_notMem root, Finset.card_union_of_disjoint apart,
    Finset.card_image_of_injective _ (Prod.mk_right_injective 1),
    Finset.card_image_of_injective _ (Prod.mk_right_injective 0), budget]
  omega

/-- A boot that returns has a table at the root and at every region of the image. -/
theorem Booted.placed (booted : Booted cfg s) {place : Nat × Nat}
    (asked : place ∈ runPlaces cfg []) : ∃ t, Placed s place t := by
  obtain ⟨planted, mapped, -⟩ := booted.view
  have image : ∀ l, l < 2 → ∀ r ∈ regions cfg [] (l + 1), ∃ t, Placed s (l, r) t := by
    intro l low r member
    rw [regions, List.flatMap_nil, List.append_nil, List.mem_toFinset] at member
    obtain ⟨i, inside, rfl⟩ := List.mem_map.mp member
    have bottom := (mapped.covered _ i (List.mem_range.mp inside) rfl).1
    exact placed_of_page bottom (by omega)
  obtain rfl | below := Finset.mem_insert.mp asked
  · have region₀ : region 3 (0#64) = 0 := by decide
    exact ⟨s.kernelRoot, 0#64, le_refl 2, region₀, at_root s.mem s.kernelRoot 0#64⟩
  · obtain first | second := Finset.mem_union.mp below
    · obtain ⟨r, member, rfl⟩ := Finset.mem_image.mp first
      exact image 1 (by omega) r member
    · obtain ⟨r, member, rfl⟩ := Finset.mem_image.mp second
      exact image 0 (by omega) r member

theorem Booted.tables (booted : Booted cfg s) : tablesNeeded cfg ≤ cfg.numTables := by
  obtain ⟨⟨level, tree⟩, -, -⟩ := booted.view
  rw [tablesNeeded_eq, ← runPlaces_budget, ← Finset.card_range cfg.numTables]
  apply Finset.card_le_card_of_forall_subsingleton fun place i => Placed s place (cfg.table i)
  · intro place asked
    obtain ⟨t, placed⟩ := booted.placed asked
    obtain ⟨va, bound, region, reached⟩ := placed
    obtain ⟨⟨i, inside, -, rfl⟩, -⟩ := tree.at_live bound reached
    exact ⟨i, Finset.mem_range.mpr inside, va, bound, region, reached⟩
  · rintro i - place ⟨-, first⟩ place' ⟨-, second⟩
    exact Placed.unique tree first second

theorem image_bounded (cfg : Config) :
    (cfg.zMappedEnd - cfg.zMappedStart).toNat ≤ 2 ^ 64 - 4096 := by
  have canonical := cfg.imageCanonical
  rw [BitVec.toNat_sub_of_le (BitVec.le_def.mpr cfg.imageOrdered)]
  omega

/-- `z_riscv_mmu_init` returns or panics. -/
theorem zRiscvMmuInit_error {stop : Stop} (failed : zRiscvMmuInit cfg s = .error stop) :
    ∃ stopped, stop = .panic stopped := by
  unfold zRiscvMmuInit at failed
  split at failed
  · rename_i stop' exhausted
    rw [← Except.error.inj failed]
    exact ⟨_, allocTable_error exhausted⟩
  · rename_i root s₁ allocation
    dsimp only at failed
    split at failed
    · rename_i stop' loop
      rw [← Except.error.inj failed]
      obtain ⟨s', i, body⟩ := forPages_error (image_bounded cfg) loop
      obtain ⟨stopped, panics, -⟩ := mapPage_error body
      exact ⟨stopped, panics⟩
    · cases failed

theorem page_low {va : BitVec 64} (low : va.toNat < 2 ^ 38) : page va = va.toNat / 4096 := by
  rw [page]
  omega

/-- The map that the tables refine is the intended one. -/
theorem boot_translate (cfg : Config) {va : BitVec 64} (canonical : Canonical va) :
    (PageMap.boot cfg).translate va = intendedMap cfg va := by
  have aligned := cfg.imageAligned
  have inRam := cfg.imageInRam
  have ordered := cfg.imageOrdered
  have top := cfg.imageCanonical
  have pages := imagePages cfg
  have first : page cfg.zMappedStart = cfg.zMappedStart.toNat / 4096 := by
    rw [page]
    omega
  have small := va.isLt
  rw [PageMap.translate, PageMap.boot, PageMap.mapRange, intendedMap, first, pages]
  by_cases device : va.toNat < 2 ^ 30
  · have number := page_low (show va.toNat < 2 ^ 38 by omega)
    have inBlock : 0 / 512 ^ 2 = page va / 512 ^ 2 := by omega
    rw [if_neg (by omega), PageMap.setBlock, if_pos inBlock, if_pos device]
    simp only [Option.bind_some, Leaf.translation, identity, Bool.true_or, ↓reduceIte, Nat.zero_mul,
      Nat.zero_add, Nat.mod_eq_of_lt (show va.toNat < 4096 * 512 ^ 2 by omega)]
  · rw [if_neg device]
    by_cases image : cfg.zMappedStart.toNat ≤ va.toNat ∧
        va.toNat < (cfg.zMappedEnd.toNat + 4095) / 4096 * 4096
    · have number := page_low (show va.toNat < 2 ^ 38 by omega)
      have offset : (cfg.zMappedStart.toNat / 4096 +
          (page va - cfg.zMappedStart.toNat / 4096)) * 4096 + va.toNat % 4096 = va.toNat := by omega
      rw [if_pos image, if_pos (by omega)]
      simp only [Option.bind_some, Leaf.translation, identity, Bool.true_or, ↓reduceIte,
        Nat.pow_zero, Nat.mul_one, offset]
    · have outside : ¬ (cfg.zMappedStart.toNat / 4096 ≤ page va ∧
          page va < cfg.zMappedStart.toNat / 4096 +
            ((cfg.zMappedEnd.toNat + 4095) / 4096 - cfg.zMappedStart.toNat / 4096)) := by
        rw [page]
        unfold Canonical at canonical
        omega
      have elsewhere : ¬ 0 / 512 ^ 2 = page va / 512 ^ 2 := by
        rw [page]
        unfold Canonical at canonical
        omega
      rw [if_neg image, if_neg outside, PageMap.setBlock, if_neg elsewhere]
      rfl

/-- From a pool with a table for the root and for every region of the image boot returns,
with exactly the intended address space; from a smaller pool it panics. -/
theorem boot_map_exact (cfg : Config) {reset : MmuState} (atReset : AtReset reset) :
    (tablesNeeded cfg ≤ cfg.numTables → ∃ s, zRiscvMmuInit cfg reset = .ok s ∧
      ∀ va, Canonical va → satpWalk s va = intendedMap cfg va) ∧
    (cfg.numTables < tablesNeeded cfg →
      ∃ stopped, zRiscvMmuInit cfg reset = .error (.panic stopped)) := by
  cases outcome : zRiscvMmuInit cfg reset with
  | error stop =>
      obtain ⟨stopped, rfl⟩ := zRiscvMmuInit_error outcome
      have affords := zRiscvMmuInit_affords atReset (root_place cfg []) (boot_places cfg [])
      have short := affords.panic stopped outcome
      rw [runPlaces_budget, ← tablesNeeded_eq, List.length_nil] at short
      exact ⟨fun enough => absurd enough (by omega), fun _ => ⟨stopped, rfl⟩⟩
  | ok s =>
      have booted : Booted cfg s := ⟨reset, atReset, outcome⟩
      refine ⟨fun _ => ⟨s, rfl, ?_⟩, fun few => absurd booted.tables (by omega)⟩
      intro va canonical
      rw [satpWalk, booted.view.2.2, (boot_refines booted).walk canonical]
      exact boot_translate cfg canonical

/-- The small board needs four of its eight tables, since its image crosses a 2 MB boundary. -/
theorem boot_map_exact_small : tablesNeeded smallBoard = 4 ∧
    ∃ s, zRiscvMmuInit smallBoard zeroed = .ok s ∧
      ∀ va, Canonical va → satpWalk s va = intendedMap smallBoard va :=
  ⟨by decide, (boot_map_exact smallBoard zeroed_atReset).1 (by decide)⟩

end ZephyrRiscv.Mmu
