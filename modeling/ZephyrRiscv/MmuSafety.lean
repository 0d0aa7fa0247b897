import ZephyrRiscv.MmuCalls

set_option autoImplicit false

namespace ZephyrRiscv.Mmu

open Sv39 RadixForest Transition

/-- The tables as a tree over a level for each handed-out table, linked or not. -/
structure Tree (cfg : Config) (s : MmuState) (level : BitVec 64 → Nat) : Prop where
  root : HandedOut cfg s s.kernelRoot ∧ level s.kernelRoot = 2
  reached : ∀ {l t}, TableAt s.mem s.kernelRoot l t → HandedOut cfg s t ∧ level t = l
  linked : ∀ {t k c}, HandedOut cfg s t → 0 < level t → child (s.mem (slot t k)) = some c →
    HandedOut cfg s c ∧ level c + 1 = level t ∧ c ≠ s.kernelRoot
  unshared : ∀ {t k t' k' c}, HandedOut cfg s t → HandedOut cfg s t' → 0 < level t →
    0 < level t' → child (s.mem (slot t k)) = some c → child (s.mem (slot t' k')) = some c →
    t = t' ∧ k = k'
  granted : ∀ g ∈ s.granted, g.Fresh

theorem tables_form_tree {cfg : Config} {calls : List Call} {s : MmuState}
    (run : Run (Booted cfg)
      (Guarded (fun s call => call.Clear s ∧ call.RawLeaf) (Returns cfg)) calls s) :
    ∃ level, Tree cfg s level := by
  have kept := run_kept run
  obtain ⟨level, shape⟩ := kept.shaped
  refine ⟨level, ⟨shape.root, shape.rootLevel⟩, shape.tableAt, ?_, shape.forest.unshared,
    kept.granted⟩
  intro t k c out positive link
  obtain ⟨outC, down⟩ := shape.forest.linked out positive link
  refine ⟨outC, down, fun same => ?_⟩
  have bound := shape.bounded out
  have rootLevel := shape.rootLevel
  rw [same] at down
  omega

/-- A megapage mapped after boot: one more table below the root. -/
theorem tables_form_tree_megapage :
    ∃ s level, Tree smallBoard s level ∧ s.granted.length = 5 := by
  have passed : afterCalls (fun s call => call.Clear s ∧ call.RawLeaf)
      [.mapRaw 0xC0200000 0x90000000 0xcf 1] (fun s => decide (s.granted.length = 5)) = true := by
    decide
  obtain ⟨s, run, granted⟩ := afterCalls_run passed
  obtain ⟨level, tree⟩ := tables_form_tree run
  exact ⟨s, level, tree, of_decide_eq_true granted⟩

/-- Every access to a page-table entry up to the end of a call. -/
def accesses : Except Stop MmuState → Option (List Access)
  | .ok s => some s.touched
  | .error (.panic s) => some s.touched
  | .error (.assertion s) => some s.touched
  | .error .spin => none

/-- The call ends, and it and all before it took only tables for tables. -/
def Confines (cfg : Config) (s : MmuState) (call : Call) : Prop :=
  ∃ touched, accesses (call.exec cfg s) = some touched ∧ ∀ a ∈ touched, a.Confined cfg

theorem Extends.confined {cfg : Config} {s s' : MmuState} (grown : Extends cfg s s')
    (before : ∀ a ∈ s.touched, a.Confined cfg) : ∀ a ∈ s'.touched, a.Confined cfg :=
  fun a member => (grown.touched a member).elim (before a) id

theorem accesses_confined {cfg : Config} {calls : List Call} {s : MmuState}
    (run : Run (Booted cfg)
      (Guarded (fun s call => call.Clear s ∧ call.RawLeaf) (Returns cfg)) calls s)
    {call : Call} (clear : call.Clear s) (raw : call.RawLeaf) (addressed : call.Addressed) :
    Confines cfg s call := by
  have kept := run_kept run
  have ends := Call.exec_spec kept.shaped clear raw addressed.bounded
  unfold Confines
  match outcome : call.exec cfg s, ends with
  | .ok s', ends => exact ⟨s'.touched, rfl, ends.2.confined kept.touched⟩
  | .error (.panic s'), ends => exact ⟨s'.touched, rfl, Extends.confined ends kept.touched⟩
  | .error (.assertion s'), ends => exact ⟨s'.touched, rfl, Extends.confined ends kept.touched⟩

/-- A page mapped beside a megapage and another page that is gone again. -/
theorem accesses_confined_page :
    ∃ s, Run (Booted smallBoard)
        (Guarded (fun s call => call.Clear s ∧ call.RawLeaf) (Returns smallBoard))
        [.mapRaw 0xC0200000 0x90000000 0xcf 1, .memMap 0xC0001000 0x90000000 4096 8,
          .memUnmap 0xC0001000 4096] s ∧
      Confines smallBoard s (.memMap 0xC0000000 0x90000000 4096 8) := by
  have passed : afterCalls (fun s call => call.Clear s ∧ call.RawLeaf)
      [.mapRaw 0xC0200000 0x90000000 0xcf 1, .memMap 0xC0001000 0x90000000 4096 8,
        .memUnmap 0xC0001000 4096]
      (fun s => decide ((Call.memMap 0xC0000000 0x90000000 4096 8).Clear s)) = true := by
    decide
  obtain ⟨s, run, clear⟩ := afterCalls_run passed
  have addressed : (Call.memMap 0xC0000000 0x90000000 4096 8).Addressed := by
    unfold Call.Addressed
    decide
  exact ⟨s, run, accesses_confined run (of_decide_eq_true clear) trivial addressed⟩

theorem Access.Confined.in_pool {cfg : Config} {access : Access} (confined : access.Confined cfg) :
    cfg.mmuTables.toNat ≤ access.address.toNat := by
  obtain ⟨i, k, inside, -, address⟩ := confined
  obtain ⟨-, physical⟩ := table_geometry cfg inside
  rw [address, slot_toNat _ k (by omega), table_toNat cfg inside]
  omega

/-- A page inside the device gigabyte: the gigapage's target is read and written as a table. -/
theorem device_page_escapes :
    (Call.memMap 0x10000000 0x90000000 4096 8).Addressed ∧
      ∃ s, Booted smallBoard s ∧
        ¬ Confines smallBoard s (.memMap 0x10000000 0x90000000 4096 8) := by
  have passed : afterInit (fun s =>
      (accesses ((Call.memMap 0x10000000 0x90000000 4096 8).exec smallBoard s)).any fun touched =>
        touched.any fun a => decide (a.address = 0x400)) = true := by decide
  obtain ⟨s, booted, test⟩ := afterInit_booted passed
  refine ⟨by unfold Call.Addressed; decide, s, booted, ?_⟩
  rintro ⟨touched, ran, confined⟩
  rw [ran] at test
  obtain ⟨a, member, address⟩ := List.any_eq_true.mp test
  have pooled := (confined a member).in_pool
  rw [of_decide_eq_true address] at pooled
  exact absurd pooled (by decide)

end ZephyrRiscv.Mmu
