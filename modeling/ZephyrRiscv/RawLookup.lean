import ZephyrRiscv.FaultResolver

set_option autoImplicit false

namespace ZephyrRiscv.FaultResolver

open Sv39 Mmu RadixForest Tables Transition

/-- The addresses that a leaf of a level maps. -/
def InSpan (level : Nat) (va va' : BitVec 64) : Prop :=
  va.toNat ≤ va'.toNat ∧ va'.toNat < va.toNat + 4096 * 512 ^ level

theorem InSpan.block {level : Nat} {va va' : BitVec 64} (bound : level ≤ 2)
    (aligned : va.toNat % (4096 * 512 ^ level) = 0) (inside : InSpan level va va') :
    SameBlock level va va' := by
  unfold InSpan at inside
  unfold SameBlock page
  rcases (by omega : level = 0 ∨ level = 1 ∨ level = 2) with rfl | rfl | rfl <;> omega

theorem InSpan.canonical {level : Nat} {va va' : BitVec 64} (bound : level ≤ 2)
    (aligned : va.toNat % (4096 * 512 ^ level) = 0) (canonical : Canonical va)
    (inside : InSpan level va va') : Canonical va' := by
  unfold InSpan at inside
  unfold Canonical at canonical ⊢
  rcases (by omega : level = 0 ∨ level = 1 ∨ level = 2) with rfl | rfl | rfl <;> omega

theorem InSpan.offset {level : Nat} {va va' : BitVec 64} (bound : level ≤ 2)
    (aligned : va.toNat % (4096 * 512 ^ level) = 0) (inside : InSpan level va va') :
    va'.toNat % (4096 * 512 ^ level) = va'.toNat - va.toNat := by
  unfold InSpan at inside
  rcases (by omega : level = 0 ∨ level = 1 ∨ level = 2) with rfl | rfl | rfl <;> omega

/-- A state whose last store put a value at an address. -/
def Stored (s : MmuState) (pte value : BitVec 64) : Prop :=
  ∃ before : MmuState, s = before.writePte pte value

/-- A leaf entry as the hardware takes it once V is set. -/
def MapsOnceValid (s : MmuState) (pte va pa va' : BitVec 64) : Prop :=
  ∃ t, walk (s.mem.store pte (s.mem pte ||| PTE_V)) s.kernelRoot va' = some t ∧
    t.pa = pa.toNat + (va'.toNat - va.toNat)

/-- The look-up returns the stored entry for the whole span of a leaf. -/
def Found (s : MmuState) (va pa pteBits : BitVec 64) (level : Nat) : Prop :=
  ∃ pte, pte ≠ NULL ∧ Stored s pte (physToPpn pa ||| pteBits) ∧
    s.mem pte = physToPpn pa ||| pteBits ∧
    ∀ va', InSpan level va va' →
      zRiscvMmuPteLookup s va' = pte ∧ MapsOnceValid s pte va pa va'

/-- The same, but NULL for an entry above level 0 with V clear, and a translation only
without the reserved encoding W without R. -/
def FoundIfVisible (s : MmuState) (va pa pteBits : BitVec 64) (level : Nat) : Prop :=
  ∃ pte, pte ≠ NULL ∧ Stored s pte (physToPpn pa ||| pteBits) ∧
    s.mem pte = physToPpn pa ||| pteBits ∧
    ∀ va', InSpan level va va' →
      zRiscvMmuPteLookup s va' =
        (if level = 0 ∨ pteBits &&& PTE_V ≠ 0#64 then pte else NULL) ∧
      (pteBits &&& PTE_R ≠ 0#64 ∨ pteBits &&& PTE_W = 0#64 → MapsOnceValid s pte va pa va')

/-- A raw mapping stores at the end of the path of its address. -/
theorem mapRaw_stores {cfg : Config} {va pa pteBits : BitVec 64} {level : Nat} {s s' : MmuState}
    (planted : Planted cfg s) (clear : s.view.Clear level va)
    (ran : zRiscvMmuMapRaw cfg va pa pteBits level s = .ok s') :
    ∃ t, slot t (vpn va level) ≠ NULL ∧
      Stored s' (slot t (vpn va level)) (physToPpn pa ||| pteBits) ∧
      At s'.mem s'.kernelRoot va level t := by
  obtain ⟨inside, t, s₁, reached, rfl⟩ := zRiscvMmuMapRaw_reached planted clear ran
  obtain ⟨lvl, tree⟩ := reached.planted
  have out := (tree.at_live inside reached.here).1
  exact ⟨t, out.slot_ne_null _, ⟨s₁, rfl⟩, tree.at_write inside reached.here _⟩

/-- The leaf bits of an entry: R or X, and W only beside R. -/
structure LeafBits (bits : BitVec 64) : Prop where
  low : bits.toNat < 2 ^ 10
  leaf : bits.getLsbD 1 = true ∨ bits.getLsbD 3 = true
  encoded : bits.getLsbD 2 = true → bits.getLsbD 1 = true

/-- Setting V leaves the other low bits. -/
theorem withV_bit (pa bits : BitVec 64) {i : Nat} (positive : 0 < i) (inside : i < 10) :
    (physToPpn pa ||| (bits ||| PTE_V)).getLsbD i = bits.getLsbD i := by
  have clear : ∀ j < 10, 0 < j → PTE_V.getLsbD j = false := by decide
  rw [getLsbD_physToPpn_or pa _ i inside, BitVec.getLsbD_or, clear i inside positive,
    Bool.or_false]

theorem LeafBits.ends {pa bits : BitVec 64} (leafBits : LeafBits bits) :
    child (physToPpn pa ||| (bits ||| PTE_V)) = none := by
  refine child_eq_none.mpr fun _ links => ?_
  obtain ⟨r, -, x⟩ := (and_PTE_XWR _).mp links
  rw [withV_bit pa bits (by omega) (by omega)] at r x
  obtain readable | executable := leafBits.leaf
  · rw [r] at readable
    cases readable
  · rw [x] at executable
    cases executable

theorem LeafBits.final {pa bits va : BitVec 64} {level : Nat} (leafBits : LeafBits bits)
    (physical : pa.toNat < 2 ^ 56)
    (aligned : pa.toNat % (4096 * 512 ^ level) = 0) :
    ∃ t, finalTranslation va (level, physToPpn pa ||| (bits ||| PTE_V)) = some t ∧
      t.pa = pa.toNat + va.toNat % (4096 * 512 ^ level) := by
  have low : (bits ||| PTE_V).toNat < 2 ^ 10 := by
    rw [BitVec.toNat_or]
    exact Nat.or_lt_two_pow leafBits.low (by decide)
  have valid : (physToPpn pa ||| (bits ||| PTE_V)).getLsbD 0 = true := by
    rw [getLsbD_physToPpn_or pa _ 0 (by omega), BitVec.getLsbD_or]
    exact Bool.or_true _
  have number := ppn_physToPpn_or pa (bits ||| PTE_V) physical low
  have value := toNat_physToPpn_or pa (bits ||| PTE_V) physical low
  have accepted : (!(physToPpn pa ||| (bits ||| PTE_V)).getLsbD 0 ||
      (!(physToPpn pa ||| (bits ||| PTE_V)).getLsbD 1 &&
        (physToPpn pa ||| (bits ||| PTE_V)).getLsbD 2) ||
      decide (2 ^ 54 ≤ (physToPpn pa ||| (bits ||| PTE_V)).toNat)) = false := by
    have fits : ¬ 2 ^ 54 ≤ (physToPpn pa ||| (bits ||| PTE_V)).toNat := by omega
    have reserved : (!bits.getLsbD 1 && bits.getLsbD 2) = false := by
      cases writable : bits.getLsbD 2 with
      | false => exact Bool.and_false _
      | true =>
          rw [leafBits.encoded writable]
          rfl
    rw [valid, withV_bit pa bits (by omega) (by omega), withV_bit pa bits (by omega) (by omega),
      reserved, decide_eq_false fits]
    rfl
  have leaf : ((physToPpn pa ||| (bits ||| PTE_V)).getLsbD 1 ||
      (physToPpn pa ||| (bits ||| PTE_V)).getLsbD 3) = true := by
    rw [withV_bit pa bits (by omega) (by omega), withV_bit pa bits (by omega) (by omega),
      Bool.or_eq_true]
    exact leafBits.leaf
  have whole : pa.toNat / 4096 % 512 ^ level = 0 := by
    rw [← Nat.mod_mul_right_div_self, aligned, Nat.zero_div]
  have frame : pa.toNat / 4096 * 4096 = pa.toNat := by
    apply Nat.div_mul_cancel
    exact Nat.dvd_trans (Nat.dvd_mul_right 4096 _) (Nat.dvd_of_mod_eq_zero aligned)
  rw [finalTranslation, accepted, leaf, if_neg Bool.false_ne_true, if_pos rfl, leafTranslation,
    number, if_pos whole, frame]
  exact ⟨_, rfl, rfl⟩

/-- The hardware takes an entry of a tree with V set as a leaf. -/
theorem LeafBits.maps {m : Mem} {live : BitVec 64 → Prop} {root va va' pa bits t : BitVec 64}
    {lvl : BitVec 64 → Nat} {level : Nat} (leafBits : LeafBits bits)
    (tree : TableTree m live root lvl) (bound : level ≤ 2) (here : At m root va level t)
    (value : m (slot t (vpn va level)) = physToPpn pa ||| bits) (physical : pa.toNat < 2 ^ 56)
    (aligned : pa.toNat % (4096 * 512 ^ level) = 0) (canonical : Canonical va')
    (same : SameBlock level va va') :
    ∃ t', walk (m.store (slot t (vpn va level)) (m (slot t (vpn va level)) ||| PTE_V)) root va' =
        some t' ∧ t'.pa = pa.toNat + va'.toNat % (4096 * 512 ^ level) := by
  rw [value, BitVec.or_assoc]
  obtain ⟨tree', viewed⟩ := tree.write bound here (physToPpn pa ||| (bits ||| PTE_V))
    fun _ => leafBits.ends
  rw [tree'.walk_eq, if_pos canonical, viewed, View.setBlock_same same]
  exact leafBits.final physical aligned

theorem zRiscvMmuMapRaw_asserts {cfg : Config} {va pa pteBits : BitVec 64} {level : Nat}
    {s s' : MmuState} (ran : zRiscvMmuMapRaw cfg va pa pteBits level s = .ok s') :
    level ≤ 2 ∧ va.toNat % (4096 * 512 ^ level) = 0 ∧ pa.toNat % (4096 * 512 ^ level) = 0 := by
  unfold zRiscvMmuMapRaw at ran
  split at ran
  · rename_i asserted
    exact ⟨Nat.le_of_lt_succ asserted.1, asserted.2⟩
  · cases ran

/-- The arguments of a raw mapping of a leaf. -/
structure RawArguments (va pa pteBits : BitVec 64) : Prop where
  canonical : Canonical va
  physical : pa.toNat < 2 ^ 56
  low : pteBits.toNat < 2 ^ 10
  leaf : pteBits &&& PTE_R ≠ 0#64 ∨ pteBits &&& PTE_X ≠ 0#64

/-- A leaf stored on a clear path is found for its whole span, where the look-up can see
it: an entry above level 0 with V clear reads as an absent table. -/
theorem map_raw_entry_found (cfg : Config) (actions : List Action) (t : Traced)
    (run : Run (Traced.Start cfg) (Guarded Tidy (Traced.Step cfg)) actions t)
    (va pa pteBits : BitVec 64) (level : Nat) (arguments : RawArguments va pa pteBits)
    (clear : t.tables.Clear va level) (s' : MmuState)
    (ran : zRiscvMmuMapRaw cfg va pa pteBits level t.tables = .ok s') :
    FoundIfVisible s' va pa pteBits level := by
  have planted := (run_orderly run).planted
  have clearView := (t.tables.clear_view va level).mp clear
  obtain ⟨bound, alignedVa, alignedPa⟩ := zRiscvMmuMapRaw_asserts ran
  have readable : pteBits &&& PTE_R = 0#64 ↔ pteBits.getLsbD 1 = false :=
    and_bit_eq_zero pteBits 1 (by omega)
  have writable : pteBits &&& PTE_W = 0#64 ↔ pteBits.getLsbD 2 = false :=
    and_bit_eq_zero pteBits 2 (by omega)
  have executable : pteBits &&& PTE_X = 0#64 ↔ pteBits.getLsbD 3 = false :=
    and_bit_eq_zero pteBits 3 (by omega)
  have leaf : pteBits.getLsbD 1 = true ∨ pteBits.getLsbD 3 = true := by
    simpa only [ne_eq, readable, executable, Bool.not_eq_false] using arguments.leaf
  have ends : 0 < level → child (physToPpn pa ||| pteBits) = none := by
    have raw : Mmu.RawLeaf pteBits level := by
      intro _ _ links
      obtain ⟨r, -, x⟩ := (and_PTE_XWR _).mp links
      rw [r, x] at leaf
      obtain absurdity | absurdity := leaf
      · cases absurdity
      · cases absurdity
    exact raw.ends
  obtain ⟨tbl, found, stored, here⟩ := mapRaw_stores planted clearView ran
  obtain ⟨⟨lvl, tree⟩, viewed, -⟩ := zRiscvMmuMapRaw_view planted clearView ends ran
  have value : s'.mem (slot tbl (vpn va level)) = physToPpn pa ||| pteBits := by
    obtain ⟨before, rfl⟩ := stored
    exact Mem.store_same ..
  refine ⟨_, found, stored, value, fun va' inside => ?_⟩
  have same := inside.block bound alignedVa
  constructor
  · have stop := here.endOf_block bound (by rw [value]; exact ends) same
    have validity : (physToPpn pa ||| pteBits) &&& PTE_V = 0#64 ↔ pteBits &&& PTE_V = 0#64 := by
      rw [and_PTE_V, and_PTE_V, getLsbD_physToPpn_or pa pteBits 0 (by omega)]
    rw [zRiscvMmuPteLookup, SV39_LEVELS, pteLookupFrom_eq, stop, value]
    by_cases seen : level = 0 ∨ pteBits &&& PTE_V ≠ 0#64
    · rw [if_pos seen]
      apply if_neg
      rintro ⟨above, invalid⟩
      exact seen.elim (fun bottom => Nat.ne_of_gt above bottom) fun valid =>
        valid (validity.mp invalid)
    · rw [if_neg seen]
      rw [not_or, ne_eq, not_not] at seen
      exact if_pos ⟨Nat.pos_of_ne_zero seen.1, validity.mpr seen.2⟩
  · intro encoded
    have leafBits : LeafBits pteBits := by
      refine ⟨arguments.low, leaf, fun w => ?_⟩
      simp only [ne_eq, readable, writable, w, Bool.not_eq_false, Bool.true_eq_false,
        or_false] at encoded
      exact encoded
    obtain ⟨t', walked, address⟩ := leafBits.maps tree bound here value arguments.physical alignedPa
      (inside.canonical bound alignedVa arguments.canonical) same
    rw [inside.offset bound alignedVa] at address
    exact ⟨t', walked, address⟩

/-- A megapage of RAM, valid from the start. -/
theorem map_raw_entry_found_megapage :
    ∃ s, FoundIfVisible s 0xC0200000 0x90000000 0xcf 1 := by
  have passed : afterInit (fun s => decide (s.leafAt 0xC0200000 = none) &&
      passes (fun _ => true) (zRiscvMmuMapRaw smallBoard 0xC0200000 0x90000000 0xcf 1 s)) =
        true := by
    decide +kernel
  obtain ⟨s, booted, test⟩ := afterInit_booted passed
  rw [Bool.and_eq_true, decide_eq_true_eq] at test
  obtain ⟨s', ran, -⟩ := passes_ok test.2
  have run : Run (Traced.Start smallBoard) (Guarded Tidy (Traced.Step smallBoard)) []
      (bootTraced s) := .start (bootTraced_start booted)
  have arguments : RawArguments 0xC0200000 0x90000000 0xcf := by
    constructor <;> decide
  exact ⟨s', map_raw_entry_found smallBoard [] (bootTraced s) run 0xC0200000 0x90000000 0xcf 1
    arguments (clear_of_unmapped test.1) s' ran⟩

/-- The look-up finds what the raw mapper stored, for some entries after some runs. -/
def RawLookup (ok : Traced → Action → Prop) (entry : BitVec 64 → Nat → Prop) : Prop :=
  ∀ (cfg : Config) (actions : List Action) (t : Traced),
    Run (Traced.Start cfg) (Guarded ok (Traced.Step cfg)) actions t →
    ∀ (va pa pteBits : BitVec 64) (level : Nat), entry pteBits level →
      RawArguments va pa pteBits → t.tables.Clear va level →
      ∀ s', zRiscvMmuMapRaw cfg va pa pteBits level t.tables = .ok s' →
        Found s' va pa pteBits level

/-- One raw mapping after boot on the small board. -/
theorem RawLookup.small {ok : Traced → Action → Prop} {entry : BitVec 64 → Nat → Prop}
    (claim : RawLookup ok entry) {va pa pteBits : BitVec 64} {level : Nat}
    (included : entry pteBits level) (arguments : RawArguments va pa pteBits)
    {test : MmuState → Bool}
    (passed : afterInit (fun s => decide (s.leafAt va = none) &&
      passes test (zRiscvMmuMapRaw smallBoard va pa pteBits level s)) = true) :
    ∃ s, Found s va pa pteBits level ∧ test s = true := by
  obtain ⟨s, booted, rest⟩ := afterInit_booted passed
  rw [Bool.and_eq_true, decide_eq_true_eq] at rest
  obtain ⟨s', ran, tested⟩ := passes_ok rest.2
  exact ⟨s', claim smallBoard [] (bootTraced s) (.start (bootTraced_start booted)) va pa pteBits
    level included arguments (clear_of_unmapped rest.1) s' ran, tested⟩

/-- A megapage entry with V clear is not found. -/
theorem megapage_not_found : ¬ RawLookup Tidy fun _ _ => True := by
  intro claim
  have arguments : RawArguments 0xC0200000 0x90000000 0xc6 := by
    constructor <;> decide
  have passed : afterInit (fun s => decide (s.leafAt 0xC0200000 = none) &&
      passes (fun s' => decide (zRiscvMmuPteLookup s' 0xC0200000 = NULL))
        (zRiscvMmuMapRaw smallBoard 0xC0200000 0x90000000 0xc6 1 s)) = true := by
    decide +kernel
  obtain ⟨s, ⟨pte, entry, -, -, found⟩, null⟩ := claim.small trivial arguments passed
  have here := (found 0xC0200000 ⟨Nat.le_refl _, by decide⟩).1
  rw [of_decide_eq_true null] at here
  exact entry here.symm

/-- A page with X and W but not R is found, and the hardware never takes it. -/
theorem reserved_page_not_taken : ¬ RawLookup Tidy fun pteBits _ => pteBits &&& PTE_V ≠ 0#64 := by
  intro claim
  have arguments : RawArguments 0xC0200000 0x90000000 0xcd := by
    constructor <;> decide
  have passed : afterInit (fun s => decide (s.leafAt 0xC0200000 = none) &&
      passes (fun s' =>
        let pte := zRiscvMmuPteLookup s' 0xC0200000
        decide (walk (s'.mem.store pte (s'.mem pte ||| PTE_V)) s'.kernelRoot 0xC0200000 = none))
        (zRiscvMmuMapRaw smallBoard 0xC0200000 0x90000000 0xcd 0 s)) = true := by
    decide +kernel
  obtain ⟨s, ⟨pte, -, -, -, found⟩, reserved⟩ := claim.small (by decide) arguments passed
  obtain ⟨here, t, walked, -⟩ := found 0xC0200000 ⟨Nat.le_refl _, by decide⟩
  have never := of_decide_eq_true reserved
  rw [here, walked] at never
  cases never

/-- The small board with its image around a gigabyte boundary, and the pool right behind that. -/
def poolAtGigabyte : Config :=
  { smallBoard with
    mmuTables := 0xC0000000
    zMappedStart := 0xBFFFF000
    zMappedEnd := 0xC0008000
    tablesNotNull := by decide
    tablesAligned := by decide
    tablesPhysical := by decide
    imageAligned := by decide
    imageInRam := by decide
    imageOrdered := by decide
    imageCanonical := by decide }

/-- A raw entry that links the root to itself, and then a page at the end of that loop: its
own entry is the first that the look-up reads. -/
theorem looped_page_not_found :
    ¬ RawLookup (fun _ _ => True) fun pteBits level => level = 0 ∧ pteBits &&& PTE_W = 0#64 := by
  intro claim
  have arguments : RawArguments 0x100804000 0x90000000 PTE_R := by
    constructor <;> decide
  have passed : passes (fun s => passes (fun s₁ => decide (s₁.Clear 0x100804000 0) &&
      passes (fun s' => decide (zRiscvMmuPteLookup s' 0x100804000 = NULL))
        (zRiscvMmuMapRaw poolAtGigabyte 0x100804000 0x90000000 PTE_R 0 s₁))
      (zRiscvMmuMapRaw poolAtGigabyte 0x100000000 0xC0000000 PTE_V 2 s))
      (zRiscvMmuInit poolAtGigabyte zeroed) = true := by
    decide +kernel
  obtain ⟨s, boot, rest⟩ := passes_ok passed
  obtain ⟨s₁, linked, rest⟩ := passes_ok rest
  rw [Bool.and_eq_true, decide_eq_true_eq] at rest
  obtain ⟨s', ran, null⟩ := passes_ok rest.2
  let start : Traced := ⟨s, fun a => decide (SameBlock 2 0#64 a ∨
    ∃ i < pageCount (poolAtGigabyte.zMappedEnd - poolAtGigabyte.zMappedStart),
      SameBlock 0 (pageAfter poolAtGigabyte.zMappedStart i) a)⟩
  have started : Traced.Start poolAtGigabyte start :=
    ⟨⟨zeroed, zeroed_atReset, boot⟩, fun _ => decide_eq_true_iff⟩
  let loop : Action := .call (.mapRaw 0x100000000 0xC0000000 PTE_V 2)
  have run : Run (Traced.Start poolAtGigabyte)
      (Guarded (fun _ _ => True) (Traced.Step poolAtGigabyte)) [loop]
      ⟨s₁, installedAfter start loop s₁⟩ :=
    Run.snoc (.start started) ⟨trivial, linked, rfl⟩
  obtain ⟨pte, entry, -, -, found⟩ := claim poolAtGigabyte _ _ run 0x100804000 0x90000000 PTE_R 0
    ⟨rfl, by decide⟩ arguments rest.1 s' ran
  have here := (found 0x100804000 ⟨Nat.le_refl _, by decide⟩).1
  rw [of_decide_eq_true null] at here
  exact entry here.symm

/-- The claim of the look-up without its three conditions. -/
theorem raw_lookup_limits :
    (¬ RawLookup Tidy fun _ _ => True) ∧
      (¬ RawLookup Tidy fun pteBits _ => pteBits &&& PTE_V ≠ 0#64) ∧
      ¬ RawLookup (fun _ _ => True) fun pteBits level => level = 0 ∧ pteBits &&& PTE_W = 0#64 :=
  ⟨megapage_not_found, reserved_page_not_taken, looped_page_not_found⟩

end ZephyrRiscv.FaultResolver
