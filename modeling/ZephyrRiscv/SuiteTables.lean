import ZephyrRiscv.TableTree

set_option autoImplicit false

namespace ZephyrRiscv.Pt

open Sv39 Mmu RadixForest Tables

def SRAM_BASE : BitVec 64 := 0x80000000
def GIGAPAGE_SIZE : BitVec 64 := 0x40000000
def PTES_PER_PT : Nat := 512
def SATP_MODE_SV39 : BitVec 64 := 8

/-- The pages from `_page_table_start` to `_page_table_end`. The index of a word of
the pool is an `int`. -/
structure Pool where
  pageTableStart : BitVec 64
  pages : Nat
  aligned : pageTableStart.toNat % 4096 = 0
  inSram : SRAM_BASE.toNat ≤ pageTableStart.toNat
  physical : pageTableStart.toNat + 4096 * pages ≤ 2 ^ 56
  indexed : PTES_PER_PT * pages ≤ 2 ^ 31

def Pool.page (pool : Pool) (i : Nat) : BitVec 64 :=
  pool.pageTableStart + BitVec.ofNat 64 (4096 * i)

/-- Memory and `pt_pool_next_page`. -/
structure PtState where
  mem : Mem
  ptPoolNextPage : Nat

/-- The allocator only counts up. It never looks at `_page_table_end`. -/
def ptAllocPage (pool : Pool) (s : PtState) : BitVec 64 × PtState :=
  let page := pool.page s.ptPoolNextPage
  (page, { mem := clearTable s.mem page, ptPoolNextPage := s.ptPoolNextPage + 1 })

def pteBranch (childPt : BitVec 64) : BitVec 64 := physToPpn childPt ||| PTE_V

def pteLeaf (physAddr perm : BitVec 64) : BitVec 64 :=
  physToPpn physAddr ||| perm ||| PTE_V ||| PTE_A ||| PTE_D

/-- The root table, with the SRAM gigapage and the I/O gigapage at address 0. -/
def ptSetupIdentityKernel (pool : Pool) (s : PtState) : BitVec 64 × PtState :=
  let (root, s) := ptAllocPage pool s
  let sram := s.mem.store (slot root (vpn SRAM_BASE 2))
    (pteLeaf (SRAM_BASE &&& ~~~(GIGAPAGE_SIZE - 1)) (PTE_R ||| PTE_W ||| PTE_X))
  (root, { s with mem := sram.store (slot root 0) (pteLeaf 0 (PTE_R ||| PTE_W)) })

/-- The table that an entry links to, linked first when the entry is not valid. Only
V is tested: a valid entry is followed whatever its R, W and X say. -/
def ptNextTable (pool : Pool) (pte : BitVec 64) (s : PtState) : BitVec 64 × PtState :=
  if s.mem pte &&& PTE_V = 0#64 then
    let (page, s) := ptAllocPage pool s
    let mem := s.mem.store pte (pteBranch page)
    (pteToPhys (mem pte), { s with mem })
  else (pteToPhys (s.mem pte), s)

/-- The entry that `pt_map_page` writes. -/
def pageEntry (pa perm : BitVec 64) (valid : Bool) : BitVec 64 :=
  if valid then pteLeaf pa perm else physToPpn pa ||| (perm &&& ~~~PTE_V)

def ptMapPage (pool : Pool) (root va pa perm : BitVec 64) (valid : Bool) (s : PtState) :
    PtState :=
  let (l1, s) := ptNextTable pool (slot root (vpn va 2)) s
  let (l2, s) := ptNextTable pool (slot l1 (vpn va 1)) s
  { s with mem := s.mem.store (slot l2 (vpn va 0)) (pageEntry pa perm valid) }

/-- The entry of a level-1 leaf that a test writes itself. -/
def megapageEntry (ppn perm : BitVec 64) : BitVec 64 :=
  ppn <<< 10 ||| PTE_V ||| perm ||| PTE_A ||| PTE_D

/-- The direct level-1 writes of the tests P1B.8 and P1D.4. -/
def mapMegapage (pool : Pool) (root va ppn perm : BitVec 64) (s : PtState) : PtState :=
  let (l1, s) := ptNextTable pool (slot root (vpn va 2)) s
  { s with mem := s.mem.store (slot l1 (vpn va 1)) (megapageEntry ppn perm) }

inductive PtCall where
  | mapPage (va pa perm : BitVec 64) (valid : Bool)
  | megapage (va ppn perm : BitVec 64)

def PtCall.exec (pool : Pool) (root : BitVec 64) (s : PtState) : PtCall → PtState
  | .mapPage va pa perm valid => ptMapPage pool root va pa perm valid s
  | .megapage va ppn perm => mapMegapage pool root va ppn perm s

/-- The root and the state after the identity map and some calls. -/
def build (pool : Pool) (start : PtState) (calls : List PtCall) : BitVec 64 × PtState :=
  let (root, s) := ptSetupIdentityKernel pool start
  (root, calls.foldl (PtCall.exec pool root) s)

/-- The value of `satp` after `mmu_enable_sv39`. -/
def mmuEnableSv39 (root : BitVec 64) : BitVec 64 := SATP_MODE_SV39 <<< 60 ||| root >>> 12

/-- The arguments of a call of `pt_map_page`. -/
structure Request where
  va : BitVec 64
  pa : BitVec 64
  perm : BitVec 64
  valid : Bool

def Request.call (request : Request) : PtCall :=
  .mapPage request.va request.pa request.perm request.valid

/-- The pages handed out since a mark. -/
def Live (pool : Pool) (base next : Nat) (t : BitVec 64) : Prop :=
  ∃ i, base ≤ i ∧ i < next ∧ t = pool.page i

theorem page_toNat (pool : Pool) {i : Nat} (inside : i < pool.pages) :
    (pool.page i).toNat = pool.pageTableStart.toNat + 4096 * i := by
  have physical := pool.physical
  rw [Pool.page, BitVec.toNat_add, BitVec.toNat_ofNat]
  omega

theorem page_geometry (pool : Pool) {i : Nat} (inside : i < pool.pages) :
    (pool.page i).toNat % 4096 = 0 ∧ (pool.page i).toNat + 4096 ≤ 2 ^ 56 ∧
      SRAM_BASE.toNat ≤ (pool.page i).toNat := by
  have aligned := pool.aligned
  have physical := pool.physical
  have sram := pool.inSram
  rw [page_toNat pool inside]
  omega

theorem live_succ (pool : Pool) {base next : Nat} (order : base ≤ next) :
    Live pool base (next + 1) = fun t => Live pool base next t ∨ t = pool.page next := by
  funext t
  apply propext
  constructor
  · rintro ⟨i, from_base, below, rfl⟩
    by_cases last : i = next
    · exact Or.inr (by rw [last])
    · exact Or.inl ⟨i, from_base, by omega, rfl⟩
  · rintro (⟨i, from_base, below, rfl⟩ | rfl)
    · exact ⟨i, from_base, by omega, rfl⟩
    · exact ⟨next, order, by omega, rfl⟩

theorem page_fresh (pool : Pool) (base : Nat) {next : Nat} (inside : next < pool.pages) :
    ¬ Live pool base next (pool.page next) := by
  rintro ⟨i, -, below, same⟩
  have equal := congrArg BitVec.toNat same
  rw [page_toNat pool inside, page_toNat pool (by omega)] at equal
  omega

theorem Live.geometry {pool : Pool} {base next : Nat} {t : BitVec 64}
    (live : Live pool base next t) (room : next ≤ pool.pages) :
    t.toNat % 4096 = 0 ∧ t.toNat + 4096 ≤ 2 ^ 56 ∧ SRAM_BASE.toNat ≤ t.toNat := by
  obtain ⟨i, -, below, rfl⟩ := live
  exact page_geometry pool (by omega)

/-- The tables built since a mark form a tree. -/
def Shaped (pool : Pool) (base : Nat) (root : BitVec 64) (s : PtState) : Prop :=
  ∃ level, TableTree s.mem (Live pool base s.ptPoolNextPage) root level

theorem ptNextTable_grows (pool : Pool) (pte : BitVec 64) (s : PtState) :
    s.ptPoolNextPage ≤ (ptNextTable pool pte s).2.ptPoolNextPage := by
  rw [ptNextTable]
  split
  · exact Nat.le_succ _
  · exact le_refl _

theorem ptNextTable_invalid {pool : Pool} {pte : BitVec 64} {s : PtState}
    (invalid : s.mem pte &&& PTE_V = 0#64) (inside : s.ptPoolNextPage < pool.pages) :
    ptNextTable pool pte s = (pool.page s.ptPoolNextPage, {
      mem := (clearTable s.mem (pool.page s.ptPoolNextPage)).store pte
        (physToPpn (pool.page s.ptPoolNextPage) ||| PTE_V)
      ptPoolNextPage := s.ptPoolNextPage + 1 }) := by
  obtain ⟨aligned, physical, -⟩ := page_geometry pool inside
  rw [ptNextTable, if_pos invalid]
  simp only [ptAllocPage, pteBranch, Mem.store_same,
    pteToPhys_physToPpn_or (pool.page s.ptPoolNextPage) PTE_V (by omega) (by decide) aligned]

theorem ptNextTable_valid {pool : Pool} {pte : BitVec 64} {s : PtState}
    (valid : ¬ s.mem pte &&& PTE_V = 0#64) :
    ptNextTable pool pte s = (pteToPhys (s.mem pte), s) := if_neg valid

theorem ptNextTable_spec {pool : Pool} {base : Nat} {root va t : BitVec 64} {s : PtState} {l : Nat}
    (shaped : Shaped pool base root s) (bound : l + 1 ≤ 2) (here : At s.mem root va (l + 1) t)
    (clear : (view s.mem root).Clear l va) :
    let next := ptNextTable pool (slot t (vpn va (l + 1))) s
    next.2.ptPoolNextPage ≤ pool.pages →
      Shaped pool base root next.2 ∧ At next.2.mem root va l next.1 ∧
        view next.2.mem root = (view s.mem root).deepen va l := by
  intro next room
  obtain ⟨level, tree⟩ := shaped
  by_cases invalid : s.mem (slot t (vpn va (l + 1))) &&& PTE_V = 0#64
  · have inside : s.ptPoolNextPage < pool.pages := by
      have grows : next.2.ptPoolNextPage = s.ptPoolNextPage + 1 := by
        simp only [next, ptNextTable, if_pos invalid, ptAllocPage]
      omega
    have taken : next = _ := ptNextTable_invalid invalid inside
    obtain ⟨aligned, physical, -⟩ := page_geometry pool inside
    obtain ⟨i, from_base, below, -⟩ := tree.rooted
    have fresh := page_fresh pool base inside
    have grown := tree.link bound here invalid fresh aligned physical
      (clearTable_blank s.mem physical) (fun n k alive => clearTable_off s.mem
        (fun same => fresh (by rw [← same]; exact alive)) aligned physical (tree.aligned alive)
        (tree.physical alive) k)
    rw [← live_succ pool (by omega)] at grown
    rw [taken]
    refine ⟨⟨_, grown.1⟩, grown.2.1, ?_⟩
    have stops := view_stop bound here fun _ => child_invalid invalid
    rw [View.deepen, if_pos (by rw [view, stops])]
    exact grown.2.2
  · have taken : next = _ := ptNextTable_valid invalid
    have link : child (s.mem (slot t (vpn va (l + 1)))) =
        some (pteToPhys (s.mem (slot t (vpn va (l + 1))))) := by
      refine child_eq_some.mpr ⟨invalid, ?_, rfl⟩
      by_contra leafBits
      have stops := view_stop bound here fun _ => child_eq_none.mpr fun _ => leafBits
      rw [View.Clear, view, stops] at clear
      exact invalid (clear (Nat.lt_succ_self l))
    have below := (at_succ bound).mpr ⟨t, here, link⟩
    have level_le := below.view_level (by omega)
    rw [taken]
    refine ⟨⟨level, tree⟩, below, ?_⟩
    rw [View.deepen, if_neg (by omega)]

theorem ptMapPage_grows (pool : Pool) (root va pa perm : BitVec 64) (valid : Bool) (s : PtState) :
    s.ptPoolNextPage ≤ (ptMapPage pool root va pa perm valid s).ptPoolNextPage :=
  Nat.le_trans (ptNextTable_grows pool _ s) (ptNextTable_grows pool _ _)

theorem ptMapPage_spec {pool : Pool} {base : Nat} {root va pa perm : BitVec 64} {valid : Bool}
    {s : PtState} (shaped : Shaped pool base root s) (clear : (view s.mem root).Clear 0 va)
    (room : (ptMapPage pool root va pa perm valid s).ptPoolNextPage ≤ pool.pages) :
    Shaped pool base root (ptMapPage pool root va pa perm valid s) ∧
      view (ptMapPage pool root va pa perm valid s).mem root =
        (view s.mem root).map va 0 (pageEntry pa perm valid) := by
  have first := ptNextTable_spec shaped (le_refl 2) (at_root s.mem root va)
    (fun above => clear (by omega)) (Nat.le_trans (ptNextTable_grows pool _ _) room)
  obtain ⟨shaped₁, at₁, view₁⟩ := first
  have second := ptNextTable_spec shaped₁ (by omega) at₁
    (by rw [view₁]; exact clear.deepen 1) room
  obtain ⟨⟨level, tree⟩, at₂, view₂⟩ := second
  have wrote := tree.write (by omega) at₂ (pageEntry pa perm valid)
    fun positive => absurd positive (by omega)
  refine ⟨⟨level, wrote.1⟩, ?_⟩
  rw [View.map, View.deepenTo, View.deepenTo, View.deepenTo, ← view₁, ← view₂]
  exact wrote.2

theorem megapageEntry_ends {ppn perm : BitVec 64} (leafBits : perm &&& PTE_XWR ≠ 0#64) :
    child (megapageEntry ppn perm) = none := by
  refine child_eq_none.mpr fun _ links => leafBits ?_
  simp only [megapageEntry, BitVec.and_or_distrib_right, BitVec.or_eq_zero_iff] at links
  exact links.1.1.2

theorem mapMegapage_grows (pool : Pool) (root va ppn perm : BitVec 64) (s : PtState) :
    s.ptPoolNextPage ≤ (mapMegapage pool root va ppn perm s).ptPoolNextPage :=
  ptNextTable_grows pool _ s

theorem mapMegapage_spec {pool : Pool} {base : Nat} {root va ppn perm : BitVec 64} {s : PtState}
    (shaped : Shaped pool base root s) (clear : (view s.mem root).Clear 1 va)
    (leafBits : perm &&& PTE_XWR ≠ 0#64)
    (room : (mapMegapage pool root va ppn perm s).ptPoolNextPage ≤ pool.pages) :
    Shaped pool base root (mapMegapage pool root va ppn perm s) ∧
      view (mapMegapage pool root va ppn perm s).mem root =
        (view s.mem root).map va 1 (megapageEntry ppn perm) := by
  have first := ptNextTable_spec shaped (le_refl 2) (at_root s.mem root va) clear room
  obtain ⟨⟨level, tree⟩, at₁, view₁⟩ := first
  have wrote := tree.write (by omega) at₁ (megapageEntry ppn perm)
    fun _ => megapageEntry_ends leafBits
  refine ⟨⟨level, wrote.1⟩, ?_⟩
  rw [View.map, View.deepenTo, View.deepenTo, ← view₁]
  exact wrote.2

/-- What a call does to a view. -/
def PtCall.view (v : View) : PtCall → View
  | .mapPage va pa perm valid => v.map va 0 (pageEntry pa perm valid)
  | .megapage va ppn perm => v.map va 1 (megapageEntry ppn perm)

/-- No call goes below a valid leaf, and a direct entry is a leaf. -/
def PtCall.Clear (v : View) : PtCall → Prop
  | .mapPage va _ _ _ => v.Clear 0 va
  | .megapage va _ perm => v.Clear 1 va ∧ perm &&& PTE_XWR ≠ 0#64

instance (v : View) : (call : PtCall) → Decidable (call.Clear v)
  | .mapPage va _ _ _ => inferInstanceAs (Decidable (v.Clear 0 va))
  | .megapage va _ perm => inferInstanceAs (Decidable (v.Clear 1 va ∧ perm &&& PTE_XWR ≠ 0#64))

def Clears : View → List PtCall → Prop
  | _, [] => True
  | v, call :: calls => call.Clear v ∧ Clears (call.view v) calls

def Clears.decidable : (v : View) → (calls : List PtCall) → Decidable (Clears v calls)
  | _, [] => isTrue trivial
  | v, call :: calls =>
      have := Clears.decidable (call.view v) calls
      inferInstanceAs (Decidable (call.Clear v ∧ Clears (call.view v) calls))

instance (v : View) (calls : List PtCall) : Decidable (Clears v calls) := Clears.decidable v calls

theorem PtCall.exec_grows (pool : Pool) (root : BitVec 64) (s : PtState) (call : PtCall) :
    s.ptPoolNextPage ≤ (call.exec pool root s).ptPoolNextPage := by
  cases call with
  | mapPage va pa perm valid => exact ptMapPage_grows pool root va pa perm valid s
  | megapage va ppn perm => exact mapMegapage_grows pool root va ppn perm s

theorem PtCall.exec_spec {pool : Pool} {base : Nat} {root : BitVec 64} {s : PtState}
    {call : PtCall} (shaped : Shaped pool base root s) (clear : call.Clear (Tables.view s.mem root))
    (room : (call.exec pool root s).ptPoolNextPage ≤ pool.pages) :
    Shaped pool base root (call.exec pool root s) ∧
      Tables.view (call.exec pool root s).mem root = call.view (Tables.view s.mem root) := by
  cases call with
  | mapPage va pa perm valid => exact ptMapPage_spec shaped clear room
  | megapage va ppn perm => exact mapMegapage_spec shaped clear.1 clear.2 room

theorem calls_grow (pool : Pool) (root : BitVec 64) (calls : List PtCall) (s : PtState) :
    s.ptPoolNextPage ≤ (calls.foldl (PtCall.exec pool root) s).ptPoolNextPage := by
  induction calls generalizing s with
  | nil => exact le_refl _
  | cons call calls ih => exact Nat.le_trans (call.exec_grows pool root s) (ih _)

theorem calls_spec {pool : Pool} {base : Nat} {root : BitVec 64} (calls : List PtCall)
    {s : PtState} (shaped : Shaped pool base root s) (clears : Clears (view s.mem root) calls)
    (room : (calls.foldl (PtCall.exec pool root) s).ptPoolNextPage ≤ pool.pages) :
    Shaped pool base root (calls.foldl (PtCall.exec pool root) s) ∧
      view (calls.foldl (PtCall.exec pool root) s).mem root =
        calls.foldl PtCall.view (view s.mem root) := by
  induction calls generalizing s with
  | nil => exact ⟨shaped, rfl⟩
  | cons call calls ih =>
      obtain ⟨shaped', view'⟩ := call.exec_spec shaped clears.1
        (Nat.le_trans (calls_grow pool root calls _) room)
      have rest := ih shaped' (by rw [view']; exact clears.2) room
      rw [view'] at rest
      exact rest

/-- The bits below the page number. -/
def entryBits (perm : BitVec 64) (valid : Bool) : BitVec 64 :=
  if valid then perm ||| PTE_V ||| PTE_A ||| PTE_D else perm &&& ~~~PTE_V

theorem pageEntry_eq (pa perm : BitVec 64) (valid : Bool) :
    pageEntry pa perm valid = physToPpn pa ||| entryBits perm valid := by
  cases valid with
  | false => rfl
  | true =>
      show physToPpn pa ||| perm ||| PTE_V ||| PTE_A ||| PTE_D = _
      simp only [entryBits, ↓reduceIte, BitVec.or_assoc]

theorem entryBits_low {perm : BitVec 64} (valid : Bool) (low : perm.toNat < 2 ^ 8) :
    (entryBits perm valid).toNat < 2 ^ 8 := by
  cases valid with
  | false =>
      show (perm &&& ~~~PTE_V).toNat < 2 ^ 8
      rw [BitVec.toNat_and]
      exact Nat.lt_of_le_of_lt Nat.and_le_left low
  | true =>
      show (perm ||| PTE_V ||| PTE_A ||| PTE_D).toNat < 2 ^ 8
      simp only [BitVec.toNat_or]
      exact Nat.or_lt_two_pow (Nat.or_lt_two_pow (Nat.or_lt_two_pow low (by decide)) (by decide))
        (by decide)

/-- The gigapages of SRAM and of I/O, and nothing else. -/
def identityView : View :=
  (View.setBlock (fun _ => (2, 0#64)) 2 SRAM_BASE
    (2, pteLeaf SRAM_BASE (PTE_R ||| PTE_W ||| PTE_X))).setBlock 2 0
    (2, pteLeaf 0 (PTE_R ||| PTE_W))

theorem ptAllocPage_blank {pool : Pool} {s : PtState} (inside : s.ptPoolNextPage < pool.pages) :
    Shaped pool s.ptPoolNextPage (ptAllocPage pool s).1 (ptAllocPage pool s).2 ∧
      view (ptAllocPage pool s).2.mem (ptAllocPage pool s).1 = fun _ => (2, 0#64) := by
  obtain ⟨aligned, physical, -⟩ := page_geometry pool inside
  have blank := TableTree.blank aligned physical (clearTable_blank s.mem physical)
  have live : Live pool s.ptPoolNextPage (s.ptPoolNextPage + 1) =
      fun t => t = pool.page s.ptPoolNextPage := by
    rw [live_succ pool (le_refl _)]
    funext t
    apply propext
    constructor
    · rintro (⟨i, from_base, below, -⟩ | same)
      · omega
      · exact same
    · exact Or.inr
  refine ⟨⟨fun _ => 2, ?_⟩, blank.2⟩
  show TableTree _ (Live pool s.ptPoolNextPage (s.ptPoolNextPage + 1)) _ _
  rw [live]
  exact blank.1

theorem ptSetupIdentityKernel_spec {pool : Pool} {s : PtState}
    (inside : s.ptPoolNextPage < pool.pages) :
    let built := ptSetupIdentityKernel pool s
    Shaped pool s.ptPoolNextPage built.1 built.2 ∧
      view built.2.mem built.1 = identityView ∧ built.1 = pool.page s.ptPoolNextPage := by
  intro built
  obtain ⟨⟨level, tree⟩, blank⟩ := ptAllocPage_blank inside
  have sram := tree.write (le_refl 2) (at_root _ _ SRAM_BASE)
    (pteLeaf SRAM_BASE (PTE_R ||| PTE_W ||| PTE_X)) fun _ => by decide
  have io := sram.1.write (le_refl 2) (at_root _ _ 0) (pteLeaf 0 (PTE_R ||| PTE_W))
    fun _ => by decide
  rw [sram.2, blank] at io
  exact ⟨⟨level, io.1⟩, io.2, rfl⟩

/-- Tables built by calls that stay clear of valid leaves are what the calls say. -/
theorem build_spec {pool : Pool} {start : PtState} {calls : List PtCall}
    (clears : Clears identityView calls)
    (room : (build pool start calls).2.ptPoolNextPage ≤ pool.pages) :
    Shaped pool start.ptPoolNextPage (build pool start calls).1 (build pool start calls).2 ∧
      view (build pool start calls).2.mem (build pool start calls).1 =
        calls.foldl PtCall.view identityView := by
  have grows := calls_grow pool (ptSetupIdentityKernel pool start).1 calls
    (ptSetupIdentityKernel pool start).2
  have allocated : (ptSetupIdentityKernel pool start).2.ptPoolNextPage =
      start.ptPoolNextPage + 1 := rfl
  have inside : start.ptPoolNextPage < pool.pages := by
    have total : (build pool start calls).2.ptPoolNextPage =
        (calls.foldl (PtCall.exec pool (ptSetupIdentityKernel pool start).1)
          (ptSetupIdentityKernel pool start).2).ptPoolNextPage := rfl
    omega
  obtain ⟨shaped, identity, -⟩ := ptSetupIdentityKernel_spec inside
  have rest := calls_spec calls shaped (by rw [identity]; exact clears) room
  rw [identity] at rest
  exact rest

theorem unmapped_regular : View.Regular fun _ => (2, 0#64) :=
  ⟨fun _ => le_refl 2, fun _ _ _ => rfl, fun _ _ _ => rfl⟩

theorem identityView_regular : identityView.Regular := by
  have sram := unmapped_regular.setBlock SRAM_BASE (pteLeaf SRAM_BASE (PTE_R ||| PTE_W ||| PTE_X))
    (le_refl 2) (le_refl 2) (le_refl 2) fun _ => by decide
  exact sram.setBlock 0 (pteLeaf 0 (PTE_R ||| PTE_W)) (le_refl 2) (le_refl 2) (sram.bounded 0)
    fun _ => by decide

theorem identityView_outside {va : BitVec 64} (sram : ¬ SameBlock 2 SRAM_BASE va)
    (io : ¬ SameBlock 2 0 va) : identityView va = (2, 0#64) := by
  rw [identityView, View.setBlock_other io, View.setBlock_other sram]

/-- The pages that the identity map and some requests installed an entry for. -/
def Installed (requests : List Request) (va : BitVec 64) : Prop :=
  SameBlock 2 SRAM_BASE va ∨ SameBlock 2 0 va ∨ ∃ r ∈ requests, SameBlock 0 r.va va

instance (requests : List Request) (va : BitVec 64) : Decidable (Installed requests va) :=
  inferInstanceAs (Decidable (_ ∨ _ ∨ _))

theorem call_regular {v : View} (regular : v.Regular) (call : PtCall) : (call.view v).Regular := by
  cases call with
  | mapPage va pa perm valid =>
      exact regular.map va (pageEntry pa perm valid) (Nat.zero_le 2) fun positive =>
        absurd positive (by omega)
  | megapage va ppn perm =>
      refine regular.map va (megapageEntry ppn perm) (by omega) fun _ invalid => ?_
      have valid : (megapageEntry ppn perm).getLsbD 0 = true := by
        simp only [megapageEntry, BitVec.getLsbD_or]
        simp [PTE_V, PTE_A, PTE_D]
      rw [(and_PTE_V _).mp invalid] at valid
      cases valid

theorem calls_regular {calls : List PtCall} {v : View} (regular : v.Regular) :
    (calls.foldl PtCall.view v).Regular := by
  induction calls generalizing v with
  | nil => exact regular
  | cons call calls ih => exact ih (call_regular regular call)

theorem clears_append {before after : List PtCall} {v : View}
    (clears : Clears v (before ++ after)) :
    Clears (before.foldl PtCall.view v) after := by
  induction before generalizing v with
  | nil => exact clears
  | cons call before ih => exact ih clears.2

/-- A request leaves the words in which other pages end, and their entries of level 0. -/
theorem Request.other {v : View} (regular : v.Regular) {r : Request} (clear : r.call.Clear v)
    {a : BitVec 64} (apart : ¬ SameBlock 0 r.va a) :
    (r.call.view v a).2 = (v a).2 ∧ ((v a).1 ≤ 0 → r.call.view v a = v a) :=
  regular.map_other (pageEntry r.pa r.perm r.valid) (Nat.zero_le 2) clear apart

theorem requests_other {requests : List Request} {v : View} {a : BitVec 64} (regular : v.Regular)
    (clears : Clears v (requests.map Request.call))
    (apart : ∀ r ∈ requests, ¬ SameBlock 0 r.va a) :
    ((requests.map Request.call).foldl PtCall.view v a).2 = (v a).2 ∧
      ((v a).1 ≤ 0 → (requests.map Request.call).foldl PtCall.view v a = v a) := by
  induction requests generalizing v with
  | nil => exact ⟨rfl, fun _ => rfl⟩
  | cons r requests ih =>
      have here := Request.other regular clears.1 (apart r List.mem_cons_self)
      have rest := ih (call_regular regular r.call) clears.2
        fun other member => apart other (List.mem_cons_of_mem r member)
      refine ⟨rest.1.trans here.1, fun low => ?_⟩
      have same := here.2 low
      exact (rest.2 (by rw [same]; exact low)).trans same

/-- Requests in a part of the address space without valid leaves above level 0 find it
so, and leave it so. -/
theorem requests_clear {requests : List Request} {v : View} (regular : v.Regular)
    (free : BitVec 64 → Prop) (outside : ∀ r ∈ requests, free r.va)
    (clear : ∀ a, free a → v.Clear 0 a) :
    Clears v (requests.map Request.call) ∧
      ∀ a, free a → ((requests.map Request.call).foldl PtCall.view v).Clear 0 a := by
  induction requests generalizing v with
  | nil => exact ⟨trivial, clear⟩
  | cons r requests ih =>
      have clearHere : r.call.Clear v := clear r.va (outside r List.mem_cons_self)
      have clearNext : ∀ a, free a → (r.call.view v).Clear 0 a := by
        intro a inside above
        by_cases same : SameBlock 0 r.va a
        · have mapped : r.call.view v a = (0, pageEntry r.pa r.perm r.valid) := View.map_same same
          rw [mapped] at above
          exact absurd above (by omega)
        · have here := Request.other regular clearHere same
          by_cases low : (v a).1 ≤ 0
          · rw [here.2 low] at above
            omega
          · rw [here.1]
            exact clear a inside (by omega)
      have rest := ih (call_regular regular r.call)
        (fun other member => outside other (List.mem_cons_of_mem r member)) clearNext
      exact ⟨⟨clearHere, rest.1⟩, rest.2⟩

theorem identityView_clear {a : BitVec 64} (sram : ¬ SameBlock 2 SRAM_BASE a)
    (io : ¬ SameBlock 2 0 a) : identityView.Clear 0 a := by
  intro _
  rw [identityView_outside sram io]
  exact BitVec.zero_and

/-- Distinct pages end in the entries that were requested for them. -/
theorem requests_entry {requests : List Request} {v : View} (regular : v.Regular)
    (clears : Clears v (requests.map Request.call))
    (distinct : requests.Pairwise fun r r' => ¬ SameBlock 0 r'.va r.va) {r : Request}
    (member : r ∈ requests) :
    (requests.map Request.call).foldl PtCall.view v r.va =
      (0, pageEntry r.pa r.perm r.valid) := by
  induction requests generalizing v with
  | nil => cases member
  | cons first requests ih =>
      rw [List.pairwise_cons] at distinct
      rcases List.mem_cons.mp member with rfl | later
      · have mapped : r.call.view v r.va = (0, pageEntry r.pa r.perm r.valid) :=
          View.map_same rfl
        have kept := (requests_other (call_regular regular r.call) clears.2 distinct.1).2
        exact (kept (by rw [mapped])).trans mapped
      · exact ih (call_regular regular first.call) clears.2 distinct.2 later

/-- `mmu_enable_sv39` and a read of the root from `satp` cancel. -/
theorem mmuEnableSv39_root {root : BitVec 64} (aligned : root.toNat % 4096 = 0)
    (physical : root.toNat + 4096 ≤ 2 ^ 56) :
    (mmuEnableSv39 root &&& 0x00000FFFFFFFFFFF) <<< 12 = root :=
  satp_root aligned physical

theorem linkerPool_aligned : (0x80010000 : BitVec 64).toNat % 4096 = 0 := by decide

/-- The pool of the linker script, and the memory of a cold start. -/
def linkerPool : Pool where
  pageTableStart := 0x80010000
  pages := 8
  aligned := linkerPool_aligned
  inSram := by decide
  physical := by decide
  indexed := by decide

def coldStart : PtState := ⟨fun _ => 0, 0⟩

end ZephyrRiscv.Pt
