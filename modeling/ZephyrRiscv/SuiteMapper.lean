import ZephyrRiscv.PageFaults

set_option autoImplicit false

namespace ZephyrRiscv.Pt

open Sv39 Mmu RadixForest Tables PageFaults

/-- The words that one step of the descent stores: a page cleared, and the link to it. -/
def nextTableStores (pool : Pool) (pte : BitVec 64) (s : PtState) : List (BitVec 64) :=
  if s.mem pte &&& PTE_V = 0#64 then
    (List.range PTES_PER_PT).map (fun i => slot (pool.page s.ptPoolNextPage) (BitVec.ofNat 9 i)) ++
      [pte]
  else []

/-- The words that `pt_map_page` stores. -/
def mapPageStores (pool : Pool) (root va : BitVec 64) (s : PtState) : List (BitVec 64) :=
  let l1 := ptNextTable pool (slot root (vpn va 2)) s
  let l2 := ptNextTable pool (slot l1.1 (vpn va 1)) l1.2
  nextTableStores pool (slot root (vpn va 2)) s ++
    (nextTableStores pool (slot l1.1 (vpn va 1)) l1.2 ++ [slot l2.1 (vpn va 0)])

/-- A doubleword of a table handed out since a mark. -/
def TableWord (pool : Pool) (base next : Nat) (x : BitVec 64) : Prop :=
  ∃ t, Live pool base next t ∧ ∃ k, x = slot t k

/-- What `pt_walk` returns, the entry read. -/
def walkedEntry (m : Mem) (root va : BitVec 64) : Nat × BitVec 64 :=
  ((ptWalk m root va).2, m (ptWalk m root va).1)

theorem walkedEntry_eq (m : Mem) (root va : BitVec 64) :
    walkedEntry m root va = view m root va := by
  rw [walkedEntry, ptWalk_eq, view]

/-- The mapper and the walker agree about a request: the walker finds its entry at level
0 and the word of every other page as it was, and only tables of the pool were stored to. -/
structure MapperAgrees (pool : Pool) (base : Nat) (root : BitVec 64) (before after : PtState)
    (r : Request) : Prop where
  found : walkedEntry after.mem root r.va = (0, pageEntry r.pa r.perm r.valid)
  others : ∀ a, ¬ SameBlock 0 r.va a →
    (walkedEntry after.mem root a).2 = (walkedEntry before.mem root a).2
  confined : ∀ x ∈ mapPageStores pool root r.va before,
    TableWord pool base after.ptPoolNextPage x
  untouched : ∀ x : BitVec 64, x.toNat % 8 = 0 → x ∉ mapPageStores pool root r.va before →
    after.mem x = before.mem x

/-- Outside the gigapages of the identity map. -/
def OutsideIdentity (va : BitVec 64) : Prop := ¬ SameBlock 2 SRAM_BASE va ∧ ¬ SameBlock 2 0 va

instance (va : BitVec 64) : Decidable (OutsideIdentity va) :=
  inferInstanceAs (Decidable (_ ∧ _))

theorem clearTable_word (m : Mem) {page x : BitVec 64} (aligned : page.toNat % 4096 = 0)
    (physical : page.toNat + 4096 ≤ 2 ^ 56) (word : x.toNat % 8 = 0)
    (out : x ∉ (List.range PTES_PER_PT).map fun i => slot page (BitVec.ofNat 9 i)) :
    clearTable m page x = m x := by
  apply if_neg
  intro inside
  apply out
  have small := x.isLt
  rw [BitVec.toNat_sub, PT_ENTRIES] at inside
  refine List.mem_map.mpr ⟨(x.toNat - page.toNat) / 8, List.mem_range.mpr ?_, ?_⟩
  · rw [PTES_PER_PT]
    omega
  · apply BitVec.eq_of_toNat_eq
    rw [slot_toNat _ _ (by omega), BitVec.toNat_ofNat]
    omega

theorem ptNextTable_untouched {pool : Pool} {pte : BitVec 64} {s : PtState} {x : BitVec 64}
    (room : (ptNextTable pool pte s).2.ptPoolNextPage ≤ pool.pages) (word : x.toNat % 8 = 0)
    (out : x ∉ nextTableStores pool pte s) : (ptNextTable pool pte s).2.mem x = s.mem x := by
  by_cases invalid : s.mem pte &&& PTE_V = 0#64
  · rw [nextTableStores, if_pos invalid, List.mem_append, List.mem_singleton, not_or] at out
    have inside : s.ptPoolNextPage < pool.pages := by
      have grows : (ptNextTable pool pte s).2.ptPoolNextPage = s.ptPoolNextPage + 1 := by
        simp only [ptNextTable, if_pos invalid, ptAllocPage]
      omega
    obtain ⟨aligned, physical, -⟩ := page_geometry pool inside
    rw [ptNextTable_invalid invalid inside]
    show (clearTable s.mem _).store pte _ x = s.mem x
    rw [Mem.store_other _ _ _ _ out.2]
    exact clearTable_word s.mem aligned physical word out.1
  · rw [ptNextTable_valid invalid]

theorem ptMapPage_untouched {pool : Pool} {root va pa perm : BitVec 64} {valid : Bool}
    {s : PtState} {x : BitVec 64}
    (room : (ptMapPage pool root va pa perm valid s).ptPoolNextPage ≤ pool.pages)
    (word : x.toNat % 8 = 0) (out : x ∉ mapPageStores pool root va s) :
    (ptMapPage pool root va pa perm valid s).mem x = s.mem x := by
  simp only [mapPageStores, List.mem_append, List.mem_singleton, not_or] at out
  obtain ⟨out₁, out₂, final⟩ := out
  have step₁ := ptNextTable_untouched (Nat.le_trans (ptNextTable_grows pool _ _) room) word out₁
  have step₂ := ptNextTable_untouched (s := (ptNextTable pool (slot root (vpn va 2)) s).2)
    room word out₂
  calc (ptMapPage pool root va pa perm valid s).mem x
      = (ptNextTable pool _ (ptNextTable pool (slot root (vpn va 2)) s).2).2.mem x :=
        Mem.store_other _ _ _ _ final
    _ = (ptNextTable pool (slot root (vpn va 2)) s).2.mem x := step₂
    _ = s.mem x := step₁

theorem TableWord.mono {pool : Pool} {base next next' : Nat} {x : BitVec 64} (order : next ≤ next')
    (word : TableWord pool base next x) : TableWord pool base next' x := by
  obtain ⟨t, ⟨i, from_base, below, same⟩, entry⟩ := word
  exact ⟨t, ⟨i, from_base, by omega, same⟩, entry⟩

theorem nextTableStores_confined {pool : Pool} {base : Nat} {pte x : BitVec 64} {s : PtState}
    (order : base ≤ s.ptPoolNextPage) (entry : TableWord pool base s.ptPoolNextPage pte)
    (stored : x ∈ nextTableStores pool pte s) :
    TableWord pool base (ptNextTable pool pte s).2.ptPoolNextPage x := by
  by_cases invalid : s.mem pte &&& PTE_V = 0#64
  · have grows : (ptNextTable pool pte s).2.ptPoolNextPage = s.ptPoolNextPage + 1 := by
      simp only [ptNextTable, if_pos invalid, ptAllocPage]
    rw [nextTableStores, if_pos invalid, List.mem_append, List.mem_singleton] at stored
    rw [grows]
    cases stored with
    | inl cleared =>
        obtain ⟨i, -, same⟩ := List.mem_map.mp cleared
        exact ⟨_, ⟨_, order, Nat.lt_succ_self _, rfl⟩, _, same.symm⟩
    | inr link =>
        rw [link]
        exact entry.mono (Nat.le_succ _)
  · rw [nextTableStores, if_neg invalid] at stored
    exact absurd stored List.not_mem_nil

theorem Shaped.entry {pool : Pool} {base : Nat} {root va t : BitVec 64} {s : PtState} {l : Nat}
    (shaped : Shaped pool base root s) (bound : l ≤ 2) (here : At s.mem root va l t) :
    TableWord pool base s.ptPoolNextPage (slot t (vpn va l)) := by
  obtain ⟨level, tree⟩ := shaped
  exact ⟨t, (tree.at_live bound here).1, _, rfl⟩

theorem Shaped.order {pool : Pool} {base : Nat} {root : BitVec 64} {s : PtState}
    (shaped : Shaped pool base root s) : base ≤ s.ptPoolNextPage := by
  obtain ⟨level, tree⟩ := shaped
  obtain ⟨i, from_base, below, -⟩ := tree.rooted
  omega

theorem mapPageStores_confined {pool : Pool} {base : Nat} {root va pa perm x : BitVec 64}
    {valid : Bool} {s : PtState} (shaped : Shaped pool base root s)
    (clear : (view s.mem root).Clear 0 va)
    (room : (ptMapPage pool root va pa perm valid s).ptPoolNextPage ≤ pool.pages)
    (stored : x ∈ mapPageStores pool root va s) :
    TableWord pool base (ptMapPage pool root va pa perm valid s).ptPoolNextPage x := by
  have first := ptNextTable_spec shaped (le_refl 2) (at_root s.mem root va)
    (fun above => clear (by omega)) (Nat.le_trans (ptNextTable_grows pool _ _) room)
  obtain ⟨shaped₁, at₁, view₁⟩ := first
  have second := ptNextTable_spec shaped₁ (by omega) at₁
    (by rw [view₁]; exact clear.deepen 1) room
  obtain ⟨shaped₂, at₂, -⟩ := second
  simp only [mapPageStores, List.mem_append, List.mem_singleton] at stored
  rcases stored with top | middle | rfl
  · exact (nextTableStores_confined shaped.order (shaped.entry (le_refl 2) (at_root _ _ _))
      top).mono (ptNextTable_grows pool _ _)
  · exact nextTableStores_confined shaped₁.order (shaped₁.entry (by omega) at₁) middle
  · exact shaped₂.entry (by omega) at₂

/-- One request on tables that no valid leaf above level 0 covers. -/
theorem request_agrees {pool : Pool} {base : Nat} {root : BitVec 64} {s : PtState} {r : Request}
    (shaped : Shaped pool base root s) (regular : (view s.mem root).Regular)
    (clear : r.call.Clear (view s.mem root))
    (room : (r.call.exec pool root s).ptPoolNextPage ≤ pool.pages) :
    MapperAgrees pool base root s (r.call.exec pool root s) r := by
  have viewed : view (r.call.exec pool root s).mem root = r.call.view (view s.mem root) :=
    (ptMapPage_spec shaped clear room).2
  refine ⟨?_, ?_, ?_, ?_⟩
  · rw [walkedEntry_eq, viewed]
    exact View.map_same rfl
  · intro a apart
    rw [walkedEntry_eq, walkedEntry_eq, viewed]
    exact (Request.other regular clear apart).1
  · intro x stored
    exact mapPageStores_confined shaped clear room stored
  · intro x word out
    exact ptMapPage_untouched room word out

/-- As long as every request lies outside the identity gigapages, the mapper and the
walker agree about each. -/
theorem mapper_agrees_outside_identity (pool : Pool) (start : PtState) (earlier : List Request)
    (r : Request) (outside : ∀ q ∈ earlier ++ [r], OutsideIdentity q.va)
    (room : (build pool start ((earlier ++ [r]).map Request.call)).2.ptPoolNextPage ≤ pool.pages) :
    let before := build pool start (earlier.map Request.call)
    MapperAgrees pool start.ptPoolNextPage before.1 before.2
      (ptMapPage pool before.1 r.va r.pa r.perm r.valid before.2) r := by
  intro before
  have extended : (build pool start ((earlier ++ [r]).map Request.call)).2 =
      r.call.exec pool before.1 before.2 := by
    simp only [build, List.map_append, List.foldl_append, List.map_cons, List.map_nil,
      List.foldl_cons, List.foldl_nil, before]
  rw [extended] at room
  have earlierOutside : ∀ q ∈ earlier, OutsideIdentity q.va :=
    fun q member => outside q (List.mem_append_left _ member)
  have rOutside : OutsideIdentity r.va := outside r (List.mem_append_right _ List.mem_cons_self)
  obtain ⟨clears, clearAfter⟩ := requests_clear identityView_regular OutsideIdentity earlierOutside
    fun a free => identityView_clear free.1 free.2
  obtain ⟨shaped, viewed⟩ := build_spec clears
    (Nat.le_trans (PtCall.exec_grows pool before.1 before.2 r.call) room)
  apply request_agrees shaped
  · rw [viewed]
    exact calls_regular identityView_regular
  · rw [viewed]
    exact clearAfter r.va rOutside
  · exact room

/-- Two requests for pages under one table. -/
theorem mapper_agrees_outside_identity_shared :
    let earlier : List Request := [⟨0xC0000000, 0x80200000, PTE_R, true⟩]
    let r : Request := ⟨0xC0001000, 0x80201000, PTE_R ||| PTE_W, false⟩
    let before := build linkerPool coldStart (earlier.map Request.call)
    MapperAgrees linkerPool 0 before.1 before.2
      (ptMapPage linkerPool before.1 r.va r.pa r.perm r.valid before.2) r :=
  mapper_agrees_outside_identity linkerPool coldStart [⟨0xC0000000, 0x80200000, PTE_R, true⟩]
    ⟨0xC0001000, 0x80201000, PTE_R ||| PTE_W, false⟩ (by decide) (by decide +kernel)

/-- A request inside the SRAM gigapage: the walker never finds it, and the first word of
the code becomes a link. -/
theorem identity_gigapage_followed :
    let before := build linkerPool coldStart []
    let after := ptMapPage linkerPool before.1 SRAM_BASE SRAM_BASE PTE_R true before.2
    after.ptPoolNextPage ≤ linkerPool.pages ∧ (walkedEntry after.mem before.1 SRAM_BASE).1 = 2 ∧
      SRAM_BASE ∈ mapPageStores linkerPool before.1 SRAM_BASE before.2 ∧
      before.2.mem SRAM_BASE = 0#64 ∧ after.mem SRAM_BASE &&& PTE_V ≠ 0#64 ∧
      ¬ TableWord linkerPool 0 after.ptPoolNextPage SRAM_BASE := by
  intro before after
  refine ⟨by decide +kernel, by decide +kernel, by decide +kernel, rfl, by decide +kernel, ?_⟩
  rintro ⟨t, ⟨i, -, below, rfl⟩, k, same⟩
  have inside : i < linkerPool.pages := Nat.lt_of_lt_of_le below (by decide +kernel)
  have equal := congrArg BitVec.toNat same
  have physical := (page_geometry linkerPool inside).2.1
  rw [slot_toNat _ _ (by omega), page_toNat linkerPool inside] at equal
  have low : SRAM_BASE.toNat < linkerPool.pageTableStart.toNat := by decide
  omega

end ZephyrRiscv.Pt
