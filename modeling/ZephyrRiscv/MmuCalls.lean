import ZephyrRiscv.MmuShape

set_option autoImplicit false

namespace ZephyrRiscv.Mmu

open Sv39 RadixForest Transition

/-- The 4 KB page number of a 39-bit address. -/
def page (va : BitVec 64) : Nat := va.toNat / 4096 % 2 ^ 27

/-- Two addresses under one entry of a level. -/
def SameBlock (level : Nat) (va va' : BitVec 64) : Prop :=
  page va / 512 ^ level = page va' / 512 ^ level

instance (level : Nat) (va va' : BitVec 64) : Decidable (SameBlock level va va') :=
  inferInstanceAs (Decidable (_ = _))

theorem SameBlock.symm {level : Nat} {va va' : BitVec 64} (same : SameBlock level va va') :
    SameBlock level va' va :=
  Eq.symm same

/-- Canonical addresses on one page of 39 bits are on one page. -/
theorem page_canonical {va va' : BitVec 64} (canonical : Canonical va)
    (canonical' : Canonical va') :
    SameBlock 0 va va' ↔ va.toNat / 4096 = va'.toNat / 4096 := by
  unfold Canonical at canonical canonical'
  have small := va.isLt
  have small' := va'.isLt
  simp only [SameBlock, page, Nat.pow_zero, Nat.div_one]
  omega

theorem prefix_keys_iff (va a : BitVec 64) {l : Nat} (bound : l ≤ 2) :
    pathTo va l ++ [vpn va l] <+: keys a ↔ SameBlock l va a := by
  have same : ∀ level, vpn va level = vpn a level ↔
      va.toNat / (4096 * 512 ^ level) % 512 = a.toNat / (4096 * 512 ^ level) % 512 := by
    intro level
    rw [← BitVec.toNat_inj, vpn_toNat, vpn_toNat]
  have paths : pathTo va 2 = [] ∧ pathTo va 1 = [vpn va 2] ∧ pathTo va 0 = [vpn va 2, vpn va 1] :=
    ⟨rfl, rfl, rfl⟩
  rcases (by omega : l = 0 ∨ l = 1 ∨ l = 2) with rfl | rfl | rfl <;>
    simp only [paths, keys, List.cons_append, List.nil_append, List.cons_prefix_cons,
      List.nil_prefix, and_true, same, SameBlock, page] <;> omega

/-- Only the block of the final entry decides where a descent ends. -/
theorem leafAt_uniform {s : MmuState} {va a : BitVec 64} {l : Nat} {pte : BitVec 64}
    (found : s.leafAt va = some (l, pte)) (same : SameBlock l va a) :
    s.leafAt a = some (l, pte) := by
  obtain ⟨ends, valid⟩ := Option.filter_eq_some_iff.mp found
  have bound : l < 3 := find_lt ends
  have agree := (prefix_keys_iff va a (by omega)).mpr same
  have split : (keys va).take (3 - l) = pathTo va l ++ [vpn va l] := by
    rcases (by omega : l = 0 ∨ l = 1 ∨ l = 2) with rfl | rfl | rfl <;> rfl
  rw [← split] at agree
  have heads := List.prefix_iff_eq_take.mp agree
  rw [List.length_take, show (keys va).length = 3 from rfl, Nat.min_eq_left (by omega)] at heads
  refine Option.filter_eq_some_iff.mpr ⟨?_, valid⟩
  have length : (keys a).length = (keys va).length := rfl
  exact find_uniform length heads.symm ends

/-- The final entry that a written word makes. -/
def entry (level : Nat) (pte : BitVec 64) : Option (Nat × BitVec 64) :=
  if present pte then some (level, pte) else none

theorem entry_zero (level : Nat) : entry level 0#64 = none := by
  rw [entry, child_zero.2]
  rfl

/-- Some assignment of levels gives the tables their shape. -/
def WellShaped (cfg : Config) (s : MmuState) : Prop := ∃ level, Shape cfg s level

/-- One word written as the entry of a level. -/
structure Wrote (cfg : Config) (s : MmuState) (level : Nat) (va pte : BitVec 64)
    (s' : MmuState) : Prop where
  shaped : WellShaped cfg s'
  grown : Extends cfg s s'
  leaves : ∀ a, s'.leafAt a = if SameBlock level va a then entry level pte else s.leafAt a

theorem Shape.write {cfg : Config} {s : MmuState} {level : BitVec 64 → Nat}
    (shape : Shape cfg s level) {va t : BitVec 64} {l : Nat} (bound : l ≤ 2)
    (here : s.At va l t) (pte : BitVec 64) (ends : 0 < l → child pte = none) :
    Wrote cfg s l va pte (s.writePte (slot t (vpn va l)) pte) := by
  obtain ⟨outT, levelT⟩ := shape.at_live bound here
  have own : (s.writePte (slot t (vpn va l)) pte).words t (vpn va l) = pte := writePte_own ..
  have off := fun m j outM other =>
    writePte_off (s := s) (v := pte) (k := vpn va l) outT m j outM other
  have stops : 0 < level t →
      child ((s.writePte (slot t (vpn va l)) pte).words t (vpn va l)) = none := by
    intro positive
    rw [own]
    exact ends (levelT ▸ positive)
  have pathBound : (pathTo va l).length ≤ level s.kernelRoot := by
    have := pathTo_length va bound
    rw [shape.rootLevel]
    omega
  refine ⟨⟨level, shape.root, shape.rootLevel, shape.bounded, shape.forest.write off stops, ?_⟩,
    Extends.writePte outT, ?_⟩
  · intro m k c outM positive isLink
    by_cases same : m = t ∧ k = vpn va l
    · obtain ⟨rfl, rfl⟩ := same
      rw [stops positive] at isLink
      cases isLink
    · rw [off m k outM same] at isLink ⊢
      exact shape.exact outM positive isLink
  · intro a
    have changed := shape.forest.leaf_write present shape.root pathBound here off stops
      (show (keys a).length = level s.kernelRoot + 1 by rw [shape.rootLevel]; rfl)
    rw [own, levelT] at changed
    simp only [prefix_keys_iff va a bound] at changed
    exact changed

/-- A write after a descent is a write to the tables before it. -/
theorem Descended.write {cfg : Config} {s s' : MmuState} {level : BitVec 64 → Nat}
    {va t : BitVec 64} {l : Nat} (descended : Descended cfg s va l t s' level) (bound : l ≤ 2)
    (pte : BitVec 64) (ends : 0 < l → child pte = none) :
    Wrote cfg s l va pte (s'.writePte (slot t (vpn va l)) pte) := by
  have wrote := descended.shape.write bound descended.here pte ends
  refine ⟨wrote.shaped, descended.grown.trans wrote.grown, ?_⟩
  intro a
  rw [wrote.leaves a, descended.leaves a]

/-- The entry of a 4 KB or gigapage mapping. -/
def leafPte (pa perm : BitVec 64) : BitVec 64 :=
  physToPpn pa ||| (perm ||| PTE_V ||| PTE_A ||| PTE_D)

theorem Ends.error {cfg : Config} {s : MmuState} {β γ : Type} {good : β → Prop}
    {good' : γ → Prop} {stop : Stop} (ends : Ends cfg s good (.error stop)) :
    Ends cfg s good' (.error stop) := by
  cases stop <;> exact ends

theorem mapPage_spec {cfg : Config} {va : BitVec 64} (pa perm : BitVec 64) {s : MmuState}
    (shaped : WellShaped cfg s) (clear : s.Clear va 0) :
    Ends cfg s (Wrote cfg s 0 va (leafPte pa perm)) (mapPage cfg va pa perm s) := by
  obtain ⟨level, shape⟩ := shaped
  have atRoot : s.At va (0 + (SV39_LEVELS - 1)) s.kernelRoot := rfl
  have reached := walkDown_spec (SV39_LEVELS - 1) shape (by decide) atRoot clear
  unfold mapPage
  cases outcome : walkDown cfg va 0 (SV39_LEVELS - 1) s.kernelRoot s with
  | error stop =>
      rw [outcome] at reached
      exact reached.error
  | ok result =>
      rw [outcome] at reached
      obtain ⟨_, descended⟩ := reached
      exact descended.write (by omega) _ fun positive => absurd positive (by omega)

/-- A raw entry above the last level is a leaf or is not valid. -/
def RawLeaf (pteBits : BitVec 64) (level : Nat) : Prop :=
  0 < level → pteBits &&& PTE_V ≠ 0#64 → pteBits &&& PTE_XWR ≠ 0#64

instance (pteBits : BitVec 64) (level : Nat) : Decidable (RawLeaf pteBits level) :=
  inferInstanceAs (Decidable (_ → _ → _))

theorem RawLeaf.ends {pa pteBits : BitVec 64} {level : Nat} (raw : RawLeaf pteBits level)
    (positive : 0 < level) : child (physToPpn pa ||| pteBits) = none := by
  refine child_eq_none.mpr fun valid links => ?_
  rw [ne_eq, and_PTE_V, getLsbD_physToPpn_or pa pteBits 0 (by omega), ← and_PTE_V] at valid
  rw [and_PTE_XWR, getLsbD_physToPpn_or pa pteBits 1 (by omega),
    getLsbD_physToPpn_or pa pteBits 2 (by omega),
    getLsbD_physToPpn_or pa pteBits 3 (by omega), ← and_PTE_XWR] at links
  exact raw positive valid links

theorem zRiscvMmuMapRaw_spec {cfg : Config} {va pa pteBits : BitVec 64} {level : Nat}
    {s : MmuState} (shaped : WellShaped cfg s) (clear : s.Clear va level)
    (raw : RawLeaf pteBits level) :
    Ends cfg s (Wrote cfg s level va (physToPpn pa ||| pteBits))
      (zRiscvMmuMapRaw cfg va pa pteBits level s) := by
  obtain ⟨lvl, shape⟩ := shaped
  unfold zRiscvMmuMapRaw
  split
  · rename_i asserted
    have inside : level < 3 := asserted.1
    have top : level + (SV39_LEVELS - 1 - level) = 2 := by
      rw [SV39_LEVELS]
      omega
    have atRoot : s.At va (level + (SV39_LEVELS - 1 - level)) s.kernelRoot := by
      rw [top]
      rfl
    have reached := walkDown_spec (SV39_LEVELS - 1 - level) shape (by omega) atRoot clear
    cases outcome : walkDown cfg va level (SV39_LEVELS - 1 - level) s.kernelRoot s with
    | error stop =>
        rw [outcome] at reached
        exact reached.error
    | ok result =>
        rw [outcome] at reached
        obtain ⟨_, descended⟩ := reached
        exact descended.write (by omega) _ raw.ends
  · exact Extends.refl cfg s

theorem mapGigapage_spec {cfg : Config} (va pa perm : BitVec 64) {s : MmuState}
    (shaped : WellShaped cfg s) (leafBits : perm &&& PTE_XWR ≠ 0#64) :
    Wrote cfg s 2 va (leafPte pa perm) (mapGigapage va pa perm s) := by
  obtain ⟨level, shape⟩ := shaped
  have atRoot : s.At va 2 s.kernelRoot := rfl
  have raw : RawLeaf (perm ||| PTE_V ||| PTE_A ||| PTE_D) 2 := by
    intro _ _ links
    apply leafBits
    rw [and_PTE_XWR] at links ⊢
    simp only [BitVec.getLsbD_or, Bool.or_eq_false_iff] at links
    exact ⟨links.1.1.1.1, links.2.1.1.1.1, links.2.2.1.1.1⟩
  exact shape.write (by omega) atRoot _ raw.ends

/-- The entry that maps an address is gone, and with it the block it mapped. -/
structure Unmapped (cfg : Config) (s : MmuState) (va : BitVec 64) (s' : MmuState) : Prop where
  shaped : WellShaped cfg s'
  grown : Extends cfg s s'
  leaves : ∀ a, s'.leafAt a =
    (s.leafAt a).filter fun found => !decide (SameBlock found.1 a va)

theorem unmapped_absent {s : MmuState} {va : BitVec 64} (absent : s.leafAt va = none)
    (a : BitVec 64) :
    ((s.leafAt a).filter fun found => !decide (SameBlock found.1 a va)) = s.leafAt a := by
  cases found : s.leafAt a with
  | none => rfl
  | some final =>
      have apart : ¬ SameBlock final.1 a va := by
        intro same
        rw [leafAt_uniform found same] at absent
        cases absent
      simp only [Option.filter_some, apart, decide_false, Bool.not_false, ↓reduceIte]

theorem unmapped_block {s : MmuState} {va pte : BitVec 64} {l : Nat}
    (maps : s.leafAt va = some (l, pte)) (a : BitVec 64) :
    ((s.leafAt a).filter fun found => !decide (SameBlock found.1 a va)) =
      if SameBlock l va a then none else s.leafAt a := by
  by_cases same : SameBlock l va a
  · simp only [leafAt_uniform maps same, same, same.symm, Option.filter_some, decide_true,
      Bool.not_true, Bool.false_eq_true, ↓reduceIte]
  · rw [if_neg same]
    cases found : s.leafAt a with
    | none => rfl
    | some other =>
        have apart : ¬ SameBlock other.1 a va := by
          intro agree
          have equal := Option.some.inj ((leafAt_uniform found agree).symm.trans maps)
          have level : other.1 = l := congrArg Prod.fst equal
          rw [level] at agree
          exact same agree.symm
        simp only [Option.filter_some, apart, decide_false, Bool.not_false, ↓reduceIte]

theorem leafAt_page (s : MmuState) {va a : BitVec 64} (same : SameBlock 0 va a) :
    s.leafAt a = s.leafAt va := by
  have agree := (prefix_keys_iff va a (by omega)).mpr same
  have keysSame : keys va = keys a := agree.eq_of_length rfl
  rw [MmuState.leafAt, ← keysSame]
  rfl

theorem unmapFrom_invalid {va tbl : BitVec 64} {l : Nat} {s : MmuState}
    (invalid : s.words tbl (vpn va (l + 1)) &&& PTE_V = 0#64) :
    unmapFrom va (l + 1) tbl s = s.touch (slot tbl (vpn va (l + 1))) := by
  rw [unmapFrom]
  exact if_pos invalid

theorem unmapFrom_leaf {va tbl : BitVec 64} {l : Nat} {s : MmuState}
    (valid : ¬ s.words tbl (vpn va (l + 1)) &&& PTE_V = 0#64)
    (leafBits : s.words tbl (vpn va (l + 1)) &&& PTE_XWR ≠ 0#64) :
    unmapFrom va (l + 1) tbl s =
      (s.touch (slot tbl (vpn va (l + 1)))).writePte (slot tbl (vpn va (l + 1))) 0#64 := by
  rw [unmapFrom]
  exact (if_neg valid).trans (if_pos leafBits)

theorem unmapFrom_link {va tbl : BitVec 64} {l : Nat} {s : MmuState}
    (valid : ¬ s.words tbl (vpn va (l + 1)) &&& PTE_V = 0#64)
    (links : s.words tbl (vpn va (l + 1)) &&& PTE_XWR = 0#64) :
    unmapFrom va (l + 1) tbl s =
      unmapFrom va l (pteToPhys (s.words tbl (vpn va (l + 1))))
        (s.touch (slot tbl (vpn va (l + 1)))) := by
  rw [unmapFrom]
  exact (if_neg valid).trans (if_neg fun leafBits => leafBits links)

theorem unmapFrom_spec {cfg : Config} {va : BitVec 64} (l : Nat) {tbl : BitVec 64}
    {s : MmuState} {level : BitVec 64 → Nat} (shape : Shape cfg s level) (bound : l ≤ 2)
    (here : s.At va l tbl) : Unmapped cfg s va (unmapFrom va l tbl s) := by
  induction l generalizing tbl s with
  | zero =>
      have wrote := shape.write bound here 0#64 fun _ => child_zero.1
      have stops := leafAt_stop bound here fun positive => absurd positive (by omega)
      refine ⟨wrote.shaped, wrote.grown, fun a => ?_⟩
      rw [unmapFrom, wrote.leaves a, entry_zero]
      split at stops
      · rw [unmapped_block stops]
      · rw [unmapped_absent stops]
        by_cases same : SameBlock 0 va a
        · rw [if_pos same, leafAt_page s same, stops]
        · rw [if_neg same]
  | succ l ih =>
      have outTbl := (shape.at_live bound here).1
      have touched := Extends.touch (k := vpn va (l + 1)) outTbl
      have shapeT : Shape cfg (s.touch (slot tbl (vpn va (l + 1)))) level :=
        ⟨shape.root, shape.rootLevel, shape.bounded, shape.forest, shape.exact⟩
      by_cases invalid : s.words tbl (vpn va (l + 1)) &&& PTE_V = 0#64
      · have stops := leafAt_stop bound here fun _ => child_invalid invalid
        rw [present_invalid invalid] at stops
        rw [unmapFrom_invalid invalid]
        exact ⟨⟨level, shapeT⟩, touched, fun a => (unmapped_absent stops a).symm⟩
      · by_cases links : s.words tbl (vpn va (l + 1)) &&& PTE_XWR = 0#64
        · have here' : (s.touch (slot tbl (vpn va (l + 1)))).At va l
              (pteToPhys (s.words tbl (vpn va (l + 1)))) := by
            rw [MmuState.At, pathTo_succ va bound]
            exact descend_snoc.mpr ⟨tbl, here, child_eq_some.mpr ⟨invalid, links, rfl⟩⟩
          have rest := ih shapeT (by omega) here'
          rw [unmapFrom_link invalid links]
          exact ⟨rest.shaped, touched.trans rest.grown, rest.leaves⟩
        · have stops := leafAt_stop bound here fun _ => child_eq_none.mpr fun _ => links
          have final : present (s.words tbl (vpn va (l + 1))) = true := by
            simp only [present, ne_eq, invalid, not_false_eq_true, decide_true]
          rw [final] at stops
          have wrote := shapeT.write (l := l + 1) bound here 0#64 fun _ => child_zero.1
          rw [unmapFrom_leaf invalid links]
          refine ⟨wrote.shaped, touched.trans wrote.grown, fun a => ?_⟩
          rw [wrote.leaves a, entry_zero, unmapped_block stops]
          rfl

theorem unmapPage_spec {cfg : Config} (va : BitVec 64) {s : MmuState}
    (shaped : WellShaped cfg s) : Unmapped cfg s va (unmapPage va s) := by
  obtain ⟨level, shape⟩ := shaped
  have atRoot : s.At va (SV39_LEVELS - 1) s.kernelRoot := rfl
  exact unmapFrom_spec (SV39_LEVELS - 1) shape (by decide) atRoot

/-- How a page loop ends when an invariant of the page index holds at its start: after the last
page, at a page whose step stops, or never. -/
theorem forPages_cases {size : BitVec 64} {body : MmuState → Nat → Except Stop MmuState}
    {s : MmuState} {I : Nat → MmuState → Prop} (first : I 0 s)
    (step : ∀ i s₁ s₂, i < pageCount size → I i s₁ → body s₁ i = .ok s₂ → I (i + 1) s₂) :
    (∃ s', forPages size body s = .ok s' ∧ I (pageCount size) s') ∨
      (∃ i s' stop, i < pageCount size ∧ I i s' ∧ body s' i = .error stop ∧
        forPages size body s = .error stop) ∨
      2 ^ 64 - 4096 < size.toNat ∧ forPages size body s = .error .spin := by
  unfold forPages
  split
  · rename_i wraps
    exact Or.inr (Or.inr ⟨wraps, rfl⟩)
  · have prefixes : ∀ n, n ≤ pageCount size →
        (∃ s', (List.range n).foldlM body s = .ok s' ∧ I n s') ∨
          ∃ i s' stop, i < n ∧ I i s' ∧ body s' i = .error stop ∧
            (List.range n).foldlM body s = .error stop := by
      intro n bound
      induction n with
      | zero => exact Or.inl ⟨s, rfl, first⟩
      | succ n ih =>
          have onward : (List.range (n + 1)).foldlM body s =
              (List.range n).foldlM body s >>= fun s' => body s' n := by
            rw [List.range_succ, List.foldlM_append]
            simp only [List.foldlM_cons, List.foldlM_nil, bind_pure]
          rw [onward]
          obtain ⟨s', before, holds⟩ | ⟨i, s', stop, below, holds, stops, before⟩ := ih (by omega)
          · rw [before]
            change (∃ s₂, body s' n = .ok s₂ ∧ I (n + 1) s₂) ∨ ∃ i s₁ stop, i < n + 1 ∧ I i s₁ ∧
              body s₁ i = .error stop ∧ body s' n = .error stop
            cases here : body s' n with
            | ok s₂ => exact Or.inl ⟨s₂, rfl, step n s' s₂ (by omega) holds here⟩
            | error stop => exact Or.inr ⟨n, s', stop, by omega, holds, here, rfl⟩
          · rw [before]
            exact Or.inr ⟨i, s', stop, by omega, holds, stops, rfl⟩
    obtain returned | stopped := prefixes _ le_rfl
    · exact Or.inl returned
    · exact Or.inr (Or.inl stopped)

/-- A page loop that does not wrap fails where its body does. -/
theorem forPages_error {size : BitVec 64} {body : MmuState → Nat → Except Stop MmuState}
    {s : MmuState} {stop : Stop} (bounded : size.toNat ≤ 2 ^ 64 - 4096)
    (failed : forPages size body s = .error stop) :
    ∃ s' i, body s' i = .error stop := by
  have always : ∀ i s₁ s₂, i < pageCount size → True → body s₁ i = .ok s₂ → True :=
    fun _ _ _ _ _ _ => trivial
  obtain ⟨s', returned, -⟩ | ⟨i, s', stop', -, -, stops, outcome⟩ | ⟨wraps, -⟩ :=
    forPages_cases (s := s) (I := fun _ _ => True) trivial always
  · cases returned.symm.trans failed
  · rw [← Except.error.inj (outcome.symm.trans failed)]
    exact ⟨s', i, stops⟩
  · omega

/-- The rule of the page loops: an invariant of the page index. -/
theorem Ends.forPages {cfg : Config} {s : MmuState} {size : BitVec 64}
    {body : MmuState → Nat → Except Stop MmuState} {I : Nat → MmuState → Prop}
    (bounded : size.toNat ≤ 2 ^ 64 - 4096) (first : I 0 s)
    (grown : ∀ i s', I i s' → Extends cfg s s')
    (step : ∀ i s', i < pageCount size → I i s' → Ends cfg s' (I (i + 1)) (body s' i)) :
    Ends cfg s (I (pageCount size)) (forPages size body s) := by
  have onward : ∀ i s₁ s₂, i < pageCount size → I i s₁ → body s₁ i = .ok s₂ → I (i + 1) s₂ := by
    intro i s₁ s₂ below holds next
    have ends := step i s₁ below holds
    rw [next] at ends
    exact ends
  obtain ⟨s', returned, holds⟩ | ⟨i, s', stop, below, holds, stops, outcome⟩ | ⟨wraps, -⟩ :=
    forPages_cases first onward
  · rw [returned]
    exact holds
  · have ends := step i s' below holds
    rw [stops] at ends
    rw [outcome]
    exact ends.error.of_extends (grown i s' holds) fun _ good => good
  · omega

/-- Final entries after the first `n` pages of a range are mapped over old ones. -/
def PagesOver (old new : BitVec 64 → Option (Nat × BitVec 64)) (virt : BitVec 64)
    (pte : Nat → BitVec 64) (n : Nat) : Prop :=
  ∀ a, (∃ i, i < n ∧ SameBlock 0 (pageAfter virt i) a ∧ new a = entry 0 (pte i)) ∨
    (∀ i, i < n → ¬ SameBlock 0 (pageAfter virt i) a) ∧ new a = old a

/-- The first `n` pages of a range are mapped, the other final entries are as before. -/
structure MappedPages (cfg : Config) (s : MmuState) (virt : BitVec 64) (pte : Nat → BitVec 64)
    (n : Nat) (s' : MmuState) : Prop where
  shaped : WellShaped cfg s'
  grown : Extends cfg s s'
  leaves : PagesOver s.leafAt s'.leafAt virt pte n

/-- Pages only: no superpage leaf appears. -/
theorem MappedPages.clear {cfg : Config} {s s' : MmuState} {virt va : BitVec 64}
    {pte : Nat → BitVec 64} {n : Nat} (mapped : MappedPages cfg s virt pte n s')
    (clear : s.Clear va 0) : s'.Clear va 0 := by
  intro l found final
  rcases mapped.leaves va with ⟨i, -, -, page⟩ | ⟨-, same⟩
  · rw [page, entry] at final
    split at final
    · cases final
      exact le_rfl
    · cases final
  · exact clear l found (same ▸ final)

theorem mapPages_spec {cfg : Config} {virt size : BitVec 64} (phys perm : BitVec 64)
    {s : MmuState} (shaped : WellShaped cfg s) (bounded : size.toNat ≤ 2 ^ 64 - 4096)
    (clear : ∀ i, i < pageCount size → s.Clear (pageAfter virt i) 0) :
    Ends cfg s
      (MappedPages cfg s virt (fun i => leafPte (pageAfter phys i) perm) (pageCount size))
      (forPages size
        (fun s i => mapPage cfg (pageAfter virt i) (pageAfter phys i) perm s) s) := by
  apply Ends.forPages bounded
  · exact ⟨shaped, Extends.refl cfg s, fun a => Or.inr ⟨fun i absurd => by omega, rfl⟩⟩
  · exact fun i s' mapped => mapped.grown
  · intro i s' inside mapped
    have page := mapPage_spec (pageAfter phys i) perm mapped.shaped
      (mapped.clear (clear i inside))
    refine page.of_extends (Extends.refl cfg s') fun s'' wrote => ?_
    refine ⟨wrote.shaped, mapped.grown.trans wrote.grown, fun a => ?_⟩
    have written := wrote.leaves a
    by_cases here : SameBlock 0 (pageAfter virt i) a
    · rw [if_pos here] at written
      exact Or.inl ⟨i, by omega, here, written⟩
    · rw [if_neg here] at written
      rcases mapped.leaves a with ⟨j, below, covers, before⟩ | ⟨apart, before⟩
      · exact Or.inl ⟨j, by omega, covers, written.trans before⟩
      · refine Or.inr ⟨fun j below => ?_, written.trans before⟩
        rcases Nat.lt_succ_iff_lt_or_eq.mp below with earlier | rfl
        · exact apart j earlier
        · exact here

/-- The blocks that cover some page of a range are gone. -/
structure UnmappedPages (cfg : Config) (s : MmuState) (addr : BitVec 64) (n : Nat)
    (s' : MmuState) : Prop where
  shaped : WellShaped cfg s'
  grown : Extends cfg s s'
  leaves : ∀ a, s'.leafAt a =
    (s.leafAt a).filter fun found => !decide (∃ i < n, SameBlock found.1 a (pageAfter addr i))

theorem archMemUnmap_spec {cfg : Config} {addr size : BitVec 64} {s : MmuState}
    (shaped : WellShaped cfg s) (bounded : size.toNat ≤ 2 ^ 64 - 4096) :
    Ends cfg s (UnmappedPages cfg s addr (pageCount size)) (archMemUnmap addr size s) := by
  apply Ends.forPages bounded
  · refine ⟨shaped, Extends.refl cfg s, fun a => ?_⟩
    cases s.leafAt a with
    | none => rfl
    | some found => simp [Option.filter_some]
  · exact fun i s' unmapped => unmapped.grown
  · intro i s' _ unmapped
    have page := unmapPage_spec (pageAfter addr i) unmapped.shaped
    refine ⟨page.shaped, unmapped.grown.trans page.grown, fun a => ?_⟩
    rw [page.leaves a, unmapped.leaves a, Option.filter_filter]
    congr 1
    funext found
    rw [← Bool.not_or, ← Bool.decide_or]
    congr 2
    rw [Nat.exists_lt_succ_right, or_comm]

theorem archMemMap_spec {cfg : Config} {virt phys size : BitVec 64} {flags : BitVec 32}
    {s : MmuState} (shaped : WellShaped cfg s) (bounded : size.toNat ≤ 2 ^ 64 - 4096)
    (clear : ∀ i, i < pageCount size → s.Clear (pageAfter virt i) 0) :
    Ends cfg s
      (MappedPages cfg s virt (fun i => leafPte (pageAfter phys i) (permFromFlags cfg flags))
        (pageCount size))
      (archMemMap cfg virt phys size flags s) :=
  mapPages_spec phys (permFromFlags cfg flags) shaped bounded clear

/-- The first table allocated, as the root. -/
theorem Allocated.root {cfg : Config} {s s' : MmuState} {t : BitVec 64}
    (unused : ∀ m, ¬ HandedOut cfg s m) (allocated : Allocated cfg s t s') :
    WellShaped cfg { s' with kernelRoot := t } ∧
      ∀ a, ({ s' with kernelRoot := t } : MmuState).leafAt a = none := by
  have only : ∀ {m}, HandedOut cfg s' m → m = t := by
    intro m out
    rcases (allocated.handedOut m).mp out with old | same
    · exact absurd old (unused m)
    · exact same
  have noLink : ∀ {m k c}, HandedOut cfg s' m → child (s'.words m k) = some c → False := by
    intro m k c out linked
    rw [only out, allocated.blank k, child_zero.1] at linked
    cases linked
  have shape : Shape cfg { s' with kernelRoot := t } fun _ => 2 := by
    refine ⟨(allocated.handedOut t).mpr (Or.inr rfl), rfl, fun _ => le_rfl, ⟨?_, ?_⟩, ?_⟩
    · exact fun out _ linked => (noLink out linked).elim
    · exact fun out _ _ _ linked _ => (noLink out linked).elim
    · exact fun out _ linked => (noLink out linked).elim
  refine ⟨⟨_, shape⟩, fun a => ?_⟩
  have blank : ({ s' with kernelRoot := t } : MmuState).words t (vpn a 2) = 0#64 :=
    allocated.blank (vpn a 2)
  have atRoot : ({ s' with kernelRoot := t } : MmuState).At a 2 t := rfl
  rw [leafAt_stop (by omega) atRoot fun _ => blank ▸ child_zero.1, blank, child_zero.2]
  rfl

/-- The boot map: the device gigabyte and the image, page by page. -/
structure BootMap (cfg : Config) (s : MmuState) : Prop where
  shaped : WellShaped cfg s
  touched : ∀ a ∈ s.touched, a.Confined cfg
  granted : ∀ g ∈ s.granted, g.Fresh
  leaves : PagesOver
    (fun a => if SameBlock 2 0#64 a then entry 2 (leafPte 0#64 (PTE_R ||| PTE_W)) else none)
    s.leafAt cfg.zMappedStart
    (fun i => leafPte (pageAfter cfg.zMappedStart i) (PTE_R ||| PTE_W ||| PTE_X))
    (pageCount (cfg.zMappedEnd - cfg.zMappedStart))

theorem imagePage_toNat (cfg : Config) {i : Nat}
    (inside : i < pageCount (cfg.zMappedEnd - cfg.zMappedStart)) :
    (pageAfter cfg.zMappedStart i).toNat = cfg.zMappedStart.toNat + 4096 * i ∧
      cfg.zMappedStart.toNat + 4096 * i < cfg.zMappedEnd.toNat := by
  have ordered := cfg.imageOrdered
  have canonical := cfg.imageCanonical
  rw [pageCount, BitVec.toNat_sub_of_le (BitVec.le_def.mpr ordered)] at inside
  rw [pageAfter, BitVec.toNat_add, BitVec.toNat_ofNat]
  omega

/-- The device gigabyte does not cover the image. -/
theorem Allocated.imagePage_clear {cfg : Config} {s s' : MmuState} {t : BitVec 64}
    (unused : ∀ m, ¬ HandedOut cfg s m) (allocated : Allocated cfg s t s') {i : Nat}
    (inside : i < pageCount (cfg.zMappedEnd - cfg.zMappedStart)) :
    (mapGigapage 0#64 0#64 (PTE_R ||| PTE_W) { s' with kernelRoot := t }).Clear
      (pageAfter cfg.zMappedStart i) 0 := by
  obtain ⟨shaped, empty⟩ := allocated.root unused
  have device := mapGigapage_spec 0#64 0#64 (PTE_R ||| PTE_W) shaped (by decide)
  intro l pte final
  obtain ⟨value, below⟩ := imagePage_toNat cfg inside
  have inRam := cfg.imageInRam
  have canonical := cfg.imageCanonical
  have apart : ¬ SameBlock 2 0#64 (pageAfter cfg.zMappedStart i) := by
    simp only [SameBlock, page, value, BitVec.toNat_ofNat]
    omega
  rw [device.leaves, if_neg apart, empty] at final
  cases final

theorem Booted.bootMap {cfg : Config} {s : MmuState} (booted : Booted cfg s) :
    BootMap cfg s := by
  obtain ⟨reset, atReset, ran⟩ := booted
  unfold zRiscvMmuInit at ran
  cases allocation : allocTable cfg reset with
  | error stop =>
      rw [allocation] at ran
      cases ran
  | ok result =>
      obtain ⟨root, s₁⟩ := result
      rw [allocation] at ran
      have allocated := allocTable_spec allocation
      have unused : ∀ m, ¬ HandedOut cfg reset m := by
        rintro m ⟨i, -, used, -⟩
        rw [atReset.unused i] at used
        cases used
      obtain ⟨shaped, empty⟩ := allocated.root unused
      have device := mapGigapage_spec 0#64 0#64 (PTE_R ||| PTE_W) shaped (by decide)
      have clear : ∀ i, i < pageCount (cfg.zMappedEnd - cfg.zMappedStart) →
          (mapGigapage 0#64 0#64 (PTE_R ||| PTE_W) { s₁ with kernelRoot := root }).Clear
            (pageAfter cfg.zMappedStart i) 0 :=
        fun _ inside => allocated.imagePage_clear unused inside
      have bounded : (cfg.zMappedEnd - cfg.zMappedStart).toNat ≤ 2 ^ 64 - 4096 := by
        have canonical := cfg.imageCanonical
        rw [BitVec.toNat_sub_of_le (BitVec.le_def.mpr cfg.imageOrdered)]
        omega
      have image := mapPages_spec cfg.zMappedStart (PTE_R ||| PTE_W ||| PTE_X) device.shaped bounded
        clear
      dsimp only at ran
      split at ran
      · cases ran
      · rename_i s₂ mapped
        rw [mapped] at image
        rw [← Except.ok.inj ran]
        obtain ⟨⟨level, shape⟩, grown, leaves⟩ := image
        have grown := device.grown.trans grown
        refine ⟨⟨level, shape.root, shape.rootLevel, shape.bounded, shape.forest, shape.exact⟩,
          ?_, ?_, ?_⟩
        · intro a member
          refine (grown.touched a member).resolve_left fun old => ?_
          rw [show _ = s₁.touched from rfl, allocated.touched, atReset.untouched] at old
          cases old
        · intro g member
          refine (grown.granted g member).elim (fun old => ?_) id
          rw [show _ = s₁.granted from rfl, allocated.granted, atReset.ungranted] at old
          rw [List.mem_singleton.mp old]
          refine ⟨allocated.blank, fun l reached => ?_⟩
          rw [allocated.kernelRoot, atReset.rootNull] at reached
          exact reached.not_null
        · intro a
          have written := device.leaves a
          rw [empty] at written
          have pages := leaves a
          rw [written] at pages
          exact pages

/-- No valid leaf above the target entry lies on the path of a mapping call. -/
def Call.Clear (s : MmuState) : Call → Prop
  | .memMap virt _ size _ => ∀ i, i < pageCount size → s.Clear (pageAfter virt i) 0
  | .memUnmap _ _ => True
  | .mapRaw va _ _ level => s.Clear va level

/-- A raw entry above the last level is a leaf or is not valid. -/
def Call.RawLeaf : Call → Prop
  | .mapRaw _ _ pteBits level => Mmu.RawLeaf pteBits level
  | _ => True

instance (s : MmuState) (call : Call) : Decidable (call.Clear s) :=
  match call with
  | .memMap virt _ size _ =>
      inferInstanceAs (Decidable (∀ i, i < pageCount size → s.Clear (pageAfter virt i) 0))
  | .memUnmap _ _ => inferInstanceAs (Decidable True)
  | .mapRaw va _ _ level => inferInstanceAs (Decidable (s.Clear va level))

instance (call : Call) : Decidable call.RawLeaf :=
  match call with
  | .mapRaw _ _ pteBits level => inferInstanceAs (Decidable (Mmu.RawLeaf pteBits level))
  | .memMap _ _ _ _ => inferInstanceAs (Decidable True)
  | .memUnmap _ _ => inferInstanceAs (Decidable True)

/-- The page loop of the call does not wrap. -/
def Call.Bounded : Call → Prop
  | .memMap _ _ size _ => size.toNat ≤ 2 ^ 64 - 4096
  | .memUnmap _ size => size.toNat ≤ 2 ^ 64 - 4096
  | .mapRaw _ _ _ _ => True

theorem forPages_bounded {size : BitVec 64} {body : MmuState → Nat → Except Stop MmuState}
    {s s' : MmuState} (ran : forPages size body s = .ok s') : size.toNat ≤ 2 ^ 64 - 4096 := by
  unfold forPages at ran
  split at ran
  · cases ran
  · omega

theorem Returns.bounded {cfg : Config} {s s' : MmuState} {call : Call}
    (returns : Returns cfg s call s') : call.Bounded := by
  cases call with
  | memMap virt phys size flags => exact forPages_bounded returns
  | memUnmap addr size => exact forPages_bounded returns
  | mapRaw va pa pteBits level => trivial

/-- The addresses from `va` on for `size` bytes stay in one canonical half. -/
def CanonicalRange (va size : BitVec 64) : Prop :=
  va.toNat + size.toNat ≤ 2 ^ 38 ∨
    2 ^ 64 - 2 ^ 38 ≤ va.toNat ∧ va.toNat + size.toNat ≤ 2 ^ 64

instance (va size : BitVec 64) : Decidable (CanonicalRange va size) :=
  inferInstanceAs (Decidable (_ ∨ _))

/-- Aligned and canonical virtual addresses. The alignment of a raw entry is asserted. -/
def Call.Addressed : Call → Prop
  | .memMap virt _ size _ => virt.toNat % 4096 = 0 ∧ CanonicalRange virt size
  | .memUnmap addr size => addr.toNat % 4096 = 0 ∧ CanonicalRange addr size
  | .mapRaw va _ _ _ => Canonical va

theorem Call.Addressed.bounded {call : Call} (addressed : call.Addressed) : call.Bounded := by
  cases call with
  | memMap virt phys size flags =>
      have range := addressed.2
      unfold CanonicalRange at range
      change size.toNat ≤ 2 ^ 64 - 4096
      omega
  | memUnmap addr size =>
      have range := addressed.2
      unfold CanonicalRange at range
      change size.toNat ≤ 2 ^ 64 - 4096
      omega
  | mapRaw va pa pteBits level => trivial

/-- The assertions of a raw mapping. -/
def Call.Aligned : Call → Prop
  | .mapRaw va pa _ level =>
      level < SV39_LEVELS ∧ va.toNat % (4096 * 512 ^ level) = 0 ∧
        pa.toNat % (4096 * 512 ^ level) = 0
  | _ => True

/-- The pool has no table left. -/
def Exhausted (cfg : Config) (s : MmuState) : Prop :=
  ∀ i, i < cfg.numTables → s.mmuTableUsed i = true

theorem allocTable_exhausted {cfg : Config} {s : MmuState} {stop : Stop}
    (failed : allocTable cfg s = .error stop) : stop = .panic s ∧ Exhausted cfg s := by
  refine ⟨allocTable_error failed, ?_⟩
  unfold allocTable at failed
  split at failed
  · cases failed
  · rename_i none
    rw [List.find?_range_eq_none] at none
    intro i inside
    simpa only [Bool.not_not] using none i inside

/-- A descent that does not return has found the pool empty. -/
theorem walkDown_error {cfg : Config} {va tbl : BitVec 64} {level steps : Nat} {s : MmuState}
    {stop : Stop} (failed : walkDown cfg va level steps tbl s = .error stop) :
    ∃ stopped, stop = .panic stopped ∧ Exhausted cfg stopped := by
  induction steps generalizing tbl s with
  | zero => cases failed
  | succ steps ih =>
      by_cases invalid : s.words tbl (vpn va (level + steps + 1)) &&& PTE_V = 0#64
      · rw [walkDown_invalid invalid] at failed
        split at failed
        · rename_i stop' exhausted
          obtain rfl := Except.error.inj failed
          exact ⟨_, allocTable_exhausted exhausted⟩
        · exact ih failed
      · rw [walkDown_valid invalid] at failed
        exact ih failed

theorem mapPage_error {cfg : Config} {va pa perm : BitVec 64} {s : MmuState} {stop : Stop}
    (failed : mapPage cfg va pa perm s = .error stop) :
    ∃ stopped, stop = .panic stopped ∧ Exhausted cfg stopped := by
  unfold mapPage at failed
  split at failed
  · rename_i stop' descent
    rw [← Except.error.inj failed]
    exact walkDown_error descent
  · cases failed

/-- A call within its bounds that does not return has found the pool empty. -/
theorem Call.exec_error {cfg : Config} {s : MmuState} {call : Call} {stop : Stop}
    (bounded : call.Bounded) (aligned : call.Aligned) (failed : call.exec cfg s = .error stop) :
    ∃ stopped, stop = .panic stopped ∧ Exhausted cfg stopped := by
  cases call with
  | memMap virt phys size flags =>
      have ran : archMemMap cfg virt phys size flags s = .error stop := failed
      unfold archMemMap at ran
      obtain ⟨s', i, page⟩ := forPages_error bounded ran
      exact mapPage_error page
  | memUnmap addr size =>
      have ran : archMemUnmap addr size s = .error stop := failed
      unfold archMemUnmap at ran
      obtain ⟨s', i, page⟩ := forPages_error bounded ran
      cases page
  | mapRaw va pa pteBits level =>
      have ran : zRiscvMmuMapRaw cfg va pa pteBits level s = .error stop := failed
      unfold zRiscvMmuMapRaw at ran
      split at ran
      · split at ran
        · rename_i stop' descent
          obtain rfl := Except.error.inj ran
          exact walkDown_error descent
        · cases ran
      · rename_i unaligned
        exact absurd aligned unaligned

/-- The step lemma of every run: a call keeps the shape, whether or not it returns. -/
theorem Call.exec_spec {cfg : Config} {s : MmuState} {call : Call} (shaped : WellShaped cfg s)
    (clear : call.Clear s) (raw : call.RawLeaf) (bounded : call.Bounded) :
    Ends cfg s (fun s' => WellShaped cfg s' ∧ Extends cfg s s') (call.exec cfg s) := by
  have same := Extends.refl cfg s
  cases call with
  | memMap virt phys size flags =>
      exact (archMemMap_spec shaped bounded clear).of_extends same fun _ mapped =>
        ⟨mapped.shaped, mapped.grown⟩
  | memUnmap addr size =>
      exact (archMemUnmap_spec shaped bounded).of_extends same fun _ unmapped =>
        ⟨unmapped.shaped, unmapped.grown⟩
  | mapRaw va pa pteBits level =>
      exact (zRiscvMmuMapRaw_spec shaped clear raw).of_extends same fun _ wrote =>
        ⟨wrote.shaped, wrote.grown⟩

/-- What every run of unobstructed calls keeps. -/
structure Kept (cfg : Config) (s : MmuState) : Prop where
  shaped : WellShaped cfg s
  touched : ∀ a ∈ s.touched, a.Confined cfg
  granted : ∀ g ∈ s.granted, g.Fresh

theorem Kept.extends {cfg : Config} {s s' : MmuState} (kept : Kept cfg s)
    (shaped : WellShaped cfg s') (grown : Extends cfg s s') : Kept cfg s' := by
  refine ⟨shaped, ?_, ?_⟩
  · intro a member
    rcases grown.touched a member with old | confined
    · exact kept.touched a old
    · exact confined
  · intro g member
    rcases grown.granted g member with old | fresh
    · exact kept.granted g old
    · exact fresh

theorem run_kept {cfg : Config} {calls : List Call} {s : MmuState}
    (run : Run (Booted cfg)
      (Guarded (fun s call => call.Clear s ∧ call.RawLeaf) (Returns cfg)) calls s) :
    Kept cfg s := by
  apply run.invariant
  · intro s booted
    have boot := booted.bootMap
    exact ⟨boot.shaped, boot.touched, boot.granted⟩
  · rintro s call s' kept ⟨⟨clear, raw⟩, returns⟩
    have ends := Call.exec_spec kept.shaped clear raw returns.bounded
    rw [show call.exec cfg s = .ok s' from returns] at ends
    exact kept.extends ends.1 ends.2

/-- A board whose image is a page of code and data below a 2 MB boundary and the pool above it. -/
def smallBoard : Config where
  numTables := 8
  mmuTables := 0x80200000
  zMappedStart := 0x801FF000
  zMappedEnd := 0x80208000
  K_MEM_PERM_RW := 8
  K_MEM_PERM_EXEC := 16
  K_MEM_PERM_USER := 32
  tablesNotNull := by decide
  tablesAligned := by decide
  tablesPhysical := by decide
  imageAligned := by decide
  imageInRam := by decide
  imageOrdered := by decide
  imageCanonical := by decide

/-- The static data at reset, over zero memory. -/
def zeroed : MmuState where
  mem _ := 0
  mmuTableUsed _ := false
  kernelRoot := 0
  satp := 0
  touched := []
  granted := []

theorem zeroed_atReset : AtReset zeroed := ⟨fun _ => rfl, rfl, rfl, rfl⟩

/-- An address that no entry maps has a clear path. -/
theorem clear_of_unmapped {s : MmuState} {va : BitVec 64} {level : Nat}
    (absent : s.leafAt va = none) : s.Clear va level := by
  intro l pte final
  rw [absent] at final
  cases final

/-- A test of the state a call returns in. -/
def passes (test : MmuState → Bool) : Except Stop MmuState → Bool
  | .ok s => test s
  | .error _ => false

theorem passes_ok {test : MmuState → Bool} {outcome : Except Stop MmuState}
    (passed : passes test outcome = true) : ∃ s, outcome = .ok s ∧ test s = true := by
  cases outcome with
  | ok s => exact ⟨s, rfl, passed⟩
  | error stop => cases passed

/-- A test of the state after `z_riscv_mmu_init` on the small board. -/
def afterInit (test : MmuState → Bool) : Bool := passes test (zRiscvMmuInit smallBoard zeroed)

theorem afterInit_booted {test : MmuState → Bool} (passed : afterInit test = true) :
    ∃ s, Booted smallBoard s ∧ test s = true := by
  obtain ⟨s, booted, tested⟩ := passes_ok passed
  exact ⟨s, ⟨zeroed, zeroed_atReset, booted⟩, tested⟩

/-- The executable step. -/
def Call.next (cfg : Config) (s : MmuState) (call : Call) : Option MmuState :=
  (call.exec cfg s).toOption

theorem Call.next_returns {cfg : Config} {s s' : MmuState} {call : Call}
    (fired : Call.next cfg s call = some s') : Returns cfg s call s' := by
  unfold Call.next at fired
  unfold Returns
  cases outcome : call.exec cfg s with
  | error stop =>
      rw [outcome] at fired
      cases fired
  | ok s₁ =>
      rw [outcome] at fired
      exact congrArg Except.ok (Option.some.inj fired)

/-- A test after a list of calls from boot on the small board, each of which meets a condition. -/
def afterCalls (ok : MmuState → Call → Prop) [∀ s call, Decidable (ok s call)]
    (calls : List Call) (test : MmuState → Bool) : Bool :=
  afterInit fun s => (replay (checked ok (Call.next smallBoard)) s calls).any test

theorem afterCalls_run {ok : MmuState → Call → Prop} [∀ s call, Decidable (ok s call)]
    {calls : List Call} {test : MmuState → Bool} (passed : afterCalls ok calls test = true) :
    ∃ s, Run (Booted smallBoard) (Guarded ok (Returns smallBoard)) calls s ∧ test s = true := by
  obtain ⟨s, booted, rest⟩ := afterInit_booted passed
  cases replayed : replay (checked ok (Call.next smallBoard)) s calls with
  | none =>
      rw [replayed] at rest
      cases rest
  | some s' =>
      rw [replayed] at rest
      have run := (Run.start booted).replay replayed
      refine ⟨s', run.of_checked.mono ?_, rest⟩
      rintro s call s' ⟨allowed, fired⟩
      exact ⟨allowed, Call.next_returns fired⟩

end ZephyrRiscv.Mmu
