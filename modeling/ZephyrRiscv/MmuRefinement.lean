import ZephyrRiscv.MmuCalls

set_option autoImplicit false

namespace ZephyrRiscv.Mmu

open Sv39 RadixForest Transition

/-- A mapped block: 4 KB, 2 MB or 1 GB from a page frame on, with its permissions. -/
structure Leaf where
  level : Nat
  frame : Nat
  r : Bool
  w : Bool
  x : Bool
  u : Bool
  a : Bool
  d : Bool
deriving DecidableEq, Repr

/-- What an access through a leaf gives. Without R a leaf needs X, and W is reserved. -/
def Leaf.translation (leaf : Leaf) (va : BitVec 64) : Option Translation :=
  if leaf.r || (leaf.x && !leaf.w) then
    some {
      pa := leaf.frame * 4096 + va.toNat % (4096 * 512 ^ leaf.level)
      r := leaf.r
      w := leaf.w
      x := leaf.x
      u := leaf.u
      a := leaf.a
      d := leaf.d }
  else none

/-- The leaf that maps each page. -/
abbrev PageMap := Nat → Option Leaf

namespace PageMap

def translate (m : PageMap) (va : BitVec 64) : Option Translation :=
  (m (page va)).bind fun leaf => leaf.translation va

def mapRange (m : PageMap) (first count : Nat) (leaf : Nat → Leaf) : PageMap :=
  fun p => if first ≤ p ∧ p < first + count then some (leaf (p - first)) else m p

/-- One whole block, to one leaf or to none. -/
def setBlock (m : PageMap) (level p₀ : Nat) (leaf : Option Leaf) : PageMap :=
  fun p => if p₀ / 512 ^ level = p / 512 ^ level then leaf else m p

/-- Every page goes whose leaf covers some page of the range. -/
def unmapRange (m : PageMap) (first count : Nat) : PageMap :=
  fun p => (m p).filter fun leaf =>
    !decide (∃ i < count, p / 512 ^ leaf.level = (first + i) / 512 ^ leaf.level)

/-- The device gigabyte and the image. -/
def boot (cfg : Config) : PageMap :=
  mapRange
    (setBlock (fun _ => none) 2 0 (some {
      level := 2, frame := 0, r := true, w := true, x := false, u := false, a := true, d := true }))
    (page cfg.zMappedStart) (pageCount (cfg.zMappedEnd - cfg.zMappedStart)) fun i => {
      level := 0, frame := cfg.zMappedStart.toNat / 4096 + i
      r := true, w := true, x := true, u := false, a := true, d := true }

def step (cfg : Config) (m : PageMap) : Call → PageMap
  | .memMap virt phys size flags =>
      m.mapRange (page virt) (pageCount size) fun i => {
        level := 0
        frame := phys.toNat / 4096 + i
        r := true
        w := decide (flags &&& cfg.K_MEM_PERM_RW ≠ 0#32)
        x := decide (flags &&& cfg.K_MEM_PERM_EXEC ≠ 0#32)
        u := decide (flags &&& cfg.K_MEM_PERM_USER ≠ 0#32)
        a := true
        d := true }
  | .memUnmap addr size => m.unmapRange (page addr) (pageCount size)
  | .mapRaw va pa pteBits level =>
      m.setBlock level (page va) <|
        if pteBits.getLsbD 0 then
          some {
            level
            frame := pa.toNat / 4096
            r := pteBits.getLsbD 1
            w := pteBits.getLsbD 2
            x := pteBits.getLsbD 3
            u := pteBits.getLsbD 4
            a := pteBits.getLsbD 6
            d := pteBits.getLsbD 7 }
        else none

end PageMap

/-- The leaf that a final entry stands for. -/
def decode (final : Nat × BitVec 64) : Leaf where
  level := final.1
  frame := ppn final.2
  r := final.2.getLsbD 1
  w := final.2.getLsbD 2
  x := final.2.getLsbD 3
  u := final.2.getLsbD 4
  a := final.2.getLsbD 6
  d := final.2.getLsbD 7

/-- No reserved high bit, and a superpage's low page number bits are zero. -/
def WellFormed (final : Nat × BitVec 64) : Prop :=
  final.2.toNat < 2 ^ 54 ∧ ppn final.2 % 512 ^ final.1 = 0

theorem present_iff {pte : BitVec 64} : present pte = pte.getLsbD 0 := by
  have valid := and_PTE_V pte
  cases bit : pte.getLsbD 0 with
  | false => rw [present_invalid (valid.mpr bit)]
  | true =>
      rw [present, decide_eq_true_eq]
      intro invalid
      rw [valid.mp invalid] at bit
      cases bit

/-- A walk that ends in the entry of a level. -/
theorem walkFrom_final {m : Mem} {va t : BitVec 64} {l : Nat}
    (ends : 0 < l → child (m (slot t (vpn va l))) = none)
    (formed : present (m (slot t (vpn va l))) = true → WellFormed (l, m (slot t (vpn va l)))) :
    walkFrom m va l t =
      (entry l (m (slot t (vpn va l)))).bind fun final => (decode final).translation va := by
  rw [walkFrom.eq_def, entry, present_iff]
  rw [present_iff] at formed
  dsimp only
  generalize m (slot t (vpn va l)) = pte at *
  cases valid : pte.getLsbD 0 with
  | false => simp only [Bool.not_false, Bool.true_or, ↓reduceIte, Bool.false_eq_true,
      Option.bind_none]
  | true =>
      have high : pte.toNat < 2 ^ 54 := (formed valid).1
      have aligned : ppn pte % 512 ^ l = 0 := (formed valid).2
      have linkBits : 0 < l → ¬ (pte.getLsbD 1 = false ∧ pte.getLsbD 2 = false ∧
          pte.getLsbD 3 = false) := by
        intro positive zero
        have stops := child_eq_none.mp (ends positive) (by rw [ne_eq, and_PTE_V, valid]; decide)
        exact stops ((and_PTE_XWR pte).mpr zero)
      have fits : ¬ 2 ^ 54 ≤ pte.toNat := by omega
      simp only [leafTranslation, Leaf.translation, decode, aligned, fits, Option.bind_some,
        ↓reduceIte]
      rcases Bool.eq_false_or_eq_true (pte.getLsbD 1) with r | r
      · simp only [r, Bool.not_true, Bool.false_and, Bool.false_or, decide_false, Bool.true_or,
          Bool.false_eq_true, ↓reduceIte]
      · rcases Bool.eq_false_or_eq_true (pte.getLsbD 2) with w | w
        · simp only [r, w, Bool.not_true, Bool.not_false, Bool.true_and, Bool.false_or,
            Bool.true_or, Bool.and_false, Bool.false_eq_true, ↓reduceIte]
        · rcases Bool.eq_false_or_eq_true (pte.getLsbD 3) with x | x
          · simp only [r, w, x, Bool.not_true, Bool.not_false, Bool.true_and, Bool.false_or,
              decide_false, Bool.false_eq_true, ↓reduceIte]
          · -- no permission at all: only an entry of the last level, which faults
            have last : l = 0 := by
              by_contra positive
              exact linkBits (by omega) ⟨r, w, x⟩
            subst last
            simp only [r, w, x, Bool.not_false, Bool.true_and, Bool.and_true, Bool.false_or,
              decide_false, Bool.false_eq_true, ite_self, ↓reduceIte]

/-- The indices below and including a level. -/
def keysFrom (va : BitVec 64) : Nat → List (BitVec 9)
  | 0 => [vpn va 0]
  | l + 1 => vpn va (l + 1) :: keysFrom va l

theorem keysFrom_length (va : BitVec 64) (l : Nat) : (keysFrom va l).length = l + 1 := by
  induction l with
  | zero => rfl
  | succ l ih => rw [keysFrom, List.length_cons, ih]

/-- A word that links is a page number with V, which the walk follows. -/
theorem walkFrom_link {m : Mem} {va t c : BitVec 64} {l : Nat}
    (link : m (slot t (vpn va (l + 1))) = physToPpn c ||| PTE_V) (aligned : c.toNat % 4096 = 0)
    (physical : c.toNat < 2 ^ 56) : walkFrom m va (l + 1) t = walkFrom m va l c := by
  have frame := ppn_physToPpn_or c PTE_V physical (by decide)
  have value := toNat_physToPpn_or c PTE_V physical (by decide)
  have bit := fun i low => getLsbD_physToPpn_or c PTE_V i low
  have fits : ¬ 2 ^ 54 ≤ (physToPpn c ||| PTE_V).toNat := by
    rw [value, show PTE_V.toNat = 1 from rfl]
    omega
  have base : BitVec.ofNat 64 (ppn (physToPpn c ||| PTE_V) * 4096) = c := by
    apply BitVec.eq_of_toNat_eq
    rw [frame, BitVec.toNat_ofNat]
    omega
  have word : (physToPpn c ||| PTE_V).getLsbD 0 = true ∧
      ∀ i, 0 < i → i < 10 → (physToPpn c ||| PTE_V).getLsbD i = false := by
    refine ⟨by rw [bit 0 (by omega)]; rfl, fun i positive low => ?_⟩
    rw [bit i low]
    exact (by decide : ∀ i < 10, 0 < i → PTE_V.getLsbD i = false) i low positive
  conv_lhs => rw [walkFrom]
  simp only [link, base, fits, word.1, word.2 1, word.2 2, word.2 3, word.2 4, word.2 6, word.2 7,
    Nat.reduceLT, Nat.zero_lt_succ, Bool.not_true, Bool.not_false, Bool.and_false, Bool.or_false,
    decide_false, Bool.false_eq_true, ↓reduceIte]

/-- The walk from a table of the forest. -/
theorem walkFrom_leaf {cfg : Config} {s : MmuState} {level : BitVec 64 → Nat}
    (shape : Shape cfg s level) {va : BitVec 64} (l : Nat) {t : BitVec 64}
    (out : HandedOut cfg s t) (levelT : level t = l)
    (formed : ∀ final, leaf child present s.words t (keysFrom va l) = some final →
      WellFormed final) :
    walkFrom s.mem va l t =
      (leaf child present s.words t (keysFrom va l)).bind fun final =>
        (decode final).translation va := by
  induction l generalizing t with
  | zero =>
      have final : leaf child present s.words t (keysFrom va 0) =
          entry 0 (s.mem (slot t (vpn va 0))) := by
        simp only [keysFrom, leaf, find, Option.filter_some]
        rfl
      rw [final] at formed ⊢
      refine walkFrom_final (fun positive => absurd positive (by omega)) fun valid => ?_
      exact formed _ (if_pos valid)
  | succ l ih =>
      have more : keysFrom va l ≠ [] := by
        intro empty
        have length := keysFrom_length va l
        rw [empty] at length
        cases length
      cases link : child (s.words t (vpn va (l + 1))) with
      | none =>
          have final : leaf child present s.words t (keysFrom va (l + 1)) =
              entry (l + 1) (s.mem (slot t (vpn va (l + 1)))) := by
            simp only [keysFrom, leaf, find_cons more, link, keysFrom_length, Option.filter_some]
            rfl
          rw [final] at formed ⊢
          refine walkFrom_final (fun _ => link) fun valid => ?_
          exact formed _ (if_pos valid)
      | some c =>
          obtain ⟨outC, down⟩ := shape.forest.linked out (by omega) link
          have onward : leaf child present s.words t (keysFrom va (l + 1)) =
              leaf child present s.words c (keysFrom va l) := by
            simp only [keysFrom, leaf, find_cons more, link]
          rw [onward] at formed ⊢
          have physical := outC.physical
          rw [walkFrom_link (shape.exact out (by omega) link) outC.aligned (by omega)]
          exact ih outC (by omega) formed

theorem walk_leafAt {cfg : Config} {s : MmuState} (shaped : WellShaped cfg s) {va : BitVec 64}
    (canonical : Canonical va) (formed : ∀ final, s.leafAt va = some final → WellFormed final) :
    walk s.mem s.kernelRoot va =
      (s.leafAt va).bind fun final => (decode final).translation va := by
  obtain ⟨level, shape⟩ := shaped
  rw [walk, if_pos canonical]
  exact walkFrom_leaf shape 2 shape.root shape.rootLevel formed

/-- The leaf that a page number and low bits stand for, absent without V. -/
def rawLeaf (level : Nat) (pa bits : BitVec 64) : Option Leaf :=
  if bits.getLsbD 0 then
    some {
      level
      frame := pa.toNat / 4096
      r := bits.getLsbD 1
      w := bits.getLsbD 2
      x := bits.getLsbD 3
      u := bits.getLsbD 4
      a := bits.getLsbD 6
      d := bits.getLsbD 7 }
  else none

theorem decode_entry {level : Nat} {pa bits : BitVec 64} (physical : pa.toNat < 2 ^ 56)
    (low : bits.toNat < 2 ^ 10) :
    (entry level (physToPpn pa ||| bits)).map decode = rawLeaf level pa bits := by
  have bit := fun i small => getLsbD_physToPpn_or pa bits i small
  rw [entry, present_iff, rawLeaf, bit 0 (by omega)]
  split
  · simp only [Option.map_some, decode, ppn_physToPpn_or pa bits physical low, bit, Nat.reduceLT]
  · rfl

theorem wellFormed_entry {level : Nat} {pa bits : BitVec 64} (physical : pa.toNat < 2 ^ 56)
    (low : bits.toNat < 2 ^ 10) (aligned : pa.toNat / 4096 % 512 ^ level = 0) :
    WellFormed (level, physToPpn pa ||| bits) := by
  refine ⟨?_, ?_⟩
  · simp only [toNat_physToPpn_or pa bits physical low]
    omega
  · simp only [ppn_physToPpn_or pa bits physical low, aligned]

/-- The low bits of a page leaf. -/
def pageBits (perm : BitVec 64) : BitVec 64 := perm ||| PTE_V ||| PTE_A ||| PTE_D

theorem permFromFlags_bits (cfg : Config) (flags : BitVec 32) :
    let bits := pageBits (permFromFlags cfg flags)
    bits.toNat < 2 ^ 10 ∧ bits.getLsbD 0 = true ∧ bits.getLsbD 1 = true ∧
      bits.getLsbD 2 = decide (flags &&& cfg.K_MEM_PERM_RW ≠ 0#32) ∧
      bits.getLsbD 3 = decide (flags &&& cfg.K_MEM_PERM_EXEC ≠ 0#32) ∧
      bits.getLsbD 4 = decide (flags &&& cfg.K_MEM_PERM_USER ≠ 0#32) ∧
      bits.getLsbD 6 = true ∧ bits.getLsbD 7 = true := by
  have table : ∀ w x u : Bool,
      let bits := pageBits (PTE_R ||| (if w = true then PTE_W else 0#64)
        ||| (if x = true then PTE_X else 0#64) ||| (if u = true then PTE_U else 0#64))
      bits.toNat < 2 ^ 10 ∧ bits.getLsbD 0 = true ∧ bits.getLsbD 1 = true ∧
        bits.getLsbD 2 = w ∧ bits.getLsbD 3 = x ∧ bits.getLsbD 4 = u ∧
        bits.getLsbD 6 = true ∧ bits.getLsbD 7 = true := by decide
  have chosen := table (decide (flags &&& cfg.K_MEM_PERM_RW ≠ 0#32))
    (decide (flags &&& cfg.K_MEM_PERM_EXEC ≠ 0#32)) (decide (flags &&& cfg.K_MEM_PERM_USER ≠ 0#32))
  simp only [decide_eq_true_eq] at chosen
  exact chosen

/-- The tables hold a map: its leaves are their final entries. -/
structure Refines (cfg : Config) (s : MmuState) (m : PageMap) : Prop where
  shaped : WellShaped cfg s
  leaves : ∀ va, m (page va) = (s.leafAt va).map decode
  formed : ∀ va final, s.leafAt va = some final → WellFormed final

theorem Refines.walk {cfg : Config} {s : MmuState} {m : PageMap} (refines : Refines cfg s m)
    {va : BitVec 64} (canonical : Canonical va) :
    Sv39.walk s.mem s.kernelRoot va = m.translate va := by
  rw [walk_leafAt refines.shaped canonical (refines.formed va), PageMap.translate,
    refines.leaves va, Option.bind_map]
  rfl

/-- Pages of a canonical range are numbered in a row. -/
theorem page_pageAfter {va size : BitVec 64} (aligned : va.toNat % 4096 = 0)
    (range : CanonicalRange va size) {i : Nat} (inside : i < pageCount size) :
    page (pageAfter va i) = page va + i := by
  unfold CanonicalRange at range
  rw [pageCount] at inside
  simp only [page, pageAfter, BitVec.toNat_add, BitVec.toNat_ofNat]
  omega

theorem sameBlock_page {va a : BitVec 64} : SameBlock 0 va a ↔ page va = page a := by
  simp only [SameBlock, Nat.pow_zero, Nat.div_one]

/-- A page loop sets the pages of its range. -/
theorem PagesOver.refines {cfg : Config} {s : MmuState} {m : PageMap}
    {old : BitVec 64 → Option (Nat × BitVec 64)} {virt phys size perm : BitVec 64}
    {leaf : Nat → Leaf}
    (pages : PagesOver old s.leafAt virt (fun i => leafPte (pageAfter phys i) perm)
      (pageCount size))
    (shaped : WellShaped cfg s) (leaves : ∀ a, m (page a) = (old a).map decode)
    (formed : ∀ a final, old a = some final → WellFormed final)
    (aligned : virt.toNat % 4096 = 0) (range : CanonicalRange virt size)
    (physical : ∀ i, i < pageCount size → phys.toNat + 4096 * i < 2 ^ 56)
    (low : (pageBits perm).toNat < 2 ^ 10)
    (decoded : ∀ i, i < pageCount size →
      rawLeaf 0 (pageAfter phys i) (pageBits perm) = some (leaf i)) :
    Refines cfg s (m.mapRange (page virt) (pageCount size) leaf) := by
  have physicalPage : ∀ i, i < pageCount size → (pageAfter phys i).toNat < 2 ^ 56 := by
    intro i inside
    have bound := physical i inside
    rw [pageAfter, BitVec.toNat_add, BitVec.toNat_ofNat]
    omega
  refine ⟨shaped, ?_, ?_⟩
  · intro a
    rcases pages a with ⟨i, inside, covers, final⟩ | ⟨apart, same⟩
    · rw [sameBlock_page, page_pageAfter aligned range inside] at covers
      have word : (entry 0 (leafPte (pageAfter phys i) perm)).map decode = some (leaf i) :=
        (decode_entry (physicalPage i inside) low).trans (decoded i inside)
      rw [final, word, PageMap.mapRange, if_pos (by omega), ← covers, Nat.add_sub_cancel_left]
    · rw [same, ← leaves a, PageMap.mapRange, if_neg]
      rintro ⟨above, below⟩
      have index : page a - page virt < pageCount size := by omega
      apply apart _ index
      rw [sameBlock_page, page_pageAfter aligned range index]
      omega
  · intro a final found
    rcases pages a with ⟨i, inside, -, written⟩ | ⟨-, same⟩
    · rw [written, entry] at found
      split at found
      · rw [← Option.some.inj found]
        exact wellFormed_entry (physicalPage i inside) low (Nat.mod_one _)
      · cases found
    · exact formed a final (same ▸ found)

theorem pageAfter_frame {phys : BitVec 64} {i : Nat} (physical : phys.toNat + 4096 * i < 2 ^ 56) :
    (pageAfter phys i).toNat / 4096 = phys.toNat / 4096 + i := by
  rw [pageAfter, BitVec.toNat_add, BitVec.toNat_ofNat]
  omega

theorem UnmappedPages.refines {cfg : Config} {s s' : MmuState} {m : PageMap}
    {addr size : BitVec 64} (unmapped : UnmappedPages cfg s addr (pageCount size) s')
    (refines : Refines cfg s m) (aligned : addr.toNat % 4096 = 0)
    (range : CanonicalRange addr size) :
    Refines cfg s' (m.unmapRange (page addr) (pageCount size)) := by
  refine ⟨unmapped.shaped, ?_, ?_⟩
  · intro a
    rw [unmapped.leaves a, PageMap.unmapRange, refines.leaves a]
    cases s.leafAt a with
    | none => rfl
    | some final =>
        have covers : (∃ i < pageCount size, SameBlock final.1 a (pageAfter addr i)) ↔
            ∃ i < pageCount size, page a / 512 ^ (decode final).level =
              (page addr + i) / 512 ^ (decode final).level := by
          apply exists_congr
          intro i
          apply and_congr_right
          intro inside
          rw [SameBlock, page_pageAfter aligned range inside]
          rfl
        simp only [Option.map_some, Option.filter_some, covers]
        split <;> rfl
  · intro a final found
    rw [unmapped.leaves a] at found
    exact refines.formed a final (Option.filter_eq_some_iff.mp found).1

theorem Wrote.refines {cfg : Config} {s s' : MmuState} {m : PageMap} {va pa pteBits : BitVec 64}
    {level : Nat} (wrote : Wrote cfg s level va (physToPpn pa ||| pteBits) s')
    (refines : Refines cfg s m) (physical : pa.toNat < 2 ^ 56) (low : pteBits.toNat < 2 ^ 10)
    (aligned : pa.toNat / 4096 % 512 ^ level = 0) :
    Refines cfg s' (m.setBlock level (page va) (rawLeaf level pa pteBits)) := by
  refine ⟨wrote.shaped, ?_, ?_⟩
  · intro a
    rw [wrote.leaves a, PageMap.setBlock, apply_ite (Option.map decode),
      decode_entry physical low, refines.leaves a]
    rfl
  · intro a final found
    rw [wrote.leaves a] at found
    split at found
    · unfold entry at found
      split at found
      · rw [← Option.some.inj found]
        exact wellFormed_entry physical low aligned
      · cases found
    · exact refines.formed a final found

/-- Physical addresses of 56 bits and entry bits below the page number. -/
def Call.Physical : Call → Prop
  | .memMap _ phys size _ => ∀ i, i < pageCount size → phys.toNat + 4096 * i < 2 ^ 56
  | .memUnmap _ _ => True
  | .mapRaw _ pa pteBits _ => pa.toNat < 2 ^ 56 ∧ pteBits.toNat < 2 ^ 10

instance (call : Call) : Decidable call.Addressed :=
  match call with
  | .memMap _ _ _ _ => inferInstanceAs (Decidable (_ ∧ _))
  | .memUnmap _ _ => inferInstanceAs (Decidable (_ ∧ _))
  | .mapRaw va _ _ _ => inferInstanceAs (Decidable (Canonical va))

instance (call : Call) : Decidable call.Physical :=
  match call with
  | .memMap _ phys size _ =>
      inferInstanceAs (Decidable (∀ i, i < pageCount size → phys.toNat + 4096 * i < 2 ^ 56))
  | .memUnmap _ _ => inferInstanceAs (Decidable True)
  | .mapRaw _ _ _ _ => inferInstanceAs (Decidable (_ ∧ _))

/-- A call that the run of the refinement may make in a state. Nothing is asked of the image:
mmu.c reaches its tables, `kernel_root` and its own code through the image's identity mapping,
and callers have to leave the pages of the image alone for the model to be that of the code. -/
structure Admissible (s : MmuState) (call : Call) : Prop where
  addressed : call.Addressed
  physical : call.Physical
  clear : call.Clear s
  raw : call.RawLeaf

instance (s : MmuState) (call : Call) : Decidable (Admissible s call) :=
  decidable_of_iff (call.Addressed ∧ call.Physical ∧ call.Clear s ∧ call.RawLeaf)
    ⟨fun ⟨addressed, physical, clear, raw⟩ => ⟨addressed, physical, clear, raw⟩,
      fun admissible =>
        ⟨admissible.addressed, admissible.physical, admissible.clear, admissible.raw⟩⟩

/-- An admissible call whose addresses are aligned to its level returns, unless it finds the
pool empty. -/
theorem Admissible.returns {cfg : Config} {s : MmuState} {call : Call}
    (admissible : Admissible s call) (aligned : call.Aligned) :
    (∃ s', Returns cfg s call s') ∨
      ∃ stopped, call.exec cfg s = .error (.panic stopped) ∧ Exhausted cfg stopped := by
  cases outcome : call.exec cfg s with
  | ok s' => exact Or.inl ⟨s', outcome⟩
  | error stop =>
      obtain ⟨stopped, rfl, exhausted⟩ :=
        Call.exec_error admissible.addressed.bounded aligned outcome
      exact Or.inr ⟨stopped, rfl, exhausted⟩

theorem boot_refines {cfg : Config} {s : MmuState} (booted : Booted cfg s) :
    Refines cfg s (PageMap.boot cfg) := by
  have boot := booted.bootMap
  have ordered := cfg.imageOrdered
  have canonical := cfg.imageCanonical
  have size := BitVec.toNat_sub_of_le (BitVec.le_def.mpr ordered)
  have inside : ∀ i, i < pageCount (cfg.zMappedEnd - cfg.zMappedStart) →
      cfg.zMappedStart.toNat + 4096 * i < 2 ^ 56 := by
    intro i below
    have bound := (imagePage_toNat cfg below).2
    omega
  refine boot.leaves.refines boot.shaped ?_ ?_ cfg.imageAligned (Or.inl ?_) inside (by decide) ?_
  · intro a
    rw [PageMap.setBlock, apply_ite (Option.map decode)]
    rfl
  · intro a final found
    split at found
    · rw [← Option.some.inj (show some (2, leafPte 0#64 (PTE_R ||| PTE_W)) = some final from found)]
      exact wellFormed_entry (by decide) (by decide) (by decide)
    · cases found
  · rw [size]
    omega
  · intro i below
    rw [rawLeaf, if_pos (by decide), pageAfter_frame (inside i below)]
    rfl

theorem step_refines {cfg : Config} {s s' : MmuState} {m : PageMap} {call : Call}
    (refines : Refines cfg s m) (admissible : Admissible s call)
    (returns : Returns cfg s call s') : Refines cfg s' (m.step cfg call) := by
  obtain ⟨addressed, physical, clear, raw⟩ := admissible
  have bounded := returns.bounded
  cases call with
  | memMap virt phys size flags =>
      change archMemMap cfg virt phys size flags s = .ok s' at returns
      have ends : Ends cfg s _ (archMemMap cfg virt phys size flags s) :=
        archMemMap_spec refines.shaped bounded clear
      rw [returns] at ends
      obtain ⟨low, v, r, w, x, u, a, d⟩ := permFromFlags_bits cfg flags
      rw [PageMap.step]
      refine ends.leaves.refines ends.shaped refines.leaves refines.formed addressed.1 addressed.2
        physical low fun i inside => ?_
      rw [rawLeaf, if_pos v, pageAfter_frame (physical i inside), r, w, x, u, a, d]
  | memUnmap addr size =>
      change archMemUnmap addr size s = .ok s' at returns
      have ends : Ends cfg s _ (archMemUnmap addr size s) :=
        archMemUnmap_spec refines.shaped bounded
      rw [returns] at ends
      exact UnmappedPages.refines ends refines addressed.1 addressed.2
  | mapRaw va pa pteBits level =>
      change zRiscvMmuMapRaw cfg va pa pteBits level s = .ok s' at returns
      have ends : Ends cfg s _ (zRiscvMmuMapRaw cfg va pa pteBits level s) :=
        zRiscvMmuMapRaw_spec refines.shaped clear raw
      rw [returns] at ends
      have asserted : level < SV39_LEVELS ∧ va.toNat % (4096 * 512 ^ level) = 0 ∧
          pa.toNat % (4096 * 512 ^ level) = 0 := by
        by_contra failed
        have stopped : zRiscvMmuMapRaw cfg va pa pteBits level s = .error (.assertion s) :=
          if_neg failed
        rw [returns] at stopped
        cases stopped
      refine Wrote.refines ends refines physical.1 physical.2 ?_
      rw [← Nat.mod_mul_right_div_self, asserted.2.2, Nat.zero_div]

theorem walk_refines_map {cfg : Config} {calls : List Call} {s : MmuState}
    (run : Run (Booted cfg) (Guarded Admissible (Returns cfg)) calls s) (va : BitVec 64)
    (canonical : Canonical va) :
    walk s.mem s.kernelRoot va =
      (calls.foldl (PageMap.step cfg) (PageMap.boot cfg)).translate va := by
  have refines : Refines cfg s (calls.foldl (PageMap.step cfg) (PageMap.boot cfg)) := by
    apply run.simulation (R := Refines cfg)
    · exact fun s booted => boot_refines booted
    · exact fun s m call s' refines next => step_refines refines next.1 next.2
  exact refines.walk canonical

/-- A writable page and a megapage mapped after boot, and the page unmapped again. -/
theorem walk_refines_map_page :
    ∃ s, Run (Booted smallBoard) (Guarded Admissible (Returns smallBoard))
        [.memMap 0xC0000000 0x90000000 8192 8, .mapRaw 0xC0200000 0x90200000 0xcf 1,
          .memUnmap 0xC0000000 4096] s ∧
      walk s.mem s.kernelRoot 0xC0000123 = none ∧
      walk s.mem s.kernelRoot 0xC0001123 = some {
        pa := 0x90001123, r := true, w := true, x := false, u := false, a := true, d := true } ∧
      walk s.mem s.kernelRoot 0xC0234567 = some {
        pa := 0x90234567, r := true, w := true, x := true, u := false, a := true,
        d := true } := by
  have passed : afterCalls Admissible
      [.memMap 0xC0000000 0x90000000 8192 8, .mapRaw 0xC0200000 0x90200000 0xcf 1,
        .memUnmap 0xC0000000 4096] (fun _ => true) = true := by
    decide +kernel
  obtain ⟨s, run, -⟩ := afterCalls_run passed
  refine ⟨s, run, ?_, ?_, ?_⟩
  · exact (walk_refines_map run 0xC0000123 (by decide)).trans (by decide)
  · exact (walk_refines_map run 0xC0001123 (by decide)).trans (by decide)
  · exact (walk_refines_map run 0xC0234567 (by decide)).trans (by decide)

end ZephyrRiscv.Mmu
