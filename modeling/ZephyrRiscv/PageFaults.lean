import ZephyrRiscv.SuiteTables
import ZephyrRiscv.TrapHandlers

set_option autoImplicit false

namespace ZephyrRiscv.PageFaults

open Sv39 Mmu RadixForest Tables Pt Verdict

inductive AccessKind where
  | load
  | store
  | fetch
deriving DecidableEq, Repr

def AccessKind.cause : AccessKind → BitVec 64
  | .load => CAUSE_LOAD_PAGE_FAULT
  | .store => CAUSE_STORE_PAGE_FAULT
  | .fetch => CAUSE_INST_PAGE_FAULT

/-- SUM and MXR of `sstatus`, and whether the hart leaves the A and D bits to software. -/
structure Status where
  sum : Bool
  mxr : Bool
  svade : Bool
deriving DecidableEq, Repr

/-- SUM clear, MXR clear, A and D left to software. -/
def plain : Status := ⟨false, false, true⟩

/-- What S-mode may do through a translation. It never fetches from a U page. -/
def permits (status : Status) (kind : AccessKind) (t : Translation) : Bool :=
  (match kind with
    | .load => t.r || (status.mxr && t.x)
    | .store => t.w
    | .fetch => t.x) &&
  (!t.u || (status.sum && kind != .fetch)) &&
  (!status.svade || (t.a && (t.d || kind != .store)))

/-- The root table that `satp` names. -/
def satpRoot (satp : BitVec 64) : BitVec 64 := (satp &&& 0x00000FFFFFFFFFFF) <<< 12

/-- The physical address of an access, or none when it raises a page fault. -/
def access (m : Mem) (satp : BitVec 64) (status : Status) (kind : AccessKind) (va : BitVec 64) :
    Option Nat :=
  ((walk m (satpRoot satp) va).filter (permits status kind)).map (·.pa)

/-- Memory after the stores of the handler. -/
def memAfter (m : Mem) (effects : List SEffect) : Mem :=
  effects.foldl (fun m effect =>
    match effect with
    | .storePte address value => m.store address value
    | _ => m) m

def failsTest : SEffect → Bool
  | .testFail _ => true
  | _ => false

def movesSepc : SEffect → Bool
  | .frameSepc _ => true
  | _ => false

/-- The handler returns, and to the instruction that faulted. -/
def Resumes (effects : List SEffect) : Prop :=
  effects.any failsTest = false ∧ effects.any movesSepc = false

instance (effects : List SEffect) : Decidable (Resumes effects) :=
  inferInstanceAs (Decidable (_ ∧ _))

/-- The bits a repair sets. -/
def fixBits : AccessKind → BitVec 64
  | .load => PTE_V ||| PTE_A ||| PTE_D ||| PTE_R
  | .store => PTE_V ||| PTE_A ||| PTE_D ||| (PTE_R ||| PTE_W)
  | .fetch => PTE_V ||| PTE_A ||| PTE_D ||| (PTE_R ||| PTE_X)

theorem ptWalk_eq (m : Mem) (root va : BitVec 64) : ptWalk m root va = endOf m va 2 root := by
  have step : ∀ l t, endOf m va (l + 1) t =
      if m (slot t (vpn va (l + 1))) &&& PTE_V ≠ 0#64 ∧
          m (slot t (vpn va (l + 1))) &&& (PTE_R ||| PTE_W ||| PTE_X) ≠ 0#64 then
        (slot t (vpn va (l + 1)), l + 1)
      else if m (slot t (vpn va (l + 1))) &&& PTE_V = 0#64 then (slot t (vpn va (l + 1)), l + 1)
      else endOf m va l (pteToPhys (m (slot t (vpn va (l + 1))))) := by
    intro l t
    rw [endOf]
    generalize m (slot t (vpn va (l + 1))) = pte
    by_cases invalid : pte &&& PTE_V = 0#64
    · rw [if_neg (fun leaf => leaf.1 invalid), if_pos invalid, child_invalid invalid]
    · by_cases links : pte &&& PTE_XWR = 0#64
      · rw [if_neg (fun leaf => leaf.2 links), if_neg invalid,
          child_eq_some.mpr ⟨invalid, links, rfl⟩]
      · rw [if_pos ⟨invalid, links⟩, child_eq_none.mpr fun _ => links]
  rw [step, step, ptWalk]
  rfl

theorem fixFault_eq (ctx : SContext) (kind : AccessKind) (stval : BitVec 64) :
    fixFault ctx kind.cause stval =
      let pte := (endOf ctx.mem stval 2 (satpRoot ctx.satp)).1
      if pte = 0 then [.testFail 200]
      else [
        .out (uartPuts "  [TRAP] PTE before fix: " ++ uartPutHex (ctx.mem pte) ++ uartPutc '\n'),
        .storePte pte (ctx.mem pte ||| fixBits kind),
        .out (uartPuts "  [TRAP] PTE after fix:  " ++
          uartPutHex (ctx.mem pte ||| fixBits kind) ++ uartPutc '\n'),
        .fence, .sfenceVma stval] := by
  have bits : ∀ pte : BitVec 64, pte ||| PTE_V ||| PTE_A ||| PTE_D |||
      (if kind.cause = CAUSE_LOAD_PAGE_FAULT then PTE_R
      else if kind.cause = CAUSE_STORE_PAGE_FAULT then PTE_R ||| PTE_W
      else PTE_R ||| PTE_X) = pte ||| fixBits kind := by
    intro pte
    cases kind <;> simp only [fixBits, BitVec.or_assoc] <;> rfl
  simp only [fixFault, bits, ptWalk_eq, satpRoot]
  rfl

theorem sTrapHandler_eq {ctx : SContext} (fixMode : ctx.handlerAction ≠ 1) (kind : AccessKind)
    (stval sepc : BitVec 64) :
    sTrapHandler ctx kind.cause stval sepc =
      .trapRecord kind.cause stval sepc :: .count .fault ::
        .out (uartPuts "  [TRAP] Page fault: cause=" ++ uartPutDec (kind.cause.setWidth 32) ++
          uartPuts " stval=" ++ uartPutHex stval ++ uartPuts " sepc=" ++ uartPutHex sepc ++
          uartPutc '\n') :: fixFault ctx kind.cause stval := by
  have exception : kind.cause.getLsbD 63 = false := by cases kind <;> rfl
  have code : kind.cause &&& 0x7FFFFFFFFFFFFFFF = kind.cause := by cases kind <;> rfl
  have pageFault : kind.cause = CAUSE_INST_PAGE_FAULT ∨ kind.cause = CAUSE_LOAD_PAGE_FAULT ∨
      kind.cause = CAUSE_STORE_PAGE_FAULT := by cases kind <;> decide
  simp only [sTrapHandler, sException, exception, code, pageFault, fixMode, Bool.false_eq_true,
    ↓reduceIte, List.cons_append, List.nil_append]

/-- Without an entry the handler fails the test and stores nothing. -/
theorem handler_reports {ctx : SContext} {stval : BitVec 64}
    (fixMode : ctx.handlerAction ≠ 1) (kind : AccessKind) (sepc : BitVec 64)
    (null : (endOf ctx.mem stval 2 (satpRoot ctx.satp)).1 = 0) :
    let effects := sTrapHandler ctx kind.cause stval sepc
    effects.getLast? = some (.testFail 200) ∧ memAfter ctx.mem effects = ctx.mem ∧
      ¬ Resumes effects := by
  intro effects
  have listed : effects = _ := sTrapHandler_eq fixMode kind stval sepc
  rw [fixFault_eq] at listed
  simp only [if_pos null] at listed
  rw [listed]
  refine ⟨rfl, rfl, ?_⟩
  intro resumes
  cases resumes.1

/-- With an entry it stores to that entry alone and returns to the instruction. -/
theorem handler_repairs {ctx : SContext} {stval : BitVec 64}
    (fixMode : ctx.handlerAction ≠ 1) (kind : AccessKind) (sepc : BitVec 64)
    (entry : (endOf ctx.mem stval 2 (satpRoot ctx.satp)).1 ≠ 0) :
    let effects := sTrapHandler ctx kind.cause stval sepc
    let pte := (endOf ctx.mem stval 2 (satpRoot ctx.satp)).1
    memAfter ctx.mem effects = ctx.mem.store pte (ctx.mem pte ||| fixBits kind) ∧
      Resumes effects ∧ effects.filter failsTest = [] := by
  intro effects pte
  have listed : effects = _ := sTrapHandler_eq fixMode kind stval sepc
  rw [fixFault_eq] at listed
  simp only [if_neg entry] at listed
  rw [listed]
  exact ⟨rfl, ⟨rfl, rfl⟩, rfl⟩

/-- The bits of a repair for a kind of access: enough to let it through, and neither U nor
a bit of the page number. -/
structure Grants (kind : AccessKind) (bits : BitVec 64) : Prop where
  low : bits.toNat < 2 ^ 10
  valid : bits.getLsbD 0 = true
  readable : bits.getLsbD 1 = true
  writable : kind = .store → bits.getLsbD 2 = true
  executable : kind = .fetch → bits.getLsbD 3 = true
  user : bits.getLsbD 4 = false
  accessed : bits.getLsbD 6 = true
  dirty : kind = .store → bits.getLsbD 7 = true

theorem fixBits_grants (kind : AccessKind) : Grants kind (fixBits kind) := by
  cases kind <;> constructor <;> decide

theorem div_or_low (pte low : BitVec 64) (small : low.toNat < 2 ^ 10) :
    (pte ||| low).toNat / 2 ^ 10 = pte.toNat / 2 ^ 10 := by
  have none_left : low.toNat >>> 10 = 0 := by
    rw [Nat.shiftRight_eq_div_pow, Nat.div_eq_of_lt small]
  rw [← Nat.shiftRight_eq_div_pow, ← Nat.shiftRight_eq_div_pow, BitVec.toNat_or,
    Nat.shiftRight_or_distrib, none_left, Nat.or_zero]

theorem Grants.ppn_eq {kind : AccessKind} {bits : BitVec 64} (grants : Grants kind bits)
    (pte : BitVec 64) : ppn (pte ||| bits) = ppn pte := by
  rw [ppn, div_or_low pte _ grants.low, ppn]

theorem Grants.high_iff {kind : AccessKind} {bits : BitVec 64} (grants : Grants kind bits)
    (pte : BitVec 64) : 2 ^ 54 ≤ (pte ||| bits).toNat ↔ 2 ^ 54 ≤ pte.toNat := by
  have same := div_or_low pte bits grants.low
  omega

theorem ppn_fixed (pte : BitVec 64) (kind : AccessKind) :
    ppn (pte ||| fixBits kind) = ppn pte := (fixBits_grants kind).ppn_eq pte

theorem high_fixed (pte : BitVec 64) (kind : AccessKind) :
    2 ^ 54 ≤ (pte ||| fixBits kind).toNat ↔ 2 ^ 54 ≤ pte.toNat :=
  (fixBits_grants kind).high_iff pte

/-- The final entry lets an access through. -/
def allows (status : Status) (kind : AccessKind) (final : Nat × BitVec 64) : Bool :=
  ((finalTranslation 0 final).filter (permits status kind)).isSome

theorem final_access (va : BitVec 64) (status : Status) (kind : AccessKind)
    (final : Nat × BitVec 64) :
    ((finalTranslation va final).filter (permits status kind)).map (·.pa) =
      if allows status kind final then
        some (ppn final.2 * 4096 + va.toNat % (4096 * 512 ^ final.1))
      else none := by
  have moved : finalTranslation va final = (finalTranslation 0 final).map fun t =>
      { t with pa := ppn final.2 * 4096 + va.toNat % (4096 * 512 ^ final.1) } := by
    simp only [finalTranslation, leafTranslation]
    split_ifs <;> rfl
  rw [allows, moved]
  cases finalTranslation 0 final with
  | none => rfl
  | some t =>
      have same : permits status kind
          { t with pa := ppn final.2 * 4096 + va.toNat % (4096 * 512 ^ final.1) } =
            permits status kind t := rfl
      simp only [Option.map_some, Option.filter_some, same]
      by_cases permitted : permits status kind t = true
      · simp only [permitted, ↓reduceIte, Option.map_some, Option.isSome_some]
      · simp only [permitted, Bool.false_eq_true, ↓reduceIte, Option.map_none, Option.isSome_none]

/-- The permission bit that a kind of access asks for. -/
def kindBit (status : Status) (pte : BitVec 64) : AccessKind → Bool
  | .load => pte.getLsbD 1 || (status.mxr && pte.getLsbD 3)
  | .store => pte.getLsbD 2
  | .fetch => pte.getLsbD 3

/-- The bits that decide about an access. -/
theorem allows_iff (status : Status) (kind : AccessKind) (level : Nat) (pte : BitVec 64) :
    allows status kind (level, pte) = true ↔
      pte.getLsbD 0 = true ∧ (pte.getLsbD 2 = true → pte.getLsbD 1 = true) ∧
        (pte.getLsbD 1 = true ∨ pte.getLsbD 3 = true) ∧ pte.toNat < 2 ^ 54 ∧
        ppn pte % 512 ^ level = 0 ∧
        kindBit status pte kind = true ∧
        (pte.getLsbD 4 = true → status.sum = true ∧ kind ≠ .fetch) ∧
        (status.svade = true → pte.getLsbD 6 = true ∧ (kind = .store → pte.getLsbD 7 = true)) := by
  simp only [allows, finalTranslation, leafTranslation]
  split_ifs with faults leafBits aligned
  · simp only [Bool.or_eq_true, Bool.and_eq_true, Bool.not_eq_true', decide_eq_true_eq] at faults
    simp only [Option.filter_none, Option.isSome_none, Bool.false_eq_true, false_iff]
    grind
  · simp only [Option.filter_some, permits]
    cases kind <;> simp only [kindBit] <;> grind
  · simp only [Option.filter_none, Option.isSome_none, Bool.false_eq_true, false_iff]
    grind
  · simp only [Option.filter_none, Option.isSome_none, Bool.false_eq_true, false_iff]
    grind

/-- The entry of a level allows the access once it is repaired. -/
def Fixable (status : Status) (kind : AccessKind) (level : Nat) (pte : BitVec 64) : Prop :=
  pte.toNat < 2 ^ 54 ∧ ppn pte % 512 ^ level = 0 ∧
    (pte.getLsbD 4 = true → status.sum = true ∧ kind ≠ .fetch)

instance (status : Status) (kind : AccessKind) (level : Nat) (pte : BitVec 64) :
    Decidable (Fixable status kind level pte) :=
  inferInstanceAs (Decidable (_ ∧ _))

/-- A repair takes no access away. -/
theorem allows_mono {status : Status} {kind : AccessKind} {level : Nat} {pte : BitVec 64}
    (fix : AccessKind) (allowed : allows status kind (level, pte) = true) :
    allows status kind (level, pte ||| fixBits fix) = true := by
  have bits : (fixBits fix).getLsbD 0 = true ∧ (fixBits fix).getLsbD 1 = true ∧
      (fixBits fix).getLsbD 4 = false ∧ (fixBits fix).getLsbD 6 = true ∧
      (fixBits fix).getLsbD 7 = true := by cases fix <;> decide
  obtain ⟨v, r, u, a, d⟩ := bits
  have high := high_fixed pte fix
  rw [allows_iff] at allowed ⊢
  simp only [BitVec.getLsbD_or, v, r, u, a, d, ppn_fixed, Bool.or_true, Bool.or_false, true_and,
    true_or, implies_true, Bool.or_eq_true]
  obtain ⟨-, -, -, fits, aligned, bit, user, -⟩ := allowed
  refine ⟨by omega, aligned, ?_, user, trivial⟩
  cases kind with
  | load => simp only [kindBit, BitVec.getLsbD_or, r, Bool.or_true, Bool.true_or]
  | store =>
      simp only [kindBit, BitVec.getLsbD_or] at bit ⊢
      rw [bit, Bool.true_or]
  | fetch =>
      simp only [kindBit, BitVec.getLsbD_or] at bit ⊢
      rw [bit, Bool.true_or]

/-- A repair of the right kind is enough for a fixable entry. -/
theorem Grants.allows_iff {kind : AccessKind} {bits : BitVec 64} (grants : Grants kind bits)
    (status : Status) (level : Nat) (pte : BitVec 64) :
    allows status kind (level, pte ||| bits) = true ↔ Fixable status kind level pte := by
  have high := grants.high_iff pte
  rw [PageFaults.allows_iff, Fixable]
  simp only [BitVec.getLsbD_or, grants.valid, grants.readable, grants.user, grants.accessed,
    grants.ppn_eq, Bool.or_true, Bool.or_false, true_and, true_or, implies_true]
  cases kind with
  | load => simp only [kindBit, BitVec.getLsbD_or, grants.readable]; grind
  | store =>
      simp only [kindBit, BitVec.getLsbD_or, grants.writable rfl, grants.dirty rfl]
      grind
  | fetch => simp only [kindBit, BitVec.getLsbD_or, grants.executable rfl]; grind

theorem allows_fixed_iff (status : Status) (kind : AccessKind) (level : Nat) (pte : BitVec 64) :
    allows status kind (level, pte ||| fixBits kind) = true ↔ Fixable status kind level pte :=
  (fixBits_grants kind).allows_iff status level pte

/-- A repaired entry gives the address it holds, or faults again. -/
theorem Grants.translation {kind : AccessKind} {bits : BitVec 64} (grants : Grants kind bits)
    (va : BitVec 64) (level : Nat) (pte : BitVec 64) (status : Status) :
    ((finalTranslation va (level, pte ||| bits)).filter (permits status kind)).map (·.pa) =
      if Fixable status kind level pte then
        some (ppn pte * 4096 + va.toNat % (4096 * 512 ^ level))
      else none := by
  simp only [final_access, grants.allows_iff, grants.ppn_eq]

/-- The level at which the walk of an address first reads a doubleword. -/
def firstRead (m : Mem) (va address : BitVec 64) : Nat → BitVec 64 → Option Nat
  | 0, table => if slot table (vpn va 0) = address then some 0 else none
  | l + 1, table =>
      let pte := slot table (vpn va (l + 1))
      if pte = address then some (l + 1)
      else if hardwareLink (m pte) then
        firstRead m va address l (BitVec.ofNat 64 (ppn (m pte) * 4096))
      else none

/-- A walk that never reads the doubleword. -/
theorem walkFrom_unread {m : Mem} {va address : BitVec 64} (value : BitVec 64) (l : Nat)
    {table : BitVec 64} (unread : firstRead m va address l table = none) :
    walkFrom (m.store address value) va l table = walkFrom m va l table := by
  induction l generalizing table with
  | zero =>
      have apart : slot table (vpn va 0) ≠ address := by
        intro same
        rw [firstRead, if_pos same] at unread
        cases unread
      have positive : ∀ {pte}, 0 < 0 → hardwareLink pte = false := fun below =>
        absurd below (by omega)
      rw [walkFrom_stop positive, walkFrom_stop positive, Mem.store_other _ _ _ _ apart]
  | succ l ih =>
      have apart : slot table (vpn va (l + 1)) ≠ address := by
        intro same
        rw [firstRead, if_pos same] at unread
        cases unread
      have word := Mem.store_other m address value _ apart
      rw [firstRead, if_neg apart] at unread
      cases link : hardwareLink (m (slot table (vpn va (l + 1)))) with
      | false =>
          rw [walkFrom_stop fun _ => by rw [word, link], walkFrom_stop fun _ => link, word]
      | true =>
          rw [if_pos link] at unread
          rw [walkFrom_follow (by rw [word, link]), walkFrom_follow link, word]
          exact ih unread

/-- A walk that reads the doubleword ends there when its new value is no link. -/
theorem walkFrom_read {m : Mem} {va address value : BitVec 64} (final : hardwareLink value = false)
    (l : Nat) {table : BitVec 64} {k : Nat} (read : firstRead m va address l table = some k) :
    walkFrom (m.store address value) va l table = finalTranslation va (k, value) := by
  induction l generalizing table with
  | zero =>
      by_cases same : slot table (vpn va 0) = address
      · rw [firstRead, if_pos same] at read
        obtain rfl := Option.some.inj read
        rw [walkFrom_stop fun below => absurd below (by omega), same, Mem.store_same]
      · rw [firstRead, if_neg same] at read
        cases read
  | succ l ih =>
      by_cases same : slot table (vpn va (l + 1)) = address
      · rw [firstRead, if_pos same] at read
        obtain rfl := Option.some.inj read
        rw [walkFrom_stop fun _ => by rw [same, Mem.store_same, final], same, Mem.store_same]
      · have word := Mem.store_other m address value _ same
        rw [firstRead, if_neg same] at read
        cases link : hardwareLink (m (slot table (vpn va (l + 1)))) with
        | false =>
            rw [link] at read
            cases read
        | true =>
            rw [if_pos link] at read
            rw [walkFrom_follow (by rw [word, link]), word]
            exact ih read

theorem Grants.final {kind : AccessKind} {bits : BitVec 64} (grants : Grants kind bits)
    (pte : BitVec 64) : hardwareLink (pte ||| bits) = false := by
  simp only [hardwareLink, BitVec.getLsbD_or, grants.readable, Bool.or_true, Bool.not_true,
    Bool.and_false, Bool.false_and]

/-- The walk of an address reads its last entry at the level where the links end,
when the links are those of a tree. -/
theorem firstRead_tree {m : Mem} {live : BitVec 64 → Prop} {root : BitVec 64}
    {level : BitVec 64 → Nat} (tree : TableTree m live root level) (va : BitVec 64) :
    firstRead m va (endOf m va 2 root).1 2 root = some (view m root va).1 := by
  obtain ⟨last, outLast, atLast, final⟩ := tree.endOf_live va
  have bound := view_level m root va
  have levelLast := (tree.at_live bound atLast).2
  have from_table : ∀ l t, l ≤ 2 → At m root va l t →
      firstRead m va (endOf m va 2 root).1 l t = some (view m root va).1 := by
    intro l
    induction l with
    | zero =>
        intro t inside here
        have stops := view_stop inside here fun positive => absurd positive (by omega)
        rw [firstRead, view, stops, if_pos rfl]
    | succ l ih =>
        intro t inside here
        obtain ⟨out, levelT⟩ := tree.at_live inside here
        cases link : child (m (slot t (vpn va (l + 1)))) with
        | none =>
            have stops := view_stop inside here fun _ => link
            rw [firstRead, view, stops, if_pos rfl]
        | some next =>
            have below := (at_succ inside).mpr ⟨t, here, link⟩
            obtain ⟨outNext, -⟩ := tree.at_live (by omega) below
            have lower := below.view_level (by omega)
            have apart : slot t (vpn va (l + 1)) ≠ (endOf m va 2 root).1 := by
              rw [final]
              intro same
              have tables := (slot_inj (tree.aligned out) (tree.aligned outLast)
                (tree.physical out) (tree.physical outLast) same).1
              rw [← tables, levelT] at levelLast
              omega
            have physical := tree.physical outNext
            obtain ⟨followed, base⟩ := hardwareLink_exact (tree.aligned outNext) (by omega)
            have word : m (slot t (vpn va (l + 1))) = physToPpn next ||| PTE_V :=
              tree.exact out (by omega) link
            rw [firstRead, if_neg apart, word, if_pos followed, base]
            exact ih next (by omega) below
  exact from_table 2 root (le_refl 2) (at_root m root va)

/-- The links the hardware takes lead to the entry at which the links end, and it
allows the access once repaired. -/
def Repairable (m : Mem) (root va : BitVec 64) (status : Status) (kind : AccessKind) : Prop :=
  Canonical va ∧ ∃ level, firstRead m va (endOf m va 2 root).1 2 root = some level ∧
    Fixable status kind level (m (endOf m va 2 root).1)

theorem access_unread {m : Mem} {satp va address : BitVec 64} (value : BitVec 64)
    (status : Status) (kind : AccessKind)
    (unread : firstRead m va address 2 (satpRoot satp) = none) :
    access (m.store address value) satp status kind va = access m satp status kind va := by
  rw [access, access, walk, walk, walkFrom_unread value 2 unread]

/-- An access through a repaired entry. -/
theorem Grants.access_read {kind : AccessKind} {bits : BitVec 64} (grants : Grants kind bits)
    {m : Mem} {satp va address pte : BitVec 64} (status : Status) {level : Nat}
    (read : firstRead m va address 2 (satpRoot satp) = some level) :
    access (m.store address (pte ||| bits)) satp status kind va =
      if Canonical va ∧ Fixable status kind level pte then
        some (ppn pte * 4096 + va.toNat % (4096 * 512 ^ level))
      else none := by
  rw [access, walk, walkFrom_read (grants.final pte) 2 read]
  by_cases canonical : Canonical va
  · rw [if_pos canonical, grants.translation]
    simp only [canonical, true_and]
  · rw [if_neg canonical, if_neg fun both => canonical both.1]
    rfl

/-- After a repair a faulting access goes through exactly when it was repairable. -/
theorem Grants.access_repaired {kind : AccessKind} {bits : BitVec 64}
    (grants : Grants kind bits) {m : Mem} {satp va : BitVec 64} {status : Status}
    (fault : access m satp status kind va = none) :
    access (m.store (endOf m va 2 (satpRoot satp)).1
      (m (endOf m va 2 (satpRoot satp)).1 ||| bits)) satp status kind va ≠ none ↔
      Repairable m (satpRoot satp) va status kind := by
  cases read : firstRead m va (endOf m va 2 (satpRoot satp)).1 2 (satpRoot satp) with
  | none =>
      rw [access_unread _ status kind read, fault]
      constructor
      · intro succeeds
        exact absurd rfl succeeds
      · rintro ⟨-, level, reads, -⟩
        rw [read] at reads
        cases reads
  | some level =>
      rw [grants.access_read status read]
      constructor
      · intro succeeds
        by_contra unrepairable
        apply succeeds
        apply if_neg
        rintro ⟨canonical, fixable⟩
        exact unrepairable ⟨canonical, level, read, fixable⟩
      · rintro ⟨canonical, level', reads, fixable⟩
        obtain rfl := Option.some.inj (read.symm.trans reads)
        rw [if_pos ⟨canonical, fixable⟩]
        exact Option.some_ne_none _

/-- In a tree the condition is one on the entry alone. -/
theorem repairable_tree {m : Mem} {live : BitVec 64 → Prop} {root : BitVec 64}
    {level : BitVec 64 → Nat} (tree : TableTree m live root level) (va : BitVec 64)
    (status : Status) (kind : AccessKind) :
    Repairable m root va status kind ↔
      Canonical va ∧ Fixable status kind (view m root va).1 (view m root va).2 := by
  rw [Repairable, firstRead_tree tree va]
  constructor
  · rintro ⟨canonical, l, same, fixable⟩
    rw [← Option.some.inj same] at fixable
    exact ⟨canonical, fixable⟩
  · rintro ⟨canonical, fixable⟩
    exact ⟨canonical, _, rfl, fixable⟩

end ZephyrRiscv.PageFaults
