import ZephyrRiscv.KernelViews
import ZephyrRiscv.PageFaults

set_option autoImplicit false

namespace ZephyrRiscv.MapperSimulation

open Sv39 Mmu Tables Pt

/-- The request as a raw mapping of level 0, with V, A and D added or V cleared. -/
def rawCall (r : Request) : Call := .mapRaw r.va r.pa (entryBits r.perm r.valid) 0

/-- The requests through the kernel's mapper. -/
def rawRun (cfg : Config) (requests : List Request) (s : MmuState) : Except Stop MmuState :=
  requests.foldlM (fun s r => (rawCall r).exec cfg s) s

/-- The requests through the suite's mapper, on an empty root. -/
def suiteRun (pool : Pool) (start : PtState) (requests : List Request) : BitVec 64 × PtState :=
  let (root, s) := ptAllocPage pool start
  (root, (requests.map Request.call).foldl (PtCall.exec pool root) s)

/-- An empty root of the kernel: the first table after a reset. -/
def EmptyRoot (cfg : Config) (s : MmuState) : Prop :=
  ∃ reset root granted, AtReset reset ∧ allocTable cfg reset = .ok (root, granted) ∧
    s = { granted with kernelRoot := root }

theorem EmptyRoot.blank {cfg : Config} {s : MmuState} (empty : EmptyRoot cfg s) :
    Planted cfg s ∧ s.view = fun _ => (2, 0#64) := by
  obtain ⟨reset, root, granted, fresh, allocation, rfl⟩ := empty
  apply (allocTable_spec allocation).blank_root
  rintro m ⟨i, -, used, -⟩
  rw [fresh.unused i] at used
  cases used

/-- A request whose addresses are pages is mapped, unless the kernel runs out of tables. -/
theorem rawCall_view {cfg : Config} {s : MmuState} {r : Request} (planted : Planted cfg s)
    (clear : s.view.Clear 0 r.va) (va : r.va.toNat % 4096 = 0) (pa : r.pa.toNat % 4096 = 0)
    (tables : ∀ stopped, (rawCall r).exec cfg s ≠ .error (.panic stopped)) :
    ∃ s', (rawCall r).exec cfg s = .ok s' ∧ Planted cfg s' ∧ s'.view = r.call.view s.view := by
  have asserted : 0 < SV39_LEVELS ∧ r.va.toNat % (4096 * 512 ^ 0) = 0 ∧
      r.pa.toNat % (4096 * 512 ^ 0) = 0 := ⟨by decide, va, pa⟩
  cases outcome : (rawCall r).exec cfg s with
  | ok s' =>
      obtain ⟨planted', viewed, -⟩ := zRiscvMmuMapRaw_view planted clear
        (fun positive => absurd positive (Nat.lt_irrefl 0)) outcome
      refine ⟨s', rfl, planted', ?_⟩
      rw [viewed, ← pageEntry_eq]
      rfl
  | error stop =>
      exfalso
      have failed : zRiscvMmuMapRaw cfg r.va r.pa (entryBits r.perm r.valid) 0 s = .error stop :=
        outcome
      unfold zRiscvMmuMapRaw at failed
      rw [if_pos asserted] at failed
      split at failed
      · rename_i stop' descent
        obtain ⟨stopped, rfl, -⟩ := walkDown_error descent
        rw [← Except.error.inj failed] at outcome
        exact tables stopped outcome
      · cases failed

theorem rawRun_view {cfg : Config} {requests : List Request} {s : MmuState}
    (planted : Planted cfg s) (clears : Clears s.view (requests.map Request.call))
    (pages : ∀ r ∈ requests, r.va.toNat % 4096 = 0 ∧ r.pa.toNat % 4096 = 0)
    (tables : ∀ stopped, rawRun cfg requests s ≠ .error (.panic stopped)) :
    ∃ s', rawRun cfg requests s = .ok s' ∧ Planted cfg s' ∧
      s'.view = (requests.map Request.call).foldl PtCall.view s.view := by
  induction requests generalizing s with
  | nil => exact ⟨s, rfl, planted, rfl⟩
  | cons r requests ih =>
      have here := pages r List.mem_cons_self
      have whole : rawRun cfg (r :: requests) s =
          ((rawCall r).exec cfg s).bind fun s => rawRun cfg requests s := rfl
      obtain ⟨s₁, done, planted₁, view₁⟩ := rawCall_view planted clears.1 here.1 here.2 (by
        intro stopped failed
        apply tables stopped
        rw [whole, failed]
        rfl)
      rw [done] at whole
      have rest := ih planted₁ (by rw [view₁]; exact clears.2)
        (fun other member => pages other (List.mem_cons_of_mem r member)) (by
          intro stopped failed
          apply tables stopped
          rw [whole]
          exact failed)
      obtain ⟨s', ran, planted', viewed⟩ := rest
      refine ⟨s', ?_, planted', ?_⟩
      · rw [whole]
        exact ran
      · rw [viewed, view₁]
        rfl

/-- The tables of both mappers hold the same level-0 entries for every address. -/
theorem raw_mapper_simulates_suite {pool : Pool} {cfg : Config} {start : PtState}
    {empty : MmuState} {requests : List Request}
    (pages : ∀ r ∈ requests, r.va.toNat % 4096 = 0 ∧ r.pa.toNat % 4096 = 0)
    (room : (suiteRun pool start requests).2.ptPoolNextPage ≤ pool.pages)
    (emptyRoot : EmptyRoot cfg empty)
    (tables : ∀ stopped, rawRun cfg requests empty ≠ .error (.panic stopped)) :
    let suite := suiteRun pool start requests
    ∃ kernel, rawRun cfg requests empty = .ok kernel ∧ ∀ va,
      ((ptWalk suite.2.mem suite.1 va).2 = 0 ↔ zRiscvMmuPteLookup kernel va ≠ NULL) ∧
      (zRiscvMmuPteLookup kernel va ≠ NULL →
        suite.2.mem (ptWalk suite.2.mem suite.1 va).1 =
          kernel.mem (zRiscvMmuPteLookup kernel va)) := by
  intro suite
  have grows := calls_grow pool (ptAllocPage pool start).1 (requests.map Request.call)
    (ptAllocPage pool start).2
  have inside : start.ptPoolNextPage < pool.pages := Nat.le_trans grows room
  obtain ⟨shaped, blank⟩ := ptAllocPage_blank inside
  obtain ⟨planted, blankK⟩ := emptyRoot.blank
  have clear : ∀ a : BitVec 64, True → View.Clear (fun _ => (2, 0#64)) 0 a := by
    intro _ _ _
    exact BitVec.zero_and
  have outside : ∀ r ∈ requests, (fun _ => True) r.va := fun r _ => trivial
  obtain ⟨clears, clearAfter⟩ := requests_clear unmapped_regular (fun _ => True) outside clear
  have viewS := (calls_spec (requests.map Request.call) shaped (by rw [blank]; exact clears) room).2
  obtain ⟨kernel, ran, planted', viewK⟩ :=
    rawRun_view planted (by rw [blankK]; exact clears) pages tables
  rw [blank] at viewS
  rw [blankK] at viewK
  have same : kernel.view = view suite.2.mem suite.1 := viewK.trans viewS.symm
  refine ⟨kernel, ran, fun va => ?_⟩
  have clearVa := clearAfter va trivial
  rw [← viewK, same] at clearVa
  have level : (ptWalk suite.2.mem suite.1 va).2 = (view suite.2.mem suite.1 va).1 := by
    rw [PageFaults.ptWalk_eq, view]
  have word : suite.2.mem (ptWalk suite.2.mem suite.1 va).1 = (view suite.2.mem suite.1 va).2 := by
    rw [PageFaults.ptWalk_eq, view]
  have null := pteLookup_null_iff kernel va
  rw [or_iff_left (planted'.entry_not_null va), same] at null
  constructor
  · rw [level, ne_eq, null]
    constructor
    · rintro bottom ⟨above, -⟩
      omega
    · intro valid
      by_contra above
      exact valid ⟨by omega, clearVa (by omega)⟩
  · intro found
    rw [word, pteLookup_found found, ← same]
    rfl

/-- An invalid page and a valid one beside it. -/
theorem raw_mapper_simulates_suite_pair :
    let requests : List Request := [⟨0xD0000000, 0x801A0000, PTE_R ||| PTE_W, false⟩,
      ⟨0xD0001000, 0x801A1000, PTE_R ||| PTE_U, true⟩]
    let suite := suiteRun linkerPool coldStart requests
    ∃ empty kernel, EmptyRoot smallBoard empty ∧ rawRun smallBoard requests empty = .ok kernel ∧
      ∀ va, ((ptWalk suite.2.mem suite.1 va).2 = 0 ↔ zRiscvMmuPteLookup kernel va ≠ NULL) ∧
        (zRiscvMmuPteLookup kernel va ≠ NULL →
          suite.2.mem (ptWalk suite.2.mem suite.1 va).1 =
            kernel.mem (zRiscvMmuPteLookup kernel va)) := by
  intro requests suite
  have passed : (allocTable smallBoard zeroed).toOption.any (fun granted =>
      passes (fun _ => true) (rawRun smallBoard requests
        { granted.2 with kernelRoot := granted.1 })) = true := by
    decide +kernel
  cases allocation : allocTable smallBoard zeroed with
  | error stop =>
      rw [allocation] at passed
      cases passed
  | ok granted =>
      rw [allocation] at passed
      have empty : EmptyRoot smallBoard { granted.2 with kernelRoot := granted.1 } :=
        ⟨zeroed, granted.1, granted.2, zeroed_atReset, allocation, rfl⟩
      obtain ⟨k, ran, -⟩ := passes_ok passed
      have room : suite.2.ptPoolNextPage ≤ linkerPool.pages := by decide +kernel
      obtain ⟨kernel, done, same⟩ := raw_mapper_simulates_suite (by decide) room empty (by
        intro stopped failed
        rw [ran] at failed
        cases failed)
      exact ⟨_, kernel, empty, done, same⟩

end ZephyrRiscv.MapperSimulation
