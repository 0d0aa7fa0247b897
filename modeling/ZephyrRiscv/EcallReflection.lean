import ZephyrRiscv.TrapVectors

set_option autoImplicit false

namespace ZephyrRiscv

open Sv39 Verdict

/-- An SBI function of `m_trap_handler`. -/
def IsSbi (func : BitVec 64) : Prop :=
  func = SBI_SET_TIMER ∨ func = SBI_SEND_IPI ∨ func = SBI_CLEAR_IPI

instance (func : BitVec 64) : Decidable (IsSbi func) := inferInstanceAs (Decidable (_ ∨ _))

theorem mTrapHandler_reflect (ctx : MContext) (mepc mtval : BitVec 64) (frame : Nat → BitVec 64)
    (other : ¬ IsSbi (frame 11)) :
    mTrapHandler ctx CAUSE_ECALL_SMODE mepc mtval frame =
      ([.csrwScause CAUSE_ECALL_SMODE, .csrwSepc mepc, .csrwStval 0,
        .csrwMstatus (ctx.mstatus ||| MSTATUS_SPP)], some (vectorBase ctx.stvec)) := by
  unfold IsSbi at other
  simp only [not_or] at other
  unfold mTrapHandler
  have exception : CAUSE_ECALL_SMODE.getLsbD 63 = false := by decide
  have cause : CAUSE_ECALL_SMODE &&& 0x7FFFFFFFFFFFFFFF = CAUSE_ECALL_SMODE := by decide
  simp only [exception, cause, other.1, other.2.1, other.2.2, Bool.false_eq_true, ↓reduceIte,
    vectorBase]

theorem mSaves_callerSaved (r : Reg) : callerSaved r = decide (r ∈ mSaves.map Prod.fst) := by
  cases r <;> rfl

/-- The moves into the argument registers of `m_trap_handler`. -/
def mMoves : List Instr := [.csrr .a0 .mcause, .csrr .a1 .mepc, .csrr .a2 .mtval, .mv .a3 .sp]

/-- The CSRs after the reflection, before `mret`. -/
def Csrs.reflected (c : Csrs) : Csrs :=
  { c with
    scause := CAUSE_ECALL_SMODE
    sepc := c.mepc
    stval := 0
    mstatus := c.mstatus ||| MSTATUS_SPP
    mepc := vectorBase c.stvec }

/-- A call of `m_trap_handler` that returns, up to the write of `mepc`. -/
theorem run_callM {sink : Sink} (env : Nat → Surroundings) {h : Hart} (n : Nat)
    {regs : Reg → BitVec 64} (mip : BitVec 64) {mem : Mem} {effects : List MEffect}
    {result : BitVec 64} (mode : h.mode = .M)
    (handler : mTrapHandler (h.mContext sink) (regs .a0) (regs .a1) (regs .a2)
      (fun i => (env n).around (regs .sp) mem (frameWord (regs .a3) i)) = (effects, some result)) :
    let after := effects.foldl Hart.applyM h
    ∃ regs' mip' mem', runVector sink env n [.callM, .csrw .mepc .a0] (h.with regs mip mem) =
        some (({ after with csrs := { after.csrs with mepc := result } } : Hart).with
          regs' mip' mem') ∧
      SameFrame (regs .sp) mem mem' ∧ ∀ r, callerSaved r = false → regs' r = regs r := by
  intro after
  let regs' : Reg → BitVec 64 := fun q =>
    if q = .a0 then result else if callerSaved q then (env n).unknown q else regs q
  have afterMode : after.mode = .M := (foldl_applyM_mode effects h).trans mode
  have sp : regs' .sp = regs .sp := rfl
  rcases foldl_applyM_with effects h regs (env n).mip ((env n).around (regs .sp) mem) with
    ⟨mip', applied⟩
  have executed : exec sink (env n) ((h.with regs mip mem).disturb (env n)) .callM =
      some (after.with regs' mip' ((env n).around (regs .sp) mem)) := by
    have called : mTrapHandler (((h.with regs mip mem).disturb (env n)).mContext sink)
        (regs .a0) (regs .a1) (regs .a2)
        (fun i => (env n).around (regs .sp) mem (frameWord (regs .a3) i)) =
          (effects, some result) := handler
    rw [Hart.disturb_with] at called ⊢
    simp only [exec, Hart.with_regs, Hart.with_mem, called, Option.map_some, applied,
      Hart.clobber_with, Hart.setReg_with]
    rfl
  refine ⟨regs', (env (n + 1)).mip, (env (n + 1)).around (regs .sp)
    ((env n).around (regs .sp) mem), ?_, ?_, ?_⟩
  · have masked := (Hart.masked_of_machine mode).with regs mip mem
    have maskedAfter := (Hart.masked_of_machine afterMode).with regs' mip'
      ((env n).around (regs .sp) mem)
    rw [runVector_cons masked, executed, Option.bind_some, runVector_single maskedAfter,
      Hart.disturb_with, exec]
    rfl
  · exact ((env n).around_sameFrame _ mem).trans ((env (n + 1)).around_sameFrame _ _)
  · intro r preserved
    have apart : r ≠ .a0 := by
      intro same
      rw [same] at preserved
      cases preserved
    simp only [regs', apart, preserved, Bool.false_eq_true, ↓reduceIte]

/-- What the reflection writes. -/
theorem foldl_reflection (h : Hart) (cause epc status : BitVec 64) :
    [.csrwScause cause, .csrwSepc epc, .csrwStval 0, .csrwMstatus status].foldl Hart.applyM h =
      { h with csrs := { h.csrs with
        scause := cause, sepc := epc, stval := 0, mstatus := status } } := by
  simp only [List.foldl_cons, List.foldl_nil, Hart.applyM]

theorem run_mCall {sink : Sink} (env : Nat → Surroundings) {h : Hart} (n : Nat)
    (regs : Reg → BitVec 64) (mip : BitVec 64) (mem : Mem) (mode : h.mode = .M)
    (cause : h.csrs.mcause = CAUSE_ECALL_SMODE)
    (other : ¬ IsSbi (mem (regs .sp + BitVec.ofNat 64 88))) :
    ∃ regs' mip' mem', runVector sink env n mCall (h.with regs mip mem) =
        some (({ h with csrs := h.csrs.reflected } : Hart).with regs' mip' mem') ∧
      SameFrame (regs .sp) mem mem' ∧ ∀ r, callerSaved r = false → regs' r = regs r := by
  have masked := (Hart.masked_of_machine mode).with regs mip mem
  rcases run_moves sink env mMoves n (h.with regs mip mem) masked (by decide) with
    ⟨mip₁, mem₁, moved, same⟩
  rw [Hart.with_with, Hart.with_csrs, Hart.with_regs] at moved
  rw [Hart.with_regs, Hart.with_mem] at same
  generalize arguments : mMoves.foldl (moveReg h.csrs) regs = regs₁ at moved
  have a0 : regs₁ .a0 = CAUSE_ECALL_SMODE := by
    rw [← arguments, ← cause]
    rfl
  have a1 : regs₁ .a1 = h.csrs.mepc := by
    rw [← arguments]
    rfl
  have a3 : regs₁ .a3 = regs .sp := by
    rw [← arguments]
    rfl
  have sp : regs₁ .sp = regs .sp := by
    rw [← arguments]
    rfl
  have same₁ := same.trans ((env (n + mMoves.length)).around_sameFrame (regs .sp) mem₁)
  have a7 : (env (n + mMoves.length)).around (regs₁ .sp) mem₁ (frameWord (regs₁ .a3) 11) =
      mem (regs .sp + BitVec.ofNat 64 88) := by
    rw [a3, sp]
    exact same₁ 88 (by omega)
  have reflects : mTrapHandler (h.mContext sink) (regs₁ .a0) (regs₁ .a1) (regs₁ .a2)
      (fun i => (env (n + mMoves.length)).around (regs₁ .sp) mem₁ (frameWord (regs₁ .a3) i)) =
      ([.csrwScause CAUSE_ECALL_SMODE, .csrwSepc h.csrs.mepc, .csrwStval 0,
        .csrwMstatus (h.csrs.mstatus ||| MSTATUS_SPP)], some (vectorBase h.csrs.stvec)) := by
    rw [a0, a1]
    exact mTrapHandler_reflect _ _ _ _ (by rw [a7]; exact other)
  rcases run_callM env (n + mMoves.length) mip₁ mode reflects with
    ⟨regs', mip', mem', called, same', kept⟩
  refine ⟨regs', mip', mem', ?_, ?_, ?_⟩
  · have sequence : mCall = mMoves ++ [.callM, .csrw .mepc .a0] := rfl
    rw [sequence, runVector_append, moved, Option.bind_some, called, foldl_reflection]
    rfl
  · rw [sp] at same'
    exact same.trans same'
  · intro r preserved
    have apart : r ≠ .a0 ∧ r ≠ .a1 ∧ r ≠ .a2 ∧ r ≠ .a3 := by
      refine ⟨?_, ?_, ?_, ?_⟩ <;> intro same <;> rw [same] at preserved <;> cases preserved
    rw [kept r preserved, ← arguments]
    simp only [mMoves, List.foldl_cons, List.foldl_nil, moveReg, apart, ↓reduceIte]

theorem mSaves_saveList : SaveList mSaves := by
  constructor <;> decide

/-- The state that the reflection returns to, up to pending bits and scratch memory. -/
def Hart.reflected (h : Hart) : Hart :=
  let trapped := h.trapToM CAUSE_ECALL_SMODE 0
  Hart.mret { trapped with csrs := trapped.csrs.reflected }

/-- `_m_trap_vector` around the reflection. -/
theorem run_mTrapVector (sink : Sink) (env : Nat → Surroundings) {h : Hart}
    (other : ¬ IsSbi (h.regs .a7)) :
    ∃ mip mem, runVector sink env 0 mTrapVector (h.trapToM CAUSE_ECALL_SMODE 0) =
      some (h.reflected.with h.regs mip mem) := by
  let trapped := h.trapToM CAUSE_ECALL_SMODE 0
  let base : Hart := { trapped with csrs := trapped.csrs.reflected }
  have masked : trapped.Masked := Hart.masked_of_machine rfl
  have masked' : base.Masked := Hart.masked_of_machine rfl
  have calls : Calls sink env mSaves mCall trapped base := by
    intro n regs mip mem saved
    have a7 : mem (regs .sp + BitVec.ofNat 64 88) = h.regs .a7 := saved (.a7, 88) (by decide)
    rcases run_mCall env n regs mip mem (rfl : trapped.mode = .M) rfl
      (by rw [a7]; exact other) with ⟨regs', mip', mem', ran, same, kept⟩
    refine ⟨regs', mip', mem', ran, kept .sp rfl,
      fun s member => same s.2 (mSaves_saveList.inside s member), ?_⟩
    intro r _ unsaved
    apply kept
    rw [mSaves_callerSaved]
    exact decide_eq_false unsaved
  rcases run_frame 128 .mret 0 mSaves_saveList masked masked' calls with ⟨n, mip, mem, ran⟩
  exact ⟨mip, mem, ran⟩

theorem sSaves_saveList : SaveList sSaves := by
  constructor <;> decide

theorem sSaves_complete (r : Reg) : r = .sp ∨ r ∈ sSaves.map Prod.fst := by
  cases r <;> decide

theorem sSaves_apart : ∀ s ∈ sSaves, s.2 ≠ 240 := by decide

/-- The console line of an `ecall`. -/
def ecallLine (sepc : BitVec 64) : List Event :=
  uartPuts "  [TRAP] ecall from S-mode at sepc=" ++ uartPutHex sepc ++ uartPutc '\n'

theorem sTrapHandler_ecall (ctx : SContext) (stval sepc : BitVec 64) :
    sTrapHandler ctx CAUSE_ECALL_SMODE stval sepc =
      [.trapRecord CAUSE_ECALL_SMODE stval sepc, .count .fault, .out (ecallLine sepc),
        .frameSepc (sepc + 4)] := by
  have exception : CAUSE_ECALL_SMODE.getLsbD 63 = false := by decide
  have cause : CAUSE_ECALL_SMODE &&& 0x7FFFFFFFFFFFFFFF = CAUSE_ECALL_SMODE := by decide
  have pageFault : ¬ (CAUSE_ECALL_SMODE = CAUSE_INST_PAGE_FAULT ∨
      CAUSE_ECALL_SMODE = CAUSE_LOAD_PAGE_FAULT ∨ CAUSE_ECALL_SMODE = CAUSE_STORE_PAGE_FAULT) := by
    decide
  have illegal : CAUSE_ECALL_SMODE ≠ CAUSE_ILLEGAL_INST := by decide
  simp only [sTrapHandler, sException, exception, cause, pageFault, illegal, Bool.false_eq_true,
    ↓reduceIte]
  rfl

/-- `g_trap` after an `ecall` was handled. -/
def TrapState.ecall (g : TrapState) (stval sepc : BitVec 64) : TrapState :=
  TrapState.count { g with scause := CAUSE_ECALL_SMODE, stval, sepc } .fault

/-- The moves into the argument registers of `s_trap_handler`. -/
def sMoves : List Instr := [.csrr .a0 .scause, .csrr .a1 .stval, .csrr .a2 .sepc, .mv .a3 .sp]

/-- `sepc` into the frame, and the arguments of `s_trap_handler`. -/
def sBefore : List Instr := [.csrr .t0 .sepc, .sd .t0 240] ++ sMoves

/-- `sepc` from the frame. -/
def sAfter : List Instr := [.ld .t0 240] ++ [.csrw .sepc .t0]

/-- What the handler leaves of the hart, before `sret`. -/
def Hart.handled (h : Hart) : Hart :=
  { h with
    csrs := { h.csrs with sepc := h.csrs.sepc + 4 }
    trap := h.trap.ecall h.csrs.stval h.csrs.sepc
    out := h.out ++ ecallLine h.csrs.sepc }

theorem exec_callS (sink : Sink) (env : Surroundings) (h : Hart) {regs : Reg → BitVec 64}
    (mip : BitVec 64) (mem : Mem) (a0 : regs .a0 = CAUSE_ECALL_SMODE) :
    let before := env.around (regs .sp) mem
    exec sink env ((h.with regs mip mem).disturb env) .callS =
      some (Hart.with { h with
          trap := h.trap.ecall (regs .a1) (regs .a2)
          out := h.out ++ ecallLine (regs .a2) }
        (fun q => if callerSaved q then env.unknown q else regs q) env.mip
        (before.store (frameWord (regs .a3) 30) (regs .a2 + 4))) := by
  intro before
  rw [Hart.disturb_with]
  simp only [exec, Hart.with_regs, a0, sTrapHandler_ecall]
  rfl

/-- Up to the call: `sepc` goes through t0 into the frame. -/
theorem run_sBefore (sink : Sink) (env : Nat → Surroundings) {h : Hart} (masked : h.Masked)
    (n : Nat) (regs : Reg → BitVec 64) (mip : BitVec 64) (mem : Mem) :
    ∃ regs' mip' mem', runVector sink env n sBefore (h.with regs mip mem) =
        some (h.with regs' mip' mem') ∧
      (regs' .a0 = h.csrs.scause ∧ regs' .a1 = h.csrs.stval ∧ regs' .a2 = h.csrs.sepc ∧
        regs' .a3 = regs .sp ∧ regs' .sp = regs .sp) ∧
      ∀ s ∈ sSaves, mem' (regs .sp + BitVec.ofNat 64 s.2) =
        mem (regs .sp + BitVec.ofNat 64 s.2) := by
  let first : List Instr := [.csrr .t0 .sepc]
  let slot : List (Reg × Nat) := [(.t0, 240)]
  have masked₀ := masked.with regs mip mem
  rcases run_moves sink env first n (h.with regs mip mem) masked₀ (by decide) with
    ⟨mip₁, mem₁, moved, same₁⟩
  rw [Hart.with_with, Hart.with_csrs, Hart.with_regs] at moved
  rw [Hart.with_regs, Hart.with_mem] at same₁
  generalize kept₁ : first.foldl (moveReg h.csrs) regs = regs₁ at moved
  have sp₁ : regs₁ .sp = regs .sp := by
    rw [← kept₁]
    rfl
  have masked₁ := masked.with regs₁ mip₁ mem₁
  rcases run_stores sink env slot (n + first.length) (h.with regs₁ mip₁ mem₁) masked₁ (by decide)
    (by decide) with ⟨mip₂, mem₂, stored, -, kept₂⟩
  rw [Hart.with_with, Hart.with_regs] at stored
  rw [Hart.with_regs, Hart.with_mem, sp₁] at kept₂
  -- the arguments
  have masked₂ := masked.with regs₁ mip₂ mem₂
  let n₂ := n + first.length + (stores slot).length
  rcases run_moves sink env sMoves n₂ (h.with regs₁ mip₂ mem₂) masked₂ (by decide) with
    ⟨mip₃, mem₃, moved₃, same₃⟩
  rw [Hart.with_with, Hart.with_csrs, Hart.with_regs] at moved₃
  rw [Hart.with_regs, Hart.with_mem, sp₁] at same₃
  refine ⟨sMoves.foldl (moveReg h.csrs) regs₁, mip₃, mem₃, ?_, ⟨rfl, rfl, rfl, sp₁, sp₁⟩, ?_⟩
  · change runVector sink env n (first ++ (stores slot ++ sMoves)) (h.with regs mip mem) = _
    rw [runVector_append, moved, Option.bind_some, runVector_append, stored, Option.bind_some,
      moved₃]
  · intro s member
    have inside := sSaves_saveList.inside s member
    calc mem₃ (regs .sp + BitVec.ofNat 64 s.2)
        = mem₂ (regs .sp + BitVec.ofNat 64 s.2) := same₃ _ inside
      _ = mem₁ (regs .sp + BitVec.ofNat 64 s.2) :=
          kept₂ _ inside (by simpa [slot] using sSaves_apart s member)
      _ = mem (regs .sp + BitVec.ofNat 64 s.2) := same₁ _ inside

/-- From the call on: `sepc` comes back from the frame, past the ecall. -/
theorem run_sAfter (sink : Sink) (env : Nat → Surroundings) {h : Hart} (masked : h.Masked)
    (n : Nat) {regs : Reg → BitVec 64} (mip : BitVec 64) (mem : Mem)
    (a0 : regs .a0 = CAUSE_ECALL_SMODE) (a1 : regs .a1 = h.csrs.stval)
    (a2 : regs .a2 = h.csrs.sepc) (a3 : regs .a3 = regs .sp) :
    ∃ regs' mip' mem', runVector sink env n (.callS :: sAfter) (h.with regs mip mem) =
        some (h.handled.with regs' mip' mem') ∧ regs' .sp = regs .sp ∧
      ∀ s ∈ sSaves, mem' (regs .sp + BitVec.ofNat 64 s.2) =
        mem (regs .sp + BitVec.ofNat 64 s.2) := by
  let slot : List (Reg × Nat) := [(.t0, 240)]
  have called := exec_callS sink (env n) h mip mem a0
  rw [a1, a2, a3] at called
  let noted : Hart := { h with
    trap := h.trap.ecall h.csrs.stval h.csrs.sepc
    out := h.out ++ ecallLine h.csrs.sepc }
  let regs₁ : Reg → BitVec 64 := fun q => if callerSaved q then (env n).unknown q else regs q
  let mem₁ : Mem := ((env n).around (regs .sp) mem).store (frameWord (regs .sp) 30)
    (h.csrs.sepc + 4)
  change exec sink (env n) _ .callS = some (noted.with regs₁ (env n).mip mem₁) at called
  have sp₁ : regs₁ .sp = regs .sp := rfl
  have maskedNoted : noted.Masked := masked
  have masked₁ := maskedNoted.with regs₁ (env n).mip mem₁
  rcases run_loads sink env slot (n + 1) (noted.with regs₁ (env n).mip mem₁) masked₁ (by decide)
    (by decide) (by decide) with ⟨regs₂, mip₂, mem₂, loaded, same₂, restored, unloaded⟩
  rw [Hart.with_with] at loaded
  rw [Hart.with_regs, Hart.with_mem, sp₁] at same₂
  rw [Hart.with_regs, Hart.with_mem, sp₁] at restored
  have sp₂ : regs₂ .sp = regs .sp := (unloaded .sp (by decide)).trans sp₁
  have t0 : regs₂ .t0 = h.csrs.sepc + 4 :=
    (restored (.t0, 240) List.mem_cons_self).trans (Mem.store_same ..)
  have masked₂ := maskedNoted.with regs₂ mip₂ mem₂
  let n₂ := n + 1 + (loads slot).length
  have written : runVector sink env n₂ [.csrw .sepc .t0] (noted.with regs₂ mip₂ mem₂) =
      some (h.handled.with regs₂ (env n₂).mip ((env n₂).around (regs .sp) mem₂)) := by
    rw [runVector_single masked₂, Hart.disturb_with, sp₂, exec, Hart.with_regs, t0]
    rfl
  refine ⟨regs₂, (env n₂).mip, (env n₂).around (regs .sp) mem₂, ?_, sp₂, ?_⟩
  · change runVector sink env n (.callS :: (loads slot ++ [.csrw .sepc .t0])) _ = _
    rw [runVector_cons (masked.with regs mip mem), called, Option.bind_some, runVector_append,
      loaded, Option.bind_some, written]
  · intro s member
    have inside := sSaves_saveList.inside s member
    have other : regs .sp + BitVec.ofNat 64 s.2 ≠ frameWord (regs .sp) 30 :=
      fun same => sSaves_apart s member (offset_injective _ inside (by omega) same)
    calc (env n₂).around (regs .sp) mem₂ (regs .sp + BitVec.ofNat 64 s.2)
        = mem₂ (regs .sp + BitVec.ofNat 64 s.2) := (env n₂).around_sameFrame _ _ _ inside
      _ = mem₁ (regs .sp + BitVec.ofNat 64 s.2) := same₂ _ inside
      _ = (env n).around (regs .sp) mem (regs .sp + BitVec.ofNat 64 s.2) :=
          Mem.store_other _ _ _ _ other
      _ = mem (regs .sp + BitVec.ofNat 64 s.2) := (env n).around_sameFrame _ _ _ inside

theorem run_sCall {sink : Sink} {env : Nat → Surroundings} {h : Hart} (masked : h.Masked)
    (cause : h.csrs.scause = CAUSE_ECALL_SMODE) : Calls sink env sSaves sCall h h.handled := by
  intro n regs mip mem saved
  obtain ⟨regs₁, mip₁, mem₁, before, ⟨a0, a1, a2, a3, sp₁⟩, kept₁⟩ :=
    run_sBefore sink env masked n regs mip mem
  obtain ⟨regs₂, mip₂, mem₂, after, sp₂, kept₂⟩ :=
    run_sAfter sink env masked (n + sBefore.length) mip₁ mem₁ (a0.trans cause) a1 a2
      (a3.trans sp₁.symm)
  rw [sp₁] at kept₂ sp₂
  refine ⟨regs₂, mip₂, mem₂, ?_, sp₂, ?_, ?_⟩
  · have sequence : sCall = sBefore ++ .callS :: sAfter := rfl
    rw [sequence, runVector_append, before, Option.bind_some, after]
  · exact fun s member => (kept₂ s member).trans (kept₁ s member)
  · intro r notStack unsaved
    rcases sSaves_complete r with stack | member
    · exact absurd stack notStack
    · exact absurd member unsaved

/-- `_s_trap_vector` around the handler. -/
theorem run_sTrapVector (sink : Sink) (env : Nat → Surroundings) {h : Hart} (masked : h.Masked)
    (cause : h.csrs.scause = CAUSE_ECALL_SMODE) :
    ∃ mip mem, runVector sink env 0 sTrapVector h = some (h.handled.with h.regs mip mem).sret := by
  have masked' : h.handled.Masked := masked
  rcases run_frame 256 .sret 0 sSaves_saveList masked masked' (run_sCall masked cause) with
    ⟨n, mip, mem, ran⟩
  exact ⟨mip, mem, ran⟩

/-- S-mode does not see the bits that a mask leaves out. -/
theorem setBit_hidden (w mask : BitVec 64) {i : Nat} (b : Bool) (inside : i < 64)
    (hidden : mask.getLsbD i = false) : setBit w i b &&& mask = w &&& mask := by
  apply BitVec.eq_of_getLsbD_eq
  intro j _
  rw [BitVec.getLsbD_and, BitVec.getLsbD_and, getLsbD_setBit w b j inside]
  by_cases same : j = i
  · rw [same, hidden, Bool.and_false, Bool.and_false]
  · rw [if_neg same]

/-- `mstatus` in `m_trap_handler` on an `ecall` from S-mode. -/
def Csrs.entryStatus (c : Csrs) : BitVec 64 :=
  setBit (setBit (setBit (setBit c.mstatus MPIE (c.mstatus.getLsbD MIE)) MIE false) MPP_LOW true)
    MPP_HIGH false

theorem Hart.trapToM_mstatus {h : Hart} (mode : h.mode = .S) (cause tval : BitVec 64) :
    (h.trapToM cause tval).csrs.mstatus = h.csrs.entryStatus := by
  unfold Hart.trapToM
  rw [mode]
  rfl

theorem Csrs.entryStatus_masked (c : Csrs) :
    c.entryStatus &&& SSTATUS_MASK = c.mstatus &&& SSTATUS_MASK := by
  unfold Csrs.entryStatus
  rw [setBit_hidden _ _ _ (by decide) (by decide), setBit_hidden _ _ _ (by decide) (by decide),
    setBit_hidden _ _ _ (by decide) (by decide), setBit_hidden _ _ _ (by decide) (by decide)]

theorem Csrs.entryStatus_mpp (c : Csrs) : mppMode (c.entryStatus ||| MSTATUS_SPP) = .S := by
  have high : (c.entryStatus ||| MSTATUS_SPP).getLsbD MPP_HIGH = false := by
    rw [BitVec.getLsbD_or, Csrs.entryStatus, getLsbD_setBit _ _ _ (by decide)]
    rfl
  have low : (c.entryStatus ||| MSTATUS_SPP).getLsbD MPP_LOW = true := by
    rw [BitVec.getLsbD_or, Csrs.entryStatus, getLsbD_setBit _ _ _ (by decide),
      getLsbD_setBit _ _ _ (by decide)]
    rfl
  rw [mppMode, high, low]
  rfl

/-- The reflection returns to S-mode and changes only SPP in `sstatus`. -/
theorem Hart.reflected_status {h : Hart} (mode : h.mode = .S) :
    h.reflected.mode = .S ∧
      h.reflected.sstatus = setBit h.csrs.mstatus SPP true &&& SSTATUS_MASK := by
  have status : (h.trapToM CAUSE_ECALL_SMODE 0).csrs.reflected.mstatus =
      h.csrs.entryStatus ||| MSTATUS_SPP := by
    rw [← Hart.trapToM_mstatus mode CAUSE_ECALL_SMODE 0]
    rfl
  have spp : MSTATUS_SPP = BitVec.twoPow 64 SPP := by decide
  unfold Hart.reflected Hart.mret Hart.sstatus
  simp only [status, Csrs.entryStatus_mpp, reduceCtorEq, ↓reduceIte, true_and]
  rw [setBit_hidden _ _ _ (by decide) (by decide), setBit_hidden _ _ _ (by decide) (by decide),
    setBit_hidden _ _ _ (by decide) (by decide), setBit_hidden _ _ _ (by decide) (by decide),
    setBit_hidden _ _ _ (by decide) (by decide), BitVec.and_or_distrib_right,
    Csrs.entryStatus_masked, ← BitVec.and_or_distrib_right, spp]
  rfl

/-- What S-mode sees of a trap. Pending bits belong to the environment. -/
structure SView where
  mode : Mode
  pc : BitVec 64
  regs : Reg → BitVec 64
  sstatus : BitVec 64
  sie : BitVec 64
  stvec : BitVec 64
  scause : BitVec 64
  sepc : BitVec 64
  stval : BitVec 64
  satp : BitVec 64

def Hart.sView (h : Hart) : SView where
  mode := h.mode
  pc := h.pc
  regs := h.regs
  sstatus := h.sstatus
  sie := h.csrs.mie &&& h.csrs.mideleg
  stvec := h.csrs.stvec
  scause := h.csrs.scause
  sepc := h.csrs.sepc
  stval := h.csrs.stval
  satp := h.csrs.satp

/-- Execution past an `ecall` of `h`. -/
structure ResumesAfter (h h' : Hart) : Prop where
  mode : h'.mode = .S
  pc : h'.pc = h.pc + 4
  sie : h'.csrs.mstatus.getLsbD SIE = h.csrs.mstatus.getLsbD SIE
  regs : h'.regs = h.regs

/-- The reflection of an `ecall` of `h` looks like its delegation and is handled like it,
whatever is pending meanwhile. -/
def ReflectsAsDelegated (sink : Sink) (h : Hart) : Prop :=
  ∀ env, ∃ h', runVector sink env 0 mTrapVector (h.trapToM CAUSE_ECALL_SMODE 0) = some h' ∧
    h'.sView = (h.trapToS CAUSE_ECALL_SMODE 0).sView ∧
    ∀ env', ∃ h'', runVector sink env' 0 sTrapVector h' = some h'' ∧ ResumesAfter h h''

/-- `sret` after the handler, from a state with the S-mode view of a trap taken in S-mode. -/
theorem resumesAfter_sret {h handled : Hart} (pc : handled.csrs.sepc = h.pc + 4)
    (spp : handled.csrs.mstatus.getLsbD SPP = true)
    (spie : handled.csrs.mstatus.getLsbD SPIE = h.csrs.mstatus.getLsbD SIE)
    (regs : handled.regs = h.regs) : ResumesAfter h handled.sret := by
  constructor
  · simp only [Hart.sret, spp, ↓reduceIte]
  · exact pc
  · simp only [Hart.sret]
    rw [getLsbD_setBit _ _ _ (by decide), getLsbD_setBit _ _ _ (by decide),
      getLsbD_setBit _ _ _ (by decide), getLsbD_setBit _ _ _ (by decide), spie]
    rfl
  · exact regs

theorem trapToS_bits (h : Hart) (cause tval : BitVec 64) :
    (h.trapToS cause tval).csrs.mstatus.getLsbD SIE = false ∧
      (h.trapToS cause tval).csrs.mstatus.getLsbD SPIE = h.csrs.mstatus.getLsbD SIE ∧
      (h.trapToS cause tval).csrs.mstatus.getLsbD SPP = (h.mode == .S) := by
  simp only [Hart.trapToS]
  rw [getLsbD_setBit _ _ _ (by decide), getLsbD_setBit _ _ _ (by decide),
    getLsbD_setBit _ _ _ (by decide), getLsbD_setBit _ _ _ (by decide),
    getLsbD_setBit _ _ _ (by decide), getLsbD_setBit _ _ _ (by decide),
    getLsbD_setBit _ _ _ (by decide)]
  exact ⟨rfl, rfl, rfl⟩

/-- A delegated `ecall` resumes past itself, whatever is pending meanwhile. -/
theorem delegated_resumes (sink : Sink) (env : Nat → Surroundings) {h : Hart}
    (mode : h.mode = .S) :
    ∃ h', runVector sink env 0 sTrapVector (h.trapToS CAUSE_ECALL_SMODE 0) = some h' ∧
      ResumesAfter h h' := by
  rcases trapToS_bits h CAUSE_ECALL_SMODE 0 with ⟨sie, spie, spp⟩
  have masked : (h.trapToS CAUSE_ECALL_SMODE 0).Masked := Or.inr sie
  rcases run_sTrapVector sink env masked rfl with ⟨mip, mem, ran⟩
  refine ⟨_, ran, resumesAfter_sret rfl ?_ spie rfl⟩
  rw [mode] at spp
  exact spp

theorem sstatus_bit {h h' : Hart} (same : h.sstatus = h'.sstatus) (i : Nat)
    (shown : SSTATUS_MASK.getLsbD i = true) :
    h.csrs.mstatus.getLsbD i = h'.csrs.mstatus.getLsbD i := by
  have bits := congrArg (BitVec.getLsbD · i) same
  simpa only [Hart.sstatus, BitVec.getLsbD_and, shown, Bool.and_true] using bits

theorem Hart.reflected_bit {h : Hart} (mode : h.mode = .S) (i : Nat)
    (shown : SSTATUS_MASK.getLsbD i = true) :
    h.reflected.csrs.mstatus.getLsbD i = if i = SPP then true else h.csrs.mstatus.getLsbD i := by
  have bits := congrArg (BitVec.getLsbD · i) (Hart.reflected_status mode).2
  simp only [Hart.sstatus, BitVec.getLsbD_and, shown, Bool.and_true] at bits
  rw [bits, getLsbD_setBit _ _ _ (by decide)]

/-- A reflection that looks like the delegation finds interrupts off, and off before. -/
theorem ReflectsAsDelegated.interrupts_off {sink : Sink} {h : Hart} (mode : h.mode = .S)
    (other : ¬ IsSbi (h.regs .a7)) (reflects : ReflectsAsDelegated sink h) :
    h.csrs.mstatus.getLsbD SIE = false ∧ h.csrs.mstatus.getLsbD SPIE = false := by
  let quiet : Nat → Surroundings := fun _ => ⟨0, h.mem, h.regs⟩
  rcases reflects quiet with ⟨h', ran, view, -⟩
  rcases run_mTrapVector sink quiet other with ⟨mip, mem, ran'⟩
  rw [ran'] at ran
  have reached : h.reflected.with h.regs mip mem = h' := Option.some.inj ran
  have status : h.reflected.sstatus = (h.trapToS CAUSE_ECALL_SMODE 0).sstatus := by
    have same := congrArg SView.sstatus view
    rw [← reached] at same
    exact same
  rcases trapToS_bits h CAUSE_ECALL_SMODE 0 with ⟨sie, spie, -⟩
  have off : h.csrs.mstatus.getLsbD SIE = false := by
    have bit := sstatus_bit status SIE (by decide)
    rw [Hart.reflected_bit mode SIE (by decide), sie] at bit
    exact bit
  have offBefore : h.csrs.mstatus.getLsbD SPIE = h.csrs.mstatus.getLsbD SIE := by
    have bit := sstatus_bit status SPIE (by decide)
    rw [Hart.reflected_bit mode SPIE (by decide), spie] at bit
    exact bit
  exact ⟨off, offBefore.trans off⟩

/-- With interrupts off and off before, both `sstatus` are the same. -/
theorem reflected_sstatus_of_off {h : Hart} (mode : h.mode = .S)
    (sie : h.csrs.mstatus.getLsbD SIE = false) (spie : h.csrs.mstatus.getLsbD SPIE = false) :
    h.reflected.sstatus = (h.trapToS CAUSE_ECALL_SMODE 0).sstatus := by
  rw [(Hart.reflected_status mode).2, Hart.sstatus]
  congr 1
  apply BitVec.eq_of_getLsbD_eq
  intro j _
  simp only [Hart.trapToS, mode, sie]
  rw [getLsbD_setBit _ _ _ (by decide), getLsbD_setBit _ _ _ (by decide),
    getLsbD_setBit _ _ _ (by decide), getLsbD_setBit _ _ _ (by decide)]
  by_cases isSpp : j = SPP
  · rw [if_pos isSpp, if_pos isSpp]
    rfl
  · rw [if_neg isSpp, if_neg isSpp]
    by_cases isSie : j = SIE
    · rw [if_pos isSie, isSie, sie]
    · rw [if_neg isSie]
      by_cases isSpie : j = SPIE
      · rw [if_pos isSpie, isSpie, spie]
      · rw [if_neg isSpie]

theorem reflectsAsDelegated_of_off {sink : Sink} {h : Hart} (mode : h.mode = .S)
    (other : ¬ IsSbi (h.regs .a7)) (sie : h.csrs.mstatus.getLsbD SIE = false)
    (spie : h.csrs.mstatus.getLsbD SPIE = false) : ReflectsAsDelegated sink h := by
  intro env
  rcases run_mTrapVector sink env other with ⟨mip, mem, ran⟩
  let h' := h.reflected.with h.regs mip mem
  have status := reflected_sstatus_of_off mode sie spie
  have view : h'.sView = (h.trapToS CAUSE_ECALL_SMODE 0).sView := by
    have mode' : h.reflected.mode = .S := (Hart.reflected_status mode).1
    change SView.mk h.reflected.mode _ _ h.reflected.sstatus _ _ _ _ _ _ =
      SView.mk _ _ _ _ _ _ _ _ _ _
    rw [mode', status]
    rfl
  refine ⟨h', ran, view, ?_⟩
  intro env'
  have bit := Hart.reflected_bit mode
  have masked : h'.Masked := Or.inr ((bit SIE (by decide)).trans sie)
  rcases run_sTrapVector sink env' masked rfl with ⟨mip', mem', ran'⟩
  refine ⟨_, ran', resumesAfter_sret rfl (bit SPP (by decide)) ?_ rfl⟩
  rw [sie, ← spie]
  exact bit SPIE (by decide)

/-- The reflection of an `ecall` from S-mode equals its delegation exactly when S-mode
interrupts are off and were off before the last trap. The frames at `sp - 128` and `sp - 256` are
taken to be RAM that M-mode and S-mode see alike. -/
theorem ecall_reflection_iff {sink : Sink} {h : Hart} (mode : h.mode = .S)
    (other : ¬ IsSbi (h.regs .a7)) :
    ReflectsAsDelegated sink h ↔
      h.csrs.mstatus.getLsbD SIE = false ∧ h.csrs.mstatus.getLsbD SPIE = false := by
  constructor
  · exact ReflectsAsDelegated.interrupts_off mode other
  · rintro ⟨sie, spie⟩
    exact reflectsAsDelegated_of_off mode other sie spie

theorem ecall_reflection_iff_off :
    ReflectsAsDelegated .htif (sModeHart 0 0 0x222) ↔
      (sModeHart 0 0 0x222).csrs.mstatus.getLsbD SIE = false ∧
        (sModeHart 0 0 0x222).csrs.mstatus.getLsbD SPIE = false :=
  ecall_reflection_iff rfl (by decide)

/-- With interrupts on, the reflection leaves them on. -/
theorem ecall_with_interrupts_differs :
    ¬ ∀ (sink : Sink) (h : Hart), h.mode = .S → ¬ IsSbi (h.regs .a7) →
      ReflectsAsDelegated sink h := by
  intro always
  have reflects := always .htif (sModeHart 0 0x2 0x222) rfl (by decide)
  have off := (reflects.interrupts_off rfl (by decide)).1
  cases off

end ZephyrRiscv
