import ZephyrRiscv.TrapVectors

set_option autoImplicit false

namespace ZephyrRiscv

open Verdict

/-- Bit numbers in `mip`, `mie` and `mideleg`. -/
def SSI : Nat := 1
def MSI : Nat := 3
def STI : Nat := 5
def MTI : Nat := 7

/-- What decides a hart's timer and software interrupts. -/
structure Lines where
  ssip : Bool
  stip : Bool
  msie : Bool
  mtie : Bool
  mtimecmp : BitVec 64
  msip : BitVec 32
deriving DecidableEq, Repr

def Hart.lines (h : Hart) : Lines where
  ssip := h.mip.getLsbD SSI
  stip := h.mip.getLsbD STI
  msie := h.csrs.mie.getLsbD MSI
  mtie := h.csrs.mie.getLsbD MTI
  mtimecmp := h.clint.mtimecmp h.csrs.mhartid
  msip := h.clint.msip h.csrs.mhartid

/-- An interrupt in M-mode, from its handler's first effect to its last. -/
def Hart.mInterrupt (sink : Sink) (h : Hart) (irq : BitVec 64) : Hart :=
  (mTrapHandler (h.mContext sink) (interruptCause irq) h.pc 0 fun _ => 0).1.foldl Hart.applyM h

/-- `SBI_SEND_IPI` of any hart. The CLINT is shared, so a store of the sender is seen here. -/
def Hart.ipiFrom (sink : Sink) (sender : BitVec 64) (h : Hart) (target : BitVec 64) : Hart :=
  (mTrapHandler { h.mContext sink with mhartid := sender } CAUSE_ECALL_SMODE h.pc 0
    (sbiFrame SBI_SEND_IPI target)).1.foldl Hart.applyM h

/-- S-mode takes the interrupt now, unless its handler runs. -/
def Hart.takesS (h : Hart) (i : Nat) : Bool :=
  h.csrs.mstatus.getLsbD SIE && h.mip.getLsbD i && h.csrs.mie.getLsbD i && h.csrs.mideleg.getLsbD i

/-- A write of one bit of `sie`, which shows the delegated bits of `mie`. -/
def Hart.writeSie (h : Hart) (i : Nat) (on : Bool) : Hart :=
  { h with csrs := { h.csrs with
      mie := if h.csrs.mideleg.getLsbD i then setBit h.csrs.mie i on else h.csrs.mie } }

/-- A write of `sstatus.SIE`. -/
def Hart.writeSstatusSie (h : Hart) (on : Bool) : Hart :=
  { h with csrs := { h.csrs with mstatus := setBit h.csrs.mstatus SIE on } }

/-- A hart in S-mode with what is left to do of its `s_trap_handler`. -/
structure Core where
  hart : Hart
  handler : Option (List SEffect)

/-- An S-mode interrupt is taken. SIE is clear while the handler runs. -/
def Core.sInterrupt (c : Core) (irq : BitVec 64) : Option Core :=
  if c.handler.isNone ∧ c.hart.takesS irq.toNat then
    let hart := c.hart.trapToS (interruptCause irq) 0
    let effects := sTrapHandler hart.sContext hart.csrs.scause hart.csrs.stval hart.csrs.sepc
    some { hart, handler := some effects }
  else none

/-- The next effect of the handler, or its `sret`. -/
def Core.handlerStep (sink : Sink) (c : Core) : Option Core :=
  match c.handler with
  | none => none
  | some [] => some { hart := c.hart.sret, handler := none }
  | some (effect :: rest) =>
      (c.hart.applyS sink (c.hart.regs .sp - 256) effect).map fun hart =>
        { hart, handler := some rest }

theorem lines_mTimer (sink : Sink) (h : Hart) :
    (h.mInterrupt sink IRQ_M_TIMER).lines =
      { h.lines with mtie := false, mtimecmp := 0xFFFFFFFFFFFFFFFF, stip := true } := by
  have effects : ∀ ctx, (mTrapHandler ctx (interruptCause IRQ_M_TIMER) h.pc 0 fun _ => 0).1 =
      [.csrcMie MIP_MTIP, .mtimecmp ctx.mhartid 0xFFFFFFFFFFFFFFFF, .csrsMip MIP_STIP] :=
    fun _ => rfl
  unfold Hart.mInterrupt
  rw [effects]
  simp [Hart.lines, Hart.applyM, Hart.mContext, SSI, STI, MSI, MTI, MIP_MTIP, MIP_STIP]

theorem lines_mSoft (sink : Sink) (h : Hart) :
    (h.mInterrupt sink IRQ_M_SOFT).lines = { h.lines with msip := 0, ssip := true } := by
  have effects : ∀ ctx, (mTrapHandler ctx (interruptCause IRQ_M_SOFT) h.pc 0 fun _ => 0).1 =
      [.msip ctx.mhartid 0, .csrsMip MIP_SSIP] := fun _ => rfl
  unfold Hart.mInterrupt
  rw [effects]
  simp [Hart.lines, Hart.applyM, Hart.mContext, SSI, STI, MIP_SSIP]

theorem lines_setTimer (sink : Sink) (h : Hart) (value : BitVec 64) :
    (h.sbi sink SBI_SET_TIMER value).lines =
      { h.lines with mtimecmp := value, stip := false, mtie := true } := by
  have effects : ∀ ctx, (mTrapHandler ctx CAUSE_ECALL_SMODE h.pc 0
      (sbiFrame SBI_SET_TIMER value)).1 =
      [.mtimecmp ctx.mhartid value, .csrcMip MIP_STIP, .csrsMie MIP_MTIP] := fun _ => rfl
  unfold Hart.sbi
  rw [effects]
  simp [Hart.lines, Hart.applyM, Hart.mContext, SSI, STI, MSI, MTI, MIP_MTIP, MIP_STIP]

theorem lines_ipiFrom (sink : Sink) (sender : BitVec 64) (h : Hart)
    (known : h.csrs.mhartid < NUM_HARTS) :
    (h.ipiFrom sink sender h.csrs.mhartid).lines = { h.lines with msip := 1 } := by
  have effects : ∀ ctx, (mTrapHandler ctx CAUSE_ECALL_SMODE h.pc 0
      (sbiFrame SBI_SEND_IPI h.csrs.mhartid)).1 =
      if h.csrs.mhartid < NUM_HARTS then [.msip h.csrs.mhartid 1] else [] := fun _ => rfl
  unfold Hart.ipiFrom
  rw [effects, if_pos known]
  simp [Hart.lines, Hart.applyM]

@[simp] theorem lines_trapToS (h : Hart) (cause tval : BitVec 64) :
    (h.trapToS cause tval).lines = h.lines := rfl

@[simp] theorem lines_sret (h : Hart) : h.sret.lines = h.lines := rfl

@[simp] theorem lines_writeSstatusSie (h : Hart) (on : Bool) :
    (h.writeSstatusSie on).lines = h.lines := rfl

/-- The S-mode enables are no lines. -/
theorem lines_writeSie (h : Hart) {i : Nat} (on : Bool) (inside : i < 64) (soft : i ≠ MSI)
    (timer : i ≠ MTI) : (h.writeSie i on).lines = h.lines := by
  unfold Hart.writeSie Hart.lines
  split
  · simp only [getLsbD_setBit _ on _ inside, soft.symm, timer.symm, ↓reduceIte]
  · rfl

/-- An effect of `s_trap_handler` that leaves the lines alone. -/
def SEffect.quiet : SEffect → Bool
  | .ecall _ _ | .csrcSip _ => false
  | _ => true

theorem lines_quiet {sink : Sink} {frame : BitVec 64} {h h' : Hart} {effect : SEffect}
    (quiet : effect.quiet = true) (applied : h.applyS sink frame effect = some h') :
    h'.lines = h.lines := by
  cases effect with
  | ecall => cases quiet
  | csrcSip => cases quiet
  | testFail => cases applied
  | _ =>
      cases applied
      rfl

theorem lines_csrcSip {sink : Sink} {frame : BitVec 64} {h h' : Hart}
    (delegated : h.csrs.mideleg.getLsbD SSI = true)
    (applied : h.applyS sink frame (.csrcSip MIP_SSIP) = some h') :
    h'.lines = { h.lines with ssip := false } := by
  rw [← Option.some.inj applied]
  unfold SSI at delegated
  simp [Hart.lines, SSI, STI, MIP_SSIP, delegated]

/-- Hart id and delegation, set once at boot. -/
def Hart.Configured (h h' : Hart) : Prop :=
  h'.csrs.mhartid = h.csrs.mhartid ∧ h'.csrs.mideleg = h.csrs.mideleg

theorem foldl_applyM_configured (effects : List MEffect) (h : Hart) :
    h.Configured (effects.foldl Hart.applyM h) ∧ (effects.foldl Hart.applyM h).trap = h.trap := by
  induction effects generalizing h with
  | nil => exact ⟨⟨rfl, rfl⟩, rfl⟩
  | cons effect effects ih =>
      rw [List.foldl_cons]
      have one : h.Configured (h.applyM effect) ∧ (h.applyM effect).trap = h.trap := by
        cases effect <;> exact ⟨⟨rfl, rfl⟩, rfl⟩
      rcases ih (h.applyM effect) with ⟨⟨hartid, mideleg⟩, trap⟩
      exact ⟨⟨hartid.trans one.1.1, mideleg.trans one.1.2⟩, trap.trans one.2⟩

theorem applyS_configured {sink : Sink} {frame : BitVec 64} {h h' : Hart} {effect : SEffect}
    (applied : h.applyS sink frame effect = some h') : h.Configured h' := by
  cases effect with
  | ecall a7 a0 =>
      rw [← Option.some.inj applied]
      exact (foldl_applyM_configured _ h).1
  | testFail => cases applied
  | _ =>
      rw [← Option.some.inj applied]
      exact ⟨rfl, rfl⟩

/-- Only a `count` changes a counter. -/
def TrapState.value (g : TrapState) : Counter → BitVec 32
  | .fault => g.faultCount
  | .irq => g.irqCount
  | .timerIrq => g.timerIrqCount
  | .softIrq => g.softIrqCount

theorem value_count (g : TrapState) (c counter : Counter) :
    (g.count c).value counter = g.value counter + if c = counter then 1#32 else 0#32 := by
  cases c <;> cases counter <;> simp [TrapState.count, TrapState.value]

theorem applyS_value {sink : Sink} {frame : BitVec 64} {h h' : Hart} {effect : SEffect}
    (counter : Counter) (applied : h.applyS sink frame effect = some h') :
    h'.trap.value counter =
      h.trap.value counter + if effect = .count counter then 1#32 else 0#32 := by
  cases effect with
  | count c =>
      rw [← Option.some.inj applied]
      have equal : (SEffect.count c = .count counter) = (c = counter) := by
        rw [SEffect.count.injEq]
      simp only [equal]
      exact value_count h.trap c counter
  | ecall a7 a0 =>
      cases applied
      rw [if_neg (by nofun), BitVec.add_zero]
      exact congrArg (TrapState.value · counter) (foldl_applyM_configured _ h).2
  | testFail => cases applied
  | _ =>
      cases applied
      rw [if_neg (by nofun)]
      exact (BitVec.add_zero _).symm

/-- `s_trap_handler` on a timer interrupt. -/
theorem sTrapHandler_timer (ctx : SContext) (stval sepc : BitVec 64) :
    sTrapHandler ctx (interruptCause IRQ_S_TIMER) stval sepc =
      [.trapRecord (interruptCause IRQ_S_TIMER) stval sepc, .count .fault, .count .irq,
        .lastIrqCause (interruptCause IRQ_S_TIMER), .count .timerIrq] ++
      [.ecall SBI_SET_TIMER 0xFFFFFFFFFFFFFFFF] := rfl

/-- `s_trap_handler` on a software interrupt. -/
theorem sTrapHandler_soft (ctx : SContext) (stval sepc : BitVec 64) :
    sTrapHandler ctx (interruptCause IRQ_S_SOFT) stval sepc =
      [.trapRecord (interruptCause IRQ_S_SOFT) stval sepc, .count .fault, .count .irq,
        .lastIrqCause (interruptCause IRQ_S_SOFT), .count .softIrq] ++ [.csrcSip MIP_SSIP] := rfl

theorem sInterrupt_cases {c c' : Core} {irq : BitVec 64} (taken : c.sInterrupt irq = some c') :
    c.handler = none ∧ c.hart.takesS irq.toNat = true ∧ ∃ hart ctx sepc,
      c' = { hart, handler := some (sTrapHandler ctx (interruptCause irq) 0 sepc) } ∧
      hart.lines = c.hart.lines ∧ hart.trap = c.hart.trap ∧ c.hart.Configured hart := by
  unfold Core.sInterrupt at taken
  split at taken
  case isFalse => cases taken
  case isTrue possible =>
    have same := Option.some.inj taken
    exact ⟨Option.isNone_iff_eq_none.mp possible.1, possible.2, _, _, _, same.symm, rfl, rfl, rfl,
      rfl⟩

theorem handlerStep_cases {sink : Sink} {c c' : Core} (stepped : c.handlerStep sink = some c') :
    (c.handler = some [] ∧ c' = { hart := c.hart.sret, handler := none }) ∨
      ∃ effect rest hart, c.handler = some (effect :: rest) ∧
        c.hart.applyS sink (c.hart.regs .sp - 256) effect = some hart ∧
        c' = { hart, handler := some rest } := by
  unfold Core.handlerStep at stepped
  split at stepped
  · cases stepped
  · rename_i finished
    exact Or.inl ⟨finished, (Option.some.inj stepped).symm⟩
  · rename_i effect rest running
    rcases Option.map_eq_some_iff.mp stepped with ⟨hart, applied, same⟩
    exact Or.inr ⟨effect, rest, hart, running, applied, same.symm⟩

theorem takesS_pending {h : Hart} {i : Nat} (taken : h.takesS i = true) :
    h.mip.getLsbD i = true := by
  unfold Hart.takesS at taken
  simp only [Bool.and_eq_true] at taken
  exact taken.1.1.2

/-- What may be left of a handler: quiet effects up to its last one, or nothing. -/
inductive Remaining (last : SEffect) : List SEffect → Prop
  | ahead {quiet : List SEffect} (all : ∀ e ∈ quiet, e.quiet = true) :
      Remaining last (quiet ++ [last])
  | done : Remaining last []

theorem Remaining.cons_cases {last effect : SEffect} {rest : List SEffect}
    (remaining : Remaining last (effect :: rest)) :
    (effect.quiet = true ∧ Remaining last rest ∧ rest ≠ []) ∨ (effect = last ∧ rest = []) := by
  generalize whole : effect :: rest = effects at remaining
  cases remaining with
  | done => cases whole
  | @ahead quiet all =>
      cases quiet with
      | nil =>
          cases whole
          exact Or.inr ⟨rfl, rfl⟩
      | cons first quiet =>
          cases whole
          have later : ∀ e ∈ quiet, e.quiet = true :=
            fun e member => all e (List.mem_cons_of_mem effect member)
          exact Or.inl ⟨all effect List.mem_cons_self, .ahead later, by simp⟩

/-- How many times the handler will still count. -/
def uncounted (counter : Counter) : Option (List SEffect) → Nat
  | none => 0
  | some rest => rest.count (.count counter)

theorem uncounted_cons (counter : Counter) (effect : SEffect) (rest : List SEffect) :
    uncounted counter (some (effect :: rest)) =
      uncounted counter (some rest) + if effect = .count counter then 1 else 0 := by
  simp only [uncounted, List.count_cons, beq_iff_eq]

/-- A counter that started at `start` and will have counted `total` when the handler is done. -/
def Counts (counter : Counter) (start : BitVec 32) (c : Core) (total : Nat) : Prop :=
  ∃ k, c.hart.trap.value counter = start + BitVec.ofNat 32 k ∧
    k + uncounted counter c.handler = total

theorem Counts.handlerStep {sink : Sink} {counter : Counter} {start : BitVec 32} {c c' : Core}
    {total : Nat} (counts : Counts counter start c total)
    (stepped : c.handlerStep sink = some c') : Counts counter start c' total := by
  rcases counts with ⟨k, value, sum⟩
  rcases handlerStep_cases stepped with
    ⟨finished, rfl⟩ | ⟨effect, rest, hart, running, applied, rfl⟩
  · rw [finished] at sum
    exact ⟨k, value, sum⟩
  · have now := applyS_value counter applied
    rw [running, uncounted_cons] at sum
    by_cases isCount : effect = .count counter
    · rw [if_pos isCount] at now sum
      refine ⟨k + 1, ?_, ?_⟩
      · rw [now, value, BitVec.ofNat_add, BitVec.add_assoc]
      · simp only
        omega
    · rw [if_neg isCount] at now sum
      refine ⟨k, ?_, sum⟩
      rw [now, value, BitVec.add_zero]

/-- The handler has still to clear SSIP. -/
def Core.acking (c : Core) : Bool := c.handler.any fun rest => rest.contains (.csrcSip MIP_SSIP)

theorem acking_of_idle {c : Core} (idle : c.handler = none) : c.acking = false := by
  rw [Core.acking, idle]
  rfl

/-- A hart that takes software interrupts only. -/
structure Soft (target : BitVec 64) (c : Core) : Prop where
  mhartid : c.hart.csrs.mhartid = target
  mideleg : c.hart.csrs.mideleg.getLsbD SSI = true
  handling : ∀ rest, c.handler = some rest → Remaining (.csrcSip MIP_SSIP) rest

theorem Soft.keep {target : BitVec 64} {c : Core} {hart : Hart} (soft : Soft target c)
    (configured : c.hart.Configured hart) : Soft target { c with hart } := by
  constructor
  · exact configured.1.trans soft.mhartid
  · exact (congrArg (BitVec.getLsbD · SSI) configured.2).trans soft.mideleg
  · exact soft.handling

theorem Soft.ipiFrom {target : BitVec 64} {c : Core} (sink : Sink) (sender : BitVec 64)
    (soft : Soft target c) (known : target < NUM_HARTS) :
    Soft target { c with hart := c.hart.ipiFrom sink sender c.hart.csrs.mhartid } ∧
      (c.hart.ipiFrom sink sender c.hart.csrs.mhartid).lines = { c.hart.lines with msip := 1 } := by
  have known' : c.hart.csrs.mhartid < NUM_HARTS := by
    rw [soft.mhartid]
    exact known
  exact ⟨soft.keep (foldl_applyM_configured _ _).1, lines_ipiFrom sink sender c.hart known'⟩

theorem remaining_acking {c : Core} {rest : List SEffect} (running : c.handler = some rest)
    (remaining : Remaining (.csrcSip MIP_SSIP) rest) : c.acking = !rest.isEmpty := by
  rw [Core.acking, running]
  cases remaining with
  | ahead => simp
  | done => rfl

theorem Soft.sInterrupt {target : BitVec 64} {c c' : Core} (soft : Soft target c)
    (taken : c.sInterrupt IRQ_S_SOFT = some c') :
    Soft target c' ∧ c'.hart.lines = c.hart.lines ∧ c.hart.lines.ssip = true ∧
      c.acking = false ∧ c'.acking = true := by
  rcases sInterrupt_cases taken with ⟨idle, possible, hart, ctx, sepc, rfl, lines, -, configured⟩
  refine ⟨?_, lines, takesS_pending possible, acking_of_idle idle, ?_⟩
  · constructor
    · exact configured.1.trans soft.mhartid
    · exact (congrArg (BitVec.getLsbD · SSI) configured.2).trans soft.mideleg
    · intro rest running
      rw [sTrapHandler_soft] at running
      cases running
      exact .ahead (by simp [SEffect.quiet])
  · simp [Core.acking, sTrapHandler_soft]

/-- The handler either leaves the lines alone or clears SSIP. -/
theorem Soft.handlerStep {sink : Sink} {target : BitVec 64} {c c' : Core} (soft : Soft target c)
    (stepped : c.handlerStep sink = some c') :
    Soft target c' ∧ ((c'.hart.lines = c.hart.lines ∧ c'.acking = c.acking) ∨
      (c.handler = some [.csrcSip MIP_SSIP] ∧ c.acking = true ∧ c'.acking = false ∧
        c'.hart.lines = { c.hart.lines with ssip := false })) := by
  rcases handlerStep_cases stepped with
    ⟨finished, rfl⟩ | ⟨effect, rest, hart, running, applied, rfl⟩
  · refine ⟨⟨soft.mhartid, soft.mideleg, by nofun⟩, Or.inl ⟨rfl, ?_⟩⟩
    rw [remaining_acking finished (soft.handling _ finished)]
    rfl
  · have remaining := soft.handling _ running
    have before := remaining_acking running remaining
    have configured := applyS_configured applied
    have soft' : Remaining (.csrcSip MIP_SSIP) rest →
        Soft target { hart, handler := some rest } := by
      intro remaining'
      refine ⟨configured.1.trans soft.mhartid, ?_, ?_⟩
      · exact (congrArg (BitVec.getLsbD · SSI) configured.2).trans soft.mideleg
      · intro rest' same
        cases same
        exact remaining'
    rcases remaining.cons_cases with ⟨quiet, remaining', more⟩ | ⟨rfl, rfl⟩
    · refine ⟨soft' remaining', Or.inl ⟨lines_quiet quiet applied, ?_⟩⟩
      rw [before, remaining_acking rfl remaining']
      cases rest with
      | nil => exact absurd rfl more
      | cons => rfl
    · exact ⟨soft' .done, Or.inr ⟨running, before, rfl, lines_csrcSip soft.mideleg applied⟩⟩

end ZephyrRiscv
