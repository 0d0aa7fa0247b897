import ZephyrRiscv.FaultAccounts

set_option autoImplicit false

namespace ZephyrRiscv

open Verdict

/-- SIE is set, or the handler's `sret` sets it, and the interrupt is enabled. -/
def Core.On (irq : Irq) (c : Core) : Prop :=
  c.hart.csrs.mstatus.getLsbD (if c.handler.isSome then SPIE else SIE) = true ∧
    c.hart.csrs.mie.getLsbD irq.bit = true

/-- The S-mode bit is set, or M-mode will set it. For the timer that is at a deadline. -/
def Core.Owes (irq : Irq) (deadline : BitVec 64 → Prop) (c : Core) : Prop :=
  c.hart.lines.pending irq = true ∨
    match irq with
    | .timer => c.hart.lines.mtie = true ∧ deadline c.hart.lines.mtimecmp
    | .soft => c.hart.lines.msip.getLsbD 0 = true

/-- So many will have been counted, at the latest with the one that is on its way. -/
def Core.Due (irq : Irq) (n : Nat) (deadline : BitVec 64 → Prop) (c : Core) : Prop :=
  c.On irq ∧ (n ≤ c.total irq.counter ∨
    n ≤ c.total irq.counter + 1 ∧ c.acks irq = false ∧ c.Owes irq deadline)

section
variable {sink : Sink} {k : Irq → Nat} {c c' : Core} {irq : Irq} {n : Nat}
  {deadline : BitVec 64 → Prop}

/-- The total of an interrupt is small. -/
theorem Account.total_lt (account : Account k c) (irq : Irq) : c.total irq.counter < 2 ^ 32 := by
  have bound := account.total_bound irq
  have small := account.small irq
  omega

/-- What the handler changes of the enables. -/
theorem applyS_enables {frame : BitVec 64} {h hart : Hart} {e : SEffect} {rest : List SEffect}
    (shape : Shape (some (e :: rest))) (applied : h.applyS sink frame e = some hart) :
    hart.csrs.mstatus = h.csrs.mstatus ∧
      ∀ irq : Irq, hart.csrs.mie.getLsbD irq.bit = h.csrs.mie.getLsbD irq.bit := by
  rcases shape.cons_cases.2 with neutral | ⟨irq', rfl, -⟩ | ⟨irq', rfl, -⟩
  · cases e with
    | count counter =>
      cases applied
      exact ⟨rfl, fun _ => rfl⟩
    | ecall => cases neutral
    | testFail => cases neutral
    | _ =>
      cases applied
      exact ⟨rfl, fun _ => rfl⟩
  · cases applied
    exact ⟨rfl, fun _ => rfl⟩
  · cases irq' with
    | timer =>
      cases applied
      have effects : ∀ ctx, (mTrapHandler ctx CAUSE_ECALL_SMODE h.pc 0
          (sbiFrame SBI_SET_TIMER 0xFFFFFFFFFFFFFFFF)).1 =
          [.mtimecmp ctx.mhartid 0xFFFFFFFFFFFFFFFF, .csrcMip MIP_STIP, .csrsMie MIP_MTIP] :=
        fun _ => rfl
      have clear : ∀ irq : Irq, MIP_MTIP.getLsbD irq.bit = false := by
        intro irq
        cases irq <;> decide
      constructor
      · simp only [Hart.sbi, effects, List.foldl, Hart.applyM]
      · intro irq
        simp only [Hart.sbi, effects, List.foldl, Hart.applyM, BitVec.getLsbD_or, clear,
          Bool.or_false]
    | soft =>
      cases applied
      exact ⟨rfl, fun _ => rfl⟩

theorem sInterrupt_mstatus (taken : c.sInterrupt irq.number = some c') :
    c'.hart.csrs.mstatus.getLsbD SPIE = c.hart.csrs.mstatus.getLsbD SIE := by
  unfold Core.sInterrupt at taken
  split at taken
  case isFalse => cases taken
  case isTrue =>
    cases Option.some.inj taken
    simp only [Hart.trapToS, getLsbD_setBit _ _ _ (show SPP < 64 by decide),
      getLsbD_setBit _ _ _ (show SIE < 64 by decide),
      getLsbD_setBit _ _ _ (show SPIE < 64 by decide)]
    rw [if_neg (by decide), if_neg (by decide), if_pos trivial]

theorem sret_sie (h : Hart) : h.sret.csrs.mstatus.getLsbD SIE = h.csrs.mstatus.getLsbD SPIE := by
  simp only [Hart.sret, getLsbD_setBit _ _ _ (show SPP < 64 by decide),
    getLsbD_setBit _ _ _ (show SIE < 64 by decide),
    getLsbD_setBit _ _ _ (show SPIE < 64 by decide),
    getLsbD_setBit _ _ _ (show MPRV < 64 by decide)]
  rw [if_neg (by decide), if_neg (by decide), if_neg (by decide), if_pos trivial]

/-- No trap changes what S-mode has enabled. -/
theorem Account.mie_moves (account : Account k c) (irq : Irq) (moves : c.Moves sink c') :
    c'.hart.csrs.mie.getLsbD irq.bit = c.hart.csrs.mie.getLsbD irq.bit := by
  have other : irq.bit ≠ MTI := by cases irq <;> decide
  cases moves with
  | mTimer => exact (below_mTimer sink c.hart).mie irq.bit other
  | mSoft => exact (below_mSoft sink c.hart).mie irq.bit other
  | sInterrupt irq' taken =>
    obtain ⟨-, -, sepc, -, -, -, -, -, -, mie⟩ := Core.sInterrupt_irq taken
    rw [mie]
  | handler stepped =>
    rcases handlerStep_cases stepped with ⟨-, rfl⟩ | ⟨effect, rest, hart, running, applied, rfl⟩
    · rfl
    · have shape := account.shape
      rw [running] at shape
      exact (applyS_enables shape applied).2 irq

theorem Core.On.moves (on : c.On irq) (account : Account k c) (moves : c.Moves sink c') :
    c'.On irq := by
  refine ⟨?_, (account.mie_moves irq moves).trans on.2⟩
  have status := on.1
  cases moves with
  | mTimer =>
    show (c.hart.mInterrupt sink IRQ_M_TIMER).csrs.mstatus.getLsbD _ = true
    rw [(below_mTimer sink c.hart).mstatus]
    exact status
  | mSoft =>
    show (c.hart.mInterrupt sink IRQ_M_SOFT).csrs.mstatus.getLsbD _ = true
    rw [(below_mSoft sink c.hart).mstatus]
    exact status
  | sInterrupt irq' taken =>
    have set := sInterrupt_mstatus taken
    obtain ⟨idle, -, sepc, handler, -⟩ := Core.sInterrupt_irq taken
    rw [idle] at status
    rw [handler]
    exact set.trans status
  | handler stepped =>
    rcases handlerStep_cases stepped with
      ⟨finished, rfl⟩ | ⟨effect, rest, hart, running, applied, rfl⟩
    · rw [finished] at status
      exact (sret_sie c.hart).trans status
    · have shape := account.shape
      rw [running] at shape status
      simp only [(applyS_enables shape applied).1]
      exact status

/-- A total goes up only. -/
theorem Account.total_le (account : Account k c) (irq : Irq) (moves : c.Moves sink c') :
    c.total irq.counter ≤ c'.total irq.counter := by
  have same : ∀ hart : Hart, hart.trap = c.hart.trap →
      c.total irq.counter = Core.total { c with hart } irq.counter := by
    intro hart trap
    simp only [Core.total, trap]
  cases moves with
  | mTimer => exact Nat.le_of_eq (same _ (below_mTimer sink c.hart).trap)
  | mSoft => exact Nat.le_of_eq (same _ (below_mSoft sink c.hart).trap)
  | sInterrupt irq' taken =>
    obtain ⟨idle, -, sepc, handler, -, trap, -⟩ := Core.sInterrupt_irq taken
    have none : uncounted irq.counter c.handler = 0 := by
      rw [idle]
      rfl
    simp only [Core.total, trap, none]
    omega
  | handler stepped =>
    exact Nat.le_of_eq (total_handlerStep (account.total_lt irq) stepped).symm

/-- What is owed stays owed, or the handler starts to count it. -/
theorem Core.Owes.moves (owes : c.Owes irq deadline) (account : Account k c)
    (noAck : c.acks irq = false) (moves : c.Moves sink c') :
    c'.acks irq = false ∧ c'.Owes irq deadline ∨
      c.handler = none ∧ c.hart.takesS irq.bit = true ∧
        c'.total irq.counter = c.total irq.counter + 1 := by
  cases moves with
  | mTimer on real =>
    left
    refine ⟨noAck, ?_⟩
    have lines := lines_mTimer sink c.hart
    cases irq with
    | timer =>
      left
      show (c.hart.mInterrupt sink IRQ_M_TIMER).lines.stip = true
      rw [lines]
    | soft =>
      simp only [Core.Owes, Lines.pending, lines] at owes ⊢
      exact owes
  | mSoft raised =>
    left
    refine ⟨noAck, ?_⟩
    have lines := lines_mSoft sink c.hart
    cases irq with
    | timer =>
      simp only [Core.Owes, Lines.pending, lines] at owes ⊢
      exact owes
    | soft =>
      left
      show (c.hart.mInterrupt sink IRQ_M_SOFT).lines.ssip = true
      rw [lines]
  | sInterrupt irq' taken =>
    obtain ⟨idle, possible, sepc, handler, lines, trap, -⟩ := Core.sInterrupt_irq taken
    rcases irq.eq_or_other irq' with rfl | rfl
    · right
      refine ⟨idle, possible, ?_⟩
      have one := irq'.uncounted_drop 0 sepc (Nat.zero_le 4)
      rw [List.drop_zero] at one
      have none : uncounted irq'.counter c.handler = 0 := by
        rw [idle]
        rfl
      simp only [Core.total, trap, none, handler, one]
    · left
      refine ⟨?_, ?_⟩
      · rw [Core.acks, handler]
        cases irq <;> rfl
      · simp only [Core.Owes, lines] at owes ⊢
        exact owes
  | handler stepped =>
    left
    rcases handlerStep_cases stepped with
      ⟨finished, rfl⟩ | ⟨effect, rest, hart, running, applied, rfl⟩
    · exact ⟨rfl, owes⟩
    · have shape := account.shape
      rw [running] at shape
      have other : effect ≠ irq.ack := by
        rintro rfl
        simp [Core.acks, running] at noAck
      refine ⟨(acks_cons running hart other).symm.trans noAck, ?_⟩
      rcases shape.cons_cases.2 with neutral | ⟨irq', rfl, -⟩ | ⟨irq', rfl, -⟩
      · have lines := lines_quiet (SEffect.neutral_quiet neutral) applied
        simp only [Core.Owes, lines] at owes ⊢
        exact owes
      · have lines : hart.lines = c.hart.lines := lines_quiet rfl applied
        simp only [Core.Owes, lines] at owes ⊢
        exact owes
      · cases irq' with
        | timer =>
          have lines : hart.lines = _ := Option.some.inj applied ▸ lines_setTimer sink c.hart _
          cases irq with
          | timer => exact absurd rfl other
          | soft =>
            simp only [Core.Owes, Lines.pending, lines] at owes ⊢
            exact owes
        | soft =>
          have lines : hart.lines = _ := lines_csrcSip (account.delegated .soft) applied
          cases irq with
          | timer =>
            simp only [Core.Owes, Lines.pending, lines] at owes ⊢
            exact owes
          | soft => exact absurd rfl other

theorem Core.Due.moves (due : c.Due irq n deadline) (account : Account k c)
    (moves : c.Moves sink c') : c'.Due irq n deadline := by
  obtain ⟨on, way⟩ := due
  have total := account.total_le irq moves
  refine ⟨on.moves account moves, ?_⟩
  rcases way with counted | ⟨one, noAck, owes⟩
  · exact .inl (Nat.le_trans counted total)
  · rcases owes.moves account noAck moves with ⟨noAck', owes'⟩ | ⟨-, -, grown⟩
    · exact .inr ⟨by omega, noAck', owes'⟩
    · left
      omega

/-- A later deadline. -/
theorem Core.Owes.later {deadline' : BitVec 64 → Prop} (owes : c.Owes irq deadline)
    (later : ∀ t, deadline t → deadline' t) : c.Owes irq deadline' := by
  cases irq with
  | timer => exact owes.imp id fun armed => ⟨armed.1, later _ armed.2⟩
  | soft => exact owes

theorem Core.Due.later {deadline' : BitVec 64 → Prop} (due : c.Due irq n deadline)
    (later : ∀ t, deadline t → deadline' t) : c.Due irq n deadline' :=
  ⟨due.1, due.2.imp id fun way => ⟨way.1, way.2.1, way.2.2.later later⟩⟩

/-- Where an interrupt that is on could be taken, but is not, M-mode still has it. -/
theorem Core.Due.ready (due : c.Due irq n deadline) (account : Account k c)
    (idle : c.handler = none) (quiet : c.hart.takesS irq.bit = false) :
    n ≤ c.counted irq ∨ n ≤ c.counted irq + 1 ∧ c.hart.lines.pending irq = false ∧
      c.Owes irq deadline := by
  obtain ⟨⟨sie, enable⟩, way⟩ := due
  rw [total_idle idle] at way
  refine way.imp id fun owed => ⟨owed.1, ?_, owed.2.2⟩
  by_contra pending
  have set : c.hart.mip.getLsbD irq.bit = true := by
    cases irq <;> exact eq_true_of_ne_false pending
  have delegated := account.delegated irq
  rw [idle] at sie
  have taken : c.hart.takesS irq.bit = true := by
    simp only [Hart.takesS, set, enable, delegated, Bool.and_true]
    exact sie
  rw [quiet] at taken
  cases taken

end

end ZephyrRiscv
