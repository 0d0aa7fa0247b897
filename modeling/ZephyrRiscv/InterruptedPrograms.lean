import ZephyrRiscv.Transition
import ZephyrRiscv.TrapTransparency

set_option autoImplicit false

namespace ZephyrRiscv

open Sv39 Verdict Preemption

section Returns

variable {c : Compiled} {sink : Sink} {traps : Trap → Hart → Hart → Prop}

/-- An instruction that calls no handler can always be executed. -/
theorem Executes.total {i : Instr} (notM : i ≠ .callM) (notS : i ≠ .callS) (h : Hart) :
    ∃ h', Executes c sink traps i h h' := by
  let env : Surroundings := ⟨h.mip, h.mem, h.regs⟩
  cases i with
  | callM => exact absurd rfl notM
  | callS => exact absurd rfl notS
  | mret => exact ⟨_, .mret h⟩
  | sret => exact ⟨_, .sret h⟩
  | addiSp imm => exact ⟨_, .plain env 0 rfl rfl⟩
  | sd r offset => exact ⟨_, .plain env 0 rfl rfl⟩
  | ld r offset => exact ⟨_, .plain env 0 rfl rfl⟩
  | csrr r csr => exact ⟨_, .plain env 0 rfl rfl⟩
  | csrw csr r => exact ⟨_, .plain env 0 rfl rfl⟩
  | mv rd rs => exact ⟨_, .plain env 0 rfl rfl⟩

/-- Code between the calls of handlers can end. -/
theorem canEnd_between {code : List Instr} (between : ∀ i ∈ code, i ≠ .callM ∧ i ≠ .callS)
    (P : Hart → Prop) : CanEnd (Interrupted traps) (Executes c sink traps) P code := by
  apply CanEnd.of_total
  intro i member
  exact Executes.total (between i member).1 (between i member).2

/-- A trap to M-mode returns where every call of the compiled handler does. -/
theorem TrapRun.returns_machine (total : ∀ k value, ∃ k', c.m k value k') {t : Trap}
    (machine : t.isMachine = true) {h : Hart} (mode : h.mode = .S) (taken : t.Taken h)
    (room : 128 ≤ (h.regs .sp).toNat) (depth : Nat) :
    ∃ h', TrapRun c sink (depth + 1) t h h' := by
  let traps := TrapRun c sink depth
  let csrs := (h.trapToM t.cause 0).csrs
  have off : csrs.mstatus.getLsbD MIE = false := Hart.trapToM_mie mode t.cause 0
  have rely : Rely traps (InMachine csrs) 0 :=
    InMachine.rely (fun _ _ _ run => (run.guarantee depth).1) off 0
  have sbi : t = .ecall → IsSbi (h.regs .a7) := by
    intro isEcall
    rw [isEcall] at taken
    exact taken.2
  let enter : List Instr := [.addiSp (-(128 : Nat))] ++ stores mSaves ++ mMoves
  let leave : List Instr := [.csrw .mepc .a0] ++ (loads mSaves ++ [.addiSp (128 : Nat)]) ++ [.mret]
  have enters : CanEnd (Interrupted traps) (Executes c sink traps) (Held (InMachine csrs) h.user)
      enter := canEnd_between (by decide) _
  have calling : CodeTriple c sink traps (Held (InMachine csrs) h.user) enter
      fun g => ∃ k, MCalling csrs h.user k ∧ Held (InMachine csrs) k g := held_mCalling rely room
  have calls : CanEnd (Interrupted traps) (Executes c sink traps)
      (fun g => ∃ k, MCalling csrs h.user k ∧ Held (InMachine csrs) k g) [.callM] := by
    apply CanEnd.single
    rintro g ⟨k, calling, held⟩
    obtain ⟨effects, handled, -⟩ := calling.handled machine rfl sbi room sink held
    obtain ⟨k', called⟩ := total g.user (t.resumeAt csrs.mepc)
    exact ⟨_, .callM handled called⟩
  have leaves : CanEnd (Interrupted traps) (Executes c sink traps) (fun _ => True) leave :=
    canEnd_between (by decide) _
  have start : Held (InMachine csrs) h.user (h.trapToM t.cause 0) :=
    ⟨⟨rfl, csrs.mie, rfl⟩, rfl, fun _ _ => rfl⟩
  have vector := (enters.append calling calls).append (fun _ _ _ _ => trivial) leaves
  obtain ⟨h', run⟩ := vector _ start
  refine ⟨h', taken, ?_⟩
  simp only [Trap.vector, Trap.enter, machine, ↓reduceIte]
  exact run

end Returns

/-- A leaf function changes caller-saved registers and memory below the stack pointer. -/
structure UserState.Leaf (k k' : UserState) : Prop where
  saved : ∀ r, callerSaved r = false → k'.regs r = k.regs r
  mem : ∀ a : BitVec 64, (k.regs .sp).toNat ≤ a.toNat → k'.mem a = k.mem a

theorem UserState.Leaf.refl (k : UserState) : k.Leaf k := ⟨fun _ _ => rfl, fun _ _ => rfl⟩

theorem UserState.Leaf.trans {k k' k'' : UserState} (first : k.Leaf k') (second : k'.Leaf k'') :
    k.Leaf k'' := by
  constructor
  · intro r preserved
    rw [second.saved r preserved, first.saved r preserved]
  · intro a above
    rw [second.mem a (by rw [first.saved .sp rfl]; exact above), first.mem a above]

theorem UserState.Leaf.assign {k k' : UserState} (leaf : k.Leaf k') {r : Reg}
    (scratch : callerSaved r = true) (value : BitVec 64) :
    k.Leaf { k' with regs := setRegOf k'.regs r value } := by
  refine ⟨?_, leaf.mem⟩
  intro q preserved
  have other : q ≠ r := by
    intro same
    rw [same, scratch] at preserved
    cases preserved
  exact (setRegOf_other _ _ other).trans (leaf.saved q preserved)

/-- A leaf `s_trap_handler`, for traps on which it stores nothing. -/
def leafS : SCode where
  entry := 0x80001000
  inside a := 0x80001000 ≤ a.toNat ∧ a.toNat < 0x80001100
  step := UserState.Leaf
  effect k e k' :=
    match e with
    | .ecall a7 a0 => k.regs .a7 = a7 ∧ k.regs .a0 = a0 ∧ k' = { k with pc := k.pc + 4 }
    | e => (∀ frame, e.target frame = none) ∧ k.Leaf k'

theorem leafS_effect {k k' : UserState} {e : SEffect} (performed : leafS.effect k e k') :
    k.Leaf k' := by
  cases e with
  | ecall a7 a0 =>
    rw [performed.2.2]
    exact ⟨fun _ _ => rfl, fun _ _ => rfl⟩
  | _ => exact performed.2

theorem leafS_reaches {start k : UserState} {done : List SEffect}
    (reached : leafS.Reaches start done k) : start.Leaf k := by
  induction reached with
  | start => exact .refl start
  | step _ stepped ih => exact ih.trans stepped
  | effect _ performed ih => exact ih.trans (leafS_effect performed)
  | interrupted _ resumed ih =>
    exact ih.trans ⟨fun r _ => congrFun resumed.regs r, resumed.mem⟩

/-- Leaf handlers follow the calling convention and use no stack. -/
def leafHandlers : Compiled where
  s := leafS
  sStack := 0
  sAbi := by
    constructor
    · exact fun performed => performed
    · intro start k done _ _ reached
      rw [(leafS_reaches reached).saved .sp rfl]
      omega
    · exact fun _ _ _ reached _ => (leafS_reaches reached).saved
    · exact fun _ _ _ reached _ a above _ => (leafS_reaches reached).mem a above
  m k value k' := k'.regs .a0 = value ∧ k.Leaf k'
  mStack := 0
  mAbi := by
    constructor
    · exact fun called => called.1
    · exact fun called _ => called.2.saved
    · exact fun called _ => called.2.mem

theorem leafHandlers_total (k : UserState) (value : BitVec 64) :
    ∃ k', leafHandlers.m k value k' := by
  let k' : UserState := { k with regs := setRegOf k.regs .a0 value }
  have result : k'.regs .a0 = value := setRegOf_same k.regs .a0 value
  exact ⟨k', result, (UserState.Leaf.refl k).assign rfl value⟩

/-- An effect that is no call and no store. -/
def SEffect.Counts (e : SEffect) : Prop :=
  (∀ a7 a0, e ≠ .ecall a7 a0) ∧ ∀ frame, e.target frame = none

theorem applyS_user {sink : Sink} {frame : BitVec 64} {h h' : Hart} {e : SEffect}
    (counts : e.Counts) (applied : h.applyS sink frame e = some h') : h'.setUser h.user = h' := by
  cases e with
  | ecall a7 a0 => exact absurd rfl (counts.1 a7 a0)
  | frameSepc value => cases counts.2 frame
  | storePte address value => cases counts.2 frame
  | testFail code => cases applied
  | _ =>
    cases applied
    rfl

section Leaf

variable {sink : Sink} {traps : Trap → Hart → Hart → Prop}

/-- A leaf handler performs such effects one after another. -/
theorem leaf_counts {frame ra : BitVec 64} {first todo : List SEffect}
    (counts : ∀ e ∈ first, e.Counts) {h h₁ h' : Hart}
    (applied : first.foldlM (Hart.applyS sink frame) h = some h₁)
    (rest : HandlerRun leafHandlers sink traps frame ra todo h₁ h') :
    HandlerRun leafHandlers sink traps frame ra (first ++ todo) h h' := by
  induction first generalizing h with
  | nil =>
    cases applied
    exact rest
  | cons e first ih =>
    have here := counts e List.mem_cons_self
    rw [List.foldlM_cons] at applied
    obtain ⟨g, once, later⟩ := Option.bind_eq_some_iff.mp applied
    have rest' := ih (fun e' member => counts e' (List.mem_cons_of_mem e member)) later
    have performed : leafS.effect h.user e h.user := by
      cases e with
      | ecall a7 a0 => exact absurd rfl (here.1 a7 a0)
      | _ => exact ⟨here.2, .refl h.user⟩
    refine .effect here.1 performed once ?_
    rw [applyS_user here once]
    exact rest'

/-- The S-timer interrupt in a leaf `s_trap_handler`: it counts, and its `ecall` returns. -/
theorem leaf_sTimer_returns (frame ra : BitVec 64) {h : Hart} (mode : h.mode = .S)
    (ecalls : ∀ g : Hart, g.regs .sp = h.regs .sp → Trap.Taken g .ecall → ∃ g', traps .ecall g g')
    (ctx : SContext) (stval sepc : BitVec 64) :
    ∃ h', HandlerRun leafHandlers sink traps frame ra
      (sTrapHandler ctx Trap.sTimer.cause stval sepc) h h' := by
  let counted : List SEffect := [.trapRecord Trap.sTimer.cause stval sepc, .count .fault,
    .count .irq, .lastIrqCause Trap.sTimer.cause, .count .timerIrq]
  have counts : ∀ e ∈ counted, e.Counts := by
    intro e member
    simp only [counted, List.mem_cons, List.not_mem_nil, or_false] at member
    rcases member with rfl | rfl | rfl | rfl | rfl <;> exact ⟨by simp, fun _ => rfl⟩
  obtain ⟨noted, applied, supervisor, user⟩ :
      ∃ noted, counted.foldlM (Hart.applyS sink frame) h = some noted ∧
        noted.supervisor = h.supervisor ∧ noted.user = h.user := ⟨_, rfl, rfl, rfl⟩
  -- the arguments of the ecall
  let call : UserState := { noted.user with
    regs := setRegOf (setRegOf noted.regs .a7 SBI_SET_TIMER) .a0 0xFFFFFFFFFFFFFFFF }
  have prepared : noted.user.Leaf call :=
    ((UserState.Leaf.refl noted.user).assign (r := .a7) rfl SBI_SET_TIMER).assign (r := .a0) rfl _
  have regs : noted.regs = h.regs := congrArg UserState.regs user
  have taken : Trap.Taken (noted.setUser call) .ecall :=
    ⟨(congrArg Supervisor.mode supervisor).trans mode, Or.inl rfl⟩
  obtain ⟨g', called⟩ := ecalls (noted.setUser call) (by rw [← regs]; rfl) taken
  have back : g'.user.Leaf { g'.user with pc := ra } := ⟨fun _ _ => rfl, fun _ _ => rfl⟩
  have performed : leafS.effect call (.ecall SBI_SET_TIMER 0xFFFFFFFFFFFFFFFF)
      { call with pc := call.pc + 4 } := ⟨rfl, rfl, rfl⟩
  have handled : HandlerRun leafHandlers sink traps frame ra
      [.ecall SBI_SET_TIMER 0xFFFFFFFFFFFFFFFF] noted (g'.setUser { g'.user with pc := ra }) :=
    .step prepared (.ecall performed called (.step back (.returned rfl)))
  exact ⟨_, leaf_counts counts applied handled⟩

/-- `_s_trap_vector` can end on an S-timer interrupt. -/
theorem leaf_sTimer_canEnd (sink : Sink) {h : Hart} (room : 384 ≤ (h.regs .sp).toNat) :
    CanEnd (Interrupted (TrapRun leafHandlers sink 1))
      (Executes leafHandlers sink (TrapRun leafHandlers sink 1))
      (Held (InSupervisor (h.trapToS Trap.sTimer.cause 0).supervisor) h.user) sTrapVector := by
  let traps := TrapRun leafHandlers sink 1
  let v := (h.trapToS Trap.sTimer.cause 0).supervisor
  have lower := lowered_toNat (h.regs .sp) (by omega : 256 ≤ (h.regs .sp).toNat)
  have sound : ∀ t g g', traps t g g' → Guarantee leafHandlers t g g' :=
    fun _ _ _ run => TrapRun.guarantee 1 run
  have rely : Rely traps (InSupervisor v) 128 :=
    InSupervisor.rely sound (masked_trapToS h Trap.sTimer.cause 0)
  let enter : List Instr := [.addiSp (-(256 : Nat))] ++ stores sSaves ++ sBefore
  let leave : List Instr := sAfter ++ (loads sSaves ++ [.addiSp (256 : Nat)]) ++ [.sret]
  have enters : CanEnd (Interrupted traps) (Executes leafHandlers sink traps)
      (Held (InSupervisor v) h.user) enter := canEnd_between (by decide) _
  have calling : CodeTriple leafHandlers sink traps (Held (InSupervisor v) h.user) enter
      fun g => ∃ k, (SFramed v h.user k ∧ k.regs .a0 = v.scause) ∧ Held (InSupervisor v) k g :=
    held_sCalling rely room
  have calls : CanEnd (Interrupted traps) (Executes leafHandlers sink traps)
      (fun g => ∃ k, (SFramed v h.user k ∧ k.regs .a0 = v.scause) ∧ Held (InSupervisor v) k g)
      [.callS] := by
    apply CanEnd.single
    rintro g ⟨k, ⟨framed, a0⟩, held⟩
    have regs : g.regs = k.regs := held.agrees.regs
    have cause : g.regs .a0 = Trap.sTimer.cause := by
      rw [regs, a0]
      rfl
    have sp : g.regs .sp = lowered (h.regs .sp) 256 := by
      rw [regs, framed.sp]
      rfl
    let start : Hart := Hart.setReg { g with pc := leafS.entry } .ra 0
    have mode : start.mode = .S := congrArg Supervisor.mode held.kept
    have ecalls : ∀ g' : Hart, g'.regs .sp = start.regs .sp → Trap.Taken g' .ecall →
        ∃ g'', traps .ecall g' g'' := by
      intro g' same taken
      have deep : 128 ≤ (g'.regs .sp).toNat := by
        rw [same]
        change 128 ≤ (g.regs .sp).toNat
        rw [sp]
        omega
      exact TrapRun.returns_machine leafHandlers_total rfl taken.1 taken deep 0
    have returns : ∃ h', HandlerRun leafHandlers sink traps (g.regs .a3) 0
        (sTrapHandler g.sContext Trap.sTimer.cause (g.regs .a1) (g.regs .a2)) start h' :=
      leaf_sTimer_returns (g.regs .a3) 0 mode ecalls g.sContext (g.regs .a1) (g.regs .a2)
    obtain ⟨h', run⟩ := returns
    rw [← cause] at run
    exact ⟨h', .callS 0 (fun inside => absurd inside.1 (by decide)) run⟩
  have leaves : CanEnd (Interrupted traps) (Executes leafHandlers sink traps) (fun _ => True)
      leave := canEnd_between (by decide) _
  exact (enters.append calling calls).append (fun _ _ _ _ => trivial) leaves

end Leaf

/-- What happens to an S-mode program: it goes on, or a trap comes and returns. -/
inductive Moment where
  | program
  | trap (t : Trap) (before after : Hart)

/-- The program may do anything in S-mode, but leaves room on its stack for the traps. -/
def Moment.Step (c : Compiled) (sink : Sink) (h : Hart) : Moment → Hart → Prop
  | .program, h' => h'.mode = .S
  | .trap t before after, h' => before = h ∧ after = h' ∧ t.room c ≤ (h.regs .sp).toNat ∧
      ∃ depth, TrapRun c sink depth t h h'

/-- An S-mode program stays in S-mode. -/
theorem Moment.Step.mode {c : Compiled} {sink : Sink} {h h' : Hart} {moment : Moment}
    (mode : h.mode = .S) (step : moment.Step c sink h h') : h'.mode = .S := by
  cases moment with
  | program => exact step
  | trap t before after =>
    obtain ⟨-, -, room, depth, run⟩ := step
    exact ((run.guarantee depth).2 mode room).1.mode

/-- A trap that the program does not notice. -/
def Moment.Unnoticed : Moment → Prop
  | .program => True
  | .trap t before after => Transparent t before after

theorem Moment.Step.unnoticed {c : Compiled} {sink : Sink} {h h' : Hart} {moment : Moment}
    (mode : h.mode = .S) (step : moment.Step c sink h h') : moment.Unnoticed := by
  cases moment with
  | program => trivial
  | trap t before after =>
    obtain ⟨rfl, rfl, room, depth, run⟩ := step
    exact ((run.guarantee depth).2 mode room).1

/-- Runs of an S-mode program that traps interrupt. -/
def ProgramRun (c : Compiled) (sink : Sink) : List Moment → Hart → Prop :=
  Transition.Run (fun h => h.mode = .S) (Moment.Step c sink)

/-- In every run of an S-mode program each trap is transparent to it. -/
theorem traps_transparent (c : Compiled) (sink : Sink) {moments : List Moment} {h : Hart}
    (run : ProgramRun c sink moments h) : ∀ moment ∈ moments, moment.Unnoticed := by
  refine Transition.Run.forall_labels (I := fun h : Hart => h.mode = .S)
    (P := Moment.Unnoticed) ?_ ?_ ?_ run
  · exact fun _ mode => mode
  · exact fun _ _ _ mode step => step.mode mode
  · exact fun _ _ _ mode step => step.unnoticed mode

/-- The M-timer interrupts the first instruction of `_s_trap_vector`, and the S-timer
interrupt is transparent all the same. -/
theorem traps_transparent_timers :
    ∃ h', ProgramRun leafHandlers .htif [.trap .sTimer (sModeHart 0 0x2 0x222) h'] h' ∧
      Moment.Unnoticed (.trap .sTimer (sModeHart 0 0x2 0x222) h') := by
  let program := sModeHart 0 0x2 0x222
  let entered := Trap.enter program .sTimer
  have room : 384 ≤ (program.regs .sp).toNat := by decide
  have taken : Trap.Taken entered .mTimer := Or.inl (by decide)
  obtain ⟨g, preempted⟩ : ∃ g, TrapRun leafHandlers .htif 1 .mTimer entered g :=
    TrapRun.returns_machine leafHandlers_total rfl rfl taken (by decide) 0
  have restores : Restores .mTimer entered g :=
    ((preempted.guarantee 1).2 rfl (by decide)).2 rfl
  obtain ⟨h', vector⟩ := leaf_sTimer_canEnd .htif room g
    ⟨restores.supervisor, restores.user.regs, restores.user.mem⟩
  have trap : TrapRun leafHandlers .htif 2 .sTimer program h' :=
    ⟨Or.inr ⟨rfl, by decide⟩, .preempted ⟨.mTimer, by decide, preempted⟩ vector⟩
  have start : ProgramRun leafHandlers .htif [] program := .start rfl
  have step : Moment.Step leafHandlers .htif program (.trap .sTimer program h') h' :=
    ⟨rfl, rfl, room, 2, trap⟩
  have run : ProgramRun leafHandlers .htif [.trap .sTimer program h'] h' := start.snoc step
  exact ⟨h', run, traps_transparent leafHandlers .htif run _ List.mem_cons_self⟩

end ZephyrRiscv
