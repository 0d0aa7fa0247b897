import ZephyrRiscv.P2Tables

set_option autoImplicit false

namespace ZephyrRiscv.P2

open Verdict Pt TestRuns

/-- The accounts of the hart, under a clock that never comes to the deadline of the handler. -/
structure Within (k : Irq → Nat) (s : State) : Prop where
  mtime : s.mtime.toNat < 2 ^ 64 - 1
  account : Account k s.core

/-- At most so many deliveries of each interrupt. -/
def bounds (timer soft : Nat) : Irq → Nat
  | .timer => timer
  | .soft => soft

/-- What comes before a statement: the clock goes on, or a trap is taken or handled. -/
structure Move (p : Platform) (s s' : State) : Prop where
  vars : s'.vars = s.vars
  mtime : s'.mtime.toNat < 2 ^ 64 - 1
  core : s'.core = s.core ∨ s.core.Moves p.sink s'.core

/-- No trap comes before the next statement. -/
structure Ready (s : State) : Prop where
  idle : s.core.handler = none
  soft : s.core.hart.takesS SSI = false
  timer : s.core.hart.takesS STI = false

variable {p : Platform} {k : Irq → Nat} {s s' : State}

theorem Within.move (within : Within k s) (move : Move p s s') : Within k s' := by
  refine ⟨move.mtime, ?_⟩
  rcases move.core with same | moves
  · rw [same]
    exact within.account
  · exact within.account.moves moves

theorem deadline_real (within : Within k s) (pends : timerPends s = true) :
    s.core.hart.lines.mtie = true ∧ s.core.hart.lines.mtimecmp ≠ 0xFFFFFFFFFFFFFFFF := by
  simp only [timerPends, Bool.and_eq_true, decide_eq_true_eq] at pends
  refine ⟨pends.1, ?_⟩
  intro never
  have due := pends.2
  rw [never, BitVec.le_def] at due
  have max : (0xFFFFFFFFFFFFFFFF : BitVec 64).toNat = 2 ^ 64 - 1 := rfl
  have bound := within.mtime
  omega

theorem softPends_raised (pends : softPends s = true) :
    s.core.hart.lines.msip.getLsbD 0 = true := by
  simp only [softPends, Bool.and_eq_true] at pends
  exact pends.2

theorem env_move {a : Action} (within : Within k s) (moved : env p s a = some s') :
    Move p s s' := by
  cases a with
  | advance ticks =>
    simp only [env, Option.ite_none_right_eq_some, Option.some.injEq] at moved
    obtain ⟨bound, rfl⟩ := moved
    refine ⟨rfl, ?_, .inl rfl⟩
    show (s.mtime + BitVec.ofNat 64 ticks).toNat < 2 ^ 64 - 1
    rw [BitVec.toNat_add, BitVec.toNat_ofNat]
    omega
  | mTimer =>
    simp only [env, Option.ite_none_right_eq_some, Option.some.injEq] at moved
    obtain ⟨pends, rfl⟩ := moved
    obtain ⟨on, real⟩ := deadline_real within pends
    exact ⟨rfl, within.mtime, .inr (.mTimer on real)⟩
  | mSoft =>
    simp only [env, Option.ite_none_right_eq_some, Option.some.injEq] at moved
    obtain ⟨pends, rfl⟩ := moved
    exact ⟨rfl, within.mtime, .inr (.mSoft (softPends_raised pends))⟩

/-- The handler never fails the test, and without a trap the statement comes. -/
theorem trapStep_cases (within : Within k s) :
    (∃ s', trapStep p s = some (.again s') ∧ Move p s s') ∨ trapStep p s = none ∧ Ready s := by
  have taken : ∀ (irq : Irq) (c : Core), s.core.sInterrupt irq.number = some c →
      Move p s { s with core := c } := fun irq c took =>
    ⟨rfl, within.mtime, .inr (.sInterrupt irq took)⟩
  cases running : s.core.handler with
  | some todo =>
    left
    have stepped : ∃ c, s.core.handlerStep p.sink = some c ∧
        trapStep p s = some (.again { s with core := c }) := by
      have shape := within.account.shape
      rw [running] at shape
      cases todo with
      | nil =>
        refine ⟨⟨s.core.hart.sret, none⟩, ?_, ?_⟩
        · simp only [Core.handlerStep, running]
        · simp only [trapStep, Core.handlerStep, running, Option.map_some]
      | cons e rest =>
        have kinds := shape.cons_cases.2
        have applies : ∃ hart, s.core.hart.applyS p.sink (s.core.hart.regs .sp - 256) e =
            some hart := by
          rcases kinds with neutral | ⟨irq, rfl, -⟩ | ⟨irq, rfl, -⟩
          · cases e with
            | testFail => cases neutral
            | _ => exact ⟨_, rfl⟩
          · exact ⟨_, rfl⟩
          · cases irq <;> exact ⟨_, rfl⟩
        obtain ⟨hart, applied⟩ := applies
        have next : s.core.handlerStep p.sink = some ⟨hart, some rest⟩ := by
          simp only [Core.handlerStep, running, applied, Option.map_some]
        refine ⟨⟨hart, some rest⟩, next, ?_⟩
        cases e with
        | testFail => cases applied
        | _ => simp only [trapStep, running, next, Option.map_some]
    obtain ⟨c, done, step⟩ := stepped
    exact ⟨_, step, rfl, within.mtime, .inr (.handler done)⟩
  | none =>
    have possible : ∀ irq : Irq, s.core.hart.takesS irq.bit = true →
        ∃ c, s.core.sInterrupt irq.number = some c := by
      intro irq takes
      rw [← irq.number_toNat] at takes
      exact ⟨_, by rw [Core.sInterrupt, if_pos ⟨by rw [running]; rfl, takes⟩]⟩
    by_cases soft : s.core.hart.takesS SSI = true
    · obtain ⟨c, took⟩ := possible .soft soft
      refine .inl ⟨_, ?_, taken .soft c took⟩
      have took' : s.core.sInterrupt IRQ_S_SOFT = some c := took
      simp only [trapStep, running, soft, ↓reduceIte, took', Option.map_some]
    · by_cases timer : s.core.hart.takesS STI = true
      · obtain ⟨c, took⟩ := possible .timer timer
        refine .inl ⟨_, ?_, taken .timer c took⟩
        have took' : s.core.sInterrupt IRQ_S_TIMER = some c := took
        simp only [trapStep, running, soft, timer, ↓reduceIte, took', Option.map_some]
        rfl
      · refine .inr ⟨?_, running, by simpa using soft, by simpa using timer⟩
        simp only [trapStep, running, soft, timer]
        rfl

/-- A fact about the variables of the test and about the hart. -/
abbrev Fact := Vars → Core → Prop

/-- The accounts and a fact beside them. -/
def With (k : Irq → Nat) (F : Fact) (s : State) : Prop := Within k s ∧ F s.vars s.core

/-- Traps keep the fact where the accounts hold. -/
def Keeps (p : Platform) (k : Irq → Nat) (F : Fact) : Prop :=
  ∀ v c c', Account k c → c.Moves p.sink c' → F v c → F v c'

theorem With.move {F : Fact} (keeps : Keeps p k F) (holds : With k F s) (move : Move p s s') :
    With k F s' := by
  refine ⟨holds.1.move move, ?_⟩
  rw [move.vars]
  rcases move.core with same | moves
  · rw [same]
    exact holds.2
  · exact keeps s.vars s.core s'.core holds.1.account moves holds.2

/-- The accesses of P2.4. -/
def Stmt.accesses : Stmt → Bool
  | .load _ | .store _ _ => true
  | _ => false

/-- What they find of its tables. -/
def Accessible (pool : Pool) (s : State) : Stmt → Prop
  | .load va => va = faultVa ∧
      (Loaded pool mappedView s.vars.root s.vars.ptPoolNextPage s.core.space ∨
        Loaded pool repairedView s.vars.root s.vars.ptPoolNextPage s.core.space)
  | .store va _ => va = faultPa ∧
      Paged pool identityView s.vars.root s.vars.ptPoolNextPage s.core.space
  | _ => True

theorem Stmt.accessible {stmt : Stmt} (no : stmt.accesses = false) {pool : Pool} (s : State) :
    Accessible pool s stmt := by
  cases stmt with
  | load => cases no
  | store => cases no
  | _ => trivial

/-- What a statement finds, so that it comes to an end. -/
def Fits (p : Platform) (stmt : Stmt) (s : State) : Prop :=
  (∃ k, Within k s) ∧ Accessible p.pool s stmt

/-- A statement from an assertion, by what it does when no trap comes first. -/
theorem does {E : Nat → Prop} {F : Fact} {Q : State → Prop} {stmt : Stmt} (keeps : Keeps p k F)
    (fits : ∀ s, With k F s → Accessible p.pool s stmt)
    (own : ∀ s, With k F s → Ready s → (perform p s stmt).Meets E (With k F) Q) :
    (machine p).Does (Fits p) E (With k F) stmt Q := by
  refine ⟨fun s holds => ⟨⟨k, holds.1⟩, fits s holds⟩, ?_, ?_⟩
  · intro s a s' holds moved
    exact holds.move keeps (env_move holds.1 moved)
  · intro s o holds done
    rcases trapStep_cases (p := p) holds.1 with ⟨s', trapped, move⟩ | ⟨none, ready⟩
    · have same : some (Outcome.again s') = some o := by
        rw [← done]
        simp only [machine, exec, trapped, Option.some_or]
      cases same
      exact holds.move keeps move
    · have same : some (perform p s stmt) = some o := by
        rw [← done]
        simp only [machine, exec, none, Option.none_or]
      cases same
      exact own s holds ready

theorem Keeps.and {F G : Fact} (first : Keeps p k F) (second : Keeps p k G) :
    Keeps p k fun v c => F v c ∧ G v c := fun v c c' account moves facts =>
  ⟨first v c c' account moves facts.1, second v c c' account moves facts.2⟩

/-- Traps leave the variables of the test alone. -/
theorem Keeps.when {F : Fact} (C : Vars → Prop) (keeps : Keeps p k F) :
    Keeps p k fun v c => C v → F v c := fun v c c' account moves fact condition =>
  keeps v c c' account moves (fact condition)

def anything : Fact := fun _ _ => True

theorem anything_keeps : Keeps p k anything := fun _ _ _ _ _ _ => trivial

/-- So many deliveries have been counted. -/
def AtLeast (irq : Irq) (n : Nat) : Fact := fun _ c => n ≤ c.counted irq

theorem AtLeast.keeps (irq : Irq) (n : Nat) : Keeps p k (AtLeast irq n) :=
  fun _ _ _ account moves enough => Nat.le_trans enough (account.counted_le moves irq)

/-- All deliveries of the other interrupt are counted, and `last_irq_cause` names this one as soon
as it has been counted. -/
def Names (k : Irq → Nat) (irq : Irq) : Fact := fun _ c =>
  k irq.other ≤ c.counted irq.other ∧ LastIs irq c

theorem Names.keeps (irq : Irq) : Keeps p k (Names k irq) := fun _ _ _ account moves facts =>
  ⟨Nat.le_trans facts.1 (account.counted_le moves irq.other),
    facts.2.moves account facts.1 moves⟩

/-- Two harts between traps with the same lines, counts and last cause. -/
structure Similar (c c' : Core) : Prop where
  idle : c.handler = none
  handler : c'.handler = none
  lines : c'.hart.lines = c.hart.lines
  configured : c.hart.Configured c'.hart
  counted : ∀ irq, c'.counted irq = c.counted irq
  last : c'.hart.trap.lastIrqCause = c.hart.trap.lastIrqCause

/-- The fact does not look at more than that, and at `timeout`. -/
def Calm (F : Fact) : Prop :=
  ∀ v v' c c', v'.timeout = v.timeout → Similar c c' → F v c → F v' c'

theorem Calm.and {F G : Fact} (first : Calm F) (second : Calm G) :
    Calm fun v c => F v c ∧ G v c := fun v v' c c' timeout similar facts =>
  ⟨first v v' c c' timeout similar facts.1, second v v' c c' timeout similar facts.2⟩

theorem anything_calm : Calm anything := fun _ _ _ _ _ _ _ => trivial

theorem AtLeast.calm (irq : Irq) (n : Nat) : Calm (AtLeast irq n) :=
  fun _ _ _ _ _ similar enough => Nat.le_trans enough (Nat.le_of_eq (similar.counted irq).symm)

theorem Names.calm (irq : Irq) : Calm (Names k irq) := by
  intro v v' c c' _ similar names
  obtain ⟨all, last⟩ := names
  refine ⟨Nat.le_trans all (Nat.le_of_eq (similar.counted irq.other).symm), ?_, ?_⟩
  · rw [similar.counted, similar.last]
    exact last.counted
  · intro rest running
    rw [similar.handler] at running
    cases running

/-- The loop has not run out of time, so it has seen the count. -/
def InTime (F : Fact) : Fact := fun v c => 0 < v.timeout.toInt → F v c

theorem InTime.calm {F : Fact} (calm : Calm F) : Calm (InTime F) := by
  intro v v' c c' timeout similar inTime positive
  rw [timeout] at positive
  exact calm v v' c c' timeout similar (inTime positive)

theorem account_similar {c c' : Core} (account : Account k c) (similar : Similar c c') :
    Account k c' := by
  have idle := similar.idle
  have same : c' = { c with hart := c'.hart } := by
    rw [idle, ← similar.handler]
  rw [same]
  refine account.idle account.small idle similar.configured ?_ ?_ ?_
  · rw [similar.lines]
    exact account.msie
  · rw [similar.lines]
    exact account.pendingOff
  · intro irq
    have bound := account.idle_bound idle irq
    rw [← similar.counted irq] at bound
    rw [similar.lines]
    exact bound

/-- The bits of `mie` that are M-mode's own. -/
theorem mie_machineOnly {h : Hart} (bits : BitVec 64) {i : Nat}
    (machineOnly : h.csrs.mideleg.getLsbD i = false) :
    (csrsSie h bits).csrs.mie.getLsbD i = h.csrs.mie.getLsbD i ∧
      (writeSie h bits).csrs.mie.getLsbD i = h.csrs.mie.getLsbD i := by
  by_cases low : i < 64
  · simp only [csrsSie, writeSie, BitVec.getLsbD_or, BitVec.getLsbD_and, BitVec.getLsbD_not,
      machineOnly, low, Bool.and_false, Bool.or_false, Bool.not_false, decide_true, Bool.and_true,
      and_self]
  · simp [csrsSie, writeSie, BitVec.getLsbD_of_ge _ _ (Nat.le_of_not_lt low)]

theorem similar_sie {c : Core} (account : Account k c) (idle : c.handler = none)
    (bits : BitVec 64) : Similar c { c with hart := csrsSie c.hart bits } ∧
      Similar c { c with hart := writeSie c.hart bits } := by
  have msie := mie_machineOnly bits (account.machineOnly MSI (.inl rfl))
  have mtie := mie_machineOnly bits (account.machineOnly MTI (.inr rfl))
  constructor
  · refine ⟨idle, idle, ?_, ⟨rfl, rfl⟩, fun _ => rfl, rfl⟩
    simp only [Hart.lines, msie.1, mtie.1]
    rfl
  · refine ⟨idle, idle, ?_, ⟨rfl, rfl⟩, fun _ => rfl, rfl⟩
    simp only [Hart.lines, msie.2, mtie.2]
    rfl

theorem value_setCount (g : TrapState) (c counter : Counter) (value : BitVec 32) :
    (setCount g c value).value counter = if counter = c then value else g.value counter := by
  cases c <;> cases counter <;> rfl

theorem last_setCount (g : TrapState) (c : Counter) (value : BitVec 32) :
    (setCount g c value).lastIrqCause = g.lastIrqCause := by
  cases c <;> rfl

/-- A statement that changes no line and no count of an interrupt. -/
def Stmt.plain : Stmt → Bool
  | .setCount .fault _ | .setCount .irq _ | .setHandlerAction _ | .csrsSie _ | .writeSie _ => true
  | .enableSInterrupts | .disableSInterrupts | .readMtime | .delay _ | .readSip => true
  | .ptReset | .mmuEnableSv39 | .writeSatp _ | .sfenceVma => true
  | _ => false

theorem perform_plain {stmt : Stmt} (within : Within k s) (ready : Ready s)
    (plain : stmt.plain = true) :
    ∃ s', perform p s stmt = .next s' ∧ s'.mtime = s.mtime ∧
      s'.vars.timeout = s.vars.timeout ∧ Similar s.core s'.core := by
  have idle := ready.idle
  have similar : ∀ hart : Hart, hart.lines = s.core.hart.lines →
      s.core.hart.Configured hart → hart.trap = s.core.hart.trap →
      Similar s.core { s.core with hart } := by
    intro hart lines configured trap
    refine ⟨idle, idle, lines, configured, ?_, ?_⟩
    · intro irq
      simp only [Core.counted, trap]
    · simp only [trap]
  have sie := fun bits => similar_sie within.account idle bits
  cases stmt with
  | setCount counter value =>
    have other : ∀ irq : Irq, irq.counter ≠ counter := by
      intro irq
      cases counter with
      | fault => cases irq <;> decide
      | irq => cases irq <;> decide
      | timerIrq => cases plain
      | softIrq => cases plain
    refine ⟨_, rfl, rfl, rfl, ⟨idle, idle, rfl, ⟨rfl, rfl⟩, ?_, last_setCount _ _ _⟩⟩
    intro irq
    simp only [State.withHart, Core.counted, value_setCount, if_neg (other irq)]
  | setHandlerAction value =>
    refine ⟨_, rfl, rfl, rfl, ⟨idle, idle, rfl, ⟨rfl, rfl⟩, ?_, rfl⟩⟩
    intro irq
    cases irq <;> rfl
  | csrsSie bits => exact ⟨_, rfl, rfl, rfl, (sie bits).1⟩
  | writeSie bits => exact ⟨_, rfl, rfl, rfl, (sie bits).2⟩
  | enableSInterrupts => exact ⟨_, rfl, rfl, rfl, similar _ rfl ⟨rfl, rfl⟩ rfl⟩
  | disableSInterrupts => exact ⟨_, rfl, rfl, rfl, similar _ rfl ⟨rfl, rfl⟩ rfl⟩
  | readMtime => exact ⟨_, rfl, rfl, rfl, similar _ rfl ⟨rfl, rfl⟩ rfl⟩
  | delay n => exact ⟨_, rfl, rfl, rfl, similar _ rfl ⟨rfl, rfl⟩ rfl⟩
  | readSip => exact ⟨_, rfl, rfl, rfl, similar _ rfl ⟨rfl, rfl⟩ rfl⟩
  | ptReset => exact ⟨_, rfl, rfl, rfl, similar _ rfl ⟨rfl, rfl⟩ rfl⟩
  | mmuEnableSv39 => exact ⟨_, rfl, rfl, rfl, similar _ rfl ⟨rfl, rfl⟩ rfl⟩
  | writeSatp value => exact ⟨_, rfl, rfl, rfl, similar _ rfl ⟨rfl, rfl⟩ rfl⟩
  | sfenceVma => exact ⟨_, rfl, rfl, rfl, similar _ rfl ⟨rfl, rfl⟩ rfl⟩
  | _ => cases plain

theorem Stmt.plain_accesses {stmt : Stmt} (plain : stmt.plain = true) : stmt.accesses = false := by
  cases stmt with
  | load => cases plain
  | store => cases plain
  | _ => rfl

theorem plain_does {E : Nat → Prop} {F : Fact} {stmt : Stmt} (keeps : Keeps p k F) (calm : Calm F)
    (plain : stmt.plain = true) : (machine p).Does (Fits p) E (With k F) stmt (With k F) := by
  have no := Stmt.plain_accesses plain
  refine does keeps (fun s _ => Stmt.accessible no s) fun s holds ready => ?_
  obtain ⟨s', done, mtime, timeout, similar⟩ := perform_plain holds.1 ready plain
  rw [done]
  refine ⟨⟨?_, account_similar holds.1.account similar⟩, calm _ _ _ _ timeout similar holds.2⟩
  rw [mtime]
  exact holds.1.mtime

/-- The hart after a statement between two traps, where the program changes at most its counts,
the timer and the IPIs. -/
structure Called (c c' : Core) : Prop where
  idle : c.handler = none
  handler : c'.handler = none
  mstatus : c'.hart.csrs.mstatus = c.hart.csrs.mstatus
  stie : c'.hart.csrs.mie.getLsbD STI = c.hart.csrs.mie.getLsbD STI
  mem : c'.hart.mem = c.hart.mem
  satp : c'.hart.csrs.satp = c.hart.csrs.satp
  action : c'.hart.trap.handlerAction = c.hart.trap.handlerAction

theorem reset_does {E : Nat → Prop} {F : Fact} (irq : Irq) (n : Nat) (k' : Irq → Nat) (Q : Fact)
    (keeps : Keeps p k F) (enough : ∀ v c, F v c → n ≤ c.counted irq)
    (small : ∀ irq, k' irq < 2 ^ 31) (own : k irq ≤ k' irq + n)
    (other : k irq.other ≤ k' irq.other)
    (next : ∀ v c c', Account k c → F v c → Called c c' → c'.counted irq = 0 →
      c'.counted irq.other = c.counted irq.other →
      c'.hart.trap.value .fault = c.hart.trap.value .fault → Q v c') :
    (machine p).Does (Fits p) E (With k F) (.setCount irq.counter 0) (With k' Q) := by
  refine does keeps (fun _ _ => trivial) fun s holds ready => ?_
  obtain ⟨⟨mtime, account⟩, fact⟩ := holds
  have idle := ready.idle
  have atLeast := enough _ _ fact
  have zero : (setCount s.core.hart.trap irq.counter 0).value irq.counter = 0 := by
    rw [value_setCount, if_pos rfl]
  have same : (setCount s.core.hart.trap irq.counter 0).value irq.other.counter =
      s.core.hart.trap.value irq.other.counter := by
    rw [value_setCount, if_neg irq.counter_other]
  refine ⟨⟨mtime, account.idle small idle ⟨rfl, rfl⟩ account.msie account.pendingOff ?_⟩, ?_⟩
  · intro irq'
    have bound := account.idle_bound idle irq'
    rcases irq.eq_or_other irq' with rfl | rfl
    · simp only [zero]
      show 0 + (s.core.hart.lines.pending irq').toNat + (s.core.hart.lines.raised irq').toNat ≤ _
      omega
    · simp only [same]
      exact Nat.le_trans bound other
  · refine next _ _ _ account fact ⟨idle, idle, rfl, rfl, rfl, rfl, ?_⟩ ?_ ?_ ?_
    · cases irq <;> rfl
    · exact congrArg BitVec.toNat zero
    · exact congrArg BitVec.toNat same
    · cases irq <;> rfl

theorem mie_setTimer (sink : Sink) (h : Hart) (value : BitVec 64) :
    (h.sbi sink SBI_SET_TIMER value).csrs.mie.getLsbD STI = h.csrs.mie.getLsbD STI := by
  have effects : ∀ ctx, (mTrapHandler ctx CAUSE_ECALL_SMODE h.pc 0
      (sbiFrame SBI_SET_TIMER value)).1 =
      [.mtimecmp ctx.mhartid value, .csrcMip MIP_STIP, .csrsMie MIP_MTIP] := fun _ => rfl
  have clear : MIP_MTIP.getLsbD STI = false := by decide
  simp only [Hart.sbi, effects, List.foldl, Hart.applyM, BitVec.getLsbD_or, clear, Bool.or_false]

theorem setTimer_does {E : Nat → Prop} {F : Fact} (m : Nat) (delta : BitVec 64)
    (k' : Irq → Nat) (Q : Fact) (keeps : Keeps p k F)
    (few : ∀ v c, Account k c → F v c → c.counted .timer ≤ m)
    (small : ∀ irq, k' irq < 2 ^ 31) (own : m + 1 ≤ k' .timer) (other : k .soft ≤ k' .soft)
    (next : ∀ v c c', Account k c → F v c → Called c c' → c'.hart.trap = c.hart.trap → Q v c') :
    (machine p).Does (Fits p) E (With k F) (.sbiSetTimer delta) (With k' Q) := by
  refine does keeps (fun _ _ => trivial) fun s holds ready => ?_
  obtain ⟨⟨mtime, account⟩, fact⟩ := holds
  have idle := ready.idle
  have counted := few _ _ account fact
  have lines := lines_setTimer p.sink s.core.hart (s.vars.now + delta)
  have configured := foldl_applyM_configured (mTrapHandler (s.core.hart.mContext p.sink)
    CAUSE_ECALL_SMODE s.core.hart.pc 0 (sbiFrame SBI_SET_TIMER (s.vars.now + delta))).1 s.core.hart
  refine ⟨⟨mtime, account.idle small idle configured.1 ?_ ?_ ?_⟩, ?_⟩
  · rw [lines]
    exact account.msie
  · rw [lines]
    exact fun stip => by cases stip
  · intro irq
    have bound := account.idle_bound idle irq
    rw [show (s.core.hart.sbi p.sink SBI_SET_TIMER (s.vars.now + delta)).trap = s.core.hart.trap
      from configured.2, lines]
    cases irq with
    | timer =>
      have one := Bool.toNat_le (true && s.vars.now + delta != 0xFFFFFFFFFFFFFFFF)
      simp only [Lines.pending, Lines.raised, Bool.toNat_false]
      simp only [Core.counted] at counted
      omega
    | soft => exact Nat.le_trans bound other
  · exact next _ _ _ account fact ⟨idle, idle, rfl,
      mie_setTimer p.sink s.core.hart (s.vars.now + delta), rfl, rfl, rfl⟩ configured.2

theorem lines_sendIpi (sink : Sink) {c : Core} (account : Account k c) :
    (c.hart.sbi sink SBI_SEND_IPI 0).lines = { c.hart.lines with msip := 1 } := by
  have known : c.hart.csrs.mhartid < NUM_HARTS := by
    rw [account.mhartid]
    decide
  have lines := lines_ipiFrom sink c.hart.csrs.mhartid c.hart known
  rw [account.mhartid] at lines
  have same : c.hart.ipiFrom sink 0 0 = c.hart.sbi sink SBI_SEND_IPI 0 := by
    rw [Hart.ipiFrom, Hart.sbi, Hart.mContext, account.mhartid]
  rwa [same] at lines

theorem sendIpi_does {E : Nat → Prop} {F : Fact} (k' : Irq → Nat) (Q : Fact)
    (keeps : Keeps p k F) (small : ∀ irq, k' irq < 2 ^ 31) (own : k .soft + 1 ≤ k' .soft)
    (other : k .timer ≤ k' .timer)
    (next : ∀ v c c', Account k c → F v c → Called c c' → c'.hart.trap = c.hart.trap → Q v c') :
    (machine p).Does (Fits p) E (With k F) (.sbiSendIpi 0) (With k' Q) := by
  refine does keeps (fun _ _ => trivial) fun s holds ready => ?_
  obtain ⟨⟨mtime, account⟩, fact⟩ := holds
  have idle := ready.idle
  have lines := lines_sendIpi p.sink account
  have configured := foldl_applyM_configured (mTrapHandler (s.core.hart.mContext p.sink)
    CAUSE_ECALL_SMODE s.core.hart.pc 0 (sbiFrame SBI_SEND_IPI 0)).1 s.core.hart
  refine ⟨⟨mtime, account.idle small idle configured.1 ?_ ?_ ?_⟩, ?_⟩
  · rw [lines]
    exact account.msie
  · rw [lines]
    exact account.pendingOff
  · intro irq
    have bound := account.idle_bound idle irq
    rw [show (s.core.hart.sbi p.sink SBI_SEND_IPI 0).trap = s.core.hart.trap from configured.2,
      lines]
    cases irq with
    | timer => exact Nat.le_trans bound other
    | soft =>
      have one := Bool.toNat_le ((1 : BitVec 32).getLsbD 0)
      simp only [Lines.pending, Lines.raised, Core.counted] at bound ⊢
      omega
  · exact next _ _ _ account fact ⟨idle, idle, rfl, rfl, rfl, rfl, rfl⟩ configured.2

/-- The fact does not look at the variables. -/
def Free (F : Fact) : Prop := ∀ v v' c, F v c → F v' c

theorem Free.and {F G : Fact} (first : Free F) (second : Free G) :
    Free fun v c => F v c ∧ G v c := fun v v' c facts =>
  ⟨first v v' c facts.1, second v v' c facts.2⟩

theorem anything_free : Free anything := fun _ _ _ _ => trivial

theorem AtLeast.free (irq : Irq) (n : Nat) : Free (AtLeast irq n) := fun _ _ _ enough => enough

theorem Names.free (irq : Irq) : Free (Names k irq) := fun _ _ _ names => names

theorem InTime.keeps {F : Fact} (keeps : Keeps p k F) : Keeps p k (InTime F) :=
  keeps.when fun v => 0 < v.timeout.toInt

/-- A statement that changes nothing, or variables of the test only. -/
theorem vars_does {E : Nat → Prop} {F : Fact} {stmt : Stmt} (keeps : Keeps p k F) (free : Free F)
    (no : stmt.accesses = false) (only : ∀ s, ∃ vars, perform p s stmt = .next { s with vars }) :
    (machine p).Does (Fits p) E (With k F) stmt (With k F) := by
  refine does keeps (fun s _ => Stmt.accessible no s) fun s holds ready => ?_
  obtain ⟨vars, done⟩ := only s
  rw [done]
  exact ⟨⟨holds.1.mtime, holds.1.account⟩, free _ _ _ holds.2⟩

theorem delay_does {E : Nat → Prop} {F : Fact} (n : Nat) (keeps : Keeps p k F) :
    (machine p).Does (Fits p) E (With k F) (.delay n) (With k F) :=
  does keeps (fun _ _ => trivial) fun _ holds _ => holds

/-- A loop that waits for a count has seen it or has run out of time. -/
theorem poll_does {E : Nat → Prop} {F : Fact} (irq : Irq) (n : Nat) {wait : Wait}
    (keeps : Keeps p k F) (free : Free F)
    (sees : ∀ g, wait.holds g = false → n ≤ (g.value irq.counter).toNat) :
    (machine p).Does (Fits p) E (With k F) (.poll wait)
      (With k fun v c => F v c ∧ InTime (AtLeast irq n) v c) := by
  refine does keeps (fun _ _ => trivial) fun s holds ready => ?_
  obtain ⟨within, fact⟩ := holds
  simp only [perform]
  split
  · split
    · exact ⟨⟨within.mtime, within.account⟩, free _ _ _ fact⟩
    · rename_i out
      exact ⟨⟨within.mtime, within.account⟩, free _ _ _ fact, fun positive => absurd positive out⟩
  · rename_i seen
    exact ⟨within, fact, fun _ => sees _ (by simpa using seen)⟩

theorem zero_sees (irq : Irq) (g : TrapState) (seen : (Wait.zero irq.counter).holds g = false) :
    1 ≤ (g.value irq.counter).toNat := by
  simp only [Wait.holds, decide_eq_false_iff_not] at seen
  by_contra none
  exact seen (BitVec.eq_of_toNat_eq (by
    rw [show (0 : BitVec 32).toNat = 0 from rfl]
    omega))

theorem zero_seen (irq : Irq) (g : TrapState) (some : 1 ≤ (g.value irq.counter).toNat)
    (_ : (g.value irq.counter).toNat < 2 ^ 31) : (Wait.zero irq.counter).holds g = false := by
  simp only [Wait.holds, decide_eq_false_iff_not]
  intro none
  rw [none, show (0 : BitVec 32).toNat = 0 from rfl] at some
  omega

/-- The comparison of the loop is that of `int`s. -/
theorem below_sees (irq : Irq) {n : Nat} (small : n < 2 ^ 31) (g : TrapState)
    (seen : (Wait.below irq.counter (BitVec.ofNat 32 n)).holds g = false) :
    n ≤ (g.value irq.counter).toNat := by
  simp only [Wait.holds] at seen
  have order := mt BitVec.slt_iff_toInt_lt.mpr (by simpa using seen)
  have value : (BitVec.ofNat 32 n).toNat = n := by
    rw [BitVec.toNat_ofNat]
    omega
  rw [BitVec.toInt_eq_toNat_cond, BitVec.toInt_eq_toNat_cond, value] at order
  split at order <;> split at order <;> omega

theorem below_seen (irq : Irq) {n : Nat} (small : n < 2 ^ 31) (g : TrapState)
    (enough : n ≤ (g.value irq.counter).toNat) (few : (g.value irq.counter).toNat < 2 ^ 31) :
    (Wait.below irq.counter (BitVec.ofNat 32 n)).holds g = false := by
  have value : (BitVec.ofNat 32 n).toNat = n := by
    rw [BitVec.toNat_ofNat]
    omega
  have order : ¬ (g.value irq.counter).toInt < (BitVec.ofNat 32 n).toInt := by
    rw [BitVec.toInt_eq_toNat_cond, BitVec.toInt_eq_toNat_cond, value]
    split <;> split <;> omega
  simp only [Wait.holds]
  by_contra less
  exact order (BitVec.slt_iff_toInt_lt.mp (by simpa using less))

theorem check_meets {E : Nat → Prop} {P Q : State → Prop} {condition : Bool} {code : Nat}
    (passes : condition = true → Q s) (fails : condition = false → E code) :
    (check s condition code).Meets E P Q := by
  cases condition with
  | true => exact passes rfl
  | false => exact fails rfl

theorem assertTimeout_does {E : Nat → Prop} {F G : Fact} {code : Nat} (late : E code)
    (keeps : Keeps p k F) (keepsG : Keeps p k G) :
    (machine p).Does (Fits p) E (With k fun v c => F v c ∧ InTime G v c) (.assertTimeout code)
      (With k fun v c => F v c ∧ G v c) := by
  refine does (keeps.and (InTime.keeps keepsG)) (fun _ _ => trivial) fun s holds ready =>
    check_meets ?_ fun _ => late
  intro positive
  exact ⟨holds.1, holds.2.1, holds.2.2 (of_decide_eq_true positive)⟩

/-- A check of a count that is known. -/
theorem assertCount_does {E : Nat → Prop} {F : Fact} {code : Nat} (irq : Irq) (n : Nat)
    (keeps : Keeps p k F)
    (known : ∀ v c, Account k c → F v c → c.handler = none → c.counted irq = n) :
    (machine p).Does (Fits p) E (With k F) (.assertCount irq.counter (BitVec.ofNat 32 n) code)
      (With k F) := by
  refine does keeps (fun _ _ => trivial) fun s holds ready =>
    check_meets (fun _ => holds) fun wrong => ?_
  have value := known _ _ holds.1.account holds.2 ready.idle
  have same : s.core.hart.trap.value irq.counter = BitVec.ofNat 32 n := by
    rw [← value, Core.counted, BitVec.ofNat_toNat, BitVec.setWidth_eq]
  exact absurd same (of_decide_eq_false wrong)

/-- All deliveries that there are have been counted. -/
theorem AtLeast.exact {irq : Irq} {n : Nat} {v : Vars} {c : Core} (account : Account k c)
    (enough : AtLeast irq n v c) (idle : c.handler = none) (all : k irq = n) :
    c.counted irq = n := by
  have bound := account.idle_bound idle irq
  have least : n ≤ c.counted irq := enough
  omega

end ZephyrRiscv.P2
