import ZephyrRiscv.P2Outlines

set_option autoImplicit false

namespace ZephyrRiscv.P2

open TestRuns

variable {p : Platform} {k : Irq → Nat} {E : Nat → Prop}

theorem bounds_small {timer soft : Nat} (timerSmall : timer < 2 ^ 31) (softSmall : soft < 2 ^ 31)
    (irq : Irq) : bounds timer soft irq < 2 ^ 31 := by
  cases irq with
  | timer => exact timerSmall
  | soft => exact softSmall

/-- The wait for one delivery and the checks behind it. -/
theorem awaited {F : Fact} {timeout : BitVec 32} {late twice other : Nat} (irq : Irq)
    (one : k irq = 1) (keeps : Keeps p k F) (calm : Calm F) (free : Free F)
    (names : ∀ v c, F v c → Names k irq v c) (timing : E late) :
    Outline (machine p) (Fits p) E (With k F)
      [.setTimeout timeout, .poll (.zero irq.counter), .disableSInterrupts, .assertTimeout late,
        .assertCount irq.counter 1 twice, .assertLastIrqCause irq.cause other]
      (With k fun v c => F v c ∧ AtLeast irq 1 v c) := by
  have counted := AtLeast.keeps (p := p) (k := k) irq 1
  have both := keeps.and counted
  refine .cons (vars_does keeps free rfl fun _ => ⟨_, rfl⟩) ?_
  refine .cons (poll_does irq 1 keeps free (zero_sees irq)) ?_
  refine .cons (plain_does (keeps.and (InTime.keeps counted))
    (calm.and (InTime.calm (AtLeast.calm irq 1))) rfl) ?_
  refine .cons (assertTimeout_does timing keeps counted) ?_
  refine .cons (assertCount_does irq 1 both fun v c account facts idle =>
    facts.2.exact account idle one) ?_
  refine .cons (does both (fun _ _ => trivial) fun s holds ready =>
    check_meets (fun _ => holds) fun wrong => ?_) (.nil _)
  have some : s.core.counted irq ≠ 0 := Nat.one_le_iff_ne_zero.mp holds.2.2
  exact absurd ((names _ _ holds.2.1).2.counted some) (of_decide_eq_false wrong)

/-- Where an interrupt has not been counted, its name stands for all there will be. -/
theorem names_start {irq : Irq} {v : Vars} {c : Core} (idle : c.handler = none)
    (others : k irq.other ≤ c.counted irq.other) (none : c.counted irq = 0) : Names k irq v c := by
  refine ⟨others, fun some => absurd none some, fun rest running => ?_⟩
  rw [idle] at running
  cases running

theorem timerInterrupt_outline (timing : E 600) :
    Outline (machine p) (Fits p) E (With (bounds 0 0) anything) timerInterrupt
      (With (bounds 1 0) (AtLeast .timer 1)) := by
  refine .cons (plain_does anything_keeps anything_calm rfl) ?_
  refine .cons (plain_does anything_keeps anything_calm rfl) ?_
  refine .cons (reset_does .timer 0 (bounds 0 0) anything anything_keeps
    (fun _ _ _ => Nat.zero_le _) (bounds_small (by omega) (by omega)) (by decide) (by decide)
    fun _ _ _ _ _ _ _ _ _ => trivial) ?_
  refine .cons (plain_does anything_keeps anything_calm rfl) ?_
  refine .cons (plain_does anything_keeps anything_calm rfl) ?_
  refine .cons (plain_does anything_keeps anything_calm rfl) ?_
  refine .cons (setTimer_does 0 1000 (bounds 1 0) (Names (bounds 1 0) .timer)
    anything_keeps (fun v c account _ => ?_) (bounds_small (by omega) (by omega)) (by decide)
    (by decide) fun v c c' account _ called trap => ?_) ?_
  · have bound := account.bound .timer
    have limit : bounds 0 0 .timer = 0 := rfl
    omega
  · have bound := account.bound .timer
    have limit : bounds 0 0 .timer = 0 := rfl
    refine names_start called.handler (Nat.zero_le _) ?_
    have same : c'.counted .timer = c.counted .timer := by rw [Core.counted, Core.counted, trap]
    omega
  · exact (awaited .timer rfl (Names.keeps .timer) (Names.calm .timer) (Names.free .timer)
      (fun _ _ names => names) timing).forget fun _ holds => ⟨holds.1, holds.2.2⟩

theorem softwareInterrupt_outline (timing : E 610) :
    Outline (machine p) (Fits p) E (With (bounds 1 0) (AtLeast .timer 1)) softwareInterrupt
      (With (bounds 1 1) fun v c => AtLeast .timer 1 v c ∧ AtLeast .soft 1 v c) := by
  have keeps : ∀ k, Keeps p k (AtLeast .timer 1) := fun _ => AtLeast.keeps .timer 1
  have calm := AtLeast.calm .timer 1
  refine .cons (plain_does (keeps _) calm rfl) ?_
  refine .cons (reset_does .soft 0 (bounds 1 0) (AtLeast .timer 1) (keeps _)
    (fun _ _ _ => Nat.zero_le _) (bounds_small (by omega) (by omega)) (by decide) (by decide)
    fun v c c' _ counted _ _ same _ => Nat.le_trans counted (Nat.le_of_eq same.symm)) ?_
  refine .cons (plain_does (keeps _) calm rfl) ?_
  refine .cons (plain_does (keeps _) calm rfl) ?_
  refine .cons (sendIpi_does (bounds 1 1)
    (fun v c => AtLeast .timer 1 v c ∧ Names (bounds 1 1) .soft v c) (keeps _)
    (bounds_small (by omega) (by omega)) (by decide) (by decide)
    fun v c c' account counted called trap => ?_) ?_
  · have same : ∀ irq, c'.counted irq = c.counted irq := fun irq => by
      rw [Core.counted, Core.counted, trap]
    have bound := account.bound .soft
    have limit : bounds 1 0 .soft = 0 := rfl
    have enough : 1 ≤ c'.counted .timer := Nat.le_trans counted (Nat.le_of_eq (same .timer).symm)
    refine ⟨enough, names_start called.handler enough ?_⟩
    rw [same]
    omega
  · exact (awaited .soft rfl ((keeps _).and (Names.keeps .soft)) (calm.and (Names.calm .soft))
      ((AtLeast.free .timer 1).and (Names.free .soft)) (fun _ _ facts => facts.2) timing).forget
      fun _ holds => ⟨holds.1, holds.2.1.1, holds.2.2⟩

/-- Both counts are this far. -/
def Both (timer soft : Nat) : Fact := fun v c => AtLeast .timer timer v c ∧ AtLeast .soft soft v c

theorem Both.keeps (timer soft : Nat) : Keeps p k (Both timer soft) :=
  (AtLeast.keeps .timer timer).and (AtLeast.keeps .soft soft)

theorem Both.calm (timer soft : Nat) : Calm (Both timer soft) :=
  (AtLeast.calm .timer timer).and (AtLeast.calm .soft soft)

theorem Both.free (timer soft : Nat) : Free (Both timer soft) :=
  (AtLeast.free .timer timer).and (AtLeast.free .soft soft)

theorem timerRound_outline (i : Nat) (round : i < 3) (timing : E (620 + i)) :
    Outline (machine p) (Fits p) E (With (bounds i 1) (Both i 1)) (timerRound i)
      (With (bounds (i + 1) 1) (Both (i + 1) 1)) := by
  refine .cons (plain_does (Both.keeps i 1) (Both.calm i 1) rfl) ?_
  refine .cons (setTimer_does i 500 (bounds (i + 1) 1) (AtLeast .soft 1)
    (Both.keeps i 1) (fun v c account _ => ?_) (bounds_small (by omega) (by omega))
    (Nat.le_refl _) (Nat.le_refl _) fun v c c' account counted called trap => ?_) ?_
  · have bound := account.bound .timer
    have limit : bounds i 1 .timer = i := rfl
    omega
  · show 1 ≤ c'.counted .soft
    rw [Core.counted, trap]
    exact counted.2
  have keeps := AtLeast.keeps (p := p) (k := bounds (i + 1) 1) .soft 1
  have counts := AtLeast.keeps (p := p) (k := bounds (i + 1) 1) .timer (i + 1)
  refine .cons (vars_does keeps (AtLeast.free .soft 1) rfl fun _ => ⟨_, rfl⟩) ?_
  refine .cons (poll_does .timer (i + 1) keeps (AtLeast.free .soft 1)
    (below_sees .timer (by omega))) ?_
  refine (Machine.Does.outline (assertTimeout_does timing keeps counts)).forget ?_
  exact fun _ holds => ⟨holds.1, holds.2.2, holds.2.1⟩

theorem timerInterrupts_outline (timing : ∀ i < 3, E (620 + i)) :
    Outline (machine p) (Fits p) E (With (bounds 1 1) (Both 1 1)) timerInterrupts
      (With (bounds 3 1) (Both 3 1)) := by
  have rounds : Outline (machine p) (Fits p) E (With (bounds 0 1) (Both 0 1))
      ((List.range 3).flatMap timerRound) (With (bounds 3 1) (Both 3 1)) :=
    .rounds (A := fun i => With (bounds i 1) (Both i 1)) 3 fun i round =>
      timerRound_outline i round (timing i round)
  refine .append (.append ?_ rounds) ?_
  · refine .cons (reset_does .timer 1 (bounds 0 1) (Both 0 1) (Both.keeps 1 1)
      (fun _ _ both => both.1) (bounds_small (by omega) (by omega)) (by decide) (by decide)
      fun v c c' _ both _ _ same _ => ⟨Nat.zero_le _, ?_⟩) ?_
    · exact Nat.le_trans both.2 (Nat.le_of_eq same.symm)
    refine .cons (plain_does (Both.keeps 0 1) (Both.calm 0 1) rfl) ?_
    exact Machine.Does.outline (plain_does (Both.keeps 0 1) (Both.calm 0 1) rfl)
  · refine .cons (plain_does (Both.keeps 3 1) (Both.calm 3 1) rfl) ?_
    exact Machine.Does.outline (assertCount_does .timer 3 (Both.keeps 3 1)
      fun v c account both idle => both.1.exact account idle rfl)

/-- No handler runs, SIE and STIE are known, and so is something about `g_trap`. -/
def Closed (sie stie : Bool) (G : TrapState → Prop) : Fact := fun _ c =>
  Shut sie stie c ∧ G c.hart.trap

theorem closed_moves {sie stie : Bool} {G : TrapState → Prop} {v : Vars} {c c' : Core}
    (closed : Closed sie stie G v c) (account : Account k c) (blocks : Blocks k sie stie c)
    (moves : c.Moves p.sink c') :
    Closed sie stie G v c' ∧ (c.hart.lines.stip = true → c'.hart.lines.stip = true) := by
  obtain ⟨shut, trap, stip⟩ := closed.1.moves account blocks moves
  refine ⟨⟨shut, ?_⟩, stip⟩
  rw [trap]
  exact closed.2

/-- What closes the hart to the interrupts, by what is known about `g_trap`. -/
def Closes (k : Irq → Nat) (sie stie : Bool) (G : TrapState → Prop) : Prop :=
  ∀ c : Core, G c.hart.trap → Blocks k sie stie c

theorem Closed.keeps {sie stie : Bool} {G : TrapState → Prop} (closes : Closes k sie stie G) :
    Keeps p k (Closed sie stie G) := fun _ c _ account moves closed =>
  (closed_moves closed account (closes c closed.2) moves).1

theorem Closed.free (sie stie : Bool) (G : TrapState → Prop) : Free (Closed sie stie G) :=
  fun _ _ _ closed => closed

theorem Closed.called {sie stie : Bool} {G G' : TrapState → Prop} {v : Vars} {c c' : Core}
    (closed : Closed sie stie G v c) (called : Called c c') (now : G' c'.hart.trap) :
    Closed sie stie G' v c' :=
  ⟨⟨called.handler, by rw [called.mstatus]; exact closed.1.sie,
    called.stie.trans closed.1.stie⟩, now⟩

/-- SIE is clear, and STIE whatever it is. -/
def Masked (G : TrapState → Prop) : Fact := fun v c => ∃ stie, Closed false stie G v c

theorem masks (stie : Bool) (G : TrapState → Prop) : Closes k false stie G :=
  fun _ _ => .inl rfl

theorem Masked.keeps (G : TrapState → Prop) : Keeps p k (Masked G) := by
  intro v c c' account moves masked
  obtain ⟨stie, closed⟩ := masked
  exact ⟨stie, Closed.keeps (masks stie G) v c c' account moves closed⟩

/-- A statement that leaves the accounts alone, from a fact to another one. -/
theorem plain_turns {F Q : Fact} {stmt : Stmt} (keeps : Keeps p k F) (plain : stmt.plain = true)
    (turns : ∀ s s', With k F s → Ready s → perform p s stmt = .next s' → Q s'.vars s'.core) :
    (machine p).Does (Fits p) E (With k F) stmt (With k Q) := by
  have no := Stmt.plain_accesses plain
  refine does keeps (fun s _ => Stmt.accessible no s) fun s holds ready => ?_
  obtain ⟨s', done, mtime, -, similar⟩ := perform_plain holds.1 ready plain
  have next := turns s s' holds ready done
  rw [done]
  refine ⟨⟨?_, account_similar holds.1.account similar⟩, next⟩
  rw [mtime]
  exact holds.1.mtime

theorem sie_written (h : Hart) (on : Bool) :
    (h.writeSstatusSie on).csrs.mstatus.getLsbD SIE = on := by
  show (setBit h.csrs.mstatus SIE on).getLsbD SIE = on
  rw [getLsbD_setBit h.csrs.mstatus on SIE (by decide), if_pos rfl]

theorem disable_does {F : Fact} {G : TrapState → Prop} (keeps : Keeps p k F)
    (known : ∀ v c, Account k c → F v c → G c.hart.trap) :
    (machine p).Does (Fits p) E (With k F) .disableSInterrupts (With k (Masked G)) := by
  refine plain_turns keeps rfl fun s s' holds ready done => ?_
  have trap := known _ _ holds.1.account holds.2
  cases done
  exact ⟨_, ⟨ready.idle, sie_written s.core.hart false, rfl⟩, trap⟩

/-- The bit of `sip` and `sie` for an interrupt. -/
def sipBit : Irq → BitVec 64
  | .timer => SIP_STIP
  | .soft => SIP_SSIP

/-- `csrs sie` where the interrupt is delegated. -/
theorem sie_set {c : Core} (account : Account k c) (irq : Irq) :
    (csrsSie c.hart (sipBit irq)).csrs.mie.getLsbD irq.bit = true := by
  have delegated := account.delegated irq
  have bit : (sipBit irq).getLsbD irq.bit = true := by cases irq <;> decide
  simp only [csrsSie, BitVec.getLsbD_or, BitVec.getLsbD_and, bit, delegated, Bool.and_self,
    Bool.or_true]

/-- `write_sie(SIP_SSIP)` clears STIE. -/
theorem stie_cleared {c : Core} (account : Account k c) :
    (writeSie c.hart SIP_SSIP).csrs.mie.getLsbD STI = false := by
  have delegated : c.hart.csrs.mideleg.getLsbD STI = true := account.delegated .timer
  have bit : SIP_SSIP.getLsbD STI = false := by decide
  simp only [writeSie, BitVec.getLsbD_or, BitVec.getLsbD_and, BitVec.getLsbD_not, bit, delegated,
    Bool.false_and, Bool.or_false, Bool.not_true, Bool.and_false]

/-- What `sip` says about the timer. -/
theorem sip_stip {c : Core} (account : Account k c) :
    readSip c.hart &&& SIP_STIP ≠ 0 ↔ c.hart.lines.stip = true := by
  have delegated : c.hart.csrs.mideleg.getLsbD STI = true := account.delegated .timer
  have bit : SIP_STIP = BitVec.twoPow 64 STI := by decide
  rw [bit, readSip, ne_eq, BitVec.and_twoPow]
  simp only [BitVec.getLsbD_and, delegated, Bool.and_true]
  show _ ↔ c.hart.mip.getLsbD STI = true
  cases c.hart.mip.getLsbD STI <;> decide

theorem sieMasks_outline (timing : E 641) :
    Outline (machine p) (Fits p) E (With (bounds 1 1) (AtLeast .soft 1)) sieMasks
      (With (bounds 1 1) (Masked fun g => g.softIrqCount = 1)) := by
  refine .cons (reset_does .soft 1 (bounds 1 0) anything (AtLeast.keeps .soft 1)
    (fun _ _ counted => counted) (bounds_small (by omega) (by omega)) (by decide) (by decide)
    fun _ _ _ _ _ _ _ _ _ => trivial) ?_
  refine .cons (plain_does anything_keeps anything_calm rfl) ?_
  have masked := fun k => Masked.keeps (p := p) (k := k) fun g => g.softIrqCount = 0
  refine .cons (disable_does (G := fun g => g.softIrqCount = 0) anything_keeps
    fun v c account _ => ?_) ?_
  · have bound := account.bound .soft
    have limit : bounds 1 0 .soft = 0 := rfl
    refine BitVec.eq_of_toNat_eq ?_
    show c.counted .soft = 0
    omega
  refine .cons (sendIpi_does (bounds 1 1) (Masked fun g => g.softIrqCount = 0)
    (masked _) (bounds_small (by omega) (by omega)) (by decide) (by decide)
    fun v c c' _ holds called trap => ?_) ?_
  · obtain ⟨stie, closed⟩ := holds
    exact ⟨stie, closed.called called (by rw [trap]; exact closed.2)⟩
  refine .cons (delay_does 10000 (masked _)) ?_
  refine .cons (assertCount_does .soft 0 (masked _) fun v c _ holds _ => ?_) ?_
  · obtain ⟨stie, closed⟩ := holds
    exact congrArg BitVec.toNat closed.2
  refine .weaken (Q := With (bounds 1 1) anything) (fun _ holds => ⟨holds.1, trivial⟩) ?_
  refine .cons (plain_does anything_keeps anything_calm rfl) ?_
  refine .cons (delay_does 3 anything_keeps) ?_
  refine .cons (vars_does anything_keeps anything_free rfl fun _ => ⟨_, rfl⟩) ?_
  refine .cons (poll_does .soft 1 anything_keeps anything_free (zero_sees .soft)) ?_
  refine .weaken (Q := With (bounds 1 1) anything) (fun _ holds => ⟨holds.1, trivial⟩) ?_
  refine .cons (disable_does (G := fun _ => True) anything_keeps fun _ _ _ _ => trivial) ?_
  refine Machine.Does.outline (does (Masked.keeps _) (fun _ _ => trivial) fun s holds ready =>
    check_meets (fun equal => ?_) fun _ => timing)
  obtain ⟨stie, closed⟩ := holds.2
  exact ⟨holds.1, stie, closed.1, of_decide_eq_true equal⟩

/-- The timer interrupt is pending where nothing can be taken. -/
def Pends (sie stie : Bool) (G : TrapState → Prop) : Fact := fun v c =>
  Closed sie stie G v c ∧ c.hart.lines.stip = true

theorem Pends.keeps {sie stie : Bool} {G : TrapState → Prop} (closes : Closes k sie stie G) :
    Keeps p k (Pends sie stie G) := by
  intro v c c' account moves pends
  obtain ⟨closed, stip⟩ := closed_moves pends.1 account (closes c pends.1.2) moves
  exact ⟨closed, stip pends.2⟩

/-- What has been read from `sip` holds on. -/
def SipRead (sie stie : Bool) (G : TrapState → Prop) : Fact := fun v c =>
  Closed sie stie G v c ∧ (v.sip &&& SIP_STIP ≠ 0 → c.hart.lines.stip = true)

theorem SipRead.keeps {sie stie : Bool} {G : TrapState → Prop} (closes : Closes k sie stie G) :
    Keeps p k (SipRead sie stie G) := by
  intro v c c' account moves read
  obtain ⟨closed, stip⟩ := closed_moves read.1 account (closes c read.1.2) moves
  exact ⟨closed, fun set => stip (read.2 set)⟩

/-- `g_trap` before the timer's one delivery, when all software interrupts are counted. -/
def BeforeTimer (g : TrapState) : Prop := g.timerIrqCount = 0 ∧ g.softIrqCount = 1

theorem beforeTimer_closes (sie stie : Bool) (closed : sie = false ∨ stie = false) :
    Closes (bounds 1 1) sie stie BeforeTimer := by
  intro c before
  have all : bounds 1 1 .soft ≤ c.counted .soft :=
    Nat.le_of_eq (congrArg BitVec.toNat before.2).symm
  rcases closed with off | off
  · exact .inl off
  · exact .inr ⟨.inl off, all⟩

/-- The program arms the timer where nothing can be taken. -/
theorem arm_does {k : Irq → Nat} {sie stie : Bool} (delta : BitVec 64)
    (closes : Closes k sie stie BeforeTimer) (soft : k .soft ≤ 1) :
    (machine p).Does (Fits p) E (With k (Closed sie stie BeforeTimer)) (.sbiSetTimer delta)
      (With (bounds 1 1) (Closed sie stie BeforeTimer)) := by
  refine setTimer_does 0 delta (bounds 1 1) (Closed sie stie BeforeTimer) (Closed.keeps closes)
    (fun v c _ closed => ?_) (bounds_small (by omega) (by omega)) (Nat.le_refl 1) soft
    fun v c c' _ closed called trap => ?_
  · exact Nat.le_of_eq (congrArg BitVec.toNat closed.2.1)
  · exact closed.called called (by rw [trap]; exact closed.2)

/-- What is taken as soon as it is enabled. -/
def Comes : Fact := fun _ c => Delivers c ∧ 1 ≤ c.counted .soft

theorem Comes.keeps : Keeps p (bounds 1 1) Comes := fun _ _ _ account moves comes =>
  ⟨comes.1.moves account rfl comes.2 moves,
    Nat.le_trans comes.2 (account.counted_le moves .soft)⟩

/-- Behind the next statement the delivery is counted. -/
theorem comes_does (n : Nat) :
    (machine p).Does (Fits p) E (With (bounds 1 1) Comes) (.delay n)
      (With (bounds 1 1) (Both 1 1)) := by
  refine does Comes.keeps (fun _ _ => trivial) fun s holds ready => ⟨holds.1, ?_, holds.2.2⟩
  exact Nat.le_of_eq (holds.2.1.ready ready.idle ready.timer).symm

theorem takesS_timer {c : Core} {hart : Hart} (account : Account k c)
    (sie : hart.csrs.mstatus.getLsbD SIE = true) (stie : hart.csrs.mie.getLsbD STI = true)
    (stip : hart.lines.stip = true) (mideleg : hart.csrs.mideleg = c.hart.csrs.mideleg) :
    hart.takesS STI = true := by
  have delegated : c.hart.csrs.mideleg.getLsbD STI = true := account.delegated .timer
  have pending : hart.mip.getLsbD STI = true := stip
  simp only [Hart.takesS, sie, stie, pending, mideleg, delegated, Bool.and_self]

theorem BeforeTimer.soft {c : Core} (before : BeforeTimer c.hart.trap) : 1 ≤ c.counted .soft :=
  Nat.le_of_eq (congrArg BitVec.toNat before.2).symm

theorem stieMasks_outline (timing : E 651) :
    Outline (machine p) (Fits p) E (With (bounds 1 1) (Masked fun g => g.softIrqCount = 1))
      stieMasks (With (bounds 1 1) (Both 1 1)) := by
  refine .cons (reset_does .timer 0 (bounds 1 1) (Masked BeforeTimer) (Masked.keeps _)
    (fun _ _ _ => Nat.zero_le _) (bounds_small (by omega) (by omega)) (by decide) (by decide)
    fun v c c' _ holds called none same _ => ?_) ?_
  · obtain ⟨stie, closed⟩ := holds
    have soft : c'.hart.trap.softIrqCount = c.hart.trap.softIrqCount :=
      BitVec.eq_of_toNat_eq same
    exact ⟨stie, closed.called called ⟨BitVec.eq_of_toNat_eq none, soft.trans closed.2⟩⟩
  refine .cons (plain_turns (Q := Closed false false BeforeTimer) (Masked.keeps _) rfl
    fun s s' holds ready done => ?_) ?_
  · obtain ⟨stie, closed⟩ := holds.2
    have cleared := stie_cleared holds.1.account
    cases done
    exact ⟨⟨ready.idle, closed.1.sie, cleared⟩, closed.2⟩
  have closes := beforeTimer_closes true false (.inr rfl)
  have keeps := Closed.keeps (p := p) closes
  refine .cons (plain_turns (Q := Closed true false BeforeTimer)
    (Closed.keeps (masks false BeforeTimer)) rfl fun s s' holds ready done => ?_) ?_
  · cases done
    exact ⟨⟨ready.idle, sie_written s.core.hart true, holds.2.1.stie⟩, holds.2.2⟩
  refine .cons (vars_does keeps (Closed.free true false _) rfl fun _ => ⟨_, rfl⟩) ?_
  refine .cons (arm_does 100 closes (Nat.le_refl 1)) ?_
  refine .cons (delay_does 50000 keeps) ?_
  refine .cons (assertCount_does .timer 0 keeps fun v c _ closed _ =>
    congrArg BitVec.toNat closed.2.1) ?_
  refine .cons (plain_turns (Q := SipRead true false BeforeTimer) keeps rfl
    fun s s' holds ready done => ?_) ?_
  · have sip := sip_stip holds.1.account
    cases done
    exact ⟨holds.2, sip.mp⟩
  refine .cons (does (Q := With (bounds 1 1) (Pends true false BeforeTimer))
    (SipRead.keeps closes) (fun _ _ => trivial) fun s holds ready =>
      check_meets (fun set => ?_) fun _ => timing) ?_
  · exact ⟨holds.1, holds.2.1, holds.2.2 (of_decide_eq_true set)⟩
  refine .cons (plain_turns (Q := Comes) (Pends.keeps closes) rfl
    fun s s' holds ready done => ?_) ?_
  · obtain ⟨closed, stip⟩ := holds.2
    have stie := sie_set holds.1.account .timer
    cases done
    exact ⟨.inl ⟨ready.idle, takesS_timer holds.1.account closed.1.sie stie stip rfl⟩,
      closed.2.soft⟩
  refine .cons (comes_does 2) ?_
  refine .cons (vars_does (Both.keeps 1 1) (Both.free 1 1) rfl fun _ => ⟨_, rfl⟩) ?_
  refine .cons (poll_does .timer 1 (Both.keeps 1 1) (Both.free 1 1) (zero_sees .timer)) ?_
  refine .weaken (Q := With (bounds 1 1) (Both 1 1)) (fun _ holds => ⟨holds.1, holds.2.1⟩) ?_
  refine .cons (plain_does (Both.keeps 1 1) (Both.calm 1 1) rfl) ?_
  exact (assertCount_does .timer 1 (Both.keeps 1 1) fun v c account both idle =>
    both.1.exact account idle rfl).outline

/-- What is counted when there is nothing left of either interrupt. -/
theorem settled_closes (sie stie : Bool) : Closes (bounds 0 1) sie stie BeforeTimer :=
  fun _ before => .inr ⟨.inr (Nat.zero_le _), before.soft⟩

/-- `wfi` comes back with the timer pending, unless the hart treats it as a `nop`. -/
def Woken (p : Platform) : Fact := fun v c =>
  Closed false true BeforeTimer v c ∧ (p.wfiNop = false → c.hart.lines.stip = true)

theorem Woken.keeps : Keeps p (bounds 1 1) (Woken p) := by
  intro v c c' account moves woken
  obtain ⟨closed, stip⟩ := closed_moves woken.1 account (.inl rfl) moves
  exact ⟨closed, fun stalls => stip (woken.2 stalls)⟩

theorem Closed.below {sie stie : Bool} {G : TrapState → Prop} {v : Vars} {c : Core} {hart : Hart}
    (closed : Closed sie stie G v c) (below : c.hart.Below hart) :
    Closed sie stie G v { c with hart } := by
  refine ⟨⟨closed.1.idle, ?_, ?_⟩, ?_⟩
  · exact (congrArg (BitVec.getLsbD · SIE) below.mstatus).trans closed.1.sie
  · exact (below.mie STI (by decide)).trans closed.1.stie
  · rw [below.trap]
    exact closed.2

theorem wfi_does :
    (machine p).Does (Fits p) E (With (bounds 1 1) (Closed false true BeforeTimer)) .wfi
      (With (bounds 1 1) (Woken p)) := by
  refine does (Closed.keeps (masks true BeforeTimer)) (fun _ _ => trivial) fun s holds ready => ?_
  obtain ⟨within, closed⟩ := holds
  -- every software interrupt has been counted
  have bound := within.account.idle_bound ready.idle .soft
  have limit : bounds 1 1 .soft = 1 := rfl
  have counted := closed.2.soft
  show (wfi p s).Meets E _ _
  unfold wfi
  split
  · rename_i nop
    exact ⟨within, closed, fun stalls => by rw [nop] at stalls; cases stalls⟩
  · split
    · rename_i pends
      have raised : s.core.hart.lines.raised .soft = true := softPends_raised pends
      rw [raised, Bool.toNat_true] at bound
      omega
    · split
      · rename_i pends
        obtain ⟨on, real⟩ := deadline_real within pends
        have below := below_mTimer p.sink s.core.hart
        have lines := lines_mTimer p.sink s.core.hart
        refine ⟨⟨within.mtime, within.account.moves (.mTimer on real)⟩, closed.below below, ?_⟩
        intro _
        show (s.core.hart.mInterrupt p.sink IRQ_M_TIMER).lines.stip = true
        rw [lines]
      · split
        · rename_i woken
          refine ⟨within, closed, fun _ => ?_⟩
          have noSoft : s.core.hart.lines.ssip = false := by
            by_contra set
            have pending : s.core.hart.lines.pending .soft = true := eq_true_of_ne_false set
            rw [pending, Bool.toNat_true] at bound
            omega
          have clear : s.core.hart.mip.getLsbD SSI = false := noSoft
          simp only [wakes, clear, Bool.false_and, Bool.false_or, Bool.and_eq_true] at woken
          exact woken.1
        · exact ⟨within, closed⟩

theorem wfiWakes_outline (woken : p.wfiNop = true → E 660) :
    Outline (machine p) (Fits p) E (With (bounds 1 1) (Both 1 1)) wfiWakes
      (With (bounds 1 1) (Both 1 1)) := by
  have closes := fun sie stie => settled_closes sie stie
  refine .cons (reset_does .timer 1 (bounds 0 1) (Both 0 1) (Both.keeps 1 1)
    (fun _ _ both => both.1) (bounds_small (by omega) (by omega)) (by decide) (by decide)
    fun v c c' _ both _ _ same _ =>
      ⟨Nat.zero_le _, Nat.le_trans both.2 (Nat.le_of_eq same.symm)⟩) ?_
  refine .cons (plain_turns (Q := fun v c => ∃ sie, Closed sie true BeforeTimer v c)
    (Both.keeps 0 1) rfl fun s s' holds ready done => ?_) ?_
  · have stie := sie_set holds.1.account .timer
    have timer := holds.1.account.idle_bound ready.idle .timer
    have soft := holds.2.2.exact holds.1.account ready.idle rfl
    have limit : bounds 0 1 .timer = 0 := rfl
    have none : s.core.counted .timer = 0 := by omega
    cases done
    exact ⟨_, ⟨ready.idle, rfl, stie⟩, BitVec.eq_of_toNat_eq none, BitVec.eq_of_toNat_eq soft⟩
  refine .cons (plain_turns (Q := Closed false true BeforeTimer)
    (fun v c c' account moves holds => ?_) rfl fun s s' holds ready done => ?_) ?_
  · obtain ⟨sie, closed⟩ := holds
    exact ⟨sie, Closed.keeps (closes sie true) v c c' account moves closed⟩
  · obtain ⟨sie, closed⟩ := holds.2
    cases done
    exact ⟨⟨ready.idle, sie_written s.core.hart false, closed.1.stie⟩, closed.2⟩
  refine .cons (vars_does (Closed.keeps (closes false true)) (Closed.free false true _)
    rfl fun _ => ⟨_, rfl⟩) ?_
  refine .cons (arm_does 500 (closes false true) (Nat.le_refl 1)) ?_
  refine .cons wfi_does ?_
  refine .cons (plain_turns (Q := fun v c => SipRead false true BeforeTimer v c ∧
    (p.wfiNop = false → v.sip &&& SIP_STIP ≠ 0)) Woken.keeps rfl fun s s' holds ready done => ?_) ?_
  · have sip := sip_stip holds.1.account
    obtain ⟨closed, stip⟩ := holds.2
    cases done
    exact ⟨⟨closed, sip.mp⟩, fun stalls => sip.mpr (stip stalls)⟩
  refine .cons (does (Q := With (bounds 1 1) (Pends false true BeforeTimer))
    (fun v c c' account moves holds =>
      ⟨SipRead.keeps (masks true BeforeTimer) v c c' account moves holds.1, holds.2⟩)
    (fun _ _ => trivial) fun s holds ready => check_meets (fun set => ?_) fun unset => ?_) ?_
  · exact ⟨holds.1, holds.2.1.1, holds.2.1.2 (of_decide_eq_true set)⟩
  · apply woken
    by_contra stalls
    exact absurd (holds.2.2 (by simpa using stalls)) (of_decide_eq_false unset)
  refine .cons (assertCount_does .timer 0 (Pends.keeps (masks true BeforeTimer))
    fun v c _ pends _ => congrArg BitVec.toNat pends.1.2.1) ?_
  refine .cons (plain_turns (Q := Comes) (Pends.keeps (masks true BeforeTimer)) rfl
    fun s s' holds ready done => ?_) ?_
  · obtain ⟨closed, stip⟩ := holds.2
    have taken : (s.core.hart.writeSstatusSie true).takesS STI = true :=
      takesS_timer holds.1.account (sie_written s.core.hart true) closed.1.stie stip rfl
    cases done
    exact ⟨.inl ⟨ready.idle, taken⟩, closed.2.soft⟩
  refine .cons (comes_does 1) ?_
  refine .cons (plain_does (Both.keeps 1 1) (Both.calm 1 1) rfl) ?_
  exact (assertCount_does .timer 1 (Both.keeps 1 1) fun v c account both idle =>
    both.1.exact account idle rfl).outline

end ZephyrRiscv.P2
