import ZephyrRiscv.P2Prompt

set_option autoImplicit false

namespace ZephyrRiscv.P2

open Verdict Pt TestRuns Transition

variable {p : Platform} {k : Irq → Nat} {r : Nat}

theorem promptEnv_advance {x : Paced} {ticks : Nat}
    (left : x.state.mtime.toNat + ticks < 2 ^ 64 - 1) :
    promptEnv p r x (.advance ticks) =
      some ⟨{ x.state with mtime := x.state.mtime + BitVec.ofNat 64 ticks },
        x.debt - r * ticks⟩ := by
  rw [promptEnv, env, if_pos left]
  rfl

theorem promptEnv_mTimer {x : Paced} (pends : timerPends x.state = true) :
    promptEnv p r x .mTimer = some { x with
      state := x.state.withHart (x.state.core.hart.mInterrupt p.sink IRQ_M_TIMER) } := by
  rw [promptEnv, env, if_pos pends]
  rfl

theorem promptEnv_mSoft {x : Paced} (pends : softPends x.state = true) :
    promptEnv p r x .mSoft = some { x with
      state := x.state.withHart (x.state.core.hart.mInterrupt p.sink IRQ_M_SOFT) } := by
  rw [promptEnv, env, if_pos pends]
  rfl

/-- The ticks that the clock has left when it has paid for its rounds one by one. -/
def Paced.left (x : Paced) : Nat := 2 ^ 64 - 1 - (x.state.mtime.toNat + x.debt)

/-- A statement spends its rounds. -/
theorem Paced.left_spend {x : Paced} {s : State} {n rounds : Nat} (enough : n + rounds ≤ x.left)
    (same : s.mtime = x.state.mtime) : n ≤ Paced.left ⟨s, x.debt + rounds⟩ := by
  rw [Paced.left] at enough ⊢
  simp only [same]
  omega

/-- The clock goes on until it has paid for the rounds. -/
theorem pays {x : Paced} {t : Nat} (time : x.state.mtime.toNat + t < 2 ^ 64 - 1)
    (enough : x.debt ≤ r * t) :
    ∃ y, (prompt p r).env x (.advance t) = some y ∧
      env p x.state (.advance t) = some y.state ∧ y.state.core = x.state.core ∧ y.debt = 0 ∧
      y.state.mtime.toNat = x.state.mtime.toNat + t := by
  have moved := promptEnv_advance (p := p) (r := r) time
  refine ⟨_, moved, promptEnv_state moved, rfl, Nat.sub_eq_zero_of_le enough, ?_⟩
  show (x.state.mtime + BitVec.ofNat 64 t).toNat = _
  rw [BitVec.toNat_add, BitVec.toNat_ofNat]
  omega

/-- The clock and M-mode do what a statement waits for. -/
theorem settles {K : Paced → Prop} {x : Paced} (kept : (prompt p r).Stable K) (holds : K x)
    (ticks : 0 < r) (some : 0 < x.left) (stmt : Stmt) :
    ∃ x', (prompt p r).Reaches [stmt] x (.running [stmt] x') ∧ K x' ∧ x'.left = x.left ∧
      OnTime r x' := by
  have time : x.state.mtime.toNat + x.debt < 2 ^ 64 - 1 := by
    rw [Paced.left] at some
    omega
  -- the clock first, since its ticks may raise the timer
  have stands : x.debt ≤ r * x.debt := Nat.le_mul_of_pos_left x.debt ticks
  obtain ⟨y, here, keptY, left, paid⟩ : ∃ y, (prompt p r).Reaches [stmt] x (.running [stmt] y) ∧
      K y ∧ y.left = x.left ∧ y.debt = 0 := by
    obtain ⟨y, moved, -, -, paid, clock⟩ := pays (p := p) time stands
    refine ⟨y, (Machine.Reaches.start _ [stmt] x).env moved, kept _ _ _ holds moved, ?_, paid⟩
    rw [Paced.left, Paced.left, paid, clock]
    rfl
  obtain ⟨z, here, keptZ, left, paid, timer⟩ : ∃ z,
      (prompt p r).Reaches [stmt] x (.running [stmt] z) ∧ K z ∧ z.left = x.left ∧ z.debt = 0 ∧
        timerPends z.state = false := by
    cases pends : timerPends y.state with
    | false => exact ⟨y, here, keptY, left, paid, pends⟩
    | true =>
      have moved := promptEnv_mTimer (p := p) (r := r) pends
      refine ⟨_, here.env moved, kept _ _ _ keptY moved, left, paid, ?_⟩
      simp only [timerPends, State.withHart, lines_mTimer, Bool.false_and]
  cases pends : softPends z.state with
  | false => exact ⟨z, here, keptZ, left, timer, pends, by omega⟩
  | true =>
    have moved := promptEnv_mSoft (p := p) (r := r) pends
    refine ⟨_, here.env moved, kept _ _ _ keptZ moved, left, ?_, ?_,
      Nat.lt_of_le_of_lt (Nat.le_of_eq paid) ticks⟩
    · simp only [timerPends, State.withHart, lines_mSoft]
      exact timer
    · simp only [softPends, State.withHart, lines_mSoft]
      exact Bool.and_false _

theorem promptExec_traps {stmt : Stmt} {x : Paced} {s' : State} (onTime : OnTime r x)
    (trapped : trapStep p x.state = some (.again s')) :
    promptExec p r stmt x = some (.again { x with state := s' }) := by
  have paid := onTime.paid
  simp only [promptExec, onTime.timer, onTime.soft, Bool.false_or, decide_eq_true_eq,
    if_neg (Nat.not_le.mpr paid), trapped]
  rfl

theorem promptExec_performs {stmt : Stmt} {x : Paced} (onTime : OnTime r x)
    (quiet : trapStep p x.state = none) :
    promptExec p r stmt x = some ((perform p x.state stmt).map fun state =>
      { state, debt := x.debt + stmt.rounds }) := by
  have paid := onTime.paid
  simp only [promptExec, onTime.timer, onTime.soft, Bool.false_or, decide_eq_true_eq,
    if_neg (Nat.not_le.mpr paid), quiet]

/-- The hart comes to the statement. -/
theorem arrives {x : Paced} (within : Within k x.state) (ticks : 0 < r) (some : 0 < x.left)
    (stmt : Stmt) :
    ∃ x', (prompt p r).Reaches [stmt] x (.running [stmt] x') ∧ Trapped k x.state x'.state ∧
      x'.left = x.left ∧ Ready x'.state ∧
      promptExec p r stmt x' = Option.some ((perform p x'.state stmt).map fun state =>
        { state, debt := x'.debt + stmt.rounds }) := by
  induction steps : x.state.core.traps k using Nat.strongRecOn generalizing x with
  | ind n ih =>
    subst steps
    have kept : (prompt p r).Stable fun y => Trapped k x.state y.state := fun y a y' before moved =>
      before.trans (before.within.env (promptEnv_state moved))
    obtain ⟨y, here, trapped, left, onTime⟩ := settles kept within.trapped ticks some stmt
    rcases trapStep_cases (p := p) trapped.within with ⟨t, trap, -⟩ | ⟨quiet, ready⟩
    · obtain ⟨one, less⟩ := trapped.within.trapStep trap
      have fewer := Nat.lt_of_lt_of_le less trapped.fewer
      have same : Paced.left { y with state := t } = x.left := by
        rw [← left, Paced.left, Paced.left, trapStep_mtime trap]
      obtain ⟨x', onward, more, left', last⟩ := ih (t.core.traps k) fewer
        (x := { y with state := t }) one.within (by rw [same]; exact some) rfl
      exact ⟨x', (here.exec (promptExec_traps onTime trap)).trans onward,
        trapped.trans (one.trans more), left'.trans same, last⟩
    · exact ⟨y, here, trapped, left, ready, promptExec_performs onTime quiet⟩

/-- A statement that may have to be tried again. -/
def Stmt.waits : Stmt → Bool
  | .poll _ | .wfi | .load _ | .store _ _ => true
  | _ => false

theorem perform_direct {stmt : Stmt} {s : State} (direct : stmt.waits = false) :
    (perform p s stmt).Meets (fun _ => True) (fun _ => False) fun s' => s'.mtime = s.mtime := by
  have checks : ∀ (condition : Bool) (code : Nat), (check s condition code).Meets (fun _ => True)
      (fun _ => False) fun s' => s'.mtime = s.mtime := by
    intro condition code
    cases condition with
    | true => exact rfl
    | false => trivial
  cases stmt with
  | poll | wfi | load | store => cases direct
  | assertTimeout | assertCount | assertLastIrqCause | assertSip | assertFault | assertVal =>
    exact checks _ _
  | _ => exact rfl

/-- An outcome that is no retry, with the clock where it was. -/
theorem ends_by {stmt : Stmt} {x y : Paced} {n : Nat}
    (reached : (prompt p r).Reaches [stmt] x (.running [stmt] y))
    (performs : promptExec p r stmt y = some ((perform p y.state stmt).map fun state =>
      { state, debt := y.debt + stmt.rounds }))
    (direct : (perform p y.state stmt).Meets (fun _ => True) (fun _ => False)
      fun s' => s'.mtime = y.state.mtime)
    (enough : n + stmt.rounds ≤ y.left) : (prompt p r).Ends Paced.left n stmt x := by
  refine ⟨_, reached.exec performs, ?_⟩
  cases done : perform p y.state stmt with
  | next s' =>
    rw [done] at direct
    exact Paced.left_spend enough direct
  | again s' =>
    rw [done] at direct
    exact direct.elim
  | fail e => trivial

theorem direct_ends {stmt : Stmt} {x : Paced} {n : Nat} (within : Within k x.state)
    (ticks : 0 < r) (direct : stmt.waits = false) (enough : n + (stmt.rounds + 1) ≤ x.left) :
    (prompt p r).Ends Paced.left n stmt x := by
  obtain ⟨y, here, -, left, -, performs⟩ := arrives within ticks (by omega) stmt
  exact ends_by here performs (perform_direct direct) (by omega)

/-- A loop runs out of time, if it sees nothing. -/
theorem poll_ends {wait : Wait} {x : Paced} {n : Nat} (within : Within k x.state) (ticks : 0 < r)
    (enough : n + ((x.state.vars.timeout - 1).toNat + 1) ≤ x.left) :
    (prompt p r).Ends Paced.left n (.poll wait) x := by
  induction rounds : (x.state.vars.timeout - 1).toNat using Nat.strongRecOn generalizing x with
  | ind m ih =>
    subst rounds
    obtain ⟨y, here, trapped, left, -, performs⟩ := arrives within ticks (by omega) (.poll wait)
    rw [← trapped.vars] at enough ih
    have one : (Stmt.poll wait).rounds = 1 := rfl
    by_cases again : wait.holds y.state.core.hart.trap = true ∧
        0 < (y.state.vars.timeout - 1).toInt
    · have tried : perform p y.state (.poll wait) = .again { y.state with
          vars := { y.state.vars with timeout := y.state.vars.timeout - 1 } } := by
        simp only [perform, if_pos again.1, if_pos again.2]
      rw [tried] at performs
      -- the count that is left goes down by one
      have some : 1 ≤ (y.state.vars.timeout - 1).toNat := by
        by_contra none
        have zero : y.state.vars.timeout - 1 = 0#32 := BitVec.eq_of_toNat_eq (by simpa using none)
        rw [zero] at again
        exact absurd again.2 (by decide)
      have value : (1 : BitVec 32).toNat = 1 := rfl
      have less : (y.state.vars.timeout - 1 - 1).toNat = (y.state.vars.timeout - 1).toNat - 1 := by
        rw [BitVec.toNat_sub_of_le (by rw [BitVec.le_def, value]; omega), value]
      have spare : n + ((y.state.vars.timeout - 1 - 1).toNat + 1) + 1 ≤ y.left := by omega
      obtain ⟨c, onward, outcome⟩ := ih (y.state.vars.timeout - 1 - 1).toNat (by omega)
        (x := ⟨{ y.state with vars := { y.state.vars with timeout := y.state.vars.timeout - 1 } },
          y.debt + 1⟩) ⟨trapped.within.mtime, trapped.within.account⟩
        (Paced.left_spend spare rfl) rfl
      exact ⟨c, (here.exec performs).trans onward, outcome⟩
    · refine ends_by here performs ?_ (by omega)
      simp only [perform]
      split
      · rename_i waits
        rw [if_neg fun positive => again ⟨waits, positive⟩]
        exact rfl
      · exact rfl

theorem repaired_ends (room : RoomFor p.pool) {x : Paced} {n : Nat} (within : Within k x.state)
    (ticks : 0 < r) (repaired : Loaded p.pool repairedView x.state.vars.root
      x.state.vars.ptPoolNextPage x.state.core.space) (enough : n + 1 ≤ x.left) :
    (prompt p r).Ends Paced.left n (.load faultVa) x := by
  obtain ⟨y, here, trapped, left, ready, performs⟩ :=
    arrives within ticks (by omega) (.load faultVa)
  rw [← trapped.vars, ← trapped.space] at repaired
  refine ends_by here performs ?_ (by rw [left]; exact enough)
  rw [load_served room ready.idle repaired]
  exact rfl

theorem load_ends (room : RoomFor p.pool) {x : Paced} {n : Nat} (within : Within k x.state)
    (ticks : 0 < r) (finds : Accessible p.pool x.state (.load faultVa)) (enough : n + 2 ≤ x.left) :
    (prompt p r).Ends Paced.left n (.load faultVa) x := by
  rcases finds.2 with mapped | repaired
  · obtain ⟨y, here, trapped, left, ready, performs⟩ :=
      arrives within ticks (by omega) (.load faultVa)
    rw [← trapped.vars, ← trapped.space] at mapped
    obtain ⟨faulted, within', repaired, -⟩ := load_faults room trapped.within ready.idle mapped
    rw [faulted] at performs
    have spare : n + 1 + 1 ≤ y.left := by omega
    obtain ⟨c, onward, outcome⟩ := repaired_ends room
      (x := ⟨{ y.state with core := pageFault y.state.core.hart .load faultVa }, y.debt + 1⟩)
      within' ticks repaired (Paced.left_spend spare rfl)
    exact ⟨c, (here.exec performs).trans onward, outcome⟩
  · exact repaired_ends room within ticks repaired (by omega)

theorem store_ends (room : RoomFor p.pool) {x : Paced} {n : Nat} {value : BitVec 64}
    (within : Within k x.state) (ticks : 0 < r)
    (finds : Accessible p.pool x.state (.store faultPa value)) (enough : n + 1 ≤ x.left) :
    (prompt p r).Ends Paced.left n (.store faultPa value) x := by
  have paged := finds.2
  obtain ⟨y, here, trapped, left, ready, performs⟩ :=
    arrives within ticks (by omega) (.store faultPa value)
  rw [← trapped.vars, ← trapped.space, space_idle ready.idle] at paged
  refine ends_by here performs ?_ (by rw [left]; exact enough)
  show (accessing p y.state .store faultPa _).Meets _ _ _
  rw [accessing, identity_store room paged]
  exact rfl

theorem env_later {s s' : State} {a : Action} (moved : env p s a = some s') :
    s.mtime.toNat ≤ s'.mtime.toNat := by
  cases a with
  | advance ticks =>
    simp only [env, Option.ite_none_right_eq_some, Option.some.injEq] at moved
    obtain ⟨bound, rfl⟩ := moved
    rw [BitVec.toNat_add, BitVec.toNat_ofNat]
    omega
  | mTimer =>
    simp only [env, Option.ite_none_right_eq_some, Option.some.injEq] at moved
    obtain ⟨-, rfl⟩ := moved
    exact Nat.le_refl _
  | mSoft =>
    simp only [env, Option.ite_none_right_eq_some, Option.some.injEq] at moved
    obtain ⟨-, rfl⟩ := moved
    exact Nat.le_refl _

/-- With the timer's interrupt in `sip` it comes back at once. -/
theorem wfi_wakes (stalls : p.wfiNop = false) {x : Paced} (onTime : OnTime r x)
    (stie : x.state.core.hart.csrs.mie.getLsbD STI = true)
    (stip : x.state.core.hart.lines.stip = true) : wfi p x.state = .next x.state := by
  have pending : x.state.core.hart.mip.getLsbD STI = true := stip
  have woken : wakes x.state.core.hart STI = true := by rw [wakes, pending, stie, Bool.and_self]
  rw [wfi, if_neg (by rw [stalls]; exact Bool.false_ne_true),
    if_neg (by rw [onTime.soft]; exact Bool.false_ne_true),
    if_neg (by rw [onTime.timer]; exact Bool.false_ne_true), woken, Bool.or_true, if_pos rfl]

/-- The clock takes it there. -/
theorem wfi_ends (stalls : p.wfiNop = false) {x : Paced} {n : Nat} (within : Within k x.state)
    (ticks : 0 < r) (dozes : DozesFor r 500 x) (enough : n + 502 ≤ x.left) :
    (prompt p r).Ends Paced.left n .wfi x := by
  have time : x.state.mtime.toNat + (x.debt + 500) < 2 ^ 64 - 1 := by
    rw [Paced.left] at enough
    omega
  -- so late the deadline is over
  have near : Dozes (fun t => t.toNat ≤ x.state.mtime.toNat + (x.debt + 500)) x.state.core := by
    refine ⟨dozes.1, dozes.2.later fun t reached => Nat.le_of_mul_le_mul_left ?_ ticks⟩
    have stands : x.debt ≤ r * x.debt := Nat.le_mul_of_pos_left x.debt ticks
    rw [Paced.elapsed] at reached
    rw [Nat.mul_add, Nat.mul_add]
    omega
  have kept : (prompt p r).Stable fun y => Within k y.state ∧
      Dozes (fun t => t.toNat ≤ x.state.mtime.toNat + (x.debt + 500)) y.state.core ∧
      x.state.mtime.toNat + (x.debt + 500) ≤ y.state.mtime.toNat := by
    intro y a y' before moved
    obtain ⟨within, dozes, late⟩ := before
    have moved := promptEnv_state moved
    have move := env_move within moved
    refine ⟨within.move move, ?_, Nat.le_trans late (env_later moved)⟩
    rcases move.core with same | moves
    · rw [same]
      exact dozes
    · exact dozes.moves within.account moves
  have stands : x.debt ≤ r * (x.debt + 500) :=
    Nat.le_trans (Nat.le_add_right _ _) (Nat.le_mul_of_pos_left _ ticks)
  obtain ⟨y, moved, went, core, paid, clock⟩ := pays (p := p) time stands
  rw [← core] at near
  have spare : n + 2 ≤ y.left := by
    rw [Paced.left] at enough ⊢
    omega
  obtain ⟨z, onward, ⟨-, ⟨shut, owes⟩, late⟩, left, onTime⟩ := settles kept
    ⟨within.move (env_move within went), near, Nat.le_of_eq clock.symm⟩ ticks
    (by omega) .wfi
  have reached := ((Machine.Reaches.start (prompt p r) [.wfi] x).env moved).trans onward
  have stip : z.state.core.hart.lines.stip = true := by
    rcases owes with pending | ⟨on, past⟩
    · exact pending
    · have waits := onTime.timer
      simp only [timerPends, on, Bool.true_and, decide_eq_false_iff_not, BitVec.le_def] at waits
      omega
  have quiet : trapStep p z.state = none := by
    simp only [trapStep, shut.idle, Hart.takesS, shut.sie, Bool.false_and]
    rfl
  refine ends_by reached (promptExec_performs onTime quiet) ?_ ?_
  · show (wfi p z.state).Meets _ _ _
    rw [wfi_wakes stalls onTime shut.stie stip]
    exact rfl
  · rw [left]
    exact Nat.le_of_succ_le spare

/-- What a statement of the test finds on a hart that is on time. -/
structure Begins (p : Platform) (r : Nat) (stmt : Stmt) (x : Paced) : Prop where
  fits : Fits p stmt x.state
  awaits : Awaits r stmt x
  short : stmt.rounds ≤ 50000

theorem statement_ends (room : RoomFor p.pool) (stalls : p.wfiNop = false) (ticks : 0 < r)
    (stmt : Stmt) (x : Paced) (n : Nat) (begins : Begins p r stmt x)
    (enough : n + 2 ^ 32 ≤ x.left) : (prompt p r).Ends Paced.left n stmt x := by
  obtain ⟨⟨⟨k, within⟩, finds⟩, awaits, short⟩ := begins
  cases direct : stmt.waits with
  | false => exact direct_ends within ticks direct (by omega)
  | true =>
    cases stmt with
    | poll wait =>
      have few := (x.state.vars.timeout - 1).isLt
      exact poll_ends within ticks (by omega)
    | wfi => exact wfi_ends stalls within ticks (awaits rfl) (by omega)
    | load va =>
      obtain ⟨rfl, tables⟩ := finds
      exact load_ends room within ticks ⟨rfl, tables⟩ (by omega)
    | store va value =>
      obtain ⟨rfl, tables⟩ := finds
      exact store_ends room within ticks ⟨rfl, tables⟩ (by omega)
    | _ => cases direct

/-- An outline of a part, and one that says it does not fail in time. -/
theorem never_fails {P Q : State → Prop} {code : List Stmt}
    (base : Outline (machine p) (Fits p) OfTime P code Q)
    (timely : Outline (prompt p r) (FitsPaced p) (fun code => ¬ OfTime code)
      (fun x => P x.state) code (fun _ => True)) :
    Outline (prompt p r) (FitsPaced p) (fun _ => False) (fun x => P x.state) code
      (fun x => Q x.state) := by
  have both := (base.pull (prompt_covered (p := p) (r := r))).both timely
  refine .weaken (Q := fun x => P x.state ∧ P x.state) (fun _ holds => ⟨holds, holds⟩) ?_
  exact (both.wider (fun _ _ _ fits => fits.1) fun _ fails => fails.2 fails.1).forget
    fun _ holds => holds.1

theorem testMain_prompt (room : RoomFor p.pool) (stalls : p.wfiNop = false) (fast : r ≤ 500) :
    Outline (prompt p r) (Begins p r) (fun _ => False)
      (fun x => With (bounds 0 0) anything x.state) testMain
      (fun x => With (bounds 1 1) (Both 1 1) x.state) := by
  have covered := prompt_covered (p := p) (r := r)
  have timer := never_fails (timerInterrupt_outline (by decide))
    (timerInterrupt_prompt (p := p) fast)
  have soft := never_fails (softwareInterrupt_outline (by decide))
    (.weaken (fun _ holds => ⟨holds.1, trivial⟩) (softwareInterrupt_prompt (p := p) (r := r)))
  have timers := never_fails (timerInterrupts_outline (by decide))
    (timerInterrupts_prompt (p := p) fast)
  have fault := (timerAndFault_outline (E := fun _ => False) room).pull covered
  have sie := never_fails (sieMasks_outline (by decide)) (sieMasks_prompt (p := p) (r := r))
  have stie := never_fails (stieMasks_outline (by decide))
    (.weaken (fun _ holds => ⟨holds.1, trivial⟩) (stieMasks_prompt (p := p) fast))
  have wakes := (wfiWakes_outline (p := p) (E := fun _ => False) fun nop => by
    rw [stalls] at nop
    cases nop).pull covered
  have dozes : Outline (prompt p r) (Awaits r) (fun _ => True)
      (fun x => With (bounds 1 1) (Both 1 1) x.state) wfiWakes (fun _ => True) :=
    .weaken (fun _ holds => ⟨holds.1, trivial⟩) wfiWakes_prompt
  have quick : ∀ stmt ∈ timerInterrupt ++ softwareInterrupt ++ timerInterrupts ++
      timerAndFault ++ (sieMasks ++ stieMasks), stmt ≠ .wfi ∧ stmt.rounds ≤ 50000 := by decide
  have short : ∀ stmt ∈ wfiWakes, stmt.rounds ≤ 50000 := by decide
  have before := ((((timer.append soft).append timers).append fault).append
    (sie.append stie)).wider (J := Begins p r) (F := fun _ => False)
      (fun stmt member x fits => ⟨fits, fun sleeps => absurd sleeps (quick stmt member).1,
        (quick stmt member).2⟩) fun _ fails => fails
  have behind := ((wakes.both dozes).wider (J := Begins p r) (F := fun _ => False)
    (fun stmt member x finds => ⟨finds.1, finds.2, short stmt member⟩)
      fun _ fails => fails.1).forget (R := fun x => With (bounds 1 1) (Both 1 1) x.state)
        fun _ holds => holds.1
  have whole := before.append (.weaken (fun _ holds => ⟨holds, holds⟩) behind)
  simpa only [testMain, List.append_assoc] using whole

/-- A hart on which M-mode's interrupts are taken at once, whose clock ticks once in five hundred
rounds of a loop or more often, and that stalls in `wfi` never fails the test. From wherever it has
come to, it can get behind the statements ahead, one or all of them, as long as its clock has time
left for them. -/
theorem prompt_never_fails (room : RoomFor p.pool) (stalls : p.wfiNop = false) (some : 0 < r)
    (fast : r ≤ 500) {x : Paced} (boot : AtBoot x.state) :
    (∀ code, ¬ (prompt p r).Reaches testMain x (.failed code)) ∧
      ∀ code rest x', (prompt p r).Reaches testMain x (.running (code ++ rest) x') →
        x'.state.mtime.toNat + x'.debt + code.length * 2 ^ 32 < 2 ^ 64 →
        ∃ x'', (prompt p r).Reaches (code ++ rest) x' (.running rest x'') := by
  have outline := testMain_prompt room stalls fast
  have start : With (bounds 0 0) anything x.state := ⟨boot.within, trivial⟩
  constructor
  · intro code failed
    exact outline.fails (s := x) start failed
  · intro code rest x' reached left
    refine outline.goes_on (statement_ends room stalls some) (s := x) start reached ?_
    rw [Paced.left]
    omega

/-- A clock that ticks once in ten rounds. -/
theorem prompt_never_fails_port :
    (∀ code, ¬ (prompt portPlatform 10).Reaches testMain ⟨portBoot, 0⟩ (.failed code)) ∧
      ∀ code rest x', (prompt portPlatform 10).Reaches testMain ⟨portBoot, 0⟩
          (.running (code ++ rest) x') →
        x'.state.mtime.toNat + x'.debt + code.length * 2 ^ 32 < 2 ^ 64 →
        ∃ x'', (prompt portPlatform 10).Reaches (code ++ rest) x' (.running rest x'') :=
  prompt_never_fails linkerPool_room rfl (by decide) (by decide) portBoot_atBoot

end ZephyrRiscv.P2
