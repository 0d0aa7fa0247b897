import ZephyrRiscv.Deliveries
import ZephyrRiscv.P2PageFault

set_option autoImplicit false

namespace ZephyrRiscv

open Verdict

/-- The deliveries that may still be taken, eight steps each, and what is left of the handler. -/
def Core.traps (k : Irq → Nat) (c : Core) : Nat :=
  8 * (k .timer - c.total .timerIrq + (k .soft - c.total .softIrq)) +
    c.handler.elim 0 fun todo => todo.length + 1

variable {sink : Sink} {k : Irq → Nat} {c c' : Core}

theorem Account.handlerStep_less (account : Account k c)
    (stepped : c.handlerStep sink = some c') : c'.traps k < c.traps k := by
  have timer := total_handlerStep (account.total_lt .timer) stepped
  have soft := total_handlerStep (account.total_lt .soft) stepped
  rw [Core.traps, Core.traps, show c'.total .timerIrq = c.total .timerIrq from timer,
    show c'.total .softIrq = c.total .softIrq from soft]
  rcases handlerStep_cases stepped with ⟨finished, rfl⟩ | ⟨effect, rest, hart, running, -, rfl⟩
  · rw [finished]
    exact Nat.lt_succ_self _
  · rw [running]
    exact Nat.add_lt_add_left (Nat.lt_succ_self _) _

/-- An interrupt that is taken adds one to its own total. -/
theorem total_sInterrupt {irq : Irq} (taken : c.sInterrupt irq.number = some c') (counted : Irq) :
    c'.total counted.counter = c.total counted.counter + if counted = irq then 1 else 0 := by
  obtain ⟨idle, -, sepc, handler, -, trap, -⟩ := Core.sInterrupt_irq taken
  rw [total_idle idle, Core.total, trap, handler]
  cases irq <;> cases counted <;> rfl

theorem Account.sInterrupt_less {irq : Irq} (account : Account k c)
    (taken : c.sInterrupt irq.number = some c') : c'.traps k < c.traps k := by
  have moves : c.Moves .htif c' := .sInterrupt irq taken
  have bound := (account.moves moves).total_bound irq
  obtain ⟨idle, -, sepc, handler, -⟩ := Core.sInterrupt_irq taken
  have steps : (irq.effects 0 sepc).length = 6 := by cases irq <;> rfl
  have timer := total_sInterrupt taken .timer
  have soft := total_sInterrupt taken .soft
  simp only [Core.traps, idle, handler, Option.elim_none, Option.elim_some, steps]
  cases irq with
  | timer =>
    simp only [Irq.counter, reduceCtorEq, if_true, if_false] at bound timer soft
    omega
  | soft =>
    simp only [Irq.counter, reduceCtorEq, if_true, if_false] at bound timer soft
    omega

namespace P2

open Pt TestRuns

variable {p : Platform} {s s' : State}

/-- What a trap before a statement is. -/
theorem trapStep_inv (trapped : trapStep p s = some (.again s')) :
    ∃ core, s' = { s with core } ∧ (s.core.handlerStep p.sink = some core ∨
      ∃ irq : Irq, s.core.sInterrupt irq.number = some core) := by
  unfold trapStep at trapped
  split at trapped
  · cases trapped
  · obtain ⟨core, stepped, same⟩ := Option.map_eq_some_iff.mp trapped
    cases same
    exact ⟨core, rfl, .inl stepped⟩
  · split at trapped
    · obtain ⟨core, taken, same⟩ := Option.map_eq_some_iff.mp trapped
      cases same
      exact ⟨core, rfl, .inr ⟨.soft, taken⟩⟩
    · split at trapped
      · obtain ⟨core, taken, same⟩ := Option.map_eq_some_iff.mp trapped
        cases same
        exact ⟨core, rfl, .inr ⟨.timer, taken⟩⟩
      · cases trapped

/-- Between two states before a statement only time has passed and traps have come. -/
structure Trapped (k : Irq → Nat) (s s' : State) : Prop where
  within : Within k s'
  vars : s'.vars = s.vars
  space : s'.core.space = s.core.space
  fewer : s'.core.traps k ≤ s.core.traps k

theorem Trapped.trans {s'' : State} (first : Trapped k s s') (second : Trapped k s' s'') :
    Trapped k s s'' :=
  ⟨second.within, second.vars.trans first.vars, second.space.trans first.space,
    Nat.le_trans second.fewer first.fewer⟩

theorem Within.trapped (within : Within k s) : Trapped k s s :=
  ⟨within, rfl, rfl, Nat.le_refl _⟩

/-- M-mode leaves S-mode's handler and counts alone. -/
theorem env_fewer {a : Action} (moved : env p s a = some s') :
    s'.core.traps k = s.core.traps k := by
  have same : s'.core.handler = s.core.handler ∧ s'.core.hart.trap = s.core.hart.trap := by
    cases a with
    | advance ticks =>
      simp only [env, Option.ite_none_right_eq_some, Option.some.injEq] at moved
      obtain ⟨-, rfl⟩ := moved
      exact ⟨rfl, rfl⟩
    | mTimer =>
      simp only [env, Option.ite_none_right_eq_some, Option.some.injEq] at moved
      obtain ⟨-, rfl⟩ := moved
      exact ⟨rfl, (below_mTimer p.sink s.core.hart).trap⟩
    | mSoft =>
      simp only [env, Option.ite_none_right_eq_some, Option.some.injEq] at moved
      obtain ⟨-, rfl⟩ := moved
      exact ⟨rfl, (below_mSoft p.sink s.core.hart).trap⟩
  simp only [Core.traps, Core.total, same.1, same.2]

theorem Within.env {a : Action} (within : Within k s) (moved : env p s a = some s') :
    Trapped k s s' := by
  have move := env_move within moved
  refine ⟨within.move move, move.vars, ?_, Nat.le_of_eq (env_fewer moved)⟩
  rcases move.core with same | moves
  · rw [same]
  · exact within.account.space_moves moves

theorem Within.trapStep (within : Within k s) (trapped : trapStep p s = some (.again s')) :
    Trapped k s s' ∧ s'.core.traps k < s.core.traps k := by
  obtain ⟨core, rfl, way⟩ := trapStep_inv trapped
  have account := within.account
  have moves : s.core.Moves p.sink core := by
    rcases way with stepped | ⟨irq, taken⟩
    · exact .handler stepped
    · exact .sInterrupt irq taken
  have less : core.traps k < s.core.traps k := by
    rcases way with stepped | ⟨irq, taken⟩
    · exact account.handlerStep_less stepped
    · exact account.sInterrupt_less taken
  exact ⟨⟨⟨within.mtime, account.moves moves⟩, rfl, account.space_moves moves,
    Nat.le_of_lt less⟩, less⟩

/-- The hart by itself comes to the statement. -/
theorem Within.arrives (within : Within k s) (stmt : Stmt) :
    ∃ s', (machine p).alone.Reaches [stmt] s (.running [stmt] s') ∧ Trapped k s s' ∧ Ready s' ∧
      exec p stmt s' = some (perform p s' stmt) := by
  induction left : s.core.traps k using Nat.strongRecOn generalizing s with
  | ind n ih =>
    subst left
    rcases trapStep_cases (p := p) within with ⟨t, trapped, -⟩ | ⟨none, ready⟩
    · obtain ⟨one, less⟩ := within.trapStep trapped
      have step : (machine p).alone.exec stmt s = some (.again t) := by
        show exec p stmt s = _
        rw [exec, trapped]
        rfl
      obtain ⟨s', onward, more, last⟩ := ih (t.core.traps k) less one.within rfl
      exact ⟨s', ((Machine.Reaches.start _ [stmt] s).exec step).trans onward, one.trans more, last⟩
    · refine ⟨s, .start _ [stmt] s, within.trapped, ready, ?_⟩
      rw [exec, none]
      rfl

/-- It comes back from the load as soon as the entry is repaired. -/
theorem repaired_returns (room : RoomFor p.pool) (within : Within k s)
    (repaired : Loaded p.pool repairedView s.vars.root s.vars.ptPoolNextPage s.core.space) :
    ∃ s', (machine p).alone.Reaches [.load faultVa] s (.running [] s') ∧
      s'.vars.val = faultWord := by
  obtain ⟨t, reached, traps, ready, performs⟩ := within.arrives (p := p) (.load faultVa)
  rw [← traps.vars, ← traps.space] at repaired
  rw [load_served room ready.idle repaired] at performs
  exact ⟨_, reached.exec performs, rfl⟩

/-- The first time its handler repairs the entry. -/
theorem load_returns (room : RoomFor p.pool) (within : Within k s)
    (finds : Accessible p.pool s (.load faultVa)) :
    ∃ s', (machine p).alone.Reaches [.load faultVa] s (.running [] s') ∧
      s'.vars.val = faultWord := by
  rcases finds.2 with mapped | repaired
  · obtain ⟨t, reached, traps, ready, performs⟩ := within.arrives (p := p) (.load faultVa)
    rw [← traps.vars, ← traps.space] at mapped
    obtain ⟨faulted, within', repaired, -⟩ := load_faults room traps.within ready.idle mapped
    rw [faulted] at performs
    obtain ⟨s', onward, value⟩ := repaired_returns room within' repaired
    exact ⟨s', (reached.exec performs).trans onward, value⟩
  · exact repaired_returns room within repaired

end P2

end ZephyrRiscv
