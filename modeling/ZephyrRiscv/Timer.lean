import ZephyrRiscv.Interrupts
import ZephyrRiscv.Transition

set_option autoImplicit false

namespace ZephyrRiscv.Timer

open Transition Verdict

/-- An S-timer trap: how many program calls had been made, and when it was taken. -/
structure Delivery where
  calls : Nat
  mtime : BitVec 64
deriving DecidableEq, Repr

/-- A hart under its clock. Program calls and deliveries are recorded, oldest first. -/
structure State where
  core : Core
  mtime : BitVec 64
  calls : List (BitVec 64)
  deliveries : List Delivery

inductive Action where
  | tick
  | setTimer (value : BitVec 64)
  | setSie (on : Bool)
  | setStie (on : Bool)
  | mTimer
  | sTimer
  | handler
deriving DecidableEq, Repr

def step (sink : Sink) (s : State) : Action → Option State
  | .tick =>
      if s.mtime.toNat + 1 < 2 ^ 64 - 1 then some { s with mtime := s.mtime + 1 } else none
  | .setTimer value =>
      if s.core.handler.isNone then
        some { s with
          core := { s.core with hart := s.core.hart.sbi sink SBI_SET_TIMER value }
          calls := s.calls ++ [value] }
      else none
  | .setSie on =>
      if s.core.handler.isNone then
        some { s with core := { s.core with hart := s.core.hart.writeSstatusSie on } }
      else none
  | .setStie on =>
      if s.core.handler.isNone then
        some { s with core := { s.core with hart := s.core.hart.writeSie STI on } }
      else none
  | .mTimer =>
      if s.core.hart.lines.mtie ∧ s.core.hart.lines.mtimecmp ≤ s.mtime then
        some { s with core := { s.core with hart := s.core.hart.mInterrupt sink IRQ_M_TIMER } }
      else none
  | .sTimer =>
      (s.core.sInterrupt IRQ_S_TIMER).map fun core =>
        { s with core, deliveries := s.deliveries ++ [⟨s.calls.length, s.mtime⟩] }
  | .handler => (s.core.handlerStep sink).map fun core => { s with core }

/-- The port's boot state, with some value of `timer_irq_count`. -/
structure AtBoot (count : BitVec 32) (s : State) : Prop where
  handler : s.core.handler = none
  mtie : s.core.hart.lines.mtie = false
  stip : s.core.hart.lines.stip = false
  mtime : s.mtime.toNat < 2 ^ 64 - 1
  calls : s.calls = []
  deliveries : s.deliveries = []
  count : s.core.hart.trap.timerIrqCount = count

/-- The latest program call has been delivered. -/
def State.Delivered (s : State) : Prop := s.calls.length ∈ s.deliveries.map Delivery.calls

/-- The latest of the program calls made before a delivery, due by then. -/
def Delivery.Due (calls : List (BitVec 64)) (d : Delivery) : Prop :=
  ∃ value, (calls.take d.calls).getLast? = some value ∧ value ≤ d.mtime

/-- Deliveries are matched to distinct program calls, each the latest when delivered. -/
structure Matched (calls : List (BitVec 64)) (deliveries : List Delivery) : Prop where
  made : ∀ d ∈ deliveries, d.calls ≤ calls.length
  due : ∀ d ∈ deliveries, d.Due calls
  distinct : (deliveries.map Delivery.calls).Nodup

structure Forwarding (count : BitVec 32) (s : State) : Prop where
  time : s.mtime.toNat < 2 ^ 64 - 1
  isMatched : Matched s.calls s.deliveries
  pending : s.core.hart.lines.stip = true → s.core.hart.lines.mtie = false ∧
    ∃ value, s.calls.getLast? = some value ∧ value ≤ s.mtime
  fresh : s.core.hart.lines.stip = true → s.core.handler = none → ¬ s.Delivered
  armed : s.core.hart.lines.mtie = true →
    s.core.hart.lines.mtimecmp ≠ 0xFFFFFFFFFFFFFFFF →
    s.calls.getLast? = some s.core.hart.lines.mtimecmp ∧ ¬ s.Delivered
  handling : ∀ rest, s.core.handler = some rest →
    s.Delivered ∧ Remaining (.ecall SBI_SET_TIMER 0xFFFFFFFFFFFFFFFF) rest ∧
      if rest = [] then s.core.hart.lines.stip = false else s.core.hart.lines.mtie = false
  counted : Counts .timerIrq count s.core s.deliveries.length

theorem AtBoot.forwarding {count : BitVec 32} {s : State} (boot : AtBoot count s) :
    Forwarding count s := by
  rcases boot with ⟨handler, mtie, stip, mtime, calls, deliveries, start⟩
  constructor
  · exact mtime
  · rw [deliveries]
    exact ⟨by simp, by simp, List.nodup_nil⟩
  · simp [stip]
  · simp [stip]
  · simp [mtie]
  · simp [handler]
  · exact ⟨0, by simp [TrapState.value, start], by simp [handler, deliveries, uncounted]⟩

/-- Nothing but bits that are no lines, quiet parts of the handler and the clock change. -/
theorem Forwarding.keep {count : BitVec 32} {s s' : State} (inv : Forwarding count s)
    (time : s.mtime.toNat ≤ s'.mtime.toNat) (bound : s'.mtime.toNat < 2 ^ 64 - 1)
    (calls : s'.calls = s.calls) (deliveries : s'.deliveries = s.deliveries)
    (lines : s'.core.hart.lines = s.core.hart.lines)
    (fresh : s.core.hart.lines.stip = true → s'.core.handler = none → s.core.handler = none)
    (handling : ∀ rest, s'.core.handler = some rest →
      s.Delivered ∧ Remaining (.ecall SBI_SET_TIMER 0xFFFFFFFFFFFFFFFF) rest ∧
        if rest = [] then s.core.hart.lines.stip = false else s.core.hart.lines.mtie = false)
    (counted : Counts .timerIrq count s'.core s.deliveries.length) : Forwarding count s' := by
  have delivered : s'.Delivered ↔ s.Delivered := by
    unfold State.Delivered
    rw [calls, deliveries]
  constructor
  · exact bound
  · rw [calls, deliveries]
    exact inv.isMatched
  · rw [lines, calls]
    intro stip
    rcases inv.pending stip with ⟨off, value, latest, due⟩
    exact ⟨off, value, latest, Nat.le_trans due time⟩
  · rw [lines, delivered]
    exact fun stip idle => inv.fresh stip (fresh stip idle)
  · rw [lines, calls, delivered]
    exact inv.armed
  · rw [lines, delivered]
    exact handling
  · rw [deliveries]
    exact counted

theorem le_max_of_bound {mtime : BitVec 64} (bound : mtime.toNat < 2 ^ 64 - 1)
    {deadline : BitVec 64} (due : deadline ≤ mtime) : deadline ≠ 0xFFFFFFFFFFFFFFFF := by
  intro never
  rw [never, BitVec.le_def] at due
  have max : (0xFFFFFFFFFFFFFFFF : BitVec 64).toNat = 2 ^ 64 - 1 := rfl
  omega

theorem Forwarding.setTimer {sink : Sink} {count : BitVec 32} {s : State}
    (inv : Forwarding count s) (idle : s.core.handler = none) (value : BitVec 64) :
    Forwarding count { s with
      core := { s.core with hart := s.core.hart.sbi sink SBI_SET_TIMER value }
      calls := s.calls ++ [value] } := by
  have lines := lines_setTimer sink s.core.hart value
  have unchanged : (s.core.hart.sbi sink SBI_SET_TIMER value).trap = s.core.hart.trap :=
    (foldl_applyM_configured _ _).2
  constructor
  · exact inv.time
  · constructor
    · intro d member
      have old := inv.isMatched.made d member
      simp only [List.length_append, List.length_singleton]
      omega
    · intro d member
      rcases inv.isMatched.due d member with ⟨v, latest, due⟩
      have prefix_same : (s.calls ++ [value]).take d.calls = s.calls.take d.calls :=
        List.take_append_of_le_length (inv.isMatched.made d member)
      exact ⟨v, by rw [prefix_same]; exact latest, due⟩
    · exact inv.isMatched.distinct
  · simp [lines]
  · simp [lines]
  · intro _ _
    simp only [lines, List.getLast?_concat, true_and]
    -- the new call is later than every delivery
    intro delivered
    rcases List.mem_map.mp delivered with ⟨d, member, now⟩
    have old := inv.isMatched.made d member
    simp only [List.length_append, List.length_singleton] at now
    omega
  · intro rest running
    rw [idle] at running
    cases running
  · rcases inv.counted with ⟨k, value, sum⟩
    exact ⟨k, (congrArg (TrapState.value · .timerIrq) unchanged).trans value, sum⟩

theorem Forwarding.mTimer {sink : Sink} {count : BitVec 32} {s : State}
    (inv : Forwarding count s) (on : s.core.hart.lines.mtie = true)
    (due : s.core.hart.lines.mtimecmp ≤ s.mtime) :
    Forwarding count { s with
      core := { s.core with hart := s.core.hart.mInterrupt sink IRQ_M_TIMER } } := by
  have lines := lines_mTimer sink s.core.hart
  have unchanged : (s.core.hart.mInterrupt sink IRQ_M_TIMER).trap = s.core.hart.trap :=
    (foldl_applyM_configured _ _).2
  rcases inv.armed on (le_max_of_bound inv.time due) with ⟨latest, undelivered⟩
  constructor
  · exact inv.time
  · exact inv.isMatched
  · intro _
    simp only [lines, true_and]
    exact ⟨_, latest, due⟩
  · intro _ _
    exact undelivered
  · simp [lines]
  · intro rest running
    exact absurd (inv.handling rest running).1 undelivered
  · rcases inv.counted with ⟨k, value, sum⟩
    exact ⟨k, (congrArg (TrapState.value · .timerIrq) unchanged).trans value, sum⟩

theorem Forwarding.sTimer {count : BitVec 32} {s : State} {core : Core}
    (inv : Forwarding count s) (taken : s.core.sInterrupt IRQ_S_TIMER = some core) :
    Forwarding count
      { s with core, deliveries := s.deliveries ++ [⟨s.calls.length, s.mtime⟩] } := by
  rcases sInterrupt_cases taken with ⟨idle, possible, hart, ctx, sepc, rfl, lines, trap, -⟩
  have stip : s.core.hart.lines.stip = true := takesS_pending possible
  rcases inv.pending stip with ⟨off, value, latest, due⟩
  have undelivered := inv.fresh stip idle
  constructor
  · exact inv.time
  · constructor
    · intro d member
      rcases List.mem_append.mp member with old | new
      · exact inv.isMatched.made d old
      · exact Nat.le_of_eq (congrArg Delivery.calls (List.mem_singleton.mp new))
    · intro d member
      rcases List.mem_append.mp member with old | new
      · exact inv.isMatched.due d old
      · rw [List.mem_singleton.mp new]
        exact ⟨value, by rw [List.take_length]; exact latest, due⟩
    · rw [List.map_append, List.nodup_append]
      refine ⟨inv.isMatched.distinct, by simp, ?_⟩
      intro a old b new same
      rw [same, List.mem_singleton.mp new] at old
      exact undelivered old
  · simp only [lines]
    exact fun _ => ⟨off, value, latest, due⟩
  · nofun
  · simp [lines, off]
  · intro rest running
    rw [sTrapHandler_timer] at running
    simp only [lines]
    refine ⟨by simp [State.Delivered], ?_⟩
    cases running
    exact ⟨.ahead (by simp [SEffect.quiet]), off⟩
  · rcases inv.counted with ⟨k, value, sum⟩
    rw [idle] at sum
    refine ⟨k, (congrArg (TrapState.value · .timerIrq) trap).trans value, ?_⟩
    rw [List.length_append, ← sum, sTrapHandler_timer]
    rfl

theorem Forwarding.handler {sink : Sink} {count : BitVec 32} {s : State} {core : Core}
    (inv : Forwarding count s) (stepped : s.core.handlerStep sink = some core) :
    Forwarding count { s with core } := by
  have counted := inv.counted.handlerStep stepped
  rcases handlerStep_cases stepped with
    ⟨finished, rfl⟩ | ⟨effect, rest, hart, running, applied, rfl⟩
  · -- sret
    have clear : s.core.hart.lines.stip = false := (inv.handling [] finished).2.2
    refine inv.keep (Nat.le_refl _) inv.time rfl rfl rfl ?_ ?_ counted
    · simp [clear]
    · nofun
  · rcases inv.handling _ running with ⟨delivered, remaining, off⟩
    rw [if_neg (List.cons_ne_nil _ _)] at off
    rcases remaining.cons_cases with ⟨quiet, remaining', more⟩ | ⟨rfl, rfl⟩
    · refine inv.keep (Nat.le_refl _) inv.time rfl rfl (lines_quiet quiet applied) ?_ ?_ counted
      · nofun
      · intro rest' same
        cases same
        rw [if_neg more]
        exact ⟨delivered, remaining', off⟩
    · -- the handler's own SBI_SET_TIMER
      have same := Option.some.inj applied
      have lines : hart.lines = _ := same ▸ lines_setTimer sink s.core.hart _
      constructor
      · exact inv.time
      · exact inv.isMatched
      · simp [lines]
      · nofun
      · simp [lines]
      · intro rest' same
        cases same
        exact ⟨delivered, .done, by simp [lines]⟩
      · exact counted

theorem Forwarding.step {sink : Sink} {count : BitVec 32} {s s' : State} {a : Action}
    (inv : Forwarding count s) (fired : Fires (step sink) s a s') : Forwarding count s' := by
  cases a with
  | tick =>
      simp only [Fires, Timer.step, Option.ite_none_right_eq_some, Option.some.injEq] at fired
      rcases fired with ⟨bound, rfl⟩
      have one : (1 : BitVec 64).toNat = 1 := rfl
      have later : (s.mtime + 1).toNat = s.mtime.toNat + 1 := by
        rw [BitVec.toNat_add, one]
        exact Nat.mod_eq_of_lt (by omega)
      refine inv.keep ?_ ?_ rfl rfl rfl (fun _ idle => idle) inv.handling inv.counted
      · simp only [later]
        omega
      · simp only [later]
        exact bound
  | setTimer value =>
      simp only [Fires, Timer.step, Option.ite_none_right_eq_some, Option.some.injEq] at fired
      rcases fired with ⟨idle, rfl⟩
      exact inv.setTimer (Option.isNone_iff_eq_none.mp idle) value
  | setSie on =>
      simp only [Fires, Timer.step, Option.ite_none_right_eq_some, Option.some.injEq] at fired
      rcases fired with ⟨idle, rfl⟩
      exact inv.keep (Nat.le_refl _) inv.time rfl rfl rfl (fun _ idle => idle) inv.handling
        inv.counted
  | setStie on =>
      simp only [Fires, Timer.step, Option.ite_none_right_eq_some, Option.some.injEq] at fired
      rcases fired with ⟨idle, rfl⟩
      have lines := lines_writeSie s.core.hart (i := STI) on (by decide) (by decide) (by decide)
      exact inv.keep (Nat.le_refl _) inv.time rfl rfl lines (fun _ idle => idle) inv.handling
        inv.counted
  | mTimer =>
      simp only [Fires, Timer.step, Option.ite_none_right_eq_some, Option.some.injEq] at fired
      rcases fired with ⟨⟨on, due⟩, rfl⟩
      exact inv.mTimer on due
  | sTimer =>
      rcases Option.map_eq_some_iff.mp fired with ⟨core, taken, rfl⟩
      exact inv.sTimer taken
  | handler =>
      rcases Option.map_eq_some_iff.mp fired with ⟨core, stepped, rfl⟩
      exact inv.handler stepped

/-- Each call is delivered at most once. -/
theorem Matched.length_le {calls : List (BitVec 64)} {deliveries : List Delivery}
    (isMatched : Matched calls deliveries) : deliveries.length ≤ calls.length := by
  have positions : deliveries.map Delivery.calls ⊆ List.range' 1 calls.length := by
    intro position member
    rcases List.mem_map.mp member with ⟨d, delivered, rfl⟩
    have made := isMatched.made d delivered
    have some_call : d.calls ≠ 0 := by
      intro none_made
      rcases isMatched.due d delivered with ⟨value, latest, -⟩
      rw [none_made] at latest
      cases latest
    rw [List.mem_range'_1]
    omega
  have fewer := isMatched.distinct.length_le_of_subset positions
  rw [List.length_map, List.length_range'] at fewer
  exact fewer

theorem reachable_forwarding {sink : Sink} {count : BitVec 32} {s : State}
    (reached : Reachable (AtBoot count) (Fires (step sink)) s) : Forwarding count s :=
  reached.invariant (fun _ boot => boot.forwarding) fun _ _ _ inv fired => inv.step fired

/-- Every S-timer trap is due to the latest program call, no two to the same one, and the
handler's own `SBI_SET_TIMER` comes after the delivery of the latest call. -/
theorem timer_forwarding {sink : Sink} {count : BitVec 32} {s : State}
    (reached : Reachable (AtBoot count) (Fires (step sink)) s) :
    Matched s.calls s.deliveries ∧
      (∃ k, k ≤ s.calls.length ∧
        s.core.hart.trap.timerIrqCount = count + BitVec.ofNat 32 k) ∧
      ∀ value rest, s.core.handler = some (.ecall SBI_SET_TIMER value :: rest) →
        s.Delivered := by
  have inv := reachable_forwarding reached
  have fewer := inv.isMatched.length_le
  refine ⟨inv.isMatched, ?_, ?_⟩
  · rcases inv.counted with ⟨k, counted, total⟩
    exact ⟨k, by omega, counted⟩
  · intro value rest running
    exact (inv.handling _ running).1

/-- Boot with S-mode timer interrupts enabled. -/
def bootState : State where
  core := { hart := sModeHart 0 0x2 0x22, handler := none }
  mtime := 0
  calls := []
  deliveries := []

/-- A deadline armed, reached, forwarded and handled. -/
def onePeriod : List Action :=
  [.setTimer 1, .tick, .mTimer, .sTimer, .handler, .handler, .handler, .handler, .handler,
    .handler, .handler]

theorem timer_forwarding_period :
    ∃ s, replay (step .htif) bootState onePeriod = some s ∧ Matched s.calls s.deliveries ∧
      (∃ k, k ≤ s.calls.length ∧
        s.core.hart.trap.timerIrqCount = 0 + BitVec.ofNat 32 k) ∧
      ∀ value rest, s.core.handler = some (.ecall SBI_SET_TIMER value :: rest) →
        s.Delivered := by
  have runs : (replay (step .htif) bootState onePeriod).isSome := by decide
  rcases Option.isSome_iff_exists.mp runs with ⟨s, replayed⟩
  have boot : AtBoot 0 bootState := ⟨rfl, rfl, rfl, by decide, rfl, rfl, rfl⟩
  exact ⟨s, replayed, timer_forwarding ((Reachable.start boot).replay replayed)⟩

end ZephyrRiscv.Timer
