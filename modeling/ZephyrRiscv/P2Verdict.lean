import ZephyrRiscv.P2Traps

set_option autoImplicit false

namespace ZephyrRiscv.P2

open Verdict Pt TestRuns

variable {p : Platform} {s : State}

/-- The codes of a hart that is late: a loop has run out of time, or a delay was too short. -/
def timingCodes (p : Platform) : List Nat :=
  [600, 610, 620, 621, 622, 641, 651] ++ if p.wfiNop then [660] else []

theorem AtBoot.within (boot : AtBoot s) : Within (bounds 0 0) s := by
  have idle := boot.handler
  refine ⟨boot.mtime, ⟨bounds_small (by omega) (by omega), boot.mhartid, ?_, boot.machineOnly,
    boot.msie, fun _ => boot.mtie, fun _ => boot.mtie, ?_, ?_⟩⟩
  · intro irq
    cases irq with
    | timer => exact boot.timerDelegated
    | soft => exact boot.softDelegated
  · rw [idle]
    exact .idle
  · intro irq
    have none : uncounted irq.counter s.core.handler = 0 := by
      rw [idle]
      rfl
    rw [Core.owed, none, acks_none idle]
    cases irq with
    | timer =>
      have counted : s.core.counted .timer = 0 := congrArg BitVec.toNat boot.timerIrqCount
      rw [counted, Lines.pending, Lines.raised, boot.stip, boot.mtie]
      exact Nat.le_refl 0
    | soft =>
      have counted : s.core.counted .soft = 0 := congrArg BitVec.toNat boot.softIrqCount
      rw [counted, Lines.pending, Lines.raised, boot.ssip, boot.msip]
      exact Nat.le_refl 0

theorem testMain_outline (room : RoomFor p.pool) :
    Outline (machine p) (Fits p) (· ∈ timingCodes p) (With (bounds 0 0) anything) testMain
      (With (bounds 1 1) (Both 1 1)) := by
  have late : ∀ code ∈ [600, 610, 620, 621, 622, 641, 651], code ∈ timingCodes p :=
    fun code member => List.mem_append_left _ member
  have rounds : ∀ i < 3, 620 + i ∈ timingCodes p := fun i below =>
    late _ ((by decide : ∀ i < 3, 620 + i ∈ [600, 610, 620, 621, 622, 641, 651]) i below)
  have nop : p.wfiNop = true → 660 ∈ timingCodes p := by
    intro nop
    rw [timingCodes, if_pos nop]
    exact List.mem_append_right _ List.mem_cons_self
  have timers := ((timerInterrupt_outline (p := p) (late 600 (by decide))).append
    (softwareInterrupt_outline (late 610 (by decide)))).append (timerInterrupts_outline rounds)
  have masks := (sieMasks_outline (p := p) (late 641 (by decide))).append
    (stieMasks_outline (late 651 (by decide)))
  have whole := (timers.append (timerAndFault_outline room)).append
    (masks.append (wfiWakes_outline nop))
  simpa only [testMain, List.append_assoc] using whole

/-- Whatever the clock does and whenever interrupts are taken, the test fails only with the code of
a hart that was late. No interrupt is lost, counted twice or taken for another. The page fault is
repaired wherever the timer comes: from the load, where it has come to it, the hart by itself gets
behind it, with what was stored. -/
theorem only_late_fails (room : RoomFor p.pool) (boot : AtBoot s) :
    (∀ code, (machine p).Reaches testMain s (.failed code) → code ∈ timingCodes p) ∧
      (∀ rest s', (machine p).Reaches testMain s (.running (.load faultVa :: rest) s') →
        ∃ s'', (machine p).alone.Reaches (.load faultVa :: rest) s' (.running rest s'') ∧
          s''.vars.val = faultWord) ∧
      ∀ s', (machine p).Reaches testMain s (.running [] s') →
        s'.core.counted .timer = 1 ∧ s'.core.counted .soft = 1 := by
  have outline := testMain_outline room
  have start : With (bounds 0 0) anything s := ⟨boot.within, trivial⟩
  refine ⟨?_, ?_, ?_⟩
  · intro code failed
    exact outline.fails start failed
  · intro rest s' reached
    obtain ⟨⟨k, within⟩, finds⟩ := outline.finds start reached
    obtain ⟨s'', onward, value⟩ := load_returns room within finds
    exact ⟨s'', onward.onto rest, value⟩
  · intro s' passed
    obtain ⟨within, timer, soft⟩ := outline.passes start passed
    have timerBound := within.account.bound .timer
    have softBound := within.account.bound .soft
    have timerLimit : bounds 1 1 .timer = 1 := rfl
    have softLimit : bounds 1 1 .soft = 1 := rfl
    have timerLeast : 1 ≤ s'.core.counted .timer := timer
    have softLeast : 1 ≤ s'.core.counted .soft := soft
    omega

/-- Hart 0 with the M-mode software interrupt on, and `mtimecmp` at zero. -/
def portBoot : State where
  core := { hart := sModeHart 0 0 0x8, handler := none }
  mtime := 0
  vars := ⟨0, 0, 0, 0, 0, 0⟩

theorem portBoot_atBoot : AtBoot portBoot := by
  refine ⟨rfl, rfl, rfl, rfl, ?_, rfl, rfl, rfl, rfl, rfl, by decide, rfl, rfl⟩
  rintro i (rfl | rfl) <;> rfl

theorem linkerPool_room : RoomFor linkerPool := ⟨by decide, by decide⟩

/-- The port's build, on a hart that stalls in `wfi` and leaves the A and D bits to software. -/
def portPlatform : Platform := ⟨.qemu, linkerPool, false, true⟩

theorem only_late_fails_port :
    (∀ code, (machine portPlatform).Reaches testMain portBoot (.failed code) →
        code ∈ [600, 610, 620, 621, 622, 641, 651]) ∧
      (∀ rest s', (machine portPlatform).Reaches testMain portBoot
          (.running (.load faultVa :: rest) s') →
        ∃ s'', (machine portPlatform).alone.Reaches (.load faultVa :: rest) s'
            (.running rest s'') ∧ s''.vars.val = faultWord) ∧
      ∀ s', (machine portPlatform).Reaches testMain portBoot (.running [] s') →
        s'.core.counted .timer = 1 ∧ s'.core.counted .soft = 1 :=
  only_late_fails linkerPool_room portBoot_atBoot

end ZephyrRiscv.P2
