import ZephyrRiscv.Interrupts
import ZephyrRiscv.Transition

set_option autoImplicit false

namespace ZephyrRiscv.Mailbox

open Transition Verdict

variable {Job : Type}

/-- Where hart 0 is: it clears the completion flag of a job, calls `wake_core1_smode` and
waits for the flag. -/
inductive Caller where
  | clearFlag
  | waitReady
  | storeTarget
  | sendIpi
  | waitDone
deriving DecidableEq, Repr

/-- Where hart 1 is in `core1_smode_park_loop`, outside its trap handlers. -/
inductive Loop (Job : Type) where
  | setReady
  | clearSsip
  | testTarget
  | wfi
  | blocked
  | callTarget
  | body (job : Job)
  | bodyDone (job : Job)
  | clearTarget
deriving DecidableEq, Repr

/-- A null pointer is `none`. The jobs stored and invoked are recorded, the pointer in the
mailbox that was not called yet, and the pointers lost to `g_smode_target = 0`. -/
structure State (Job : Type) where
  todo : List Job
  caller : Caller
  ready : Bool
  target : Option Job
  flag : Job → Bool
  loop : Loop Job
  core : Core
  stored : List Job
  invoked : List Job
  uncalled : Option Job
  discarded : List Job

inductive Action where
  | caller
  | loop
  | mSoft
  | sSoft
  | handler
deriving DecidableEq, Repr

/-- `wfi` ends once an enabled interrupt is pending. -/
def wakes (h : Hart) : Bool :=
  (h.mip &&& h.csrs.mie != 0) || (h.lines.msie && h.lines.msip.getLsbD 0)

/-- Hart 0 with its current job. A wait that goes on leaves the state as it is. -/
def callerStep [DecidableEq Job] (sink : Sink) (s : State Job) (job : Job)
    (rest : List Job) : State Job :=
  match s.caller with
  | .clearFlag =>
      { s with flag := fun j => if j = job then false else s.flag j, caller := .waitReady }
  | .waitReady => if s.ready then { s with caller := .storeTarget } else s
  | .storeTarget =>
      { s with
        target := some job, caller := .sendIpi
        stored := s.stored ++ [job], uncalled := some job }
  | .sendIpi =>
      let hart := s.core.hart.ipiFrom sink 0 s.core.hart.csrs.mhartid
      { s with core := { s.core with hart }, caller := .waitDone }
  | .waitDone => if s.flag job then { s with todo := rest, caller := .clearFlag } else s

/-- Hart 1 in its loop. The null pointer is tested and called by separate loads. -/
def loopStep [DecidableEq Job] (sink : Sink) (s : State Job) : Option (State Job) :=
  match s.loop with
  | .setReady => some { s with ready := true, loop := .clearSsip }
  | .clearSsip =>
      (s.core.hart.applyS sink 0 (.csrcSip MIP_SSIP)).map fun hart =>
        { s with core := { s.core with hart }, loop := .testTarget }
  | .testTarget => some { s with loop := if s.target.isSome then .callTarget else .wfi }
  | .wfi => some { s with loop := .blocked }
  | .blocked => if wakes s.core.hart then some { s with loop := .testTarget } else none
  | .callTarget =>
      s.target.map fun job =>
        { s with loop := .body job, invoked := s.invoked ++ [job], uncalled := none }
  | .body job =>
      some { s with flag := fun j => if j = job then true else s.flag j, loop := .bodyDone job }
  | .bodyDone _ => some { s with loop := .clearTarget }
  | .clearTarget =>
      some { s with
        target := none, loop := .clearSsip
        uncalled := none, discarded := s.discarded ++ s.uncalled.toList }

def step [DecidableEq Job] (sink : Sink) (s : State Job) : Action → Option (State Job)
  | .caller =>
      match s.todo with
      | [] => none
      | job :: rest => some (callerStep sink s job rest)
  | .loop => if s.core.handler.isNone then loopStep sink s else none
  | .mSoft =>
      -- a trap ends wfi first
      if s.loop ≠ .blocked ∧ s.core.hart.lines.msie ∧ s.core.hart.lines.msip.getLsbD 0 then
        some { s with core := { s.core with hart := s.core.hart.mInterrupt sink IRQ_M_SOFT } }
      else none
  | .sSoft =>
      if s.loop ≠ .blocked then
        (s.core.sInterrupt IRQ_S_SOFT).map fun core => { s with core }
      else none
  | .handler => (s.core.handlerStep sink).map fun core => { s with core }

/-- What each action does. -/
inductive Stepped [DecidableEq Job] (sink : Sink) (s : State Job) : Action → State Job → Prop
  | caller {job : Job} {rest : List Job} (current : s.todo = job :: rest) :
      Stepped sink s .caller (callerStep sink s job rest)
  | loop {s' : State Job} (free : s.core.handler = none) (stepped : loopStep sink s = some s') :
      Stepped sink s .loop s'
  | mSoft : Stepped sink s .mSoft
      { s with core := { s.core with hart := s.core.hart.mInterrupt sink IRQ_M_SOFT } }
  | sSoft {core : Core} (running : s.loop ≠ .blocked)
      (taken : s.core.sInterrupt IRQ_S_SOFT = some core) : Stepped sink s .sSoft { s with core }
  | handler {core : Core} (stepped : s.core.handlerStep sink = some core) :
      Stepped sink s .handler { s with core }

theorem stepped_of_step [DecidableEq Job] {sink : Sink} {s s' : State Job} {a : Action}
    (fired : step sink s a = some s') : Stepped sink s a s' := by
  cases a with
  | caller =>
      cases current : s.todo with
      | nil => simp [step, current] at fired
      | cons job rest =>
          simp only [step, current, Option.some.injEq] at fired
          rw [← fired]
          exact .caller current
  | loop =>
      simp only [step, Option.ite_none_right_eq_some] at fired
      exact .loop (Option.isNone_iff_eq_none.mp fired.1) fired.2
  | mSoft =>
      simp only [step, Option.ite_none_right_eq_some, Option.some.injEq] at fired
      obtain ⟨-, rfl⟩ := fired
      exact .mSoft
  | sSoft =>
      simp only [step, Option.ite_none_right_eq_some] at fired
      obtain ⟨running, mapped⟩ := fired
      obtain ⟨core, taken, rfl⟩ := Option.map_eq_some_iff.mp mapped
      exact .sSoft running taken
  | handler =>
      obtain ⟨core, stepped, rfl⟩ := Option.map_eq_some_iff.mp fired
      exact .handler stepped

/-- Hart 1 about to raise its ready flag with its software interrupts enabled, hart 0
about to hand over the first job. -/
structure AtBoot (jobs : List Job) (s : State Job) : Prop where
  todo : s.todo = jobs
  caller : s.caller = .clearFlag
  ready : s.ready = false
  target : s.target = none
  loop : s.loop = .setReady
  handler : s.core.handler = none
  mhartid : s.core.hart.csrs.mhartid = 1
  mideleg : s.core.hart.csrs.mideleg.getLsbD SSI = true
  sie : s.core.hart.csrs.mstatus.getLsbD SIE = true
  ssie : s.core.hart.csrs.mie.getLsbD SSI = true
  stored : s.stored = []
  invoked : s.invoked = []
  uncalled : s.uncalled = none
  discarded : s.discarded = []

/-- Hart 0 stores a job only over the null pointer. -/
def StoresIntoEmpty (s : State Job) (a : Action) : Prop :=
  a = .caller → s.caller = .storeTarget → s.target = none

instance (s : State Job) (a : Action) : Decidable (StoresIntoEmpty s a) :=
  inferInstanceAs (Decidable (_ → _ → _))

/-- A job was called and the mailbox not yet cleared. -/
def Loop.running : Loop Job → Bool
  | .body _ | .bodyDone _ | .clearTarget => true
  | _ => false

/-- The jobs that hart 0 has not stored. -/
def State.unstored (s : State Job) : List Job :=
  match s.caller with
  | .sendIpi | .waitDone => s.todo.tail
  | _ => s.todo

structure Handed (jobs : List Job) (s : State Job) : Prop where
  all : s.stored ++ s.unstored = jobs
  inOrder : s.stored = s.invoked ++ s.uncalled.toList
  running : s.loop.running = true → s.uncalled = none ∧ s.target.isSome
  waiting : s.loop.running = false → s.target = s.uncalled
  lossless : s.discarded = []

theorem AtBoot.handed {jobs : List Job} {s : State Job} (boot : AtBoot jobs s) :
    Handed jobs s := by
  constructor
  · simp [State.unstored, boot.stored, boot.todo, boot.caller]
  · simp [boot.stored, boot.invoked, boot.uncalled]
  · simp [boot.loop, Loop.running]
  · simp [boot.target, boot.uncalled]
  · exact boot.discarded

theorem Handed.caller [DecidableEq Job] {sink : Sink} {jobs : List Job} {s : State Job}
    {job : Job} {rest : List Job} (inv : Handed jobs s) (current : s.todo = job :: rest)
    (empty : s.caller = .storeTarget → s.target = none) :
    Handed jobs (callerStep sink s job rest) := by
  rcases inv with ⟨all, inOrder, running, waiting, lossless⟩
  unfold callerStep
  cases here : s.caller with
  | clearFlag =>
      exact ⟨by simpa [State.unstored, here] using all, inOrder, running, waiting, lossless⟩
  | waitReady =>
      simp only
      split
      · exact ⟨by simpa [State.unstored, here] using all, inOrder, running, waiting, lossless⟩
      · exact ⟨all, inOrder, running, waiting, lossless⟩
  | storeTarget =>
      -- the mailbox is empty, so every stored job was called
      have nothing := empty here
      have idle : s.loop.running = false := by
        by_contra busy
        have held := (running (by simpa using busy)).2
        rw [nothing] at held
        cases held
      have called : s.uncalled = none := (waiting idle).symm.trans nothing
      constructor
      · simpa [State.unstored, here, current] using all
      · simp [inOrder, called]
      · simp [idle]
      · simp
      · exact lossless
  | sendIpi =>
      exact ⟨by simpa [State.unstored, here] using all, inOrder, running, waiting, lossless⟩
  | waitDone =>
      simp only
      split
      · refine ⟨?_, inOrder, running, waiting, lossless⟩
        simpa [State.unstored, here, current] using all
      · exact ⟨all, inOrder, running, waiting, lossless⟩

theorem Handed.loop [DecidableEq Job] {sink : Sink} {jobs : List Job} {s s' : State Job}
    (inv : Handed jobs s) (stepped : loopStep sink s = some s') : Handed jobs s' := by
  rcases inv with ⟨all, inOrder, running, waiting, lossless⟩
  unfold loopStep at stepped
  cases here : s.loop with
  | setReady =>
      rw [here] at stepped waiting
      cases stepped
      exact ⟨all, inOrder, by nofun, waiting, lossless⟩
  | clearSsip =>
      rw [here] at stepped waiting
      rcases Option.map_eq_some_iff.mp stepped with ⟨hart, -, rfl⟩
      exact ⟨all, inOrder, by nofun, waiting, lossless⟩
  | testTarget =>
      rw [here] at stepped waiting
      cases stepped
      have idle :
          (if s.target.isSome then Loop.callTarget else .wfi : Loop Job).running = false := by
        split <;> rfl
      refine ⟨all, inOrder, ?_, fun _ => waiting rfl, lossless⟩
      simp [idle]
  | wfi =>
      rw [here] at stepped waiting
      cases stepped
      exact ⟨all, inOrder, by nofun, waiting, lossless⟩
  | blocked =>
      rw [here] at stepped waiting
      simp only [Option.ite_none_right_eq_some, Option.some.injEq] at stepped
      rcases stepped with ⟨-, rfl⟩
      exact ⟨all, inOrder, by nofun, waiting, lossless⟩
  | callTarget =>
      rw [here] at stepped waiting
      rcases Option.map_eq_some_iff.mp stepped with ⟨job, target, rfl⟩
      have stored := waiting rfl
      rw [target] at stored
      constructor
      · exact all
      · simp [inOrder, ← stored]
      · simp [target]
      · nofun
      · exact lossless
  | body job =>
      rw [here] at stepped running
      cases stepped
      exact ⟨all, inOrder, fun _ => running rfl, by nofun, lossless⟩
  | bodyDone job =>
      rw [here] at stepped running
      cases stepped
      exact ⟨all, inOrder, fun _ => running rfl, by nofun, lossless⟩
  | clearTarget =>
      rw [here] at stepped running
      cases stepped
      have called := (running rfl).1
      constructor
      · exact all
      · simp [inOrder, called]
      · nofun
      · simp
      · simp [called, lossless]

theorem Handed.step [DecidableEq Job] {sink : Sink} {jobs : List Job} {s s' : State Job}
    {a : Action} (inv : Handed jobs s) (empty : StoresIntoEmpty s a)
    (fired : Fires (step sink) s a s') : Handed jobs s' := by
  cases stepped_of_step fired with
  | caller current => exact inv.caller current (empty rfl)
  | loop free stepped => exact inv.loop stepped
  | mSoft => exact ⟨inv.all, inv.inOrder, inv.running, inv.waiting, inv.lossless⟩
  | sSoft running taken => exact ⟨inv.all, inv.inOrder, inv.running, inv.waiting, inv.lossless⟩
  | handler stepped => exact ⟨inv.all, inv.inOrder, inv.running, inv.waiting, inv.lossless⟩

/-- In a run that stores each job into an empty mailbox, no job is discarded, and the jobs
invoked are the first ones of the list. -/
theorem jobs_run_once [DecidableEq Job] {sink : Sink} {jobs : List Job} {s : State Job}
    (reached : Reachable (AtBoot jobs) (Guarded StoresIntoEmpty (Fires (step sink))) s) :
    s.discarded = [] ∧ s.invoked <+: jobs := by
  have inv : Handed jobs s := reached.invariant (fun _ boot => boot.handed)
    fun _ _ _ inv fired => inv.step fired.1 fired.2
  refine ⟨inv.lossless, s.uncalled.toList ++ s.unstored, ?_⟩
  rw [← List.append_assoc, ← inv.inOrder]
  exact inv.all

/-- Hart 1 sleeps with a job in its mailbox whose IPI was sent and is not pending. -/
def Asleep (s : State Job) : Prop :=
  s.loop = .blocked ∧ s.target ≠ none ∧ s.core.hart.lines.msip = 0 ∧
    s.core.hart.lines.ssip = false ∧ s.caller ≠ .sendIpi

/-- Hart 1 was interrupted after it found no job, and a job and its IPI came since. -/
def Missed (s : State Job) : Prop :=
  s.loop = .wfi ∧ s.target.isSome ∧ s.caller ≠ .sendIpi ∧
    s.core.hart.lines.msip.getLsbD 0 = false

/-- The handler does not clear SSIP, as its last effect, for a missed job. -/
def AcknowledgesInTime (s : State Job) (a : Action) : Prop :=
  a = .handler → s.core.handler = some [.csrcSip MIP_SSIP] → ¬ Missed s

instance [DecidableEq Job] (s : State Job) : Decidable (Missed s) :=
  inferInstanceAs (Decidable (_ ∧ _ ∧ _ ∧ _))

instance [DecidableEq Job] (s : State Job) (a : Action) : Decidable (AcknowledgesInTime s a) :=
  inferInstanceAs (Decidable (_ → _ → _))

structure Awake (s : State Job) : Prop where
  soft : Soft 1 s.core
  idle : s.loop = .blocked → s.core.handler = none
  awake : s.loop = .wfi ∨ s.loop = .blocked → s.target.isSome → s.caller ≠ .sendIpi →
    s.core.hart.lines.msip.getLsbD 0 = true ∨ s.core.hart.lines.ssip = true

theorem AtBoot.isAwake {jobs : List Job} {s : State Job} (boot : AtBoot jobs s) : Awake s := by
  constructor
  · exact ⟨boot.mhartid, boot.mideleg, by simp [boot.handler]⟩
  · exact fun _ => boot.handler
  · simp [boot.target]

theorem Awake.not_asleep {s : State Job} (inv : Awake s) : ¬ Asleep s := by
  rintro ⟨blocked, target, msip, ssip, sent⟩
  have raised := inv.awake (Or.inr blocked) (Option.isSome_iff_ne_none.mpr target) sent
  simp [msip, ssip] at raised

theorem Awake.caller [DecidableEq Job] {sink : Sink} {s : State Job} {job : Job}
    {rest : List Job} (inv : Awake s) : Awake (callerStep sink s job rest) := by
  rcases inv with ⟨soft, idle, awake⟩
  unfold callerStep
  cases here : s.caller with
  | clearFlag => exact ⟨soft, idle, fun asleep target _ => awake asleep target (by simp [here])⟩
  | waitReady =>
      simp only
      split
      · exact ⟨soft, idle, fun asleep target _ => awake asleep target (by simp [here])⟩
      · exact ⟨soft, idle, awake⟩
  | storeTarget => exact ⟨soft, idle, fun _ _ sent => absurd rfl sent⟩
  | sendIpi =>
      rcases soft.ipiFrom sink 0 (by decide) with ⟨soft', lines⟩
      have raised : (s.core.hart.ipiFrom sink 0 s.core.hart.csrs.mhartid).lines.msip.getLsbD 0 =
          true := by
        rw [lines]
        show (1 : BitVec 32).getLsbD 0 = true
        decide
      exact ⟨soft', idle, fun _ _ _ => Or.inl raised⟩
  | waitDone =>
      simp only
      split
      · exact ⟨soft, idle, fun asleep target _ => awake asleep target (by simp [here])⟩
      · exact ⟨soft, idle, awake⟩

theorem Awake.loop [DecidableEq Job] {sink : Sink} {s s' : State Job} (inv : Awake s)
    (free : s.core.handler = none) (stepped : loopStep sink s = some s') : Awake s' := by
  rcases inv with ⟨soft, idle, awake⟩
  unfold loopStep at stepped
  cases here : s.loop with
  | setReady =>
      rw [here] at stepped
      cases stepped
      exact ⟨soft, fun _ => free, by nofun⟩
  | clearSsip =>
      rw [here] at stepped
      rcases Option.map_eq_some_iff.mp stepped with ⟨hart, applied, rfl⟩
      exact ⟨soft.keep (applyS_configured applied), fun _ => free, by nofun⟩
  | testTarget =>
      rw [here] at stepped
      cases stepped
      refine ⟨soft, fun _ => free, ?_⟩
      -- hart 1 goes to sleep only when it found no job
      intro asleep target
      simp only at target
      simp [target] at asleep
  | wfi =>
      rw [here] at stepped
      cases stepped
      exact ⟨soft, fun _ => free, fun _ => awake (Or.inl here)⟩
  | blocked =>
      rw [here] at stepped
      simp only [Option.ite_none_right_eq_some, Option.some.injEq] at stepped
      rcases stepped with ⟨-, rfl⟩
      exact ⟨soft, fun _ => free, by nofun⟩
  | callTarget =>
      rw [here] at stepped
      rcases Option.map_eq_some_iff.mp stepped with ⟨job, -, rfl⟩
      exact ⟨soft, fun _ => free, by nofun⟩
  | body job =>
      rw [here] at stepped
      cases stepped
      exact ⟨soft, fun _ => free, by nofun⟩
  | bodyDone job =>
      rw [here] at stepped
      cases stepped
      exact ⟨soft, fun _ => free, by nofun⟩
  | clearTarget =>
      rw [here] at stepped
      cases stepped
      exact ⟨soft, fun _ => free, by nofun⟩

theorem Awake.handler {sink : Sink} {s : State Job} {core : Core} (inv : Awake s)
    (inTime : s.core.handler = some [.csrcSip MIP_SSIP] → ¬ Missed s)
    (stepped : s.core.handlerStep sink = some core) : Awake { s with core } := by
  rcases inv with ⟨soft, idle, awake⟩
  have busy : s.core.handler ≠ none := by
    intro free
    simp [Core.handlerStep, free] at stepped
  have notBlocked : s.loop ≠ .blocked := fun blocked => busy (idle blocked)
  rcases soft.handlerStep stepped with
    ⟨soft', ⟨lines, -⟩ | ⟨running, -, -, lines⟩⟩
  · refine ⟨soft', fun blocked => absurd blocked notBlocked, ?_⟩
    simp only [lines]
    exact awake
  · refine ⟨soft', fun blocked => absurd blocked notBlocked, ?_⟩
    -- SSIP is cleared: the guard leaves MSIP
    intro asleep target sent
    simp only [lines]
    rcases asleep with wfi | blocked
    · by_contra neither
      apply inTime running
      refine ⟨wfi, target, sent, ?_⟩
      simpa using neither
    · exact absurd blocked notBlocked

theorem Awake.step [DecidableEq Job] {sink : Sink} {s s' : State Job} {a : Action}
    (inv : Awake s) (inTime : AcknowledgesInTime s a) (fired : Fires (step sink) s a s') :
    Awake s' := by
  cases stepped_of_step fired with
  | caller current => exact inv.caller
  | loop free stepped => exact inv.loop free stepped
  | mSoft =>
      have lines := lines_mSoft sink s.core.hart
      refine ⟨inv.soft.keep (foldl_applyM_configured _ _).1, inv.idle, fun _ _ _ => Or.inr ?_⟩
      simp [lines]
  | sSoft running taken =>
      rcases inv.soft.sInterrupt taken with ⟨soft', lines, -, -, -⟩
      refine ⟨soft', fun blocked => absurd blocked running, ?_⟩
      simp only [lines]
      exact inv.awake
  | handler stepped => exact inv.handler (inTime rfl) stepped

/-- In a run whose handler acknowledges in time, hart 1 never sleeps over a job. -/
theorem wake_not_lost [DecidableEq Job] {sink : Sink} {jobs : List Job} {s : State Job}
    (reached : Reachable (AtBoot jobs) (Guarded AcknowledgesInTime (Fires (step sink))) s) :
    ¬ Asleep s := by
  have inv : Awake s := reached.invariant (fun _ boot => boot.isAwake)
    fun _ _ _ inv fired => inv.step fired.1 fired.2
  exact inv.not_asleep

def bootState (jobs : List Nat) : State Nat where
  todo := jobs
  caller := .clearFlag
  ready := false
  target := none
  flag _ := false
  loop := .setReady
  core := { hart := sModeHart 1 0x2 0xA, handler := none }
  stored := []
  invoked := []
  uncalled := none
  discarded := []

theorem bootState_atBoot (jobs : List Nat) : AtBoot jobs (bootState jobs) := by
  have mideleg : (sModeHart 1 0x2 0xA).csrs.mideleg.getLsbD SSI = true := by decide
  have sie : (sModeHart 1 0x2 0xA).csrs.mstatus.getLsbD SIE = true := by decide
  have ssie : (sModeHart 1 0x2 0xA).csrs.mie.getLsbD SSI = true := by decide
  exact ⟨rfl, rfl, rfl, rfl, rfl, rfl, rfl, mideleg, sie, ssie, rfl, rfl, rfl, rfl⟩

/-- Hart 1 boots and finds a first job, which sets its flag; hart 0 stores the second job
before hart 1 returns from the first. -/
def earlyStore : List Action :=
  [.loop, .loop, .caller, .caller, .caller, .caller, .loop, .loop, .loop, .caller, .caller,
    .caller, .caller, .loop, .loop]

theorem second_job_discarded :
    ¬ ∀ (sink : Sink) (jobs : List Nat) (s : State Nat),
      Reachable (AtBoot jobs) (Fires (step sink)) s → s.discarded = [] ∧ s.invoked <+: jobs := by
  intro always
  have runs : (replay (step .htif) (bootState [7, 8]) earlyStore).map (fun s => s.discarded) =
      some [8] := by decide
  rcases Option.map_eq_some_iff.mp runs with ⟨s, replayed, discarded⟩
  have reached := (Reachable.start (bootState_atBoot [7, 8])).replay replayed
  have kept := (always .htif [7, 8] s reached).1
  rw [discarded] at kept
  cases kept

/-- Both jobs, the second one stored after the mailbox was cleared. -/
def patientStore : List Action :=
  [.loop, .loop, .caller, .caller, .caller, .caller, .loop, .loop, .loop, .loop, .loop, .caller,
    .caller, .caller, .caller, .loop, .loop, .loop, .loop]

theorem jobs_run_once_patient :
    ∃ s, replay (checked StoresIntoEmpty (step .htif)) (bootState [7, 8]) patientStore = some s ∧
      s.discarded = [] ∧ s.invoked <+: [7, 8] := by
  have runs : (replay (checked StoresIntoEmpty (step .htif)) (bootState [7, 8])
      patientStore).isSome := by decide
  rcases Option.isSome_iff_exists.mp runs with ⟨s, replayed⟩
  have reached := ((Reachable.start (bootState_atBoot [7, 8])).replay replayed).of_checked
  exact ⟨s, replayed, jobs_run_once reached⟩

/-- Hart 1 finds no job; the job, its IPI and both traps come before its `wfi`. -/
def lateSleep : List Action :=
  [.loop, .loop, .loop, .caller, .caller, .caller, .caller, .mSoft, .sSoft, .handler, .handler,
    .handler, .handler, .handler, .handler, .handler, .loop]

theorem wake_up_lost :
    ¬ ∀ (sink : Sink) (jobs : List Nat) (s : State Nat),
      Reachable (AtBoot jobs) (Fires (step sink)) s → ¬ Asleep s := by
  intro always
  have runs : (replay (step .htif) (bootState [7]) lateSleep).map
      (fun s => (s.loop, s.target, s.core.hart.lines.msip, s.core.hart.lines.ssip, s.caller)) =
        some (.blocked, some 7, 0, false, .waitDone) := by decide
  rcases Option.map_eq_some_iff.mp runs with ⟨s, replayed, final⟩
  simp only [Prod.mk.injEq] at final
  rcases final with ⟨blocked, target, msip, ssip, caller⟩
  have reached := (Reachable.start (bootState_atBoot [7])).replay replayed
  have asleep : Asleep s := by
    refine ⟨blocked, ?_, msip, ssip, ?_⟩
    · simp [target]
    · simp [caller]
  exact always .htif [7] s reached asleep

/-- The IPI comes while hart 1 sleeps. -/
def timelyWake : List Action :=
  [.loop, .loop, .loop, .loop, .caller, .caller, .caller, .caller, .loop, .mSoft, .sSoft, .handler,
    .handler, .handler, .handler, .handler, .handler, .handler, .loop, .loop]

theorem wake_not_lost_timely :
    ∃ s, replay (checked AcknowledgesInTime (step .htif)) (bootState [7]) timelyWake = some s ∧
      ¬ Asleep s := by
  have runs : (replay (checked AcknowledgesInTime (step .htif)) (bootState [7])
      timelyWake).isSome := by decide
  rcases Option.isSome_iff_exists.mp runs with ⟨s, replayed⟩
  have reached := ((Reachable.start (bootState_atBoot [7])).replay replayed).of_checked
  exact ⟨s, replayed, wake_not_lost reached⟩

end ZephyrRiscv.Mailbox
