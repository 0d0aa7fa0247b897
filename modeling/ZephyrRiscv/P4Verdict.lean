import ZephyrRiscv.P4Course

set_option autoImplicit false

namespace ZephyrRiscv.P4.Outcomes

open Transition Interleaving Phases

variable {order : ResetOrder} {n : LoopCounts} {s : State HartId}

/-- Only the lock word is locked, and what it is set to is 0 or 1. -/
def locksWord : Stmt → Bool
  | .acquire f => f = .lock
  | .put f v => f ≠ .lock || v = 0
  | .putTemp f _ | .putSucc f _ | .putEq f _ _ | .amoAdd f _ => f ≠ .lock
  | _ => true

theorem job_locksWord (n : LoopCounts) (job : Worker) : (job.code n).all locksWord := by
  cases job with
  | atomicIncrementer =>
    simp [Worker.code, atomicIncrementer, all_forUpto, locksWord]
  | spinlockWorker =>
    simp [Worker.code, spinlockWorker, all_forUpto, spinlockRound, locksWord]
  | ping =>
    have round : (turnRound 1 0).all locksWord := by decide
    exact all_forUpto n.pingPong round
  | _ => rfl

/-- The lock word, and whether the counter of steps has to count its repair. -/
def Word (mem : Mem) : Prop :=
  mem .lock = 0 ∨ mem .lock = 1

instance (mem : Mem) : Decidable (Word mem) :=
  inferInstanceAs (Decidable (_ ∨ _))

def stray (mem : Mem) : Nat :=
  if Word mem then 0 else 1

def Worded (s : State HartId) : Prop :=
  ∀ i, (s.thread i).code.all locksWord

theorem exec_locksWord (n : LoopCounts) (i : HartId) {stmt : Stmt} {code : List Stmt} (vars : Vars)
    (m : Shared HartId) (whole : (stmt :: code).all locksWord) :
    (Word m.mem → Word (exec n i stmt code vars m).1.mem) ∧
      (exec n i stmt code vars m).2.code.all locksWord := by
  obtain ⟨first, later⟩ : locksWord stmt ∧ code.all locksWord := by
    rwa [List.all_cons, Bool.and_eq_true] at whole
  cases stmt with
  | put f v =>
    refine ⟨fun word => ?_, later⟩
    simp only [locksWord, ne_eq, decide_not, Bool.or_eq_true, Bool.not_eq_eq_eq_not, Bool.not_true,
      decide_eq_false_iff_not, decide_eq_true_eq] at first
    simp only [Word, exec, write_mem, Function.update_apply] at word ⊢
    grind
  | putTemp f r | putSucc f r | putEq f r r' | amoAdd f v =>
    simp only [locksWord, ne_eq, decide_not, Bool.not_eq_eq_eq_not, Bool.not_true,
      decide_eq_false_iff_not] at first
    refine ⟨fun word => ?_, later⟩
    simpa [Word, exec, Function.update_of_ne (Ne.symm first)] using word
  | release f | clear f =>
    refine ⟨fun word => ?_, later⟩
    simp only [Word, exec, write_mem, Function.update_apply]
    split
    · exact .inl rfl
    · exact word
  | acquire f =>
    simp only [locksWord, decide_eq_true_eq] at first
    subst first
    refine ⟨fun _ => .inr (by simp [exec]), ?_⟩
    simp only [exec]
    split
    · exact later
    · exact whole
  | spinWait f v =>
    refine ⟨id, ?_⟩
    simp only [exec]
    split
    · exact later
    · exact whole
  | spinZero f =>
    refine ⟨id, ?_⟩
    simp only [exec]
    split
    · exact whole
    · exact later
  | delay j => cases j with
    | zero => exact ⟨id, later⟩
    | succ j => exact ⟨id, whole⟩
  | park =>
    simp only [exec]
    split
    · exact ⟨id, whole⟩
    · refine ⟨id, ?_⟩
      rw [List.all_append, Bool.and_eq_true]
      exact ⟨job_locksWord n _, whole⟩
  | assertEq r v k =>
    refine ⟨id, ?_⟩
    simp only [exec]
    split
    · exact later
    · rfl
  | testFail k | testPass => exact ⟨id, whole⟩
  | load r f | wake job => exact ⟨id, later⟩

theorem Worded.next (worded : Worded s) (i : HartId) : Worded (step (exec n) s i) := by
  cases here : (s.thread i).code with
  | nil =>
    rw [step_nil here]
    exact worded
  | cons stmt code =>
    have whole := (exec_locksWord n i (s.thread i).vars s.shared (here ▸ worded i)).2
    rw [step_cons here]
    intro j
    by_cases same : j = i
    · subst same
      simpa using whole
    · simpa [Function.update_of_ne same] using worded j

theorem Worded.stray_le (worded : Worded s) (i : HartId) :
    stray (step (exec n) s i).shared.mem ≤ stray s.shared.mem := by
  cases here : (s.thread i).code with
  | nil => rw [step_nil here]
  | cons stmt code =>
    have kept := (exec_locksWord n i (s.thread i).vars s.shared (here ▸ worded i)).1
    rw [step_cons here]
    simp only [stray]
    split <;> split <;> simp_all

/-- A hart that takes a lock word which is neither 0 nor 1 waits on, but only this once. -/
theorem acquire_stray {i : HartId} {rest : List Stmt}
    (here : (s.thread i).code = .acquire .lock :: rest) (held : s.shared.mem .lock ≠ 0)
    (odd : ¬ Word s.shared.mem) :
    left n (step (exec n) s i) + stray (step (exec n) s i).shared.mem <
      left n s + stray s.shared.mem := by
  have same : (⟨.acquire .lock :: rest, (s.thread i).vars⟩ : Part) = s.thread i := by rw [← here]
  have stepped : step (exec n) s i = { s with shared := s.shared.write .lock 1 } := by
    rw [step_cons here]
    simp only [exec, if_neg held, same, Function.update_eq_self]
  have now : Word (s.shared.write .lock 1).mem := .inr (by simp)
  rw [stepped]
  simp only [stray, if_pos now, if_neg odd]
  exact Nat.lt_succ_self _

/-- A step changes nothing or leaves less to do. -/
theorem Worded.shrinks (worded : Worded s) (i : HartId) :
    step (exec n) s i = s ∨ left n (step (exec n) s i) + stray (step (exec n) s i).shared.mem <
      left n s + stray s.shared.mem := by
  have less (smaller : left n (step (exec n) s i) < left n s) :=
    Nat.add_lt_add_of_lt_of_le smaller (worded.stray_le (n := n) i)
  cases here : (s.thread i).code with
  | nil => exact .inl (step_nil here)
  | cons stmt rest =>
    by_cases blocked : Blocked s.shared.mem stmt
    · cases stmt with
      | spinWait f v => exact .inl (step_waits here (by simp only [exec, if_neg blocked]))
      | spinZero f =>
        have down : s.shared.mem f = 0 := blocked
        exact .inl (step_waits here (by simp only [exec, if_pos down]))
      | acquire f =>
        have lock : f = .lock := by
          have sets := worded i
          rw [here, List.all_cons, Bool.and_eq_true] at sets
          exact of_decide_eq_true sets.1
        subst lock
        by_cases word : Word s.shared.mem
        · have same : s.shared.write .lock 1 = s.shared := by
            rw [Shared.write, ← word.resolve_left blocked, Function.update_eq_self]
          exact .inl (step_waits here (by simp only [exec, if_neg blocked, same]))
        · exact .inr (acquire_stray here blocked word)
      | park =>
        cases posted : s.shared.posted with
        | nil => exact .inl (step_waits here (by simp only [exec, posted]))
        | cons job jobs =>
          refine .inr (less (step_smaller here ?_))
          have worker := code_weight n job
          simp only [codeWeight] at worker
          simp only [exec, posted, codeWeight, total_append, total, worker, postedWeight]
          omega
      | testFail c => exact .inl (step_waits here rfl)
      | testPass => exact .inl (step_waits here rfl)
      | _ => exact blocked.elim
    · exact .inr (less (step_smaller here (exec_smaller n i rest _ blocked)))

theorem worded_of_atBoot (boot : AtBoot order s) : Worded s := by
  intro i
  cases i with
  | hart0 =>
    have phase : ∀ phase ∈ phases loopCounts, phase.all locksWord := by decide +kernel
    rw [boot.hart0, testMain, List.all_eq_true]
    intro stmt member
    obtain ⟨code, some, member⟩ := List.mem_flatMap.mp member
    rcases List.mem_append.mp member with clear | later
    · obtain ⟨f, -, rfl⟩ := List.mem_map.mp clear
      rfl
    · exact List.all_eq_true.mp (phase code some) stmt later
  | hart1 =>
    rw [boot.hart1]
    rfl

theorem step_ne {i : HartId} (moves : Moves s.shared.mem (s.thread i).code) :
    step (exec n) s i ≠ s := by
  obtain ⟨stmt, rest, here, free⟩ := moves
  intro same
  have smaller := step_smaller here (exec_smaller n i rest _ free)
  rw [same] at smaller
  exact absurd smaller (Nat.lt_irrefl _)

/-- Hart 0 is at `test_pass`. -/
def Passed (s : State HartId) : Prop :=
  (s.thread .hart0).code.head? = some .testPass

/-- Hart 1 is in its last wait for `fence_done`, which is down, and hart 0 in a wait for a worker
that hart 1 does not come to. -/
structure Deadlocked (s : State HartId) : Prop where
  hart1 : (s.thread .hart1).code = [.spinWait .fence_done 1, .park]
  down : s.shared.mem .fence_done = 0
  hart0 : ∃ f after, (s.thread .hart0).code = .spinWait f 1 :: after ∧ s.shared.mem f = 0

theorem setting_moves (mem : Mem) (setup : List (Field × BitVec 64)) (job : Worker)
    (b : List Stmt) : Moves mem (setupCode setup ++ .wake job :: b) := by
  cases setup with
  | nil => exact ⟨_, _, rfl, not_false⟩
  | cons entry setup => exact ⟨_, _, rfl, not_false⟩

theorem following_moves (order : ResetOrder) (mem : Mem) {rest : List (List Stmt)}
    (more : rest ≠ []) :
    Moves mem (following order rest) := by
  cases whole : following order rest with
  | nil =>
    obtain ⟨phase, rest, rfl⟩ := List.exists_cons_of_ne_nil more
    have clear : Stmt.clear .turn ∈ following order (phase :: rest) := by
      simp only [following, List.flatMap_cons, List.mem_append]
      exact .inl (.inl (List.mem_map_of_mem (order.complete .turn)))
    rw [whole] at clear
    cases clear
  | cons stmt code =>
    obtain ⟨f, -, -, -, rfl, -⟩ := following_cons whole
    exact ⟨_, _, rfl, not_false⟩

theorem Pending.moves {w : List Stmt}
    (pending : Pending n s.shared.posted (s.thread .hart1).code w) (moves : Moves s.shared.mem w) :
    step (exec n) s .hart1 ≠ s := by
  cases pending with
  | posted waiting work parked =>
    -- the job leaves the mailbox
    intro same
    have taken := congrArg (fun s => s.shared.posted) same
    simp [step_cons parked, exec, waiting] at taken
  | working taken begun => exact step_ne (begun ▸ moves.append _)

/-- One of the harts goes on until the test has passed. -/
theorem Kept.moves (kept : Kept order n s) (away : ¬ Passed s) :
    ∃ i, step (exec n) s i ≠ s := by
  obtain ⟨w, -, pending, course⟩ := kept
  have goes {code : List Stmt} (moves : Moves s.shared.mem code)
      (whole : (s.thread .hart0).code = code) : ∃ i, step (exec n) s i ≠ s :=
    ⟨.hart0, step_ne (whole ▸ moves)⟩
  generalize whole : s.thread .hart0 = b at course
  cases course with
  | @clearing fields phase rest _ _ _ chain finished cleared =>
    cases fields with
    | nil => cases chain with
      | cons _ _ _ split =>
        exact goes (.append (split ▸ setting_moves _ _ _ _) _) (by rw [whole]; rfl)
    | cons f fields => exact goes ⟨.clear f, _, rfl, not_false⟩ (congrArg Thread.code whole)
  | setting work inside prepared chain finished =>
    exact goes (.append (setting_moves _ _ _ _) _) (congrArg Thread.code whole)
  | running sure link ends inside chain =>
    rcases sure.live link with moves | moves | ⟨finished, nothing | passed⟩
    · exact goes (moves.append _) (congrArg Thread.code whole)
    · exact ⟨.hart1, Pending.moves pending moves⟩
    · refine goes (following_moves order _ (ends link nothing).1) ?_
      rw [whole, nothing]
      rfl
    · refine absurd ?_ away
      rw [Passed, whole, passed]
      rfl
  | @erasing fields phase rest _ _ _ chain inert cleared last up =>
    cases fields with
    | nil =>
      have down := (cleared .fence_done).resolve_right (by simp)
      rw [up] at down
      cases down
    | cons f fields => exact goes ⟨.clear f, _, rfl, not_false⟩ (congrArg Thread.code whole)

theorem LeftBehind.moves (behind : LeftBehind s) (away : ¬ Deadlocked s) :
    ∃ i, step (exec n) s i ≠ s := by
  obtain ⟨waits, before, f, after, whole, mute, other, down, unset⟩ := behind
  cases before with
  | nil => exact absurd ⟨waits, down, f, after, whole, unset.resolve_right (by simp)⟩ away
  | cons stmt before =>
    refine ⟨.hart0, step_ne ⟨stmt, _, whole, ?_⟩⟩
    have first := mute stmt List.mem_cons_self
    cases stmt with
    | put _ _ | amoAdd _ _ | clear _ | wake _ => exact not_false
    | _ => exact first.elim

theorem Passed.next (passed : Passed s) (i : HartId) : Passed (step (exec n) s i) := by
  obtain ⟨code, here⟩ := List.head?_eq_some_iff.mp passed
  cases i with
  | hart0 => rwa [step_waits here rfl]
  | hart1 =>
    cases there : (s.thread .hart1).code with
    | nil => rwa [step_nil there]
    | cons stmt rest =>
      rw [step_cons there]
      simpa [Passed] using passed

theorem Deadlocked.next (dead : Deadlocked s) (i : HartId) : step (exec n) s i = s := by
  obtain ⟨waits, down, f, after, here, zero⟩ := dead
  cases i with
  | hart0 => exact step_waits here (by simp [exec, zero])
  | hart1 => exact step_waits waits (by simp [exec, down])

theorem Deadlocked.not_passed (dead : Deadlocked s) : ¬ Passed s := by
  intro passed
  obtain ⟨-, -, f, after, here, -⟩ := dead
  rw [Passed, here] at passed
  cases passed

theorem LeftBehind.not_passed (behind : LeftBehind s) : ¬ Passed s := by
  intro passed
  obtain ⟨before, f, after, whole, mute, -⟩ := behind.lost
  rw [Passed, whole] at passed
  cases before with
  | nil => cases passed
  | cons stmt before =>
    cases passed
    exact mute _ List.mem_cons_self

section Runs

variable {run : Nat → State HartId} {label : Nat → HartId}

theorem run_known (boot : AtBoot order (run 0))
    (steps : ∀ t, run (t + 1) = step (exec loopCounts) (run t) (label t)) (t : Nat) :
    (Kept order loopCounts (run t) ∧ ∀ t' < t, ¬ Erases (run t') (label t')) ∨
      LeftBehind (run t) ∧ ∃ t' < t, Erases (run t') (label t') := by
  induction t with
  | zero => exact .inl ⟨kept_of_atBoot boot, by simp⟩
  | succ t ih =>
    rw [steps t]
    rcases ih with ⟨kept, none⟩ | ⟨behind, t', earlier, erased⟩
    · by_cases erases : Erases (run t) (label t)
      · exact .inr ⟨(kept.next (label t)).2 erases, t, Nat.lt_succ_self t, erases⟩
      · refine .inl ⟨(kept.next (label t)).1 erases, fun t' before => ?_⟩
        rcases Nat.lt_succ_iff_lt_or_eq.mp before with earlier | rfl
        · exact none t' earlier
        · exact erases
    · exact .inr ⟨behind.next (label t), t', Nat.lt_succ_of_lt earlier, erased⟩

theorem run_worded (boot : AtBoot order (run 0))
    (steps : ∀ t, run (t + 1) = step (exec loopCounts) (run t) (label t)) (t : Nat) :
    Worded (run t) := by
  induction t with
  | zero => exact worded_of_atBoot boot
  | succ t ih =>
    rw [steps t]
    exact ih.next (label t)

/-- A fair run comes to the verdict or to the deadlock. -/
theorem run_ends (boot : AtBoot order (run 0))
    (steps : ∀ t, run (t + 1) = step (exec loopCounts) (run t) (label t)) (fair : Fair label)
    (t : Nat) : ∃ t', t ≤ t' ∧ (Passed (run t') ∨ Deadlocked (run t')) := by
  apply fair.eventually (P := fun s => Passed s ∨ Deadlocked s)
    (μ := fun s => left loopCounts s + stray s.shared.mem) steps
  · intro t
    rw [steps t]
    exact (run_worded boot steps t).shrinks (label t)
  · intro t away
    rw [not_or] at away
    rcases run_known boot steps t with ⟨kept, -⟩ | ⟨behind, -⟩
    · exact kept.moves away.1
    · exact behind.moves away.2

theorem run_passed (steps : ∀ t, run (t + 1) = step (exec loopCounts) (run t) (label t)) {t : Nat}
    (passed : Passed (run t)) {t' : Nat} (later : t ≤ t') : Passed (run t') := by
  induction t', later using Nat.le_induction with
  | base => exact passed
  | succ t' _ ih =>
    rw [steps t']
    exact ih.next (label t')

theorem run_deadlocked (steps : ∀ t, run (t + 1) = step (exec loopCounts) (run t) (label t))
    {t : Nat} (dead : Deadlocked (run t)) {t' : Nat} (later : t ≤ t') : run t' = run t := by
  induction t', later using Nat.le_induction with
  | base => rfl
  | succ t' _ ih => rw [steps t', ih, dead.next]

end Runs

/-- Every fair run passes for good, unless hart 0 resets `fence_done` while hart 1 still awaits it.
Then both harts wait for good. -/
theorem test_main_passes_iff (order : ResetOrder) (run : Nat → State HartId)
    (label : Nat → HartId) (boot : AtBoot order (run 0))
    (steps : ∀ t, Fires (interleave (exec loopCounts)) (run t) (label t) (run (t + 1)))
    (fair : Fair label) :
    ((∃ t, ∀ t', t ≤ t' → Passed (run t')) ↔ ∀ t, ¬ Erases (run t) (label t)) ∧
    ((∃ t, ∀ t', t ≤ t' → run t' = run t ∧ Deadlocked (run t')) ↔
      ∃ t, Erases (run t) (label t)) := by
  have stepped (t : Nat) : run (t + 1) = step (exec loopCounts) (run t) (label t) :=
    (Option.some.inj (steps t)).symm
  have passes (keeps : ∀ t, ¬ Erases (run t) (label t)) : ∃ t, ∀ t', t ≤ t' → Passed (run t') := by
    obtain ⟨t, -, ended⟩ := run_ends boot stepped fair 0
    refine ⟨t, fun t' later => run_passed stepped ?_ later⟩
    by_contra away
    rcases run_known boot stepped t with ⟨kept, -⟩ | ⟨-, t', -, erased⟩
    · obtain ⟨i, moves⟩ := kept.moves away
      exact moves ((ended.resolve_left away).next i)
    · exact keeps t' erased
  have locks {t : Nat} (erases : Erases (run t) (label t)) :
      ∃ t, ∀ t', t ≤ t' → run t' = run t ∧ Deadlocked (run t') := by
    obtain ⟨t', later, ended⟩ := run_ends boot stepped fair (t + 1)
    have behind : LeftBehind (run t') := by
      rcases run_known boot stepped t' with ⟨-, none⟩ | ⟨behind, -⟩
      · exact absurd erases (none t later)
      · exact behind
    have dead := ended.resolve_left behind.not_passed
    refine ⟨t', fun t'' still => ?_⟩
    have same := run_deadlocked stepped dead still
    exact ⟨same, same ▸ dead⟩
  refine ⟨⟨?_, passes⟩, ?_, fun ⟨t, erases⟩ => locks erases⟩
  · rintro ⟨t, passed⟩ u erases
    obtain ⟨v, dead⟩ := locks erases
    exact (dead (max t v) (Nat.le_max_right t v)).2.not_passed
      (passed (max t v) (Nat.le_max_left t v))
  · rintro ⟨t, dead⟩
    by_contra none
    obtain ⟨v, passed⟩ := passes (not_exists.mp none)
    exact (dead (max t v) (Nat.le_max_left t v)).2.not_passed
      (passed (max t v) (Nat.le_max_right t v))

theorem not_erases_of_past {i : HartId} (past : PastFenceDone s i) : ¬ Erases s i := by
  rintro ⟨rfl, head, waits⟩
  obtain ⟨code, here⟩ := List.head?_eq_some_iff.mp head
  have away := past rfl (by rw [here]; rfl)
  rw [waits] at away
  cases away

/-- A fair schedule in which hart 0 does not wait for hart 1 to leave. -/
def hasty (t : Nat) : HartId :=
  (untilPublished ++ List.replicate 6 .hart0)[t]?.getD (if t % 2 = 0 then .hart0 else .hart1)

def hastyRun (s : State HartId) : Nat → State HartId
  | 0 => s
  | t + 1 => step (exec loopCounts) (hastyRun s t) (hasty t)

theorem hasty_fair : Fair hasty := by
  have length : (untilPublished ++ List.replicate 6 HartId.hart0).length = 82 := rfl
  have late (t : Nat) (after : 82 ≤ t) : hasty t = if t % 2 = 0 then .hart0 else .hart1 := by
    rw [hasty, List.getElem?_eq_none (length ▸ after), Option.getD_none]
  intro i t
  cases i with
  | hart0 => exact ⟨2 * (t + 41), by omega, by rw [late _ (by omega), if_pos (by omega)]⟩
  | hart1 => exact ⟨2 * (t + 41) + 1, by omega, by rw [late _ (by omega), if_neg (by omega)]⟩

/-- A schedule that lets hart 1 leave its wait passes, and one that does not locks up. -/
theorem test_main_passes_iff_patient :
    (∃ t, ∀ t', t ≤ t' → Passed (patientRun bootState t')) ∧
    ∃ t, ∀ t', t ≤ t' →
      hastyRun bootState t' = hastyRun bootState t ∧ Deadlocked (hastyRun bootState t') := by
  constructor
  · have steps (t : Nat) := patientRun_guarded bootState t
    exact (test_main_passes_iff fieldOrder (patientRun bootState)
      (fun t => patient (patientRun bootState t) t) bootState_atBoot (fun t => (steps t).2)
      (patientRun_fair bootState_atBoot)).1.mpr fun t => not_erases_of_past (steps t).1
  · refine (test_main_passes_iff fieldOrder (hastyRun bootState) hasty bootState_atBoot
      (fun _ => rfl) hasty_fair).2.mpr ⟨81, rfl, ?_, ?_⟩
    · decide +kernel
    · decide +kernel

end ZephyrRiscv.P4.Outcomes
