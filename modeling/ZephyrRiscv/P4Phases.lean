import ZephyrRiscv.P4Handshakes

set_option autoImplicit false

namespace ZephyrRiscv.P4.Phases

open Transition Interleaving

/-- A store before the wake-up leaves every awaited field at 0. -/
def Sets (stmt : Stmt) : Prop :=
  ∃ f v, stmt = .put f v ∧ (v = 0 ∨ f = .fence_expected)

def Zeroed (mem : Mem) : Prop :=
  ∀ f, f ≠ .fence_expected → mem f = 0

/-- From `g_p4` as it is before the wake-up, the code after it and the worker's code are in a
handshake. -/
def Starts (n : LoopCounts) (b w : List Stmt) : Prop :=
  ∀ mem, Zeroed mem → ∃ Link, Linked n Link ∧ Link b w mem

structure Startable (n : LoopCounts) (phase : List Stmt) : Prop where
  split : ∃ setup job b, phase = setup ++ .wake job :: b ∧ (∀ stmt ∈ setup, Sets stmt) ∧
    job.code n ≠ [] ∧ Starts n b (job.code n)

theorem Works.starts {n : LoopCounts} {f : Field} {During : List Stmt → List Stmt → Mem → Prop}
    (works : Works n f During) (awaited : f ≠ .fence_expected) (g : Field) (v : BitVec 64)
    (code : Nat) {c w : List Stmt} (during : ∀ mem, Zeroed mem → During c w mem) :
    Starts n (c ++ .spinWait f 1 :: check g v code) w :=
  fun mem zeroed =>
    ⟨_, works.linked g v code, .during (during mem zeroed) fun _ => zeroed f awaited⟩

theorem startable0 (n : LoopCounts) : Startable n phase0 :=
  ⟨[], .magicWriter, _, rfl, by simp, by simp [Worker.code, magicWriter],
    (works0 n).starts (by decide) _ _ _ fun _ _ => ⟨rfl, List.suffix_rfl⟩⟩

theorem startable1A (n : LoopCounts) : Startable n phase1A := by
  refine ⟨[.put .fence_expected CORE1_MAGIC_NUMBER], .fenceConsumer, _, rfl, by simp [Sets],
    by simp [Worker.code, fenceConsumer],
    (works1A n).starts (by decide) .fence_ok 1 761 fun _ _ =>
      ⟨List.suffix_rfl, List.suffix_rfl, ?_⟩⟩
  intro nothing
  cases nothing

theorem startable1B (n : LoopCounts) : Startable n phase1B := by
  refine ⟨[.put .fence_expected CORE1_MAGIC_NUMBER], .fenceProducer, _, rfl, by simp [Sets],
    by simp [Worker.code, fenceProducer], ?_⟩
  intro mem zeroed
  refine ⟨Link1B, linked1B n, .waiting List.suffix_rfl (by simp [Worker.code, fenceProducer]) ?_
    (fun _ => zeroed _ (by decide)) (zeroed _ (by decide))⟩
  intro same
  exact absurd same (by simp [Worker.code, fenceProducer])

theorem startable2 (n : LoopCounts) : Startable n (phase2 n.atomic) := by
  refine ⟨[.put .shared_counter 0, .put .core1_atomic_done 0], .atomicIncrementer, _, ?_,
    by simp [Sets], by simp [Worker.code, atomicIncrementer],
    (works2 n).starts (by decide) .shared_counter (BitVec.ofNat 64 (n.atomic * 2)) 771
      fun _ _ => ⟨⟨n.atomic, rfl⟩, .inr ⟨n.atomic, rfl⟩⟩⟩
  simp [phase2, check]

theorem startable3 (n : LoopCounts) : Startable n (phase3 n.spinlock) := by
  refine ⟨[.put .lock 0, .put .shared_var 0, .put .core1_lock_done 0], .spinlockWorker, _, ?_,
    by simp [Sets], by simp [Worker.code, spinlockWorker],
    (works3 n).starts (by decide) .shared_var (BitVec.ofNat 64 (n.spinlock * 2)) 781
      (c := forUpto n.spinlock spinlockRound) fun mem zeroed => ?_⟩
  · simp [phase3, check]
  · have free := zeroed .lock (by decide)
    refine ⟨fun _ => .outside n.spinlock, by simp [Spinlock.Place.code], .inl rfl, .inl free, ?_⟩
    exact ⟨by simp [free, Spinlock.Place.inside], by simp [Spinlock.Place.inside]⟩

theorem startable4 (n : LoopCounts) (rounds : n.pingPong ≠ 0) :
    Startable n (phase4 n.pingPong) := by
  refine ⟨[], .ping, _, rfl, by simp, ?_, ?_⟩
  · intro nothing
    obtain ⟨k, more⟩ := Nat.exists_eq_succ_of_ne_zero rounds
    simp [Worker.code, ping, more, turnRound] at nothing
  · intro mem zeroed
    have turned : PingPong.Turned mem (fun _ => .waiting n.pingPong) .hart0 :=
      ⟨zeroed .turn (by decide), by simp [PingPong.Place.inside], rfl⟩
    have link := Link4.playing (n := n.pingPong) turned
    refine ⟨Link4 n.pingPong, linked4 n n.pingPong, ?_⟩
    simpa [PingPong.Place.code, PingPong.turnOf, HartId.other, Worker.code, ping, pingPongMain,
      PingPong.lastWait] using link

theorem phases_startable : ∀ phase ∈ phases loopCounts, Startable loopCounts phase := by
  intro phase member
  simp only [phases, List.mem_cons, List.not_mem_nil, or_false] at member
  rcases member with rfl | rfl | rfl | rfl | rfl | rfl
  · exact startable0 _
  · exact startable1A _
  · exact startable1B _
  · exact startable2 _
  · exact startable3 _
  · exact startable4 _ (by decide)

section Stages

variable (order : ResetOrder) (n : LoopCounts)

def following (rest : List (List Stmt)) : List Stmt :=
  rest.flatMap fun phase => order.code ++ phase

/-- The code left to hart 0, the code left to the worker, and `g_p4`. -/
inductive Stage : List Stmt → List Stmt → Mem → Prop
  | clearing {fields : List Field} {phase : List Stmt} {rest : List (List Stmt)} {mem : Mem}
      (startable : ∀ p ∈ phase :: rest, Startable n p) (cleared : ∀ f, mem f = 0 ∨ f ∈ fields) :
      Stage (fields.map .clear ++ (phase ++ following order rest)) [] mem
  | setting {setup b : List Stmt} {job : Worker} {rest : List (List Stmt)} {mem : Mem}
      (sets : ∀ stmt ∈ setup, Sets stmt) (work : job.code n ≠ []) (starts : Starts n b (job.code n))
      (startable : ∀ p ∈ rest, Startable n p) (zeroed : Zeroed mem) :
      Stage (setup ++ .wake job :: b ++ following order rest) [] mem
  | running {Link : List Stmt → List Stmt → Mem → Prop} {b w : List Stmt}
      {rest : List (List Stmt)} {mem : Mem} (linked : Linked n Link) (link : Link b w mem)
      (startable : ∀ p ∈ rest, Startable n p) : Stage (b ++ following order rest) w mem
  | failed {c : Nat} {w : List Stmt} {mem : Mem} (calm : Calm w mem) : Stage [.testFail c] w mem

/-- The code left to the worker, begun or not. -/
inductive Pending (posted : List Worker) (code : List Stmt) : List Stmt → Prop
  | posted {job : Worker} (waiting : posted = [job]) (work : job.code n ≠ [])
      (parked : code = [.park]) : Pending posted code (job.code n)
  | working {w : List Stmt} (taken : posted = []) (begun : code = w ++ [.park]) :
      Pending posted code w

end Stages

variable {order : ResetOrder} {n : LoopCounts}

/-- After the code of a phase comes the first store of the next reset. -/
theorem following_cons {rest : List (List Stmt)} {stmt : Stmt} {code : List Stmt}
    (whole : following order rest = stmt :: code) :
    ∃ f fields phase rest', stmt = .clear f ∧ order.fields = f :: fields ∧ rest = phase :: rest' ∧
      code = fields.map .clear ++ (phase ++ following order rest') := by
  cases rest with
  | nil => cases whole
  | cons phase rest =>
    cases fields : order.fields with
    | nil =>
      have member := order.complete .turn
      rw [fields] at member
      cases member
    | cons f fields' =>
      have split : following order (phase :: rest) =
          .clear f :: (fields'.map .clear ++ (phase ++ following order rest)) := by
        simp [following, ResetOrder.code, fields]
      cases split.symm.trans whole
      exact ⟨f, fields', phase, rest, rfl, rfl, rfl, rfl⟩

/-- What a step of hart 0 leaves: the worker as it was, or a job for it. -/
def Stepped (order : ResetOrder) (n : LoopCounts) (posted : List Worker) (w : List Stmt)
    (m : Shared HartId) (code : List Stmt) : Prop :=
  (m.posted = posted ∧ Stage order n code w m.mem) ∨
  ∃ job, w = [] ∧ job.code n ≠ [] ∧ m.posted = posted ++ [job] ∧
    Stage order n code (job.code n) m.mem

/-- Hart 0 before its wake-up. -/
theorem setting_step {setup b : List Stmt} {job : Worker} {rest : List (List Stmt)}
    {m : Shared HartId} {stmt : Stmt} {code : List Stmt} (sets : ∀ stmt ∈ setup, Sets stmt)
    (work : job.code n ≠ []) (starts : Starts n b (job.code n))
    (startable : ∀ p ∈ rest, Startable n p) (zeroed : Zeroed m.mem)
    (whole : stmt :: code = setup ++ .wake job :: b ++ following order rest) (vars : Vars) :
    ∃ m' code' vars', exec n .hart0 stmt code vars m = (m', ⟨code', vars'⟩) ∧
      Stepped order n m.posted [] m' code' := by
  cases setup with
  | nil =>
    cases whole
    obtain ⟨Link, linked, link⟩ := starts m.mem zeroed
    exact ⟨_, _, _, rfl, .inr ⟨job, rfl, work, rfl, .running linked link startable⟩⟩
  | cons first setup =>
    obtain ⟨f, v, rfl, value⟩ := sets first List.mem_cons_self
    cases whole
    refine ⟨_, _, _, rfl, .inl ⟨rfl, .setting (fun stmt member => ?_) work starts startable ?_⟩⟩
    · exact sets stmt (List.mem_cons_of_mem _ member)
    · intro g other
      by_cases same : g = f
      · subst same
        rcases value with zero | expected
        · simp [zero]
        · exact absurd expected other
      · simpa [same] using zeroed g other

/-- At a reset the worker has done its last access, but for a last look at `fence_done`. -/
theorem Stage.reset {f : Field} {code w : List Stmt} {mem : Mem}
    (stage : Stage order n (.clear f :: code) w mem) : Calm w mem := by
  generalize whole : Stmt.clear f :: code = code0 at stage
  cases stage with
  | clearing startable cleared => exact .inl rfl
  | setting sets work starts startable zeroed => exact .inl rfl
  | @running Link b _ rest _ linked link startable =>
    cases b with
    | nil => exact linked.ends link
    | cons stmt b =>
      cases whole
      exact (linked.plain link (.inl rfl)).elim
  | failed calm => exact calm

theorem Stage.hart0 {stmt : Stmt} {code w : List Stmt} {m : Shared HartId}
    (stage : Stage order n (stmt :: code) w m.mem)
    (past : ∀ f, stmt = .clear f → w ≠ [.spinWait .fence_done 1]) (vars : Vars) :
    ∃ m' code' vars', exec n .hart0 stmt code vars m = (m', ⟨code', vars'⟩) ∧
      Stepped order n m.posted w m' code' := by
  generalize whole : stmt :: code = code0 at stage
  cases stage with
  | @clearing fields phase rest _ startable cleared =>
    cases fields with
    | nil =>
      obtain ⟨setup, job, b, split, sets, work, starts⟩ :=
        (startable phase List.mem_cons_self).split
      have later (p : List Stmt) (member : p ∈ rest) : Startable n p :=
        startable p (List.mem_cons_of_mem _ member)
      refine setting_step sets work starts later ?_ ?_ vars
      · intro g _
        rcases cleared g with zero | later
        · exact zero
        · cases later
      · rw [whole, split]
        simp
    | cons f fields =>
      cases whole
      refine ⟨_, _, _, rfl, .inl ⟨rfl, .clearing startable ?_⟩⟩
      intro g
      by_cases same : g = f
      · subst same
        exact .inl (by simp)
      · rcases cleared g with zero | later
        · exact .inl (by simpa [same] using zero)
        · exact .inr ((List.mem_cons.mp later).resolve_left same)
  | setting sets work starts startable zeroed =>
    exact setting_step sets work starts startable zeroed whole vars
  | @running Link b _ rest _ linked link startable =>
    cases b with
    | nil =>
      obtain ⟨f, fields, phase, rest', rfl, all, rfl, rfl⟩ := following_cons whole.symm
      have finished : w = [] := by
        rcases linked.ends link with done | ⟨last, -⟩
        · exact done
        · exact absurd last (past f rfl)
      subst finished
      refine ⟨_, _, _, rfl, .inl ⟨rfl, .clearing startable ?_⟩⟩
      intro g
      by_cases same : g = f
      · subst same
        exact .inl (by simp)
      · have member := order.complete g
        rw [all] at member
        exact .inr ((List.mem_cons.mp member).resolve_left same)
    | cons stmt b =>
      cases whole
      obtain ⟨m', code', vars', runs, posted, ⟨b', rfl, next⟩ | ⟨⟨c, rfl⟩, calm⟩⟩ :=
        linked.hart0 link vars (following order rest)
      · exact ⟨m', _, vars', runs, .inl ⟨posted, .running linked next startable⟩⟩
      · exact ⟨m', _, vars', runs, .inl ⟨posted, .failed calm⟩⟩
  | failed calm =>
    cases whole
    exact ⟨_, _, _, rfl, .inl ⟨rfl, .failed calm⟩⟩

theorem Stage.hart1 {stmt : Stmt} {code w : List Stmt} {m : Shared HartId}
    (stage : Stage order n code (stmt :: w) m.mem) (vars : Vars) :
    ∃ m' w' vars', exec n .hart1 stmt (w ++ [.park]) vars m = (m', ⟨w' ++ [.park], vars'⟩) ∧
      m'.posted = m.posted ∧ Stage order n code w' m'.mem := by
  generalize whole : stmt :: w = work at stage
  cases stage with
  | clearing startable cleared => cases whole
  | setting sets work starts startable zeroed => cases whole
  | running linked link startable =>
    subst whole
    obtain ⟨m', w', vars', runs, posted, next⟩ := linked.hart1 link vars [.park]
    exact ⟨m', w', vars', runs, posted, .running linked next startable⟩
  | failed calm =>
    rcases calm with nothing | ⟨last, up⟩
    · cases whole.trans nothing
    · cases whole.trans last
      refine ⟨m, [], vars, ?_, rfl, .failed (.inl rfl)⟩
      simp only [exec, if_pos up]

/-- Hart 0 is at a store of `g_p4 = {0}`. -/
def clears : List Stmt → Bool
  | .clear _ :: _ => true
  | _ => false

/-- In the `spin_wait` of `core1_fence_producer`. -/
def awaitsFenceDone : List Stmt → Bool
  | .spinWait .fence_done _ :: _ => true
  | _ => false

/-- Hart 0 resets `g_p4` only when hart 1 is not in the wait that ends `core1_fence_producer`. -/
def PastFenceDone (s : State HartId) (i : HartId) : Prop :=
  i = .hart0 → clears (s.thread .hart0).code = true →
    awaitsFenceDone (s.thread .hart1).code = false

instance (s : State HartId) (i : HartId) : Decidable (PastFenceDone s i) :=
  inferInstanceAs (Decidable (_ → _ → _))

/-- Hart 0 about to run `test_main`, hart 1 in its park loop. -/
structure AtBoot (order : ResetOrder) (s : State HartId) : Prop where
  hart0 : (s.thread .hart0).code = testMain order loopCounts
  hart1 : (s.thread .hart1).code = [.park]
  posted : s.shared.posted = []

/-- Hart 1 is in its park loop and was woken for nothing it has not run. -/
def AtPark (s : State HartId) : Prop :=
  (s.thread .hart1).code = [.park] ∧ s.shared.posted = []

def Inv (order : ResetOrder) (n : LoopCounts) (s : State HartId) : Prop :=
  ∃ w, Pending n s.shared.posted (s.thread .hart1).code w ∧
    Stage order n (s.thread .hart0).code w s.shared.mem

/-- Before the first phase neither hart has anything to do. -/
def Idle (b w : List Stmt) (_ : Mem) : Prop :=
  b = [] ∧ w = []

theorem linkedIdle (n : LoopCounts) : Linked n Idle := by
  constructor
  · rintro stmt b w m ⟨nothing, -⟩
    cases nothing
  · rintro stmt b w m ⟨-, nothing⟩
    cases nothing
  · exact fun link => .inl link.2
  · exact fun link running => absurd link.2 running
  · rintro b w mem stmt rest ⟨rfl, rfl⟩ head
    rcases head with there | there <;> cases there

theorem AtBoot.inv {s : State HartId} (boot : AtBoot order s) : Inv order loopCounts s := by
  have idle : Idle [] [] s.shared.mem := ⟨rfl, rfl⟩
  have stage : Stage order loopCounts (following order (phases loopCounts)) [] s.shared.mem :=
    .running (linkedIdle loopCounts) idle phases_startable
  refine ⟨[], .working boot.posted boot.hart1, ?_⟩
  rw [boot.hart0]
  exact stage

/-- No worker begins in its wait for `fence_done`. -/
theorem code_ne_fence_done (n : LoopCounts) (job : Worker) :
    job.code n ≠ [.spinWait .fence_done 1] := by
  intro same
  have first : ∀ stmt ∈ job.code n, stmt = .spinWait .fence_done 1 := by
    rw [same]
    simp
  cases job with
  | magicWriter => cases same
  | fenceConsumer => cases same
  | fenceProducer => cases same
  | atomicIncrementer =>
    cases first (.put .core1_atomic_done 1) (by simp [Worker.code, atomicIncrementer])
  | spinlockWorker =>
    cases first (.put .core1_lock_done 1) (by simp [Worker.code, spinlockWorker])
  | ping =>
    have member : Stmt.spinWait .fence_done 1 ∈ ping n.pingPong := by
      rw [show ping n.pingPong = _ from same]
      exact List.mem_cons_self
    simpa [turnRound] using mem_forUpto member

variable {s : State HartId}

theorem Pending.past {w : List Stmt}
    (pending : Pending n s.shared.posted (s.thread .hart1).code w)
    (away : awaitsFenceDone (s.thread .hart1).code = false) : w ≠ [.spinWait .fence_done 1] := by
  rintro rfl
  generalize whole : [Stmt.spinWait .fence_done 1] = w at pending
  cases pending with
  | posted waiting work parked => exact code_ne_fence_done n _ whole.symm
  | working taken begun =>
    subst whole
    rw [begun] at away
    cases away

/-- With nothing left to the worker hart 1 is in its park loop. -/
theorem Pending.parked {posted : List Worker} {code : List Stmt}
    (pending : Pending n posted code []) : code = [.park] ∧ posted = [] := by
  generalize whole : ([] : List Stmt) = w at pending
  cases pending with
  | posted waiting work parked => exact absurd whole.symm work
  | working taken begun =>
    subst whole
    exact ⟨begun, taken⟩

theorem Inv.hart0 (inv : Inv order n s) (past : PastFenceDone s .hart0) :
    Inv order n (step (exec n) s .hart0) := by
  obtain ⟨w, pending, stage⟩ := inv
  cases here : (s.thread .hart0).code with
  | nil =>
    rw [step_nil here]
    exact ⟨w, pending, stage⟩
  | cons stmt code =>
    rw [here] at stage
    have away (f : Field) (clear : stmt = .clear f) : w ≠ [.spinWait .fence_done 1] := by
      apply pending.past
      apply past rfl
      rw [here, clear]
      rfl
    obtain ⟨m', code', vars', runs, stepped⟩ := stage.hart0 away (s.thread .hart0).vars
    rw [step_cons here, runs]
    rcases stepped with ⟨posted, next⟩ | ⟨job, rfl, work, posted, next⟩
    · refine ⟨w, ?_, by simpa using next⟩
      rw [posted]
      exact pending
    · obtain ⟨parked, nothing⟩ := pending.parked
      refine ⟨job.code n, .posted ?_ work parked, by simpa using next⟩
      rw [posted, nothing, List.nil_append]

theorem Inv.hart1 (inv : Inv order n s) : Inv order n (step (exec n) s .hart1) := by
  obtain ⟨w, pending, stage⟩ := inv
  cases pending with
  | @posted job waiting work parked =>
    rw [step_cons parked]
    refine ⟨job.code n, ?_, ?_⟩
    · simp only [exec, waiting, Function.update_self]
      exact .working rfl rfl
    · simpa [exec, waiting] using stage
  | working taken begun =>
    cases w with
    | nil =>
      rw [step_waits begun (by simp only [exec, taken])]
      exact ⟨[], .working taken begun, stage⟩
    | cons stmt w =>
      obtain ⟨m', w', vars', runs, posted, next⟩ := stage.hart1 (s.thread .hart1).vars
      rw [step_cons begun]
      refine ⟨w', .working ?_ ?_, ?_⟩
      · simp only [List.append_eq, runs]
        exact posted.trans taken
      · simp [runs]
      · simpa [runs] using next

theorem Inv.next (inv : Inv order n s) (i : HartId) (past : PastFenceDone s i) :
    Inv order n (step (exec n) s i) := by
  cases i with
  | hart0 => exact inv.hart0 past
  | hart1 => exact inv.hart1

/-- The steps that a statement takes, a wake-up apart. -/
def plainWeight : Stmt → Nat
  | .delay j => j + 1
  | .park | .testFail _ | .testPass => 0
  | _ => 1

def total {α : Type} (f : α → Nat) : List α → Nat
  | [] => 0
  | a :: rest => f a + total f rest

theorem total_append {α : Type} (f : α → Nat) (front rest : List α) :
    total f (front ++ rest) = total f front + total f rest := by
  induction front with
  | nil => simp [total]
  | cons a front ih => simp [total, ih, Nat.add_assoc]

theorem total_congr {α : Type} {f g : α → Nat} {list : List α} (same : ∀ a ∈ list, f a = g a) :
    total f list = total g list := by
  induction list with
  | nil => rfl
  | cons a list ih =>
    rw [total, total, same a List.mem_cons_self,
      ih fun b member => same b (List.mem_cons_of_mem _ member)]

def jobWeight (n : LoopCounts) (job : Worker) : Nat :=
  total plainWeight (job.code n)

/-- A wake-up stands for its job. -/
def weight (n : LoopCounts) : Stmt → Nat
  | .wake job => 2 + jobWeight n job
  | stmt => plainWeight stmt

def codeWeight (n : LoopCounts) (code : List Stmt) : Nat :=
  total (weight n) code

def postedWeight (n : LoopCounts) (jobs : List Worker) : Nat :=
  total (fun job => 1 + jobWeight n job) jobs

/-- What is left to do for both harts. -/
def left (n : LoopCounts) (s : State HartId) : Nat :=
  codeWeight n (s.thread .hart0).code + codeWeight n (s.thread .hart1).code +
    postedWeight n s.shared.posted

/-- No worker wakes a hart. -/
theorem code_weight (n : LoopCounts) (job : Worker) :
    codeWeight n (job.code n) = jobWeight n job := by
  have plain : ∀ stmt ∈ job.code n, weight n stmt = plainWeight stmt := by
    intro stmt member
    cases job with
    | magicWriter =>
      simp only [Worker.code, magicWriter, List.mem_cons, List.not_mem_nil, or_false] at member
      rcases member with rfl | rfl <;> rfl
    | fenceConsumer =>
      simp only [Worker.code, fenceConsumer, List.mem_cons, List.not_mem_nil, or_false] at member
      rcases member with rfl | rfl | rfl | rfl | rfl <;> rfl
    | fenceProducer =>
      simp only [Worker.code, fenceProducer, List.mem_cons, List.not_mem_nil, or_false] at member
      rcases member with rfl | rfl | rfl | rfl <;> rfl
    | atomicIncrementer =>
      rcases List.mem_append.mp member with early | last
      · rw [List.mem_singleton.mp (mem_forUpto early)]
        rfl
      · rw [List.mem_singleton.mp last]
        rfl
    | spinlockWorker =>
      rcases List.mem_append.mp member with early | last
      · have round := mem_forUpto early
        simp only [spinlockRound, List.mem_cons, List.not_mem_nil, or_false] at round
        rcases round with rfl | rfl | rfl | rfl | rfl <;> rfl
      · rw [List.mem_singleton.mp last]
        rfl
    | ping =>
      have round := mem_forUpto member
      simp only [turnRound, List.mem_cons, List.not_mem_nil, or_false] at round
      rcases round with rfl | rfl | rfl | rfl <;> rfl
  exact total_congr plain

/-- A statement that does not wait leaves less to do. -/
theorem exec_smaller (n : LoopCounts) (i : HartId) {stmt : Stmt} (rest : List Stmt) (vars : Vars)
    {m : Shared HartId} (goes : ¬ Blocked m.mem stmt) :
    codeWeight n (exec n i stmt rest vars m).2.code +
        postedWeight n (exec n i stmt rest vars m).1.posted <
      codeWeight n (stmt :: rest) + postedWeight n m.posted := by
  simp only [codeWeight, total]
  cases stmt with
  | spinWait f v =>
    have up : m.mem f = v := not_not.mp goes
    simp [exec, if_pos up, weight, plainWeight]
  | spinZero f =>
    have up : m.mem f ≠ 0 := goes
    simp only [exec, if_neg up, weight, plainWeight]
    omega
  | acquire f =>
    have free : m.mem f = 0 := not_not.mp goes
    simp only [exec, if_pos free, weight, plainWeight, write_posted]
    omega
  | delay j =>
    cases j with
    | zero => simp [exec, weight, plainWeight]
    | succ j =>
      simp only [exec, total, weight, plainWeight]
      omega
  | wake job =>
    simp only [exec, weight, postedWeight, total_append, total]
    omega
  | assertEq r v c =>
    by_cases same : vars r = v
    · simp [exec, same, weight, plainWeight]
    · simp only [exec, if_neg same, weight, plainWeight, total]
      omega
  | park => exact absurd trivial goes
  | testFail c => exact absurd trivial goes
  | testPass => exact absurd trivial goes
  | _ => simp [exec, weight, plainWeight]

theorem step_smaller {i : HartId} {stmt : Stmt} {rest : List Stmt}
    (here : (s.thread i).code = stmt :: rest)
    (smaller : codeWeight n (exec n i stmt rest (s.thread i).vars s.shared).2.code +
        postedWeight n (exec n i stmt rest (s.thread i).vars s.shared).1.posted <
      codeWeight n (stmt :: rest) + postedWeight n s.shared.posted) :
    left n (step (exec n) s i) < left n s := by
  rw [step_cons here]
  rw [← here] at smaller
  cases i with
  | hart0 =>
    simp only [left, Function.update_self,
      Function.update_of_ne (show HartId.hart1 ≠ .hart0 by decide)]
    omega
  | hart1 =>
    simp only [left, Function.update_self,
      Function.update_of_ne (show HartId.hart0 ≠ .hart1 by decide)]
    omega

theorem Stage.word0 {f : Field} {code w : List Stmt} {mem : Mem}
    (stage : Stage order n (.acquire f :: code) w mem) : mem f = 0 ∨ mem f = 1 := by
  have unset {setup b rest : List Stmt} {job : Worker} (sets : ∀ stmt ∈ setup, Sets stmt) :
      Stmt.acquire f :: code ≠ setup ++ .wake job :: b ++ rest := by
    intro whole
    cases setup with
    | nil => cases whole
    | cons first setup =>
      obtain ⟨g, v, rfl, -⟩ := sets first List.mem_cons_self
      cases whole
  generalize whole : Stmt.acquire f :: code = code0 at stage
  cases stage with
  | @clearing fields phase rest _ startable cleared =>
    cases fields with
    | nil =>
      obtain ⟨setup, job, b, rfl, sets, -⟩ := (startable phase List.mem_cons_self).split
      exact absurd whole (unset sets)
    | cons g fields => cases whole
  | setting sets work starts startable zeroed => exact absurd whole (unset sets)
  | @running Link b _ rest _ linked link startable =>
    cases b with
    | nil =>
      obtain ⟨g, fields, phase, rest', clear, -⟩ := following_cons whole.symm
      cases clear
    | cons stmt b =>
      cases whole
      exact linked.plain link (.inl rfl)
  | failed calm => cases whole

theorem Stage.word1 {f : Field} {code w : List Stmt} {mem : Mem}
    (stage : Stage order n code (.acquire f :: w) mem) : mem f = 0 ∨ mem f = 1 := by
  generalize whole : Stmt.acquire f :: w = work at stage
  cases stage with
  | clearing startable cleared => cases whole
  | setting sets work starts startable zeroed => cases whole
  | running linked link startable =>
    subst whole
    exact linked.plain link (.inr rfl)
  | failed calm =>
    rcases calm with nothing | ⟨last, -⟩
    · cases whole.trans nothing
    · cases whole.trans last

theorem Inv.word (inv : Inv order n s) {i : HartId} {f : Field} {rest : List Stmt}
    (here : (s.thread i).code = .acquire f :: rest) :
    s.shared.mem f = 0 ∨ s.shared.mem f = 1 := by
  obtain ⟨w, pending, stage⟩ := inv
  cases i with
  | hart0 =>
    rw [here] at stage
    exact stage.word0
  | hart1 =>
    rw [here] at pending
    generalize whole : Stmt.acquire f :: rest = code at pending
    cases pending with
    | posted waiting work parked => cases whole.trans parked
    | working taken begun =>
      cases w with
      | nil => cases whole.trans begun
      | cons stmt w =>
        cases whole.trans begun
        exact stage.word1

/-- A step changes nothing or leaves less to do. -/
theorem Inv.shrinks (inv : Inv order n s) (i : HartId) :
    step (exec n) s i = s ∨ left n (step (exec n) s i) < left n s := by
  cases here : (s.thread i).code with
  | nil => exact .inl (step_nil here)
  | cons stmt rest =>
    by_cases blocked : Blocked s.shared.mem stmt
    · cases stmt with
      | spinWait f v => exact .inl (step_waits here (by simp only [exec, if_neg blocked]))
      | spinZero f =>
        have down : s.shared.mem f = 0 := blocked
        exact .inl (step_waits here (by simp only [exec, if_pos down]))
      | acquire f =>
        have held : s.shared.mem f = 1 := (inv.word here).resolve_left blocked
        have same : s.shared.write f 1 = s.shared := by
          rw [Shared.write, ← held, Function.update_eq_self]
        exact .inl (step_waits here (by simp only [exec, if_neg blocked, same]))
      | park =>
        cases posted : s.shared.posted with
        | nil => exact .inl (step_waits here (by simp only [exec, posted]))
        | cons job jobs =>
          refine .inr (step_smaller here ?_)
          have worker := code_weight n job
          simp only [codeWeight] at worker
          simp only [exec, posted, codeWeight, total_append, total, worker, postedWeight]
          omega
      | testFail c => exact .inl (step_waits here rfl)
      | testPass => exact .inl (step_waits here rfl)
      | _ => exact blocked.elim
    · exact .inr (step_smaller here (exec_smaller n i rest _ blocked))

/-- A hart that is not parked can be waited for. -/
theorem Inv.moves (inv : Inv order n s) (away : (s.thread .hart1).code ≠ [.park]) :
    ∃ i, step (exec n) s i ≠ s := by
  have goes {i : HartId} (moves : Moves s.shared.mem (s.thread i).code) :
      ∃ i, step (exec n) s i ≠ s := by
    obtain ⟨stmt, rest, here, free⟩ := moves
    refine ⟨i, fun same => ?_⟩
    have smaller := step_smaller here (exec_smaller n i rest _ free)
    rw [same] at smaller
    exact absurd smaller (Nat.lt_irrefl _)
  obtain ⟨w, pending, stage⟩ := inv
  cases pending with
  | posted waiting work parked => exact absurd parked away
  | working taken begun =>
    have running : w ≠ [] := by
      rintro rfl
      exact away begun
    generalize whole : (s.thread .hart0).code = code0 at stage
    cases stage with
    | clearing startable cleared => exact absurd rfl running
    | setting sets work starts startable zeroed => exact absurd rfl running
    | running linked link startable =>
      rcases linked.live link running with moves | moves
      · exact goes (i := .hart0) (whole ▸ moves.append _)
      · exact goes (i := .hart1) (begun ▸ moves.append _)
    | failed calm =>
      rcases calm with nothing | ⟨last, up⟩
      · exact absurd nothing running
      · rw [last] at begun
        exact goes (i := .hart1) ⟨_, _, begun, not_not_intro up⟩

theorem reached_inv
    (reached : Reachable (AtBoot order)
      (Guarded PastFenceDone (Fires (interleave (exec loopCounts)))) s) :
    Inv order loopCounts s := by
  apply reached.invariant (fun s boot => boot.inv)
  rintro s i s' inv ⟨past, fired⟩
  cases fired
  exact inv.next i past

/-- When hart 0 resets `g_p4` only past the wait that ends `core1_fence_producer`, hart 1 is back
in its park loop at every reset, and in every fair run it comes back again and again. -/
theorem phases_do_not_bleed (order : ResetOrder) :
    (∀ s, Reachable (AtBoot order)
        (Guarded PastFenceDone (Fires (interleave (exec loopCounts)))) s →
      clears (s.thread .hart0).code = true → PastFenceDone s .hart0 → AtPark s) ∧
    (∀ (run : Nat → State HartId) (label : Nat → HartId), AtBoot order (run 0) →
      (∀ t, Guarded PastFenceDone (Fires (interleave (exec loopCounts))) (run t) (label t)
        (run (t + 1))) →
      Fair label → ∀ t, ∃ t', t ≤ t' ∧ ((run t').thread .hart1).code = [.park]) := by
  constructor
  · intro s reached clear past
    obtain ⟨w, pending, stage⟩ := reached_inv reached
    cases here : (s.thread .hart0).code with
    | nil =>
      rw [here] at clear
      cases clear
    | cons stmt code =>
      rw [here] at clear stage
      cases stmt with
      | clear f =>
        have finished : w = [] := by
          rcases stage.reset with done | ⟨last, -⟩
          · exact done
          · exact absurd last (pending.past (past rfl (by rw [here]; rfl)))
        subst finished
        exact pending.parked
      | _ => cases clear
  · intro run label boot steps fair t
    have stepped (t : Nat) : run (t + 1) = step (exec loopCounts) (run t) (label t) :=
      (Option.some.inj (steps t).2).symm
    have inv (t : Nat) : Inv order loopCounts (run t) := by
      induction t with
      | zero => exact boot.inv
      | succ t ih =>
        rw [stepped t]
        exact ih.next (label t) (steps t).1
    have shrinks (t : Nat) :
        run (t + 1) = run t ∨ left loopCounts (run (t + 1)) < left loopCounts (run t) := by
      rw [stepped t]
      exact (inv t).shrinks (label t)
    exact fair.eventually (P := fun s => (s.thread .hart1).code = [.park]) stepped shrinks
      (fun t away => (inv t).moves away) t

def patient (s : State HartId) (t : Nat) : HartId :=
  if t % 2 = 0 ∧ PastFenceDone s .hart0 then .hart0 else .hart1

def patientRun (s : State HartId) : Nat → State HartId
  | 0 => s
  | t + 1 => step (exec loopCounts) (patientRun s t) (patient (patientRun s t) t)

theorem patientRun_guarded (s : State HartId) (t : Nat) :
    Guarded PastFenceDone (Fires (interleave (exec loopCounts))) (patientRun s t)
      (patient (patientRun s t) t) (patientRun s (t + 1)) := by
  refine ⟨fun hart0 => ?_, rfl⟩
  by_cases even : t % 2 = 0 ∧ PastFenceDone (patientRun s t) .hart0
  · exact even.2 rfl
  · rw [patient, if_neg even] at hart0
    cases hart0

theorem patientRun_inv (boot : AtBoot order s) (t : Nat) :
    Inv order loopCounts (patientRun s t) := by
  induction t with
  | zero => exact boot.inv
  | succ t ih => exact ih.next _ (patientRun_guarded s t).1

theorem pastFenceDone_of_parked (parked : (s.thread .hart1).code = [.park]) :
    PastFenceDone s .hart0 := by
  intro _ _
  rw [parked]
  rfl

/-- Where hart 0 has to wait, hart 1 leaves its wait with its next step. -/
theorem Inv.leaves (inv : Inv order n s) (waits : ¬ PastFenceDone s .hart0) :
    AtPark (step (exec n) s .hart1) := by
  simp only [PastFenceDone, forall_const, Classical.not_imp, Bool.not_eq_false] at waits
  obtain ⟨clear, awaits⟩ := waits
  obtain ⟨w, pending, stage⟩ := inv
  have calm : Calm w s.shared.mem := by
    cases here : (s.thread .hart0).code with
    | nil =>
      rw [here] at clear
      cases clear
    | cons stmt code =>
      rw [here] at clear stage
      cases stmt with
      | clear f => exact stage.reset
      | _ => cases clear
  cases pending with
  | posted waiting work parked =>
    rw [parked] at awaits
    cases awaits
  | working taken begun =>
    rcases calm with nothing | ⟨last, up⟩
    · rw [begun, nothing] at awaits
      cases awaits
    · rw [last] at begun
      rw [step_cons begun]
      refine ⟨?_, taken⟩
      simp only [exec, if_pos up, Function.update_self]
      rfl

theorem AtPark.step_hart1 (park : AtPark s) : step (exec n) s .hart1 = s :=
  step_waits park.1 (by simp only [exec, park.2])

theorem patientRun_fair (boot : AtBoot order s) :
    Fair fun t => patient (patientRun s t) t := by
  intro i t
  cases i with
  | hart1 =>
    refine ⟨2 * t + 1, by omega, ?_⟩
    simp [patient]
  | hart0 =>
    by_cases past : PastFenceDone (patientRun s (2 * t)) .hart0
    · refine ⟨2 * t, by omega, ?_⟩
      simp [patient, past]
    · -- hart 1 leaves its wait, and stays in the park loop until hart 0's next turn
      have parked : AtPark (patientRun s (2 * t + 1)) := by
        have park := (patientRun_inv boot (2 * t)).leaves past
        rwa [patientRun, patient, if_neg (fun even => past even.2)]
      have again : patientRun s (2 * t + 2) = patientRun s (2 * t + 1) := by
        rw [patientRun, patient, if_neg (by omega), parked.step_hart1]
      have later : PastFenceDone (patientRun s (2 * t + 2)) .hart0 :=
        pastFenceDone_of_parked (again ▸ parked.1)
      refine ⟨2 * t + 2, by omega, ?_⟩
      simp [patient, later]

def fieldOrder : ResetOrder where
  fields := Field.all
  complete f := by cases f <;> decide

def bootState : State HartId where
  shared := { mem := fun _ => 0, posted := [], increments := [] }
  thread i :=
    ⟨match i with | .hart0 => testMain fieldOrder loopCounts | .hart1 => [.park], fun _ => 0⟩

theorem bootState_atBoot : AtBoot fieldOrder bootState :=
  ⟨rfl, rfl, rfl⟩

/-- P4.0, P4.1A and P4.1B up to the store of `fence_done`, with a reset before each. -/
def untilPublished : List HartId :=
  List.replicate 15 HartId.hart0 ++ List.replicate 3 HartId.hart1 ++
    List.replicate 17 HartId.hart0 ++ List.replicate 5 HartId.hart0 ++
    List.replicate 6 HartId.hart1 ++ List.replicate 17 HartId.hart0 ++
    List.replicate 2 HartId.hart0 ++ List.replicate 4 HartId.hart1 ++ List.replicate 7 HartId.hart0

/-- Hart 0 goes on to the reset and comes to its store of `fence_done` before hart 1 has looked at
that field again: what the worker waits for was published, and is erased by the next step. -/
theorem reset_under_spin_wait :
    ∃ s, Reachable (AtBoot fieldOrder) (Fires (interleave (exec loopCounts))) s ∧
      (s.thread .hart0).code.head? = some (.clear .fence_done) ∧
      (s.thread .hart1).code = [.spinWait .fence_done 1, .park] ∧
      s.shared.mem .fence_done = 1 ∧
      (step (exec loopCounts) s .hart0).shared.mem .fence_done = 0 ∧
      ((step (exec loopCounts) s .hart0).thread .hart1).code =
        [.spinWait .fence_done 1, .park] := by
  have replayed : (replay (interleave (exec loopCounts)) bootState
      (untilPublished ++ List.replicate 5 .hart0)).map
      (fun s => ((s.thread .hart0).code.head?, (s.thread .hart1).code, s.shared.mem .fence_done,
        (step (exec loopCounts) s .hart0).shared.mem .fence_done,
        ((step (exec loopCounts) s .hart0).thread .hart1).code)) =
      some (some (.clear .fence_done), [.spinWait .fence_done 1, .park], 1, 0,
        [.spinWait .fence_done 1, .park]) := by
    decide +kernel
  obtain ⟨s, run, seen⟩ := Option.map_eq_some_iff.mp replayed
  simp only [Prod.mk.injEq] at seen
  exact ⟨s, (Reachable.start bootState_atBoot).replay run, seen⟩

/-- With one more look of hart 1 before the reset, and a fair run of the whole test. -/
theorem phases_do_not_bleed_patient :
    (∃ s, Reachable (AtBoot fieldOrder)
      (Guarded PastFenceDone (Fires (interleave (exec loopCounts)))) s ∧
      (s.thread .hart0).code.head? = some (.clear .core1_payload) ∧ AtPark s) ∧
    ∀ t, ∃ t', t ≤ t' ∧ ((patientRun bootState t').thread .hart1).code = [.park] := by
  constructor
  · have replayed : (replay (checked PastFenceDone (interleave (exec loopCounts))) bootState
        (untilPublished ++ [.hart1])).map (fun s => ((s.thread .hart0).code.head?,
          clears (s.thread .hart0).code, awaitsFenceDone (s.thread .hart1).code)) =
        some (some (.clear .core1_payload), true, false) := by
      decide +kernel
    obtain ⟨s, run, seen⟩ := Option.map_eq_some_iff.mp replayed
    simp only [Prod.mk.injEq] at seen
    have reached := ((Reachable.start bootState_atBoot).replay run).of_checked
    exact ⟨s, reached, seen.1,
      (phases_do_not_bleed fieldOrder).1 s reached seen.2.1 fun _ _ => seen.2.2⟩
  · exact (phases_do_not_bleed fieldOrder).2 (patientRun bootState)
      (fun t => patient (patientRun bootState t) t) bootState_atBoot
      (patientRun_guarded bootState) (patientRun_fair bootState_atBoot)

end ZephyrRiscv.P4.Phases
