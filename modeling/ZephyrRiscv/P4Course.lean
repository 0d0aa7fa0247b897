import ZephyrRiscv.P4Exchanges
import ZephyrRiscv.P4Phases

set_option autoImplicit false

namespace ZephyrRiscv.P4.Outcomes

open Transition Interleaving Phases

def putAll (mem : Mem) (setup : List (Field × BitVec 64)) : Mem :=
  setup.foldl (fun mem entry => Function.update mem entry.1 entry.2) mem

def setupCode (setup : List (Field × BitVec 64)) : List Stmt :=
  setup.map fun entry => .put entry.1 entry.2

/-- A statement that neither waits nor fails and raises neither this field nor `fence_done`. -/
def Mute (f : Field) : Stmt → Prop
  | .put g v => v = 0 ∨ g ≠ f ∧ g ≠ .fence_done
  | .amoAdd g _ => g ≠ f ∧ g ≠ .fence_done
  | .clear _ | .wake _ => True
  | _ => False

theorem all_forUpto {body : List Stmt} {p : Stmt → Bool} (n : Nat) (all : body.all p) :
    (forUpto n body).all p := by
  rw [List.all_eq_true] at all ⊢
  exact fun stmt member => all stmt (mem_forUpto member)

/-- Without a worker hart 0 comes to a wait that nothing ends. -/
def Inert (code : List Stmt) : Prop :=
  ∃ before f after, code = before ++ .spinWait f 1 :: after ∧ f ≠ .fence_done ∧
    ∀ stmt ∈ before, Mute f stmt

/-- At the end of a phase another one follows, and the worker is done but for a last look at
`fence_done` before a phase that comes to nothing without it. -/
def Ends (rest : List (List Stmt)) (Link : Part → Part → Mem → Prop) : Prop :=
  ∀ {b w mem}, Link b w mem → b.code = [] → rest ≠ [] ∧
    (w.code = [] ∨ Calm w.code mem ∧ ∃ phase later, rest = phase :: later ∧ Inert phase)

/-- From this memory the code after the wake-up and the worker's code come to no failure. -/
def Prepared (n : LoopCounts) (rest : List (List Stmt)) (b w : List Stmt) (mem : Mem) : Prop :=
  ∀ vars vars', ∃ Link, Sure n Link ∧ Link ⟨b, vars⟩ ⟨w, vars'⟩ mem ∧ Ends rest Link

/-- A statement of a phase: no store of a reset, no failure, nothing of hart 1's park loop. -/
def inPhase : Stmt → Bool
  | .clear _ | .park | .testFail _ => false
  | _ => true

inductive Chain (n : LoopCounts) : List (List Stmt) → Prop
  | nil : Chain n []
  | cons (setup : List (Field × BitVec 64)) (job : Worker) (b : List Stmt) {phase : List Stmt}
      {rest : List (List Stmt)} (split : phase = setupCode setup ++ .wake job :: b)
      (work : job.code n ≠ []) (inside : b.all inPhase)
      (prepared : Prepared n rest b (job.code n) (putAll (fun _ => 0) setup))
      (chain : Chain n rest) : Chain n (phase :: rest)

theorem Computes.prepared {n : LoopCounts} {f g : Field} {v : BitVec 64}
    {During : Part → Part → Mem → Prop} (computes : Computes n f g v During) (k : Nat)
    {phase : List Stmt} {later : List (List Stmt)} {c w : List Stmt} {mem : Mem}
    (during : ∀ vars vars', During ⟨c, vars⟩ ⟨w, vars'⟩ mem) (work : w ≠ [])
    (down : mem f = 0) :
    Prepared n (phase :: later) (c ++ .spinWait f 1 :: check g v k) w mem := by
  intro vars vars'
  refine ⟨_, computes.sure k, .during (c := ⟨c, vars⟩) (during vars vars') ?_, ?_⟩
  · rw [down, if_neg work]
  · intro b w mem link finished
    refine ⟨List.cons_ne_nil _ _, .inl ?_⟩
    cases link with
    | @during c => simp at finished
    | reading done => exact done
    | judging done => exact done
    | judged done => exact done

theorem phase2_inert (n : Nat) : Inert (phase2 n) := by
  refine ⟨[.put .shared_counter 0, .put .core1_atomic_done 0, .wake .atomicIncrementer] ++
    forUpto n [.amoAdd .shared_counter 1], .core1_atomic_done, _, rfl, by decide, ?_⟩
  intro stmt member
  rcases List.mem_append.mp member with early | later
  · simp only [List.mem_cons, List.not_mem_nil, or_false] at early
    rcases early with rfl | rfl | rfl
    · exact .inl rfl
    · exact .inl rfl
    · trivial
  · rw [List.mem_singleton.mp (mem_forUpto later)]
    exact ⟨by decide, by decide⟩

section Phases

variable (n : LoopCounts)

theorem chain4 (rounds : n.pingPong ≠ 0) : Chain n [phase4 n.pingPong] := by
  obtain ⟨k, more⟩ := Nat.exists_eq_succ_of_ne_zero rounds
  refine .cons [] .ping (pingPongMain n.pingPong) rfl ?_ ?_ ?_ .nil
  · simp [Worker.code, ping, more, turnRound]
  · simp [pingPongMain, all_forUpto, turnRound, inPhase]
  · intro vars vars'
    have turned : PingPong.Turned (putAll (fun _ => 0) []) (fun _ => .waiting n.pingPong) .hart0 :=
      ⟨rfl, by simp [PingPong.Place.inside], rfl⟩
    refine ⟨_, sure4 n n.pingPong, .playing ?_ ?_ turned ?_, ?_⟩
    · simp [PingPong.Place.code, PingPong.turnOf, HartId.other, pingPongMain, PingPong.lastWait]
    · simp [PingPong.Place.code, PingPong.turnOf, HartId.other, Worker.code, ping]
    · exact ⟨fun _ _ loaded => (by cases loaded),
        by simp [putAll, PingPong.Place.unstored, Nat.mul_two]⟩
    · intro b w mem link finished
      cases link with
      | @playing _ _ _ place _ own =>
        rw [finished] at own
        cases there : place .hart0 <;>
          simp [there, PingPong.Place.code, PingPong.lastWait] at own
      | reading => cases finished
      | judging => cases finished
      | passed => cases finished

theorem chain3 {phase : List Stmt} {later : List (List Stmt)} (chain : Chain n (phase :: later)) :
    Chain n (phase3 n.spinlock :: phase :: later) := by
  refine .cons [(.lock, 0), (.shared_var, 0), (.core1_lock_done, 0)] .spinlockWorker
    (forUpto n.spinlock spinlockRound ++
      .spinWait .core1_lock_done 1 :: check .shared_var (BitVec.ofNat 64 (n.spinlock * 2)) 781)
    ?_ ?_ ?_ ?_ chain
  · simp [phase3, setupCode, check]
  · simp [Worker.code, spinlockWorker]
  · simp [all_forUpto, spinlockRound, check, inPhase]
  · refine (computes3 n n.spinlock).prepared 781 (fun vars vars' => ?_) ?_ ?_
    · refine ⟨fun _ => .outside n.spinlock, by simp [Spinlock.Place.code], .inl rfl, ?_, ?_⟩
      · have free : putAll (fun _ => 0) [(.lock, 0), (.shared_var, 0), (.core1_lock_done, 0)]
            .lock = 0 := by
          simp [putAll]
        refine ⟨.inl free, ?_, by simp [Spinlock.Place.inside]⟩
        simp only [free, Spinlock.Place.inside]
        simp
      · intro m same
        refine ⟨fun _ loaded => loaded.elim, ?_⟩
        rw [same]
        simp [putAll, Spinlock.Place.unstored]
    · simp [Worker.code, spinlockWorker]
    · simp [putAll]

theorem chain2 {phase : List Stmt} {later : List (List Stmt)} (chain : Chain n (phase :: later)) :
    Chain n (phase2 n.atomic :: phase :: later) := by
  refine .cons [(.shared_counter, 0), (.core1_atomic_done, 0)] .atomicIncrementer
    (forUpto n.atomic [.amoAdd .shared_counter 1] ++
      .spinWait .core1_atomic_done 1 ::
        check .shared_counter (BitVec.ofNat 64 (n.atomic * 2)) 771) ?_ ?_ ?_ ?_ chain
  · simp [phase2, setupCode, check]
  · simp [Worker.code, atomicIncrementer]
  · simp [all_forUpto, check, inPhase]
  · refine (computes2 n n.atomic).prepared 771 (fun vars vars' => ?_) ?_ ?_
    · exact ⟨n.atomic, n.atomic, rfl, .inl rfl, by simp [putAll, Nat.mul_two]⟩
    · simp [Worker.code, atomicIncrementer]
    · simp [putAll]

/-- Behind P4.1B comes a phase in which hart 0 needs hart 1. -/
theorem chain1B {phase : List Stmt} {later : List (List Stmt)} (inert : Inert phase)
    (chain : Chain n (phase :: later)) : Chain n (phase1B :: phase :: later) := by
  refine .cons [(.fence_expected, CORE1_MAGIC_NUMBER)] .fenceProducer (phase1B.drop 2)
    rfl ?_ (by decide) ?_ chain
  · simp [Worker.code, fenceProducer]
  · intro vars vars'
    refine ⟨_, sure1B n, ⟨0, 0, ?_⟩, ?_⟩
    · constructor
      all_goals first | rfl | omega
    · rintro b w mem ⟨p, q, producing⟩ finished
      refine ⟨List.cons_ne_nil _ _, .inr ⟨producing.ends finished, _, _, rfl, inert⟩⟩

theorem chain1A {phase : List Stmt} {later : List (List Stmt)} (chain : Chain n (phase :: later)) :
    Chain n (phase1A :: phase :: later) := by
  refine .cons [(.fence_expected, CORE1_MAGIC_NUMBER)] .fenceConsumer
    ([.load .fst .fence_expected, .putTemp .fence_payload .fst, .put .fence_flag 1] ++
      .spinWait .fence_done 1 :: check .fence_ok 1 761) rfl ?_ (by decide) ?_ chain
  · simp [Worker.code, fenceConsumer]
  · refine (computes1A n).prepared 761 (fun vars vars' => ⟨0, 0, ?_⟩) ?_ ?_
    · constructor
      all_goals first | rfl | omega
    · simp [Worker.code, fenceConsumer]
    · rfl

theorem chain0 {phase : List Stmt} {later : List (List Stmt)} (chain : Chain n (phase :: later)) :
    Chain n (phase0 :: phase :: later) := by
  refine .cons [] .magicWriter
    ([] ++ .spinWait .core1_wrote_payload 1 ::
      check .core1_payload CORE1_MAGIC_NUMBER 760) rfl ?_ (by decide) ?_ chain
  · simp [Worker.code, magicWriter]
  · refine (computes0 n).prepared 760 (fun vars vars' => ?_) ?_ rfl
    · exact ⟨rfl, List.suffix_rfl, fun begun => absurd rfl begun⟩
    · simp [Worker.code, magicWriter]

theorem phases_chain (rounds : n.pingPong ≠ 0) : Chain n (phases n) :=
  chain0 n (chain1A n (chain1B n (phase2_inert _) (chain2 n (chain3 n (chain4 n rounds)))))

end Phases

theorem Goes.holds {n : LoopCounts} {i : HartId} {r : Temp} {v : BitVec 64} {k : Nat}
    {code : List Stmt} {vars : Vars} {m : Shared HartId} {P : Part → Mem → Prop}
    (goes : Goes n i (.assertEq r v k) code vars m P) : vars r = v := by
  obtain ⟨m', code', vars', runs, -⟩ := goes
  by_contra fails
  have none := runs []
  have one := runs [.park]
  simp only [exec, if_neg fails, Prod.mk.injEq, Thread.mk.injEq] at none one
  have longer := congrArg List.length (none.2.1.symm.trans one.2.1)
  simp at longer

theorem exec_inPhase (n : LoopCounts) (i : HartId) {stmt : Stmt} {code : List Stmt} {vars : Vars}
    {m : Shared HartId} (inside : (stmt :: code).all inPhase)
    (holds : ∀ r v k, stmt = .assertEq r v k → vars r = v) :
    (exec n i stmt code vars m).2.code.all inPhase := by
  have later : code.all inPhase := by
    rw [List.all_cons, Bool.and_eq_true] at inside
    exact inside.2
  cases stmt with
  | spinWait f v =>
    simp only [exec]
    split
    · exact later
    · exact inside
  | spinZero f =>
    simp only [exec]
    split
    · exact inside
    · exact later
  | acquire f =>
    simp only [exec]
    split
    · exact later
    · exact inside
  | delay j => cases j with
    | zero => exact later
    | succ j => exact inside
  | assertEq r v k =>
    simp only [exec, if_pos (holds r v k rfl)]
    exact later
  | testPass => exact inside
  | clear f => simp [inPhase] at inside
  | park => simp [inPhase] at inside
  | testFail k => simp [inPhase] at inside
  | _ => exact later

section Course

variable (order : ResetOrder) (n : LoopCounts)

/-- The part left to hart 0, the part left to the worker, and `g_p4`. -/
inductive Course : Part → Part → Mem → Prop
  | clearing {fields : List Field} {phase : List Stmt} {rest : List (List Stmt)} {vars : Vars}
      {w : Part} {mem : Mem} (chain : Chain n (phase :: rest)) (finished : w.code = [])
      (cleared : ∀ f, mem f = 0 ∨ f ∈ fields) :
      Course ⟨fields.map .clear ++ (phase ++ following order rest), vars⟩ w mem
  | setting {setup : List (Field × BitVec 64)} {job : Worker} {b : List Stmt}
      {rest : List (List Stmt)} {vars : Vars} {w : Part} {mem : Mem} (work : job.code n ≠ [])
      (inside : b.all inPhase) (prepared : Prepared n rest b (job.code n) (putAll mem setup))
      (chain : Chain n rest) (finished : w.code = []) :
      Course ⟨setupCode setup ++ .wake job :: b ++ following order rest, vars⟩ w mem
  | running {Link : Part → Part → Mem → Prop} {b w : Part} {rest : List (List Stmt)} {mem : Mem}
      (sure : Sure n Link) (link : Link b w mem) (ends : Ends rest Link)
      (inside : b.code.all inPhase) (chain : Chain n rest) :
      Course ⟨b.code ++ following order rest, b.vars⟩ w mem
  | erasing {fields : List Field} {phase : List Stmt} {rest : List (List Stmt)} {vars : Vars}
      {w : Part} {mem : Mem} (chain : Chain n (phase :: rest)) (inert : Inert phase)
      (cleared : ∀ f, mem f = 0 ∨ f ∈ fields) (last : w.code = [.spinWait .fence_done 1])
      (up : mem .fence_done = 1) :
      Course ⟨fields.map .clear ++ (phase ++ following order rest), vars⟩ w mem

/-- Hart 0 comes to a wait that only a worker could end, and `fence_done` stays down. -/
def Lost (b : Part) (mem : Mem) : Prop :=
  ∃ before f after, b.code = before ++ .spinWait f 1 :: after ∧ (∀ stmt ∈ before, Mute f stmt) ∧
    f ≠ .fence_done ∧ mem .fence_done = 0 ∧ (mem f = 0 ∨ .clear f ∈ before)

/-- What a step of hart 0 leaves: the worker as it was, a job for it, or the worker in a wait that
nothing ends. -/
inductive Follows (posted : List Worker) (stmt : Stmt) (w : Part) (m : Shared HartId) (b : Part) :
    Prop
  | on (keeps : stmt = .clear .fence_done → w.code ≠ [.spinWait .fence_done 1])
      (same : m.posted = posted) (course : Course order n b w m.mem)
  | wakes {job : Worker} (finished : w.code = []) (work : job.code n ≠ [])
      (posts : m.posted = posted ++ [job])
      (course : ∀ vars, Course order n b ⟨job.code n, vars⟩ m.mem)
  | erases (first : stmt = .clear .fence_done) (last : w.code = [.spinWait .fence_done 1])
      (lost : Lost b m.mem)

end Course

variable {order : ResetOrder} {n : LoopCounts}

theorem cleared_write {fields : List Field} {m : Shared HartId} {f : Field}
    (cleared : ∀ g, m.mem g = 0 ∨ g ∈ f :: fields) (g : Field) :
    (m.write f 0).mem g = 0 ∨ g ∈ fields := by
  by_cases same : g = f
  · subst same
    exact .inl (by simp)
  · rcases cleared g with zero | later
    · exact .inl (by simpa [same] using zero)
    · exact .inr ((List.mem_cons.mp later).resolve_left same)

theorem setting_follows {setup : List (Field × BitVec 64)} {job : Worker} {b : List Stmt}
    {rest : List (List Stmt)} {m : Shared HartId} {stmt : Stmt} {code : List Stmt} {w : Part}
    (work : job.code n ≠ []) (inside : b.all inPhase)
    (prepared : Prepared n rest b (job.code n) (putAll m.mem setup)) (chain : Chain n rest)
    (finished : w.code = [])
    (whole : stmt :: code = setupCode setup ++ .wake job :: b ++ following order rest)
    (vars : Vars) :
    ∃ m' b', exec n .hart0 stmt code vars m = (m', b') ∧
      Follows order n m.posted stmt w m' b' := by
  cases setup with
  | nil =>
    cases whole
    refine ⟨_, _, rfl, .wakes finished work rfl fun vars' => ?_⟩
    obtain ⟨Link, sure, link, ends⟩ := prepared vars vars'
    exact .running (b := ⟨b, vars⟩) sure link ends inside chain
  | cons entry setup =>
    cases whole
    exact ⟨_, _, rfl, .on nofun rfl (.setting work inside prepared chain finished)⟩

/-- The first store of a reset under the worker's last wait. -/
theorem erasing_follows {fields : List Field} {phase : List Stmt} {rest : List (List Stmt)}
    {f : Field} {w : Part} {m : Shared HartId} (chain : Chain n (phase :: rest))
    (inert : Inert phase) (cleared : ∀ g, m.mem g = 0 ∨ g ∈ f :: fields)
    (last : w.code = [.spinWait .fence_done 1]) (up : m.mem .fence_done = 1) (vars : Vars) :
    Follows order n m.posted (.clear f) w (m.write f 0)
      ⟨fields.map .clear ++ (phase ++ following order rest), vars⟩ := by
  have now := cleared_write cleared
  by_cases same : f = .fence_done
  · subst same
    obtain ⟨before, g, after, rfl, other, mute⟩ := inert
    refine .erases rfl last ⟨fields.map .clear ++ before, g, after ++ following order rest, ?_, ?_,
      other, by simp, ?_⟩
    · simp
    · intro stmt member
      rcases List.mem_append.mp member with clear | later
      · obtain ⟨f, -, rfl⟩ := List.mem_map.mp clear
        trivial
      · exact mute stmt later
    · rcases now g with zero | later
      · exact .inl zero
      · exact .inr (List.mem_append_left _ (List.mem_map_of_mem later))
  · refine .on (fun clear => absurd (Stmt.clear.inj clear) same) rfl
      (.erasing chain inert now last ?_)
    rw [write_mem, Function.update_of_ne (Ne.symm same)]
    exact up

theorem Course.hart0 {stmt : Stmt} {code : List Stmt} {vars : Vars} {w : Part} {m : Shared HartId}
    (course : Course order n ⟨stmt :: code, vars⟩ w m.mem) :
    ∃ m' b', exec n .hart0 stmt code vars m = (m', b') ∧
      Follows order n m.posted stmt w m' b' := by
  generalize whole : (⟨stmt :: code, vars⟩ : Part) = b at course
  cases course with
  | @clearing fields phase rest _ _ _ chain finished cleared =>
    cases fields with
    | nil =>
      cases chain with
      | cons _ _ _ split work inside prepared chain =>
        have zero : m.mem = fun _ => 0 := funext fun g => (cleared g).resolve_right (by simp)
        rw [← zero] at prepared
        refine setting_follows work inside prepared chain finished ?_ vars
        have codes := congrArg Thread.code whole
        simpa [split] using codes
    | cons f fields =>
      cases whole
      refine ⟨_, _, rfl, .on (fun _ last => ?_) rfl
        (.clearing chain finished (cleared_write cleared))⟩
      cases finished.symm.trans last
  | setting work inside prepared chain finished =>
    exact setting_follows work inside prepared chain finished (congrArg Thread.code whole) vars
  | @running Link b _ rest _ sure link ends inside chain =>
    obtain ⟨left, vars'⟩ := b
    cases left with
    | nil =>
      obtain ⟨f, fields, phase, rest', rfl, all, rfl, rfl⟩ :=
        following_cons (congrArg Thread.code whole).symm
      have cleared (g : Field) : m.mem g = 0 ∨ g ∈ f :: fields := .inr (all ▸ order.complete g)
      obtain ⟨-, finished | ⟨calm, _, _, same, inert⟩⟩ := ends link rfl
      · refine ⟨_, _, rfl, .on (fun _ last => ?_) rfl
          (.clearing chain finished (cleared_write cleared))⟩
        cases finished.symm.trans last
      · cases same
        rcases calm with finished | ⟨last, up⟩
        · refine ⟨_, _, rfl, .on (fun _ last => ?_) rfl
            (.clearing chain finished (cleared_write cleared))⟩
          cases finished.symm.trans last
        · exact ⟨_, _, rfl, erasing_follows chain inert cleared last up vars⟩
    | cons stmt left =>
      cases whole
      obtain ⟨m', left', vars'', runs, posted, next⟩ := sure.hart0 link
      have holds (r : Temp) (v : BitVec 64) (k : Nat) (assert : stmt = .assertEq r v k) :
          vars' r = v := by
        subst assert
        exact (sure.hart0 link).holds
      have inside' := exec_inPhase n .hart0 (m := m) inside holds
      have alone := runs []
      rw [List.append_nil, List.append_nil] at alone
      rw [alone] at inside'
      refine ⟨m', _, runs _, .on ?_ posted
        (.running (b := ⟨left', vars''⟩) sure next ends inside' chain)⟩
      rintro rfl
      simp [inPhase] at inside
  | @erasing fields phase rest _ _ _ chain inert cleared last up =>
    cases fields with
    | nil =>
      have down := (cleared .fence_done).resolve_right (by simp)
      rw [up] at down
      cases down
    | cons f fields =>
      cases whole
      exact ⟨_, _, rfl, erasing_follows chain inert cleared last up vars⟩

theorem Course.hart1 {stmt : Stmt} {code : List Stmt} {vars : Vars} {b : Part} {m : Shared HartId}
    (course : Course order n b ⟨stmt :: code, vars⟩ m.mem) :
    Goes n .hart1 stmt code vars m fun w mem => Course order n b w mem := by
  generalize whole : (⟨stmt :: code, vars⟩ : Part) = w at course
  cases course with
  | clearing chain finished cleared =>
    subst whole
    cases finished
  | setting work inside prepared chain finished =>
    subst whole
    cases finished
  | running sure link ends inside chain =>
    subst whole
    obtain ⟨m', code', vars', runs, posted, next⟩ := sure.hart1 link
    exact ⟨m', code', vars', runs, posted, .running sure next ends inside chain⟩
  | erasing chain inert cleared last up =>
    subst whole
    cases last
    refine ⟨m, [], vars, fun rest => ?_, rfl, .clearing chain rfl cleared⟩
    simp only [exec, if_pos up, List.nil_append]

/-- Hart 0 stores to `fence_done` in a reset while hart 1 is in its last wait for that field. -/
def Erases (s : State HartId) (i : HartId) : Prop :=
  i = .hart0 ∧ (s.thread .hart0).code.head? = some (.clear .fence_done) ∧
    (s.thread .hart1).code = [.spinWait .fence_done 1, .park]

def Kept (order : ResetOrder) (n : LoopCounts) (s : State HartId) : Prop :=
  ∃ w : Part, w.vars = (s.thread .hart1).vars ∧
    Pending n s.shared.posted (s.thread .hart1).code w.code ∧
    Course order n (s.thread .hart0) w s.shared.mem

structure LeftBehind (s : State HartId) : Prop where
  waits : (s.thread .hart1).code = [.spinWait .fence_done 1, .park]
  lost : Lost (s.thread .hart0) s.shared.mem

variable {s : State HartId}

theorem Pending.awaits {posted : List Worker} {code w : List Stmt}
    (pending : Pending n posted code w) :
    code = [.spinWait .fence_done 1, .park] ↔ w = [.spinWait .fence_done 1] := by
  cases pending with
  | posted waiting work parked =>
    simp only [parked, List.cons.injEq, reduceCtorEq, false_and, false_iff]
    exact code_ne_fence_done n _
  | working taken begun =>
    rw [begun]
    show w ++ [.park] = [.spinWait .fence_done 1] ++ [.park] ↔ _
    exact List.append_left_inj _

theorem Kept.hart0 (kept : Kept order n s) :
    (¬ Erases s .hart0 → Kept order n (step (exec n) s .hart0)) ∧
    (Erases s .hart0 → LeftBehind (step (exec n) s .hart0)) := by
  obtain ⟨w, vars, pending, course⟩ := kept
  cases here : (s.thread .hart0).code with
  | nil =>
    rw [step_nil here]
    refine ⟨fun _ => ⟨w, vars, pending, course⟩, ?_⟩
    rintro ⟨-, head, -⟩
    rw [here] at head
    cases head
  | cons stmt code =>
    have thread : s.thread .hart0 = ⟨stmt :: code, (s.thread .hart0).vars⟩ := by rw [← here]
    rw [thread] at course
    obtain ⟨m', b', runs, follows⟩ := course.hart0
    have erases : Erases s .hart0 ↔
        stmt = .clear .fence_done ∧ w.code = [.spinWait .fence_done 1] := by
      rw [Erases, here, Pending.awaits pending]
      simp
    rw [erases, step_cons here, runs]
    cases follows with
    | on keeps same course =>
      refine ⟨fun _ => ⟨w, vars, ?_, by simpa using course⟩, ?_⟩
      · rw [same]
        exact pending
      · rintro ⟨first, last⟩
        exact absurd last (keeps first)
    | @wakes job finished work posts course =>
      rw [finished] at pending
      obtain ⟨parked, nothing⟩ := pending.parked
      refine ⟨fun _ => ⟨⟨job.code n, (s.thread .hart1).vars⟩, rfl, .posted ?_ work parked, ?_⟩, ?_⟩
      · rw [posts, nothing, List.nil_append]
      · simpa using course (s.thread .hart1).vars
      · rintro ⟨-, last⟩
        cases finished.symm.trans last
    | erases first last lost =>
      refine ⟨fun keeps => absurd ⟨first, last⟩ keeps, fun _ => ⟨?_, by simpa using lost⟩⟩
      exact (Pending.awaits pending).mpr last

theorem Kept.hart1 (kept : Kept order n s) : Kept order n (step (exec n) s .hart1) := by
  obtain ⟨w, vars, pending, course⟩ := kept
  obtain ⟨left, vars'⟩ := w
  cases vars
  cases pending with
  | @posted job waiting work parked =>
    rw [step_cons parked]
    refine ⟨⟨job.code n, (s.thread .hart1).vars⟩, ?_, ?_, ?_⟩
    · simp [exec, waiting]
    · simp only [exec, waiting, Function.update_self]
      exact .working rfl rfl
    · simp only [exec, waiting, Function.update_of_ne (show HartId.hart0 ≠ .hart1 by decide)]
      exact course
  | working taken begun =>
    cases left with
    | nil =>
      rw [step_waits begun (by simp only [exec, taken])]
      exact ⟨⟨[], _⟩, rfl, .working taken begun, course⟩
    | cons stmt left =>
      obtain ⟨m', left', vars', runs, posted, next⟩ := course.hart1
      rw [step_cons begun]
      refine ⟨⟨left', vars'⟩, ?_, .working ?_ ?_, ?_⟩
      · simp [runs]
      · simp only [List.append_eq, runs]
        exact posted.trans taken
      · simp [runs]
      · simpa [runs] using next

theorem Kept.next (kept : Kept order n s) (i : HartId) :
    (¬ Erases s i → Kept order n (step (exec n) s i)) ∧
    (Erases s i → LeftBehind (step (exec n) s i)) := by
  cases i with
  | hart0 => exact kept.hart0
  | hart1 => exact ⟨fun _ => kept.hart1, fun erases => nomatch erases.1⟩

/-- A mute statement sets the field at most to 0, and so does it with `fence_done`. -/
theorem Mute.exec {f : Field} {stmt : Stmt} (mute : Mute f stmt) (code : List Stmt) (vars : Vars)
    (m : Shared HartId) :
    ∃ m', exec n .hart0 stmt code vars m = (m', ⟨code, vars⟩) ∧
      (m'.mem f = 0 ∨ m'.mem f = m.mem f ∧ stmt ≠ .clear f) ∧
      (m'.mem .fence_done = 0 ∨ m'.mem .fence_done = m.mem .fence_done) := by
  refine ⟨(P4.exec n .hart0 stmt code vars m).1, ?_⟩
  cases stmt with
  | put g v =>
    refine ⟨rfl, ?_⟩
    rcases mute with rfl | ⟨other, down⟩
    · simp only [P4.exec, write_mem, Function.update_apply]
      grind
    · simp [P4.exec, Function.update_of_ne (Ne.symm other), Function.update_of_ne (Ne.symm down)]
  | amoAdd g v =>
    obtain ⟨other, down⟩ := mute
    refine ⟨rfl, ?_⟩
    simp [P4.exec, Function.update_of_ne (Ne.symm other), Function.update_of_ne (Ne.symm down)]
  | clear g =>
    refine ⟨rfl, ?_⟩
    simp only [P4.exec, write_mem, Function.update_apply]
    grind
  | wake job => exact ⟨rfl, .inr ⟨rfl, by simp⟩, .inr rfl⟩
  | _ => exact mute.elim

theorem Lost.exec {stmt : Stmt} {code : List Stmt} {vars : Vars} {m : Shared HartId}
    (lost : Lost ⟨stmt :: code, vars⟩ m.mem) :
    ∃ m' b', exec n .hart0 stmt code vars m = (m', b') ∧ Lost b' m'.mem := by
  obtain ⟨before, f, after, whole, mute, other, down, unset⟩ := lost
  cases before with
  | nil =>
    cases whole
    have waits : m.mem f ≠ 1 := by
      rw [unset.resolve_right (by simp)]
      decide
    refine ⟨m, ⟨.spinWait f 1 :: code, vars⟩, ?_, [], f, code, rfl, mute, other, down, unset⟩
    simp only [P4.exec, if_neg waits]
  | cons first before =>
    cases whole
    obtain ⟨m', runs, field, done⟩ :=
      (mute stmt List.mem_cons_self).exec (n := n) (before ++ .spinWait f 1 :: after) vars m
    refine ⟨m', _, runs, before, f, after, rfl, ?_, other, ?_, ?_⟩
    · exact fun stmt' member => mute stmt' (List.mem_cons_of_mem _ member)
    · exact done.elim id fun same => same.trans down
    · rcases field with zero | ⟨same, keeps⟩
      · exact .inl zero
      · exact unset.imp same.trans fun member => (List.mem_cons.mp member).resolve_left keeps.symm

theorem LeftBehind.next (behind : LeftBehind s) (i : HartId) :
    LeftBehind (step (exec n) s i) := by
  obtain ⟨waits, lost⟩ := behind
  cases i with
  | hart0 =>
    cases here : (s.thread .hart0).code with
    | nil =>
      rw [step_nil here]
      exact ⟨waits, lost⟩
    | cons stmt code =>
      have thread : s.thread .hart0 = ⟨stmt :: code, (s.thread .hart0).vars⟩ := by rw [← here]
      rw [thread] at lost
      obtain ⟨m', b', runs, lost⟩ := lost.exec (n := n)
      rw [step_cons here, runs]
      exact ⟨waits, by simpa using lost⟩
  | hart1 =>
    have down : s.shared.mem .fence_done ≠ 1 := by
      obtain ⟨-, -, -, -, -, -, down, -⟩ := lost
      rw [down]
      decide
    rw [step_waits waits (by simp only [exec, if_neg down])]
    exact ⟨waits, lost⟩

theorem kept_of_atBoot (boot : AtBoot order s) : Kept order loopCounts s := by
  have sure : Sure loopCounts fun b w _ => b.code = [] ∧ w.code = [] := by
    constructor
    · rintro stmt code vars w m ⟨nothing, -⟩
      cases nothing
    · rintro stmt code vars w m ⟨-, nothing⟩
      cases nothing
    · exact fun link => .inr (.inr ⟨link.2, .inl link.1⟩)
  refine ⟨⟨[], _⟩, rfl, .working boot.posted boot.hart1, ?_⟩
  have thread : s.thread .hart0 =
      ⟨[] ++ following order (phases loopCounts), (s.thread .hart0).vars⟩ := by
    rw [List.nil_append, following, ← testMain, ← boot.hart0]
  rw [thread]
  exact .running (b := ⟨[], _⟩) sure ⟨rfl, rfl⟩ (fun link _ => ⟨by simp [phases], .inl link.2⟩) rfl
    (phases_chain loopCounts (by decide))

theorem no_testFail_inPhase {b : List Stmt} (inside : b.all inPhase) (k : Nat) :
    .testFail k ∉ b := by
  intro member
  have fails := List.all_eq_true.mp inside _ member
  cases fails

theorem no_testFail_cleared {fields : List Field} {k : Nat} :
    .testFail k ∉ fields.map Stmt.clear := by
  intro member
  obtain ⟨f, -, clear⟩ := List.mem_map.mp member
  cases clear

theorem no_testFail_phase {setup : List (Field × BitVec 64)} {job : Worker} {b : List Stmt}
    (inside : b.all inPhase) (k : Nat) : .testFail k ∉ setupCode setup ++ .wake job :: b := by
  intro member
  rcases List.mem_append.mp member with early | later
  · obtain ⟨entry, -, put⟩ := List.mem_map.mp early
    cases put
  · exact no_testFail_inPhase inside k ((List.mem_cons.mp later).resolve_left nofun)

/-- What is still to come of the test holds no failure. -/
theorem Chain.no_testFail {rest : List (List Stmt)} (chain : Chain n rest) (k : Nat) :
    .testFail k ∉ following order rest := by
  induction chain with
  | nil => exact List.not_mem_nil
  | cons _ _ _ split work inside prepared chain ih =>
    simp only [following, List.flatMap_cons, List.mem_append, not_or]
    exact ⟨⟨no_testFail_cleared, split ▸ no_testFail_phase inside k⟩, ih⟩

theorem Chain.no_testFail_reset {phase : List Stmt} {rest : List (List Stmt)}
    (chain : Chain n (phase :: rest)) (fields : List Field) (k : Nat) :
    .testFail k ∉ fields.map .clear ++ (phase ++ following order rest) := by
  have later : .testFail k ∉ following order (phase :: rest) := chain.no_testFail k
  simp only [following, List.flatMap_cons, List.mem_append, not_or] at later ⊢
  exact ⟨no_testFail_cleared, later.1.2, later.2⟩

theorem Course.no_testFail {b w : Part} {mem : Mem} (course : Course order n b w mem) (k : Nat) :
    .testFail k ∉ b.code := by
  cases course with
  | clearing chain finished cleared => exact chain.no_testFail_reset _ k
  | setting work inside prepared chain finished =>
    rw [List.mem_append, not_or]
    exact ⟨no_testFail_phase inside k, chain.no_testFail k⟩
  | running sure link ends inside chain =>
    rw [List.mem_append, not_or]
    exact ⟨no_testFail_inPhase inside k, chain.no_testFail k⟩
  | erasing chain inert cleared last up => exact chain.no_testFail_reset _ k

/-- Hart 0 is at its `test_fail` with some code. -/
def Failed (s : State HartId) : Prop :=
  ∃ k, (s.thread .hart0).code.head? = some (.testFail k)

theorem Kept.not_failed (kept : Kept order n s) : ¬ Failed s := by
  rintro ⟨k, head⟩
  obtain ⟨w, -, -, course⟩ := kept
  exact course.no_testFail k (List.mem_of_mem_head? head)

theorem LeftBehind.not_failed (behind : LeftBehind s) : ¬ Failed s := by
  rintro ⟨k, head⟩
  obtain ⟨before, f, after, whole, mute, -⟩ := behind.lost
  rw [whole] at head
  cases before with
  | nil => cases head
  | cons stmt before =>
    cases head
    exact mute _ List.mem_cons_self

theorem reached_kept
    (reached : Reachable (AtBoot order) (Fires (interleave (exec loopCounts))) s) :
    Kept order loopCounts s ∨ LeftBehind s := by
  apply reached.invariant (fun _ boot => .inl (kept_of_atBoot boot))
  intro s i s' known fired
  cases fired
  rcases known with kept | behind
  · by_cases erases : Erases s i
    · exact .inr ((kept.next i).2 erases)
    · exact .inl ((kept.next i).1 erases)
  · exact .inr (behind.next i)

/-- No interleaving of the two harts makes an assertion of `test_main` fail. -/
theorem test_main_never_fails (order : ResetOrder) :
    ∀ s, Reachable (AtBoot order) (Fires (interleave (exec loopCounts))) s → ¬ Failed s := by
  intro s reached
  rcases reached_kept reached with kept | behind
  · exact kept.not_failed
  · exact behind.not_failed

/-- Where hart 1 has been left behind in its last wait. -/
theorem test_main_never_fails_left_behind :
    ∃ s, Reachable (AtBoot fieldOrder) (Fires (interleave (exec loopCounts))) s ∧
      (s.thread .hart1).code = [.spinWait .fence_done 1, .park] ∧
      s.shared.mem .fence_done = 0 ∧ ¬ Failed s := by
  have replayed : (replay (interleave (exec loopCounts)) bootState
      (untilPublished ++ List.replicate 6 .hart0)).map
      (fun s => ((s.thread .hart1).code, s.shared.mem .fence_done)) =
      some ([.spinWait .fence_done 1, .park], 0) := by
    decide +kernel
  obtain ⟨s, run, seen⟩ := Option.map_eq_some_iff.mp replayed
  simp only [Prod.mk.injEq] at seen
  have reached : Reachable (AtBoot fieldOrder) (Fires (interleave (exec loopCounts))) s :=
    (Reachable.start bootState_atBoot).replay run
  exact ⟨s, reached, seen.1, seen.2, test_main_never_fails fieldOrder s reached⟩

end ZephyrRiscv.P4.Outcomes
