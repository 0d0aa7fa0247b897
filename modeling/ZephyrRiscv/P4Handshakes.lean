import ZephyrRiscv.Spinlock
import ZephyrRiscv.PingPong

set_option autoImplicit false

namespace ZephyrRiscv.P4.Phases

open Transition Interleaving

abbrev Mem := Field → BitVec 64

/-- A statement that would leave the state as it is. -/
def Blocked (mem : Mem) : Stmt → Prop
  | .spinWait f v => mem f ≠ v
  | .spinZero f => mem f = 0
  | .acquire f => mem f ≠ 0
  | .park | .testFail _ | .testPass => True
  | _ => False

/-- The next statement of this code changes the state. -/
def Moves (mem : Mem) (code : List Stmt) : Prop :=
  ∃ stmt rest, code = stmt :: rest ∧ ¬ Blocked mem stmt

/-- Not part of a reset, and a lock word is 0 or 1 when a hart swaps it. -/
def Plain (mem : Mem) : Stmt → Prop
  | .clear _ => False
  | .acquire f => mem f = 0 ∨ mem f = 1
  | _ => True

/-- Hart 1 has finished its worker, or its last wait is over as soon as it looks again. -/
def Calm (w : List Stmt) (mem : Mem) : Prop :=
  w = [] ∨ w = [.spinWait .fence_done 1] ∧ mem .fence_done = 1

/-- What relates the code left to hart 0 in a phase, the code left to the worker and `g_p4`:
it is kept by both harts, it lets one of them go on, and at the end of the phase the worker
awaits nothing more. -/
structure Linked (n : LoopCounts) (Link : List Stmt → List Stmt → Mem → Prop) : Prop where
  hart0 : ∀ {stmt b w} {m : Shared HartId}, Link (stmt :: b) w m.mem → ∀ (vars : Vars) rest,
    ∃ m' code vars', exec n .hart0 stmt (b ++ rest) vars m = (m', ⟨code, vars'⟩) ∧
      m'.posted = m.posted ∧
      ((∃ b', code = b' ++ rest ∧ Link b' w m'.mem) ∨ (∃ c, code = [.testFail c]) ∧ Calm w m'.mem)
  hart1 : ∀ {stmt b w} {m : Shared HartId}, Link b (stmt :: w) m.mem → ∀ (vars : Vars) rest,
    ∃ m' w' vars', exec n .hart1 stmt (w ++ rest) vars m = (m', ⟨w' ++ rest, vars'⟩) ∧
      m'.posted = m.posted ∧ Link b w' m'.mem
  ends : ∀ {w mem}, Link [] w mem → Calm w mem
  live : ∀ {b w mem}, Link b w mem → w ≠ [] → Moves mem b ∨ Moves mem w
  plain : ∀ {b w mem stmt rest}, Link b w mem → b = stmt :: rest ∨ w = stmt :: rest →
    Plain mem stmt

/-- The end of a phase: hart 0 looks at the outcome. -/
def check (f : Field) (v : BitVec 64) (c : Nat) : List Stmt :=
  [.load .fst f, .assertEq .fst v c]

theorem check_runs {n : LoopCounts} {f : Field} {v : BitVec 64} {c : Nat} {stmt : Stmt}
    {b : List Stmt} (left : stmt :: b <:+ check f v c) (m : Shared HartId) (vars : Vars)
    (rest : List Stmt) :
    ∃ code vars', exec n .hart0 stmt (b ++ rest) vars m = (m, ⟨code, vars'⟩) ∧
      ((∃ b', code = b' ++ rest ∧ b' <:+ check f v c) ∨ ∃ c, code = [.testFail c]) := by
  rcases List.suffix_cons_iff.mp left with whole | left
  · cases whole
    exact ⟨_, _, rfl, .inl ⟨_, rfl, List.suffix_cons _ _⟩⟩
  · rcases List.suffix_cons_iff.mp left with whole | nothing
    · cases whole
      by_cases same : vars .fst = v
      · exact ⟨rest, vars, by simp [exec, same], .inl ⟨[], rfl, List.nil_suffix⟩⟩
      · exact ⟨_, vars, by simp [exec, same], .inr ⟨c, rfl⟩⟩
    · cases List.suffix_nil.mp nothing

/-- The head of what is left of a list of plain statements. -/
theorem plain_of_suffix {mem : Mem} {stmt : Stmt} {b rest whole : List Stmt}
    (all : ∀ stmt ∈ whole, Plain mem stmt) (left : b <:+ whole) (head : b = stmt :: rest) :
    Plain mem stmt :=
  all stmt (left.subset (head ▸ List.mem_cons_self))

theorem check_plain {mem : Mem} {f : Field} {v : BitVec 64} {c : Nat} :
    ∀ stmt ∈ check f v c, Plain mem stmt := by
  simp [check, Plain]

/-- While the worker runs the flag is down. `During` relates what hart 0 has left before its
wait, what the worker has left and `g_p4`. -/
inductive FlagLink (f : Field) (ending : List Stmt)
    (During : List Stmt → List Stmt → Mem → Prop) : List Stmt → List Stmt → Mem → Prop
  | during {c w : List Stmt} {mem : Mem} (during : During c w mem) (down : w ≠ [] → mem f = 0) :
      FlagLink f ending During (c ++ .spinWait f 1 :: ending) w mem
  | checking {b : List Stmt} {mem : Mem} (left : b <:+ ending) : FlagLink f ending During b [] mem

structure Works (n : LoopCounts) (f : Field) (During : List Stmt → List Stmt → Mem → Prop) :
    Prop where
  hart0 : ∀ {stmt c w} {m : Shared HartId}, During (stmt :: c) w m.mem → ∀ (vars : Vars) rest,
    ∃ m' c' vars', exec n .hart0 stmt (c ++ rest) vars m = (m', ⟨c' ++ rest, vars'⟩) ∧
      m'.posted = m.posted ∧ During c' w m'.mem ∧ m'.mem f = m.mem f
  hart1 : ∀ {stmt c w} {m : Shared HartId}, During c (stmt :: w) m.mem → m.mem f = 0 →
    ∀ (vars : Vars) rest,
    ∃ m' w' vars', exec n .hart1 stmt (w ++ rest) vars m = (m', ⟨w' ++ rest, vars'⟩) ∧
      m'.posted = m.posted ∧ During c w' m'.mem ∧ (w' ≠ [] → m'.mem f = 0)
  live : ∀ {c w mem}, During c w mem → w ≠ [] → Moves mem c ∨ Moves mem w
  plain : ∀ {c w mem stmt rest}, During c w mem → c = stmt :: rest ∨ w = stmt :: rest →
    Plain mem stmt

theorem Moves.append {mem : Mem} {c : List Stmt} (moves : Moves mem c) (rest : List Stmt) :
    Moves mem (c ++ rest) := by
  obtain ⟨stmt, c', rfl, goes⟩ := moves
  exact ⟨stmt, c' ++ rest, rfl, goes⟩

/-- Hart 0 leaves its wait only after the worker's last statement. -/
theorem Works.linked {n : LoopCounts} {f : Field} {During : List Stmt → List Stmt → Mem → Prop}
    (works : Works n f During) (g : Field) (v : BitVec 64) (code : Nat) :
    Linked n (FlagLink f (check g v code) During) := by
  constructor
  · intro stmt b w m link vars rest
    generalize whole : stmt :: b = code0 at link
    cases link with
    | @during c _ _ during down =>
      cases c with
      | nil =>
        cases whole
        by_cases up : m.mem f = 1
        · have finished : w = [] := by
            by_contra running
            rw [down running] at up
            exact absurd up (by decide)
          subst finished
          refine ⟨m, _, vars, ?_, rfl, .inl ⟨_, rfl, .checking List.suffix_rfl⟩⟩
          simp only [exec, if_pos up]
        · refine ⟨m, _, vars, ?_, rfl, .inl ⟨_ :: _, rfl, .during during down⟩⟩
          simp only [exec, if_neg up]
          rfl
      | cons stmt' c =>
        cases whole
        obtain ⟨m', c', vars', runs, posted, next, same⟩ :=
          works.hart0 during vars (.spinWait f 1 :: check g v code ++ rest)
        refine ⟨m', _, vars', ?_, posted, .inl ⟨_, rfl, .during next ?_⟩⟩
        · simpa using runs
        · rw [same]
          exact down
    | checking left =>
      subst whole
      obtain ⟨code, vars', runs, ends⟩ := check_runs left m vars rest
      refine ⟨m, code, vars', runs, rfl, ?_⟩
      rcases ends with ⟨b', rest, left⟩ | failed
      · exact .inl ⟨b', rest, .checking left⟩
      · exact .inr ⟨failed, .inl rfl⟩
  · intro stmt b w m link vars rest
    cases link with
    | during during down =>
      obtain ⟨m', w', vars', runs, posted, next, down⟩ :=
        works.hart1 during (down (List.cons_ne_nil _ _)) vars rest
      exact ⟨m', w', vars', runs, posted, .during next down⟩
  · intro w mem link
    generalize whole : ([] : List Stmt) = code0 at link
    cases link with
    | @during c => cases c <;> cases whole
    | checking left => exact .inl rfl
  · intro b w mem link running
    cases link with
    | during during down =>
      rcases works.live during running with moves | moves
      · exact .inl (moves.append _)
      · exact .inr moves
    | checking left => exact absurd rfl running
  · intro b w mem stmt rest link head
    cases link with
    | @during c _ _ during down =>
      rcases head with there | there
      · cases c with
        | nil =>
          cases there
          trivial
        | cons stmt c =>
          cases there
          exact works.plain during (.inl rfl)
      · exact works.plain during (.inr there)
    | checking left =>
      rcases head with there | there
      · exact plain_of_suffix check_plain left there
      · cases there

/-- P4.0: hart 0 has nothing to do but to wait. -/
def During0 (c w : List Stmt) (_ : Mem) : Prop :=
  c = [] ∧ w <:+ magicWriter

theorem magicWriter_cases {w : List Stmt} (worker : w <:+ magicWriter) :
    w = magicWriter ∨ w = magicWriter.drop 1 ∨ w = [] := by
  simpa [magicWriter, List.suffix_cons_iff] using worker

theorem works0 (n : LoopCounts) : Works n .core1_wrote_payload During0 := by
  constructor
  · rintro stmt c w m ⟨nothing, -⟩
    cases nothing
  · rintro stmt c w m ⟨nothing, worker⟩ down vars rest
    rcases magicWriter_cases worker with whole | whole | whole
    · cases whole
      refine ⟨_, magicWriter.drop 1, _, rfl, rfl, ⟨nothing, List.suffix_cons _ _⟩, fun _ => ?_⟩
      simpa [Function.update] using down
    · cases whole
      exact ⟨_, [], _, rfl, rfl, ⟨nothing, List.nil_suffix⟩, fun running => absurd rfl running⟩
    · cases whole
  · rintro c w mem ⟨-, worker⟩ running
    rcases magicWriter_cases worker with whole | whole | whole
    · exact .inr ⟨_, _, whole, not_false⟩
    · exact .inr ⟨_, _, whole, not_false⟩
    · exact absurd whole running
  · rintro c w mem stmt rest ⟨rfl, worker⟩ head
    rcases head with there | there
    · cases there
    · exact plain_of_suffix (by simp [magicWriter, Plain]) worker there

/-- P4.1A: hart 0 has raised `fence_flag` when it comes to its wait. -/
def During1A (c w : List Stmt) (mem : Mem) : Prop :=
  c <:+ [.load .fst .fence_expected, .putTemp .fence_payload .fst, .put .fence_flag 1] ∧
  w <:+ fenceConsumer ∧ (c = [] → mem .fence_flag ≠ 0)

theorem works1A (n : LoopCounts) : Works n .fence_done During1A := by
  constructor
  · rintro stmt c w m ⟨producer, worker, flag⟩ vars rest
    simp only [List.suffix_cons_iff, List.suffix_nil] at producer
    rcases producer with whole | whole | whole | whole
    · cases whole
      refine ⟨_, [_, _], _, rfl, rfl, ⟨List.suffix_cons _ _, worker, nofun⟩, rfl⟩
    · cases whole
      refine ⟨_, [_], _, rfl, rfl, ⟨?_, worker, nofun⟩, by simp [Function.update]⟩
      simp [List.suffix_cons_iff]
    · cases whole
      refine ⟨_, [], _, rfl, rfl, ⟨List.nil_suffix, worker, ?_⟩, by simp [Function.update]⟩
      simp
    · cases whole
  · rintro stmt c w m ⟨producer, worker, flag⟩ down vars rest
    simp only [fenceConsumer, List.suffix_cons_iff, List.suffix_nil] at worker
    rcases worker with whole | whole | whole | whole | whole | whole
    · cases whole
      by_cases up : m.mem .fence_flag = 0
      · refine ⟨m, fenceConsumer, vars, ?_, rfl, ⟨producer, List.suffix_rfl, flag⟩, fun _ => down⟩
        simp only [exec, if_pos up]
        rfl
      · refine ⟨m, fenceConsumer.drop 1, vars, ?_, rfl,
          ⟨producer, List.suffix_cons _ _, flag⟩, fun _ => down⟩
        simp only [exec, if_neg up]
        rfl
    · cases whole
      exact ⟨_, fenceConsumer.drop 2, _, rfl, rfl, ⟨producer, List.drop_suffix _ _, flag⟩,
        fun _ => down⟩
    · cases whole
      exact ⟨_, fenceConsumer.drop 3, _, rfl, rfl, ⟨producer, List.drop_suffix _ _, flag⟩,
        fun _ => down⟩
    · cases whole
      refine ⟨_, fenceConsumer.drop 4, _, rfl, rfl, ⟨producer, List.drop_suffix _ _, ?_⟩,
        fun _ => ?_⟩
      · simpa [Function.update] using flag
      · simpa [Function.update] using down
    · cases whole
      refine ⟨_, [], _, rfl, rfl, ⟨producer, List.nil_suffix, ?_⟩,
        fun running => absurd rfl running⟩
      simpa [Function.update] using flag
    · cases whole
  · rintro c w mem ⟨producer, worker, flag⟩ running
    simp only [List.suffix_cons_iff, List.suffix_nil] at producer
    rcases producer with whole | whole | whole | whole
    · exact .inl ⟨_, _, whole, not_false⟩
    · exact .inl ⟨_, _, whole, not_false⟩
    · exact .inl ⟨_, _, whole, not_false⟩
    · -- the flag is up, so the consumer does not wait for it
      have up := flag whole
      right
      simp only [fenceConsumer, List.suffix_cons_iff, List.suffix_nil] at worker
      rcases worker with whole | whole | whole | whole | whole | whole
      · exact ⟨_, _, whole, up⟩
      · exact ⟨_, _, whole, not_false⟩
      · exact ⟨_, _, whole, not_false⟩
      · exact ⟨_, _, whole, not_false⟩
      · exact ⟨_, _, whole, not_false⟩
      · exact absurd whole running
  · rintro c w mem stmt rest ⟨producer, worker, flag⟩ head
    rcases head with there | there
    · exact plain_of_suffix (by simp [Plain]) producer there
    · exact plain_of_suffix (by simp [fenceConsumer, Plain]) worker there

/-- P4.2: both harts increment the counter. -/
def During2 (c w : List Stmt) (_ : Mem) : Prop :=
  (∃ k, c = forUpto k [.amoAdd .shared_counter 1]) ∧ (w = [] ∨ ∃ j, w = atomicIncrementer j)

theorem works2 (n : LoopCounts) : Works n .core1_atomic_done During2 := by
  constructor
  · rintro stmt c w m ⟨⟨k, whole⟩, worker⟩ vars rest
    cases k with
    | zero => cases whole
    | succ k =>
      rw [forUpto_succ] at whole
      cases whole
      exact ⟨_, _, _, rfl, rfl, ⟨⟨k, rfl⟩, worker⟩, by simp [Function.update]⟩
  · rintro stmt c w m ⟨own, nothing | ⟨j, whole⟩⟩ down vars rest
    · cases nothing
    · cases j with
      | zero =>
        cases whole
        exact ⟨_, [], _, rfl, rfl, ⟨own, .inl rfl⟩, fun running => absurd rfl running⟩
      | succ j =>
        rw [atomicIncrementer, forUpto_succ] at whole
        cases whole
        refine ⟨_, _, _, rfl, rfl, ⟨own, .inr ⟨j, rfl⟩⟩, fun _ => ?_⟩
        simpa [Function.update] using down
  · rintro c w mem ⟨-, nothing | ⟨j, whole⟩⟩ running
    · exact absurd nothing running
    · right
      cases j with
      | zero => exact ⟨_, _, whole, not_false⟩
      | succ j =>
        rw [atomicIncrementer, forUpto_succ] at whole
        exact ⟨_, _, whole, not_false⟩
  · rintro c w mem stmt rest ⟨⟨k, own⟩, worker⟩ head
    have increments (j : Nat) :
        ∀ stmt ∈ forUpto j [.amoAdd .shared_counter 1], Plain mem stmt := by
      intro stmt member
      rw [List.mem_singleton.mp (mem_forUpto member)]
      trivial
    rcases head with there | there
    · exact increments k stmt (own ▸ there ▸ List.mem_cons_self)
    · rcases worker with nothing | ⟨j, whole⟩
      · cases nothing.symm.trans there
      · have member : stmt ∈ atomicIncrementer j := whole ▸ there ▸ List.mem_cons_self
        rcases List.mem_append.mp member with early | last
        · exact increments j stmt early
        · rw [List.mem_singleton.mp last]
          trivial

/-- P4.3: both harts run the spinlock loop, and the worker then raises its flag. -/
def During3 (c w : List Stmt) (mem : Mem) : Prop :=
  ∃ place : HartId → Spinlock.Place, c = (place .hart0).code [] ∧
    (w = (place .hart1).code [.put .core1_lock_done 1] ∨ w = [] ∧ place .hart1 = .outside 0) ∧
    Spinlock.Locked mem place

/-- The next statement of a hart in the loop waits only at the lock. -/
theorem spinlock_moves {p : Spinlock.Place} {after : List Stmt} {mem : Mem}
    (goes : mem .lock = 0 ∨ p.inside) (busy : p ≠ .outside 0) : Moves mem (p.code after) := by
  cases p with
  | outside k =>
    cases k with
    | zero => exact absurd rfl busy
    | succ k =>
      rcases goes with free | inside
      · exact ⟨_, _, Spinlock.code_outside after k, not_not_intro free⟩
      · exact inside.elim
  | entered k => exact ⟨_, _, Spinlock.code_entered after k, not_false⟩
  | delaying k j => exact ⟨_, _, Spinlock.code_delaying after k j, not_false⟩
  | storing k => exact ⟨_, _, Spinlock.code_storing after k, not_false⟩
  | stored k => exact ⟨_, _, Spinlock.code_stored after k, not_false⟩

theorem spinlock_plain {p : Spinlock.Place} {after rest : List Stmt} {mem : Mem} {stmt : Stmt}
    (here : p.code after = stmt :: rest) (word : mem .lock = 0 ∨ mem .lock = 1)
    (plain : ∀ stmt ∈ after, Plain mem stmt) : Plain mem stmt := by
  cases p with
  | outside k =>
    cases k with
    | zero =>
      have member : stmt ∈ (Spinlock.Place.outside 0).code after := here ▸ List.mem_cons_self
      exact plain stmt member
    | succ k =>
      rw [Spinlock.code_outside] at here
      cases here
      exact word
  | _ =>
    cases here
    trivial

theorem works3 (n : LoopCounts) : Works n .core1_lock_done During3 := by
  constructor
  · rintro stmt c w m ⟨place, own, worker, locked⟩ vars rest
    cases advanced : (place .hart0).advance .hart0 vars m with
    | none =>
      rw [Spinlock.outside_of_stuck advanced] at own
      cases own
    | some next =>
      obtain ⟨m', p', vars'⟩ := next
      obtain ⟨stmt', rest', code, runs⟩ := Spinlock.exec_advance n rest advanced
      rw [← List.nil_append rest, ← Spinlock.code_append, ← own, List.cons_append] at code
      cases code
      refine ⟨m', p'.code [], vars', ?_, Spinlock.advance_posted advanced, ?_, ?_⟩
      · rw [runs, Spinlock.code_append]
        rfl
      · refine ⟨Function.update place .hart0 p', ?_, ?_, locked.advance advanced⟩
        · rw [Function.update_self]
        · rw [Function.update_of_ne (by decide)]
          exact worker
      · exact Spinlock.advance_other advanced (by decide) (by decide)
  · rintro stmt c w m ⟨place, own, working | ⟨nothing, -⟩, locked⟩ down vars rest
    · cases advanced : (place .hart1).advance .hart1 vars m with
      | none =>
        have last := Spinlock.outside_of_stuck advanced
        rw [last] at working
        cases working
        refine ⟨_, [], _, rfl, rfl, ⟨place, own, .inr ⟨rfl, last⟩, ?_⟩, fun more => absurd rfl more⟩
        exact ⟨locked.word, locked.guards⟩
      | some next =>
        obtain ⟨m', p', vars'⟩ := next
        obtain ⟨stmt', rest', code, runs⟩ :=
          Spinlock.exec_advance n (.put .core1_lock_done 1 :: rest) advanced
        rw [← List.singleton_append, ← Spinlock.code_append, ← working, List.cons_append] at code
        cases code
        refine ⟨m', p'.code [.put .core1_lock_done 1], vars', ?_,
          Spinlock.advance_posted advanced, ?_, fun _ => ?_⟩
        · rw [runs, Spinlock.code_append]
          rfl
        · refine ⟨Function.update place .hart1 p', ?_, .inl ?_, locked.advance advanced⟩
          · rw [Function.update_of_ne (by decide)]
            exact own
          · rw [Function.update_self]
        · exact (Spinlock.advance_other advanced (by decide) (by decide)).trans down
    · cases nothing
  · rintro c w mem ⟨place, rfl, working | ⟨nothing, -⟩, locked⟩ running
    · by_cases last : place .hart1 = .outside 0
      · right
        rw [last] at working
        exact ⟨_, _, working, not_false⟩
      · by_cases free : mem .lock = 0
        · exact .inr (working ▸ spinlock_moves (.inl free) last)
        · -- one of the harts is inside, and it goes on
          obtain ⟨i, inside⟩ := locked.guards.held.mp free
          cases i with
          | hart0 =>
            refine .inl (spinlock_moves (.inr inside) ?_)
            intro out
            rw [out] at inside
            exact inside
          | hart1 => exact .inr (working ▸ spinlock_moves (.inr inside) last)
    · exact absurd nothing running
  · rintro c w mem stmt rest ⟨place, own, working, locked⟩ head
    rcases head with there | there
    · exact spinlock_plain (own.symm.trans there) locked.word (by simp)
    · rcases working with working | ⟨nothing, -⟩
      · exact spinlock_plain (working.symm.trans there) locked.word (by simp [Plain])
      · cases nothing.symm.trans there

inductive Link1B : List Stmt → List Stmt → Mem → Prop
  | waiting {w : List Stmt} {mem : Mem} (worker : w <:+ fenceProducer) (runs : w ≠ [])
      (raised : w = fenceProducer.drop 3 → mem .fence_flag ≠ 0)
      (early : w ≠ fenceProducer.drop 3 → mem .fence_flag = 0) (down : mem .fence_done = 0) :
      Link1B (phase1B.drop 2) w mem
  | reading {c : List Stmt} {mem : Mem}
      (left : c <:+ [.load .fst .fence_payload, .load .snd .fence_expected,
        .putEq .fence_ok .fst .snd])
      (down : mem .fence_done = 0) :
      Link1B (c ++ phase1B.drop 6) (fenceProducer.drop 3) mem
  | raised {b w : List Stmt} {mem : Mem} (left : b <:+ check .fence_ok 1 762)
      (worker : w = [] ∨ w = fenceProducer.drop 3) (up : mem .fence_done = 1) : Link1B b w mem

theorem Link1B.hart0 (n : LoopCounts) {stmt : Stmt} {b w : List Stmt} {m : Shared HartId}
    (link : Link1B (stmt :: b) w m.mem) (vars : Vars) (rest : List Stmt) :
    ∃ m' code vars', exec n .hart0 stmt (b ++ rest) vars m = (m', ⟨code, vars'⟩) ∧
      m'.posted = m.posted ∧
      ((∃ b', code = b' ++ rest ∧ Link1B b' w m'.mem) ∨
        (∃ c, code = [.testFail c]) ∧ Calm w m'.mem) := by
  generalize whole : stmt :: b = code0 at link
  cases link with
  | waiting worker runs raised early down =>
    cases whole
    by_cases flag : m.mem .fence_flag = 0
    · refine ⟨m, _, vars, ?_, rfl,
        .inl ⟨phase1B.drop 2, rfl, .waiting worker runs raised early down⟩⟩
      simp only [exec, if_pos flag]
      rfl
    · have at_wait : w = fenceProducer.drop 3 := by
        by_contra before
        exact flag (early before)
      subst at_wait
      refine ⟨m, _, vars, ?_, rfl,
        .inl ⟨phase1B.drop 3, rfl, .reading List.suffix_rfl down⟩⟩
      simp only [exec, if_neg flag]
      rfl
  | reading left down =>
    simp only [List.suffix_cons_iff, List.suffix_nil] at left
    rcases left with rfl | rfl | rfl | rfl
    · cases whole
      refine ⟨_, _, _, rfl, rfl, .inl ⟨[_, _] ++ phase1B.drop 6, rfl, .reading ?_ down⟩⟩
      exact List.suffix_cons _ _
    · cases whole
      refine ⟨_, _, _, rfl, rfl, .inl ⟨[_] ++ phase1B.drop 6, rfl, .reading ?_ down⟩⟩
      simp [List.suffix_cons_iff]
    · cases whole
      refine ⟨_, _, _, rfl, rfl, .inl ⟨[] ++ phase1B.drop 6, rfl, .reading List.nil_suffix ?_⟩⟩
      simpa [Function.update] using down
    · cases whole
      refine ⟨_, _, _, rfl, rfl, .inl ⟨phase1B.drop 7, rfl,
        .raised List.suffix_rfl (.inr rfl) ?_⟩⟩
      simp
  | raised left worker up =>
    subst whole
    obtain ⟨code, vars', runs, ends⟩ := check_runs left m vars rest
    refine ⟨m, code, vars', runs, rfl, ?_⟩
    rcases ends with ⟨b', rest, left⟩ | failed
    · exact .inl ⟨b', rest, .raised left worker up⟩
    · refine .inr ⟨failed, ?_⟩
      rcases worker with nothing | last
      · exact .inl nothing
      · exact .inr ⟨last, up⟩

theorem Link1B.hart1 (n : LoopCounts) {stmt : Stmt} {b w : List Stmt} {m : Shared HartId}
    (link : Link1B b (stmt :: w) m.mem) (vars : Vars) (rest : List Stmt) :
    ∃ m' w' vars', exec n .hart1 stmt (w ++ rest) vars m = (m', ⟨w' ++ rest, vars'⟩) ∧
      m'.posted = m.posted ∧ Link1B b w' m'.mem := by
  generalize whole : stmt :: w = work at link
  cases link with
  | waiting worker runs raised early down =>
    subst whole
    simp only [fenceProducer, List.suffix_cons_iff, List.suffix_nil] at worker
    rcases worker with whole | whole | whole | whole | whole
    · cases whole
      exact ⟨_, fenceProducer.drop 1, _, rfl, rfl, .waiting (List.drop_suffix _ _) (by decide)
        (fun same => absurd same (by decide)) (fun _ => early (by decide)) down⟩
    · cases whole
      refine ⟨_, fenceProducer.drop 2, _, rfl, rfl, .waiting (List.drop_suffix _ _) (by decide)
        (fun same => absurd same (by decide)) (fun _ => ?_) ?_⟩
      · simpa [Function.update] using early (by decide)
      · simpa [Function.update] using down
    · cases whole
      refine ⟨_, fenceProducer.drop 3, _, rfl, rfl, .waiting (List.drop_suffix _ _) (by decide)
        (fun _ => ?_) (fun different => absurd rfl different) ?_⟩
      · simp
      · simpa [Function.update] using down
    · cases whole
      have blocked : m.mem .fence_done ≠ 1 := by
        rw [down]
        decide
      refine ⟨m, fenceProducer.drop 3, vars, ?_, rfl,
        .waiting (List.drop_suffix _ _) runs raised early down⟩
      simp only [exec, if_neg blocked]
      rfl
    · cases whole
  | reading left down =>
    cases whole
    have blocked : m.mem .fence_done ≠ 1 := by
      rw [down]
      decide
    refine ⟨m, fenceProducer.drop 3, vars, ?_, rfl, .reading left down⟩
    simp only [exec, if_neg blocked]
    rfl
  | raised left worker up =>
    rcases worker with nothing | last
    · cases whole.trans nothing
    · cases whole.trans last
      refine ⟨m, [], vars, ?_, rfl, .raised left (.inl rfl) up⟩
      simp only [exec, if_pos up, List.nil_append]

theorem linked1B (n : LoopCounts) : Linked n Link1B := by
  refine ⟨fun link => link.hart0 n, fun link => link.hart1 n, ?_, ?_, ?_⟩
  · intro w mem link
    generalize whole : ([] : List Stmt) = code0 at link
    cases link with
    | waiting worker runs raised early down => cases whole
    | @reading c _ left down => cases c <;> cases whole
    | raised left worker up =>
      rcases worker with nothing | last
      · exact .inl nothing
      · exact .inr ⟨last, up⟩
  · intro b w mem link running
    cases link with
    | waiting worker runs raised early down =>
      simp only [fenceProducer, List.suffix_cons_iff, List.suffix_nil] at worker
      rcases worker with whole | whole | whole | whole | whole
      · exact .inr ⟨_, _, whole, not_false⟩
      · exact .inr ⟨_, _, whole, not_false⟩
      · exact .inr ⟨_, _, whole, not_false⟩
      · exact .inl ⟨_, _, rfl, raised whole⟩
      · exact absurd whole running
    | reading left down =>
      simp only [List.suffix_cons_iff, List.suffix_nil] at left
      rcases left with rfl | rfl | rfl | rfl <;> exact .inl ⟨_, _, rfl, not_false⟩
    | raised left worker up =>
      rcases worker with nothing | last
      · exact absurd nothing running
      · exact .inr ⟨_, _, last, not_not_intro up⟩
  · intro b w mem stmt rest link head
    cases link with
    | waiting worker runs raised early down =>
      rcases head with there | there
      · cases there
        trivial
      · exact plain_of_suffix (by simp [fenceProducer, Plain]) worker there
    | reading left down =>
      rcases head with there | there
      · simp only [List.suffix_cons_iff, List.suffix_nil] at left
        rcases left with rfl | rfl | rfl | rfl <;> cases there <;> trivial
      · cases there
        trivial
    | raised left worker up =>
      rcases head with there | there
      · exact plain_of_suffix check_plain left there
      · rcases worker with nothing | last
        · cases nothing.symm.trans there
        · cases last.symm.trans there
          trivial

inductive Link4 (n : Nat) : List Stmt → List Stmt → Mem → Prop
  | playing {mem : Mem} {place : HartId → PingPong.Place} {holder : HartId}
      (turned : PingPong.Turned mem place holder) :
      Link4 n ((place .hart0).code .hart0 (PingPong.lastWait n)) ((place .hart1).code .hart1 []) mem
  | played {b : List Stmt} {mem : Mem} (left : b <:+ (PingPong.lastWait n).drop 1)
      (more : b ≠ []) : Link4 n b [] mem

/-- The hart with the turn can go on. -/
theorem pingPong_moves {i : HartId} {p : PingPong.Place} {after : List Stmt} {mem : Mem}
    (turn : mem .turn = PingPong.turnOf i) (busy : p = .waiting 0 → Moves mem after) :
    Moves mem (p.code i after) := by
  cases p with
  | waiting k =>
    cases k with
    | zero => exact busy rfl
    | succ k => exact ⟨_, _, PingPong.code_waiting i after k, not_not_intro turn⟩
  | entered k => exact ⟨_, _, PingPong.code_entered i after k, not_false⟩
  | loaded k => exact ⟨_, _, PingPong.code_loaded i after k, not_false⟩
  | stored k => exact ⟨_, _, PingPong.code_stored i after k, not_false⟩

theorem pingPong_plain {i : HartId} {p : PingPong.Place} {after rest : List Stmt} {mem : Mem}
    {stmt : Stmt} (here : p.code i after = stmt :: rest)
    (plain : ∀ stmt ∈ after, Plain mem stmt) : Plain mem stmt := by
  cases p with
  | waiting k =>
    cases k with
    | zero =>
      have member : stmt ∈ (PingPong.Place.waiting 0).code i after := here ▸ List.mem_cons_self
      exact plain stmt member
    | succ k =>
      rw [PingPong.code_waiting] at here
      cases here
      trivial
  | _ =>
    cases here
    trivial

theorem Link4.hart0 (n : LoopCounts) {k : Nat} {stmt : Stmt} {b w : List Stmt}
    {m : Shared HartId} (link : Link4 k (stmt :: b) w m.mem) (vars : Vars) (rest : List Stmt) :
    ∃ m' code vars', exec n .hart0 stmt (b ++ rest) vars m = (m', ⟨code, vars'⟩) ∧
      m'.posted = m.posted ∧
      ((∃ b', code = b' ++ rest ∧ Link4 k b' w m'.mem) ∨
        (∃ c, code = [.testFail c]) ∧ Calm w m'.mem) := by
  generalize whole : stmt :: b = code0 at link
  cases link with
  | @playing _ place holder turned =>
    cases advanced : (place .hart0).advance .hart0 vars m with
    | some next =>
      obtain ⟨m', p', vars'⟩ := next
      obtain ⟨holder', turned'⟩ := turned.advance advanced
      obtain ⟨stmt', rest', code, runs⟩ :=
        PingPong.exec_advance n (PingPong.lastWait k ++ rest) advanced
      rw [← PingPong.code_append, ← whole, List.cons_append] at code
      cases code
      refine ⟨m', _, vars', runs, PingPong.advance_posted advanced,
        .inl ⟨p'.code .hart0 (PingPong.lastWait k), ?_, ?_⟩⟩
      · rw [PingPong.code_append]
      · have next : Link4 k _ _ m'.mem := .playing turned'
        rwa [Function.update_self, Function.update_of_ne (by decide)] at next
    | none =>
      have here := PingPong.waiting_of_stuck advanced
      rw [here] at whole
      cases whole
      by_cases turn : m.mem .turn = 0
      · rw [turned.last here turn]
        refine ⟨m, _, vars, ?_, rfl,
          .inl ⟨_, rfl, .played List.suffix_rfl (by simp [PingPong.lastWait])⟩⟩
        simp only [exec, if_pos turn]
        rfl
      · have next : Link4 k _ _ m.mem := .playing turned
        rw [here] at next
        refine ⟨m, _, vars, ?_, rfl, .inl ⟨_, rfl, next⟩⟩
        simp only [exec, if_neg turn]
        rfl
  | played left more =>
    subst whole
    simp only [PingPong.lastWait, List.drop_succ_cons, List.drop_zero, List.suffix_cons_iff,
      List.suffix_nil] at left
    rcases left with whole | whole | whole | whole
    · cases whole
      exact ⟨_, _, _, rfl, rfl, .inl ⟨_, rfl, .played (List.suffix_cons _ _) (by simp)⟩⟩
    · cases whole
      by_cases same : vars .fst = BitVec.ofNat 64 (k * 2)
      · refine ⟨m, _, vars, ?_, rfl, .inl ⟨[.testPass], rfl, .played ?_ (by simp)⟩⟩
        · simp only [exec, if_pos same, List.cons_append, List.nil_append]
        · simp [PingPong.lastWait, List.suffix_cons_iff]
      · refine ⟨m, _, vars, ?_, rfl, .inr ⟨⟨790, rfl⟩, .inl rfl⟩⟩
        simp only [exec, if_neg same]
    · cases whole
      refine ⟨_, _, _, rfl, rfl, .inl ⟨[.testPass], rfl, .played ?_ (by simp)⟩⟩
      simp [PingPong.lastWait, List.suffix_cons_iff]
    · cases whole

theorem Link4.hart1 (n : LoopCounts) {k : Nat} {stmt : Stmt} {b w : List Stmt}
    {m : Shared HartId} (link : Link4 k b (stmt :: w) m.mem) (vars : Vars) (rest : List Stmt) :
    ∃ m' w' vars', exec n .hart1 stmt (w ++ rest) vars m = (m', ⟨w' ++ rest, vars'⟩) ∧
      m'.posted = m.posted ∧ Link4 k b w' m'.mem := by
  generalize whole : stmt :: w = work at link
  cases link with
  | @playing _ place holder turned =>
    cases advanced : (place .hart1).advance .hart1 vars m with
    | some next =>
      obtain ⟨m', p', vars'⟩ := next
      obtain ⟨holder', turned'⟩ := turned.advance advanced
      obtain ⟨stmt', rest', code, runs⟩ := PingPong.exec_advance n rest advanced
      rw [← List.nil_append rest, ← PingPong.code_append, ← whole, List.cons_append] at code
      cases code
      refine ⟨m', p'.code .hart1 [], vars', ?_, PingPong.advance_posted advanced, ?_⟩
      · rw [runs, PingPong.code_append]
        rfl
      · have next : Link4 k _ _ m'.mem := .playing turned'
        rwa [Function.update_self, Function.update_of_ne (by decide)] at next
    | none =>
      rw [PingPong.waiting_of_stuck advanced] at whole
      cases whole
  | played left more => cases whole

theorem linked4 (n : LoopCounts) (k : Nat) : Linked n (Link4 k) := by
  refine ⟨fun link => link.hart0 n, fun link => link.hart1 n, ?_, ?_, ?_⟩
  · intro w mem link
    generalize whole : ([] : List Stmt) = code0 at link
    cases link with
    | @playing _ place holder turned =>
      have member : Stmt.testPass ∈ (place .hart0).code .hart0 (PingPong.lastWait k) := by
        cases place .hart0 <;> simp [PingPong.Place.code, PingPong.lastWait]
      rw [← whole] at member
      cases member
    | played left more => exact absurd whole.symm more
  · intro b w mem link running
    cases link with
    | @playing _ place holder turned =>
      cases holder with
      | hart0 =>
        exact .inl (pingPong_moves turned.turn fun _ => ⟨_, _, rfl, not_not_intro turned.turn⟩)
      | hart1 =>
        refine .inr (pingPong_moves turned.turn fun last => ?_)
        rw [last] at running
        exact absurd rfl running
    | played left more => exact absurd rfl running
  · intro b w mem stmt rest link head
    cases link with
    | playing turned =>
      rcases head with there | there
      · exact pingPong_plain there (by simp [PingPong.lastWait, Plain])
      · exact pingPong_plain there (by simp)
    | played left more =>
      rcases head with there | there
      · exact plain_of_suffix (by simp [PingPong.lastWait, Plain]) left there
      · cases there

end ZephyrRiscv.P4.Phases
