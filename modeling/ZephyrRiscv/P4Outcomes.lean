import ZephyrRiscv.P4Handshakes

set_option autoImplicit false

namespace ZephyrRiscv.P4.Outcomes

open Transition Interleaving Phases

/-- The code left of a phase, or of its worker, with the variables of its hart. -/
abbrev Part := Thread Stmt Vars

/-- The next statement of a part leaves the jobs alone, and the part goes on as `P` says. A
failed assertion does not go on. -/
def Goes (n : LoopCounts) (i : HartId) (stmt : Stmt) (code : List Stmt) (vars : Vars)
    (m : Shared HartId) (P : Part → Mem → Prop) : Prop :=
  ∃ m' code' vars', (∀ rest, exec n i stmt (code ++ rest) vars m = (m', ⟨code' ++ rest, vars'⟩)) ∧
    m'.posted = m.posted ∧ P ⟨code', vars'⟩ m'.mem

/-- What relates hart 0's part of a phase, the worker's and `g_p4`. It is kept by both harts,
neither of them leaves its part, and one of them can go on until hart 0 has come to its end or
to the end of the test. -/
structure Sure (n : LoopCounts) (Link : Part → Part → Mem → Prop) : Prop where
  hart0 : ∀ {stmt code vars w} {m : Shared HartId}, Link ⟨stmt :: code, vars⟩ w m.mem →
    Goes n .hart0 stmt code vars m fun b mem => Link b w mem
  hart1 : ∀ {stmt code vars b} {m : Shared HartId}, Link b ⟨stmt :: code, vars⟩ m.mem →
    Goes n .hart1 stmt code vars m fun w mem => Link b w mem
  live : ∀ {b w mem}, Link b w mem →
    Moves mem b.code ∨ Moves mem w.code ∨ w.code = [] ∧ (b.code = [] ∨ b.code = [.testPass])

/-- `During` relates what hart 0 has left before its wait, what the worker has left and `g_p4`. -/
structure Computes (n : LoopCounts) (f g : Field) (v : BitVec 64)
    (During : Part → Part → Mem → Prop) : Prop where
  hart0 : ∀ {stmt code vars w} {m : Shared HartId}, During ⟨stmt :: code, vars⟩ w m.mem →
    Goes n .hart0 stmt code vars m fun c mem => During c w mem ∧ mem f = m.mem f
  hart1 : ∀ {stmt code vars c} {m : Shared HartId}, During c ⟨stmt :: code, vars⟩ m.mem →
    m.mem f = 0 →
    Goes n .hart1 stmt code vars m fun w mem =>
      During c w mem ∧ mem f = if w.code = [] then 1 else 0
  live : ∀ {c w mem}, During c w mem →
    Moves mem c.code ∨ Moves mem w.code ∨ c.code = [] ∧ w.code = []
  result : ∀ {c w mem}, During c w mem → c.code = [] → w.code = [] → mem g = v

/-- The flag is up when the worker is done, and then the field has its value. -/
inductive Awaits (f g : Field) (v : BitVec 64) (k : Nat) (During : Part → Part → Mem → Prop) :
    Part → Part → Mem → Prop
  | during {c w : Part} {mem : Mem} (during : During c w mem)
      (flag : mem f = if w.code = [] then 1 else 0) :
      Awaits f g v k During ⟨c.code ++ .spinWait f 1 :: check g v k, c.vars⟩ w mem
  | reading {w : Part} {mem : Mem} {vars : Vars} (finished : w.code = []) (value : mem g = v) :
      Awaits f g v k During ⟨check g v k, vars⟩ w mem
  | judging {w : Part} {mem : Mem} {vars : Vars} (finished : w.code = []) (value : vars .fst = v) :
      Awaits f g v k During ⟨[.assertEq .fst v k], vars⟩ w mem
  | judged {w : Part} {mem : Mem} {vars : Vars} (finished : w.code = []) :
      Awaits f g v k During ⟨[], vars⟩ w mem

theorem Computes.sure {n : LoopCounts} {f g : Field} {v : BitVec 64}
    {During : Part → Part → Mem → Prop} (computes : Computes n f g v During) (k : Nat) :
    Sure n (Awaits f g v k During) := by
  constructor
  · intro stmt code vars w m link
    generalize whole : (⟨stmt :: code, vars⟩ : Part) = b at link
    cases link with
    | @during c _ _ during flag =>
      obtain ⟨left, vars'⟩ := c
      cases left with
      | nil =>
        cases whole
        by_cases finished : w.code = []
        · have up : m.mem f = 1 := by rw [flag, if_pos finished]
          refine ⟨m, _, vars', fun rest => ?_, rfl,
            .reading finished (computes.result during rfl finished)⟩
          simp only [exec, if_pos up]
        · have down : m.mem f ≠ 1 := by
            rw [flag, if_neg finished]
            decide
          refine ⟨m, _, vars', fun rest => ?_, rfl, .during during flag⟩
          simp only [exec, if_neg down]
          rfl
      | cons stmt' left =>
        cases whole
        obtain ⟨m', left', vars', runs, posted, next, same⟩ := computes.hart0 during
        refine ⟨m', _, vars', fun rest => ?_, posted, .during next (same.trans flag)⟩
        simpa using runs (.spinWait f 1 :: check g v k ++ rest)
    | reading finished value =>
      cases whole
      refine ⟨m, _, _, fun rest => rfl, rfl, .judging finished ?_⟩
      simpa using value
    | judging finished value =>
      cases whole
      refine ⟨m, [], vars, fun rest => ?_, rfl, .judged finished⟩
      simp only [exec, if_pos value, List.nil_append]
    | judged finished => cases whole
  · intro stmt code vars b m link
    cases link with
    | during during flag =>
      obtain ⟨m', left', vars', runs, posted, next, flag'⟩ :=
        computes.hart1 during (flag.trans (if_neg (List.cons_ne_nil _ _)))
      exact ⟨m', left', vars', runs, posted, .during next flag'⟩
    | reading finished => cases finished
    | judging finished => cases finished
    | judged finished => cases finished
  · intro b w mem link
    cases link with
    | @during c _ _ during flag =>
      rcases computes.live during with moves | moves | ⟨waits, finished⟩
      · exact .inl (moves.append _)
      · exact .inr (.inl moves)
      · left
        rw [waits]
        exact ⟨_, _, rfl, not_not_intro (by rw [flag, if_pos finished])⟩
    | reading finished => exact .inl ⟨_, _, rfl, not_false⟩
    | judging finished => exact .inl ⟨_, _, rfl, not_false⟩
    | judged finished => exact .inr (.inr ⟨finished, .inl rfl⟩)

/-- P4.0: hart 0 has nothing to do but to wait. -/
structure Magic (c w : Part) (mem : Mem) : Prop where
  waits : c.code = []
  worker : w.code <:+ magicWriter
  payload : w.code ≠ magicWriter → mem .core1_payload = CORE1_MAGIC_NUMBER

theorem computes0 (n : LoopCounts) :
    Computes n .core1_wrote_payload .core1_payload CORE1_MAGIC_NUMBER Magic := by
  constructor
  · intro stmt code vars w m during
    cases during.waits
  · rintro stmt code vars c m ⟨waits, worker, payload⟩ down
    rcases magicWriter_cases worker with whole | whole | whole
    · cases whole
      refine ⟨_, magicWriter.drop 1, _, fun _ => rfl, rfl, ⟨waits, List.suffix_cons _ _, ?_⟩, ?_⟩
      · simp
      · simpa [magicWriter, Function.update] using down
    · cases whole
      refine ⟨_, [], _, fun _ => rfl, rfl, ⟨waits, List.nil_suffix, fun _ => ?_⟩, ?_⟩
      · simpa [Function.update] using payload (by simp [magicWriter])
      · simp
    · cases whole
  · rintro c w mem ⟨waits, worker, -⟩
    rcases magicWriter_cases worker with whole | whole | whole
    · exact .inr (.inl ⟨_, _, whole, not_false⟩)
    · exact .inr (.inl ⟨_, _, whole, not_false⟩)
    · exact .inr (.inr ⟨waits, whole⟩)
  · rintro c w mem ⟨-, -, payload⟩ - finished
    exact payload (by rw [finished]; decide)

/-- P4.1A, when hart 0 has done `p` statements and the consumer `q`: what the consumer reads was
stored before the flag it awaits. -/
structure Consuming (p q : Nat) (c w : Part) (mem : Mem) : Prop where
  producer : c.code = [.load .fst .fence_expected, .putTemp .fence_payload .fst,
    .put .fence_flag 1].drop p
  worker : w.code = fenceConsumer.drop q
  expected : mem .fence_expected = CORE1_MAGIC_NUMBER
  loaded : p = 1 → c.vars .fst = CORE1_MAGIC_NUMBER
  payload : 2 ≤ p → mem .fence_payload = CORE1_MAGIC_NUMBER
  flag : mem .fence_flag = if 3 ≤ p then 1 else 0
  past : 1 ≤ q → 3 ≤ p
  first : q = 2 ∨ q = 3 → w.vars .fst = CORE1_MAGIC_NUMBER
  second : q = 3 → w.vars .snd = CORE1_MAGIC_NUMBER
  outcome : 4 ≤ q → mem .fence_ok = 1

def Consumes (c w : Part) (mem : Mem) : Prop :=
  ∃ p q, Consuming p q c w mem

theorem drop_cons {code rest : List Stmt} {stmt : Stmt} {p : Nat}
    (here : stmt :: rest = code.drop p) :
    p < code.length ∧ code[p]? = some stmt ∧ rest = code.drop (p + 1) := by
  have bound : p < code.length := by
    by_contra beyond
    rw [List.drop_eq_nil_of_le (by omega)] at here
    cases here
  rw [List.drop_eq_getElem_cons bound] at here
  cases here
  exact ⟨bound, List.getElem?_eq_getElem bound, rfl⟩

theorem Consuming.live {p q : Nat} {c w : Part} {mem : Mem} (consuming : Consuming p q c w mem) :
    Moves mem c.code ∨ Moves mem w.code ∨ c.code = [] ∧ w.code = [] := by
  have producer := consuming.producer
  have worker := consuming.worker
  match p, producer with
  | 0, producer => exact .inl ⟨_, _, producer, not_false⟩
  | 1, producer => exact .inl ⟨_, _, producer, not_false⟩
  | 2, producer => exact .inl ⟨_, _, producer, not_false⟩
  | p + 3, producer =>
    -- the flag is up, so the consumer does not wait for it
    have up : mem .fence_flag ≠ 0 := by
      rw [consuming.flag, if_pos (by omega)]
      decide
    right
    match q, worker with
    | 0, worker => exact .inl ⟨_, _, worker, up⟩
    | 1, worker => exact .inl ⟨_, _, worker, not_false⟩
    | 2, worker => exact .inl ⟨_, _, worker, not_false⟩
    | 3, worker => exact .inl ⟨_, _, worker, not_false⟩
    | 4, worker => exact .inl ⟨_, _, worker, not_false⟩
    | q + 5, worker => exact .inr ⟨by simp [producer], by simp [worker, fenceConsumer]⟩

theorem computes1A (n : LoopCounts) : Computes n .fence_done .fence_ok 1 Consumes := by
  constructor
  · rintro stmt code vars w m ⟨p, q, consuming⟩
    obtain ⟨bound, head, rfl⟩ := drop_cons consuming.producer
    have waiting : q = 0 := by
      by_contra later
      have := consuming.past (by omega)
      simp at bound
      omega
    subst waiting
    obtain rfl | rfl | rfl : p = 0 ∨ p = 1 ∨ p = 2 := by
      simp at bound
      omega
    · cases head
      refine ⟨_, _, _, fun _ => rfl, rfl, ⟨1, 0, rfl, consuming.worker, consuming.expected, ?_, ?_,
        consuming.flag, ?_, ?_, ?_, ?_⟩, rfl⟩
      · simpa using consuming.expected
      all_goals omega
    · cases head
      refine ⟨_, _, _, fun _ => rfl, rfl, ⟨2, 0, rfl, consuming.worker, ?_, ?_, ?_,
        ?_, ?_, ?_, ?_, ?_⟩, by simp [Function.update]⟩
      · simpa [Function.update] using consuming.expected
      · omega
      · simpa using consuming.loaded rfl
      · simpa [Function.update] using consuming.flag
      all_goals omega
    · cases head
      refine ⟨_, _, _, fun _ => rfl, rfl, ⟨3, 0, rfl, consuming.worker, ?_, ?_, ?_,
        ?_, ?_, ?_, ?_, ?_⟩, by simp [Function.update]⟩
      · simpa [Function.update] using consuming.expected
      · omega
      · simpa [Function.update] using consuming.payload
      · simp
      all_goals omega
  · rintro stmt code vars c m ⟨p, q, consuming⟩ down
    obtain ⟨bound, head, rfl⟩ := drop_cons consuming.worker
    obtain rfl | rfl | rfl | rfl | rfl : q = 0 ∨ q = 1 ∨ q = 2 ∨ q = 3 ∨ q = 4 := by
      simp [fenceConsumer] at bound
      omega
    · cases head
      by_cases up : 3 ≤ p
      · have flag : m.mem .fence_flag ≠ 0 := by
          rw [consuming.flag, if_pos up]
          decide
        refine ⟨m, _, vars, fun _ => ?_, rfl, ⟨p, 1, consuming.producer, rfl, consuming.expected,
          consuming.loaded, consuming.payload, consuming.flag, fun _ => up, ?_, ?_, ?_⟩, down⟩
        · simp only [exec, if_neg flag]
          rfl
        all_goals omega
      · have flag : m.mem .fence_flag = 0 := by rw [consuming.flag, if_neg up]
        refine ⟨m, _, vars, fun _ => ?_, rfl, ⟨p, 0, consuming.producer, rfl, consuming.expected,
          consuming.loaded, consuming.payload, consuming.flag, ?_, ?_, ?_, ?_⟩, down⟩
        · simp only [exec, if_pos flag]
          rfl
        all_goals omega
    · cases head
      have past := consuming.past (by omega)
      refine ⟨m, _, _, fun _ => rfl, rfl, ⟨p, 2, consuming.producer, rfl, consuming.expected,
        consuming.loaded, consuming.payload, consuming.flag, fun _ => past, fun _ => ?_, ?_, ?_⟩,
        down⟩
      · simpa using consuming.payload (by omega)
      all_goals omega
    · cases head
      have past := consuming.past (by omega)
      have first := consuming.first (.inl rfl)
      refine ⟨m, _, _, fun _ => rfl, rfl, ⟨p, 3, consuming.producer, rfl, consuming.expected,
        consuming.loaded, consuming.payload, consuming.flag, fun _ => past, fun _ => ?_,
        fun _ => ?_, ?_⟩, down⟩
      · simpa [Function.update] using first
      · simpa using consuming.expected
      · omega
    · cases head
      have past := consuming.past (by omega)
      have same : vars .fst = vars .snd :=
        (consuming.first (.inr rfl)).trans (consuming.second rfl).symm
      refine ⟨_, _, vars, fun _ => rfl, rfl, ⟨p, 4, consuming.producer, rfl, ?_,
        consuming.loaded, ?_, ?_, fun _ => past, ?_, ?_, fun _ => ?_⟩, ?_⟩
      · simpa [Function.update] using consuming.expected
      · simpa [Function.update] using consuming.payload
      · simpa [Function.update] using consuming.flag
      · omega
      · omega
      · simp [same]
      · have more : fenceConsumer.drop (3 + 1) ≠ [] := by decide
        rw [if_neg more]
        simpa [Function.update] using down
    · cases head
      have past := consuming.past (by omega)
      refine ⟨_, [], vars, fun _ => rfl, rfl, ⟨p, 5, consuming.producer, rfl, ?_,
        consuming.loaded, ?_, ?_, fun _ => past, ?_, ?_, fun _ => ?_⟩, ?_⟩
      · simpa [Function.update] using consuming.expected
      · simpa [Function.update] using consuming.payload
      · simpa [Function.update] using consuming.flag
      · omega
      · omega
      · simpa [Function.update] using consuming.outcome (by omega)
      · simp
  · rintro c w mem ⟨p, q, consuming⟩
    exact consuming.live
  · rintro c w mem ⟨p, q, consuming⟩ - finished
    apply consuming.outcome
    have length := congrArg List.length (consuming.worker.symm.trans finished)
    simp [fenceConsumer] at length
    omega

/-- P4.2: what the harts have not added makes up the rest of the total. -/
def Adds (n : Nat) (c w : Part) (mem : Mem) : Prop :=
  ∃ k j, c.code = forUpto k [.amoAdd .shared_counter 1] ∧
    (w.code = atomicIncrementer j ∨ w.code = [] ∧ j = 0) ∧
    mem .shared_counter + BitVec.ofNat 64 (k + j) = BitVec.ofNat 64 (n * 2)

theorem add_one_ofNat (v : BitVec 64) (k : Nat) :
    v + BitVec.ofNat 64 (k + 1) = v + 1 + BitVec.ofNat 64 k := by
  rw [BitVec.ofNat_add, BitVec.add_assoc]
  exact congrArg _ (BitVec.add_comm _ _)

theorem computes2 (n : LoopCounts) (total : Nat) :
    Computes n .core1_atomic_done .shared_counter (BitVec.ofNat 64 (total * 2)) (Adds total) := by
  constructor
  · rintro stmt code vars w m ⟨k, j, whole, worker, sum⟩
    cases k with
    | zero => cases whole
    | succ k =>
      rw [forUpto_succ] at whole
      cases whole
      refine ⟨_, _, _, fun _ => rfl, rfl, ⟨k, j, rfl, worker, ?_⟩, by simp [Function.update]⟩
      rw [Nat.add_right_comm, add_one_ofNat] at sum
      simpa using sum
  · rintro stmt code vars c m ⟨k, j, own, whole | ⟨nothing, -⟩, sum⟩ down
    · cases j with
      | zero =>
        cases whole
        refine ⟨_, [], _, fun _ => rfl, rfl, ⟨k, 0, own, .inr ⟨rfl, rfl⟩, ?_⟩, by simp⟩
        simpa [Function.update] using sum
      | succ j =>
        rw [atomicIncrementer, forUpto_succ] at whole
        cases whole
        refine ⟨_, _, _, fun _ => rfl, rfl, ⟨k, j, own, .inl rfl, ?_⟩, ?_⟩
        · rw [← Nat.add_assoc, add_one_ofNat] at sum
          simpa using sum
        · rw [if_neg (by simp)]
          simpa [Function.update] using down
    · cases nothing
  · rintro c w mem ⟨k, j, own, worker, -⟩
    cases k with
    | succ k =>
      rw [forUpto_succ] at own
      exact .inl ⟨_, _, own, not_false⟩
    | zero =>
      right
      rcases worker with whole | ⟨nothing, -⟩
      · left
        cases j with
        | zero => exact ⟨_, _, whole, not_false⟩
        | succ j =>
          rw [atomicIncrementer, forUpto_succ] at whole
          exact ⟨_, _, whole, not_false⟩
      · exact .inr ⟨own, nothing⟩
  · rintro c w mem ⟨k, j, own, worker, sum⟩ waits finished
    have none : k = 0 := by
      cases k with
      | zero => rfl
      | succ k => simp [own] at waits
    have done : j = 0 := by
      rcases worker with whole | ⟨-, zero⟩
      · simp [whole, atomicIncrementer] at finished
      · exact zero
    simpa [none, done] using sum

instance : Fintype HartId where
  elems := {.hart0, .hart1}
  complete i := by cases i <;> decide

/-- The variables of both harts. -/
def varsOf (c w : Part) : HartId → Vars
  | .hart0 => c.vars
  | .hart1 => w.vars

theorem varsOf_hart0 (c w : Part) (code : List Stmt) (vars : Vars) :
    Function.update (varsOf c w) .hart0 vars = varsOf ⟨code, vars⟩ w := by
  funext i
  cases i <;> rfl

theorem varsOf_hart1 (c w : Part) (code : List Stmt) (vars : Vars) :
    Function.update (varsOf c w) .hart1 vars = varsOf c ⟨code, vars⟩ := by
  funext i
  cases i <;> rfl

theorem sum_harts (f : HartId → Nat) : ∑ i, f i = f .hart0 + f .hart1 := by
  have both : (Finset.univ : Finset HartId) = {.hart0, .hart1} := rfl
  rw [both, Finset.sum_pair (by decide)]

/-- P4.3: the lock guards the counter. -/
structure Locking (n : Nat) (place : HartId → Spinlock.Place) (c w : Part) (mem : Mem) :
    Prop where
  own : c.code = (place .hart0).code []
  worker : w.code = (place .hart1).code [.put .core1_lock_done 1] ∨
    w.code = [] ∧ place .hart1 = .outside 0
  locked : Spinlock.Locked mem place
  counted : ∀ m : Shared HartId, m.mem = mem →
    Spinlock.Counted (fun _ => n) m (varsOf c w) place

def Locks (n : Nat) (c w : Part) (mem : Mem) : Prop :=
  ∃ place, Locking n place c w mem

theorem counted_of_mem {N : HartId → Nat} {m m' : Shared HartId} {vars : HartId → Vars}
    {place : HartId → Spinlock.Place} (counted : Spinlock.Counted N m vars place)
    (same : m'.mem = m.mem) : Spinlock.Counted N m' vars place :=
  ⟨fun i loaded => by rw [same]; exact counted.fresh i loaded, by rw [same]; exact counted.total⟩

theorem code_nil {p : Spinlock.Place} (nothing : p.code [] = []) : p = .outside 0 := by
  cases p with
  | outside k =>
    cases k with
    | zero => rfl
    | succ k =>
      rw [Spinlock.code_outside] at nothing
      cases nothing
  | _ => cases nothing

theorem computes3 (n : LoopCounts) (total : Nat) :
    Computes n .core1_lock_done .shared_var (BitVec.ofNat 64 (total * 2)) (Locks total) := by
  constructor
  · rintro stmt code vars w m ⟨place, own, worker, locked, counted⟩
    cases advanced : (place .hart0).advance .hart0 vars m with
    | none =>
      rw [Spinlock.outside_of_stuck advanced] at own
      cases own
    | some next =>
      obtain ⟨m', p', vars'⟩ := next
      obtain ⟨stmt', rest', whole, runs⟩ := Spinlock.exec_advance n [] advanced
      cases own.trans whole
      refine ⟨m', p'.code [], vars', fun rest => ?_, Spinlock.advance_posted advanced,
        ⟨Function.update place .hart0 p', ?_⟩,
        Spinlock.advance_other advanced (by decide) (by decide)⟩
      · obtain ⟨stmt', rest', whole', runs⟩ := Spinlock.exec_advance n rest advanced
        rw [← List.nil_append rest, ← Spinlock.code_append, whole, List.cons_append] at whole'
        cases whole'
        rw [runs, Spinlock.code_append]
        rfl
      · have counted' := (counted m rfl).advance locked (i := .hart0) advanced
        rw [varsOf_hart0 _ _ (p'.code [])] at counted'
        refine ⟨?_, ?_, locked.advance advanced, fun m'' same => counted_of_mem counted' same⟩
        · rw [Function.update_self]
        · rw [Function.update_of_ne (by decide)]
          exact worker
  · rintro stmt code vars c m ⟨place, own, working | ⟨nothing, -⟩, locked, counted⟩ down
    · cases advanced : (place .hart1).advance .hart1 vars m with
      | none =>
        have last := Spinlock.outside_of_stuck advanced
        rw [last] at working
        cases working
        refine ⟨_, [], _, fun _ => rfl, rfl, ⟨place, own, .inr ⟨rfl, last⟩, ?_, ?_⟩, by simp⟩
        · exact ⟨locked.word, locked.guards⟩
        · intro m' same
          have kept := counted m rfl
          refine ⟨fun i loaded => ?_, ?_⟩
          · rw [same]
            cases i <;> exact kept.fresh _ loaded
          · rw [same]
            exact kept.total
      | some next =>
        obtain ⟨m', p', vars'⟩ := next
        obtain ⟨stmt', rest', whole, runs⟩ :=
          Spinlock.exec_advance n [.put .core1_lock_done 1] advanced
        cases working.trans whole
        refine ⟨m', p'.code [.put .core1_lock_done 1], vars', fun rest => ?_,
          Spinlock.advance_posted advanced, ⟨Function.update place .hart1 p', ?_⟩, ?_⟩
        · obtain ⟨stmt', rest', whole', runs⟩ :=
            Spinlock.exec_advance n ([.put .core1_lock_done 1] ++ rest) advanced
          rw [← Spinlock.code_append, whole, List.cons_append] at whole'
          cases whole'
          rw [runs, Spinlock.code_append]
        · have counted' := (counted m rfl).advance locked (i := .hart1) advanced
          rw [varsOf_hart1 _ _ (p'.code [.put .core1_lock_done 1])] at counted'
          refine ⟨?_, .inl ?_, locked.advance advanced, fun _ same => counted_of_mem counted' same⟩
          · rw [Function.update_of_ne (by decide)]
            exact own
          · rw [Function.update_self]
        · have more : p'.code [.put .core1_lock_done 1] ≠ [] := by
            cases p' <;> simp [Spinlock.Place.code]
          rw [if_neg more]
          exact (Spinlock.advance_other advanced (by decide) (by decide)).trans down
    · cases nothing
  · rintro c w mem ⟨place, own, worker, locked, -⟩
    have goes0 (goes : mem .lock = 0 ∨ (place .hart0).inside) (busy : place .hart0 ≠ .outside 0) :
        Moves mem c.code := own ▸ spinlock_moves goes busy
    have not_outside {p : Spinlock.Place} (inside : p.inside) : p ≠ .outside 0 := by
      rintro rfl
      exact inside
    rcases worker with working | ⟨nothing, last⟩
    · by_cases last : place .hart1 = .outside 0
      · rw [last] at working
        exact .inr (.inl ⟨_, _, working, not_false⟩)
      · by_cases free : mem .lock = 0
        · exact .inr (.inl (working ▸ spinlock_moves (.inl free) last))
        · -- one of the harts is inside, and it goes on
          obtain ⟨i, inside⟩ := locked.guards.held.mp free
          cases i with
          | hart0 => exact .inl (goes0 (.inr inside) (not_outside inside))
          | hart1 => exact .inr (.inl (working ▸ spinlock_moves (.inr inside) last))
    · by_cases done : place .hart0 = .outside 0
      · refine .inr (.inr ⟨?_, nothing⟩)
        rw [own, done]
        rfl
      · by_cases free : mem .lock = 0
        · exact .inl (goes0 (.inl free) done)
        · obtain ⟨i, inside⟩ := locked.guards.held.mp free
          cases i with
          | hart0 => exact .inl (goes0 (.inr inside) done)
          | hart1 => exact absurd last (not_outside inside)
  · rintro c w mem ⟨place, own, worker, locked, counted⟩ waits finished
    have last0 := code_nil (own.symm.trans waits)
    have last1 : place .hart1 = .outside 0 := by
      rcases worker with whole | ⟨-, last⟩
      · rw [finished] at whole
        cases there : place .hart1 <;> simp [there, Spinlock.Place.code] at whole
      · exact last
    have total := (counted ⟨mem, [], []⟩ rfl).total
    simp only [sum_harts, last0, last1, Spinlock.Place.unstored] at total
    simpa [Nat.mul_two] using total

end ZephyrRiscv.P4.Outcomes
