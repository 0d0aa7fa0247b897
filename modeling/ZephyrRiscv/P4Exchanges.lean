import ZephyrRiscv.P4Outcomes

set_option autoImplicit false

namespace ZephyrRiscv.P4.Outcomes

open Transition Interleaving Phases

/-- Hart 0 has done `p` statements after its wake-up and the producer `q`. -/
structure Producing (p q : Nat) (b w : Part) (mem : Mem) : Prop where
  main : b.code = (phase1B.drop 2).drop p
  worker : w.code = fenceProducer.drop q
  expected : mem .fence_expected = CORE1_MAGIC_NUMBER
  loaded : q = 1 → w.vars .fst = CORE1_MAGIC_NUMBER
  payload : 2 ≤ q → mem .fence_payload = CORE1_MAGIC_NUMBER
  flag : mem .fence_flag = if 3 ≤ q then 1 else 0
  past : 1 ≤ p → 3 ≤ q
  done : mem .fence_done = if 5 ≤ p then 1 else 0
  awaited : 4 ≤ q → 5 ≤ p
  first : p = 2 ∨ p = 3 → b.vars .fst = CORE1_MAGIC_NUMBER
  second : p = 3 → b.vars .snd = CORE1_MAGIC_NUMBER
  outcome : 4 ≤ p → mem .fence_ok = 1
  read : p = 6 → b.vars .fst = 1

def Produces (b w : Part) (mem : Mem) : Prop :=
  ∃ p q, Producing p q b w mem

theorem Producing.hart0 {n : LoopCounts} {p q : Nat} {stmt : Stmt} {code : List Stmt}
    {vars : Vars} {w : Part} {m : Shared HartId}
    (producing : Producing p q ⟨stmt :: code, vars⟩ w m.mem) :
    Goes n .hart0 stmt code vars m fun b mem => Produces b w mem := by
  obtain ⟨bound, head, rfl⟩ := drop_cons producing.main
  match p, bound with
  | 0, _ =>
    cases head
    by_cases up : 3 ≤ q
    · have flag : m.mem .fence_flag ≠ 0 := by
        rw [producing.flag, if_pos up]
        decide
      refine ⟨m, _, vars, fun _ => ?_, rfl, 1, q, ⟨rfl, producing.worker, producing.expected,
        producing.loaded, producing.payload, producing.flag, fun _ => up, producing.done, ?_, ?_,
        ?_, ?_, ?_⟩⟩
      · simp only [exec, if_neg flag]
        rfl
      · exact fun late => absurd (producing.awaited late) (by omega)
      all_goals omega
    · have flag : m.mem .fence_flag = 0 := by rw [producing.flag, if_neg up]
      refine ⟨m, _, vars, fun _ => ?_, rfl, 0, q, producing⟩
      simp only [exec, if_pos flag]
      rfl
  | 1, _ =>
    cases head
    have past := producing.past (by omega)
    refine ⟨m, _, _, fun _ => rfl, rfl, 2, q, ⟨rfl, producing.worker, producing.expected,
      producing.loaded, producing.payload, producing.flag, fun _ => past, producing.done, ?_, ?_,
      ?_, ?_, ?_⟩⟩
    · exact fun late => absurd (producing.awaited late) (by omega)
    · simpa using producing.payload (by omega)
    all_goals omega
  | 2, _ =>
    cases head
    have past := producing.past (by omega)
    refine ⟨m, _, _, fun _ => rfl, rfl, 3, q, ⟨rfl, producing.worker, producing.expected,
      producing.loaded, producing.payload, producing.flag, fun _ => past, producing.done, ?_, ?_,
      ?_, ?_, ?_⟩⟩
    · exact fun late => absurd (producing.awaited late) (by omega)
    · simpa [Function.update] using producing.first (.inl rfl)
    · simpa using producing.expected
    all_goals omega
  | 3, _ =>
    cases head
    have past := producing.past (by omega)
    have same : vars .fst = vars .snd :=
      (producing.first (.inr rfl)).trans (producing.second rfl).symm
    refine ⟨_, _, vars, fun _ => rfl, rfl, 4, q, ⟨rfl, producing.worker, ?_, producing.loaded, ?_,
      ?_, fun _ => past, ?_, ?_, ?_, ?_, ?_, ?_⟩⟩
    · simpa [Function.update] using producing.expected
    · simpa [Function.update] using producing.payload
    · simpa [Function.update] using producing.flag
    · simpa [Function.update] using producing.done
    · exact fun late => absurd (producing.awaited late) (by omega)
    · omega
    · omega
    · simp [same]
    · omega
  | 4, _ =>
    cases head
    have past := producing.past (by omega)
    refine ⟨_, _, vars, fun _ => rfl, rfl, 5, q, ⟨rfl, producing.worker, ?_, producing.loaded, ?_,
      ?_, fun _ => past, ?_, fun _ => by omega, ?_, ?_, ?_, ?_⟩⟩
    · simpa [Function.update] using producing.expected
    · simpa [Function.update] using producing.payload
    · simpa [Function.update] using producing.flag
    · simp
    · omega
    · omega
    · simpa [Function.update] using producing.outcome
    · omega
  | 5, _ =>
    cases head
    have past := producing.past (by omega)
    have ok := producing.outcome (by omega)
    refine ⟨m, _, _, fun _ => rfl, rfl, 6, q, ⟨rfl, producing.worker, producing.expected,
      producing.loaded, producing.payload, producing.flag, fun _ => past, producing.done,
      fun _ => by omega, ?_, ?_, fun _ => ok, ?_⟩⟩
    · omega
    · omega
    · simpa using ok
  | 6, _ =>
    cases head
    have past := producing.past (by omega)
    have ok := producing.outcome (by omega)
    refine ⟨m, [], vars, fun _ => ?_, rfl, 7, q, ⟨rfl, producing.worker, producing.expected,
      producing.loaded, producing.payload, producing.flag, fun _ => past, producing.done,
      fun _ => by omega, ?_, ?_, fun _ => ok, ?_⟩⟩
    · simp only [exec, if_pos (producing.read rfl)]
      rfl
    all_goals omega

theorem Producing.hart1 {n : LoopCounts} {p q : Nat} {stmt : Stmt} {code : List Stmt}
    {vars : Vars} {b : Part} {m : Shared HartId}
    (producing : Producing p q b ⟨stmt :: code, vars⟩ m.mem) :
    Goes n .hart1 stmt code vars m fun w mem => Produces b w mem := by
  obtain ⟨bound, head, rfl⟩ := drop_cons producing.worker
  have early (low : q < 3) : p = 0 := by
    by_contra later
    have := producing.past (by omega)
    omega
  match q, bound with
  | 0, _ =>
    cases head
    cases early (by omega)
    refine ⟨m, _, _, fun _ => rfl, rfl, 0, 1, ⟨producing.main, rfl, producing.expected, fun _ => ?_,
      ?_, producing.flag, ?_, producing.done, ?_, ?_, ?_, ?_, ?_⟩⟩
    · simpa using producing.expected
    all_goals omega
  | 1, _ =>
    cases head
    cases early (by omega)
    refine ⟨_, _, vars, fun _ => rfl, rfl, 0, 2, ⟨producing.main, rfl, ?_, ?_, fun _ => ?_, ?_, ?_,
      ?_, ?_, ?_, ?_, ?_, ?_⟩⟩
    · simpa [Function.update] using producing.expected
    · omega
    · simpa using producing.loaded rfl
    · simpa [Function.update] using producing.flag
    · omega
    · simpa [Function.update] using producing.done
    all_goals omega
  | 2, _ =>
    cases head
    cases early (by omega)
    refine ⟨_, _, vars, fun _ => rfl, rfl, 0, 3, ⟨producing.main, rfl, ?_, ?_, fun _ => ?_, ?_, ?_,
      ?_, ?_, ?_, ?_, ?_, ?_⟩⟩
    · simpa [Function.update] using producing.expected
    · omega
    · simpa [Function.update] using producing.payload (by omega)
    · simp
    · omega
    · simpa [Function.update] using producing.done
    all_goals omega
  | 3, _ =>
    cases head
    by_cases up : 5 ≤ p
    · have done : m.mem .fence_done = 1 := by rw [producing.done, if_pos up]
      refine ⟨m, [], vars, fun _ => ?_, rfl, p, 4, ⟨producing.main, rfl, producing.expected, ?_,
        fun _ => producing.payload (by omega), producing.flag, fun _ => by omega, producing.done,
        fun _ => up, producing.first, producing.second, producing.outcome, producing.read⟩⟩
      · simp only [exec, if_pos done]
        rfl
      · omega
    · have waits : m.mem .fence_done ≠ 1 := by
        rw [producing.done, if_neg up]
        decide
      refine ⟨m, _, vars, fun _ => ?_, rfl, p, 3, producing⟩
      simp only [exec, if_neg waits]
      rfl

/-- At the end of the phase the worker has at most one look left at `fence_done`. -/
theorem Producing.ends {p q : Nat} {b w : Part} {mem : Mem} (producing : Producing p q b w mem)
    (finished : b.code = []) : Calm w.code mem := by
  have length := congrArg List.length (producing.main.symm.trans finished)
  simp [phase1B] at length
  have past := producing.past (by omega)
  have worker := producing.worker
  match q, worker with
  | 3, worker => exact .inr ⟨worker, by rw [producing.done, if_pos (by omega)]⟩
  | q + 4, worker => exact .inl (by simp [worker, fenceProducer])

theorem sure1B (n : LoopCounts) : Sure n Produces := by
  refine ⟨fun ⟨_, _, producing⟩ => producing.hart0, fun ⟨_, _, producing⟩ => producing.hart1, ?_⟩
  rintro b w mem ⟨p, q, producing⟩
  have main := producing.main
  have worker := producing.worker
  have past := producing.past
  match p, main with
  | 0, main =>
    by_cases raised : 3 ≤ q
    · refine .inl ⟨_, _, main, ?_⟩
      have up : mem .fence_flag = 1 := by rw [producing.flag, if_pos raised]
      simp [Blocked, up]
    · match q, worker, raised with
      | 0, worker, _ => exact .inr (.inl ⟨_, _, worker, not_false⟩)
      | 1, worker, _ => exact .inr (.inl ⟨_, _, worker, not_false⟩)
      | 2, worker, _ => exact .inr (.inl ⟨_, _, worker, not_false⟩)
      | q + 3, _, raised => exact absurd (by omega) raised
  | 1, main => exact .inl ⟨_, _, main, not_false⟩
  | 2, main => exact .inl ⟨_, _, main, not_false⟩
  | 3, main => exact .inl ⟨_, _, main, not_false⟩
  | 4, main => exact .inl ⟨_, _, main, not_false⟩
  | 5, main => exact .inl ⟨_, _, main, not_false⟩
  | 6, main => exact .inl ⟨_, _, main, not_false⟩
  | p + 7, main =>
    right
    have finished : b.code = [] := by simp [main, phase1B]
    rcases producing.ends finished with nothing | ⟨last, up⟩
    · exact .inr ⟨nothing, .inl finished⟩
    · exact .inl ⟨_, _, last, not_not_intro up⟩

/-- A loaded value is the current one, and what is stored and what is not stored make up the
total. -/
structure Summed (total : Nat) (mem : Mem) (vars : HartId → Vars)
    (place : HartId → PingPong.Place) : Prop where
  fresh : ∀ i k, place i = .loaded k → vars i .fst = mem .count
  sum : mem .count + BitVec.ofNat 64 ((place .hart0).unstored + (place .hart1).unstored) =
    BitVec.ofNat 64 (total * 2)

section Summed

variable {total : Nat} {m m' : Shared HartId} {vars : HartId → Vars}
  {place : HartId → PingPong.Place} {holder i : HartId} {p' : PingPong.Place} {vars' : Vars}

theorem Summed.keep (summed : Summed total m.mem vars place)
    (count : m'.mem .count = m.mem .count) (owed : p'.unstored = (place i).unstored)
    (fresh : ∀ k, p' = .loaded k → vars' .fst = m.mem .count) :
    Summed total m'.mem (Function.update vars i vars') (Function.update place i p') := by
  have unstored (j : HartId) : (Function.update place i p' j).unstored = (place j).unstored := by
    by_cases this : j = i
    · subst this
      rw [Function.update_self, owed]
    · rw [Function.update_of_ne this]
  constructor
  · intro j k loaded
    by_cases this : j = i
    · subst this
      rw [Function.update_self] at loaded ⊢
      exact (fresh k loaded).trans count.symm
    · rw [Function.update_of_ne this] at loaded ⊢
      exact (summed.fresh j k loaded).trans count.symm
  · rw [count, unstored, unstored, summed.sum]

/-- The store of the holder. -/
theorem Summed.store (summed : Summed total m.mem vars place)
    (turned : PingPong.Turned m.mem place holder) {k : Nat} (here : place holder = .loaded k)
    (count : m'.mem .count = vars holder .fst + 1) :
    Summed total m'.mem (Function.update vars holder (vars holder))
      (Function.update place holder (.stored k)) := by
  have idle := turned.idle
  have sum := summed.sum
  obtain ⟨k', away⟩ : ∃ k', place holder.other = .waiting k' := by
    cases away : place holder.other with
    | waiting k' => exact ⟨k', rfl⟩
    | _ =>
      rw [away] at idle
      exact absurd trivial idle
  constructor
  · intro j l loaded
    by_cases this : j = holder
    · subst this
      rw [Function.update_self] at loaded
      cases loaded
    · rw [Function.update_of_ne this, PingPong.eq_other this, away] at loaded
      cases loaded
  · rw [count, summed.fresh holder k here]
    cases holder with
    | hart0 =>
      simp only [HartId.other] at away
      simp only [here, away, PingPong.Place.unstored] at sum
      rw [Nat.add_right_comm, add_one_ofNat] at sum
      simpa [away, PingPong.Place.unstored] using sum
    | hart1 =>
      simp only [HartId.other] at away
      simp only [here, away, PingPong.Place.unstored] at sum
      rw [← Nat.add_assoc, add_one_ofNat] at sum
      simpa [away, PingPong.Place.unstored] using sum

theorem Summed.advance (summed : Summed total m.mem vars place)
    (turned : PingPong.Turned m.mem place holder)
    (advanced : (place i).advance i (vars i) m = some (m', p', vars')) :
    Summed total m'.mem (Function.update vars i vars') (Function.update place i p') := by
  by_cases mine : i = holder
  · subst mine
    cases here : place i with
    | waiting k =>
      rw [here] at advanced
      cases k with
      | zero => cases advanced
      | succ k =>
        simp only [PingPong.Place.advance, if_pos turned.turn] at advanced
        cases advanced
        exact summed.keep rfl (by rw [here]; rfl) fun _ loaded => by cases loaded
    | entered k =>
      rw [here] at advanced
      cases advanced
      exact summed.keep rfl (by rw [here]; rfl) (by simp)
    | loaded k =>
      rw [here] at advanced
      cases advanced
      exact summed.store turned here (by simp)
    | stored k =>
      rw [here] at advanced
      cases advanced
      exact summed.keep (by simp [Function.update]) (by rw [here]; rfl)
        fun _ loaded => by cases loaded
  · have mine := PingPong.eq_other mine
    subst mine
    obtain ⟨rfl, rfl, rfl⟩ := turned.blocked advanced
    rw [Function.update_eq_self, Function.update_eq_self]
    exact summed

end Summed

inductive Bounces (total : Nat) : Part → Part → Mem → Prop
  | playing {b w : Part} {mem : Mem} {place : HartId → PingPong.Place} {holder : HartId}
      (own : b.code = (place .hart0).code .hart0 (PingPong.lastWait total))
      (worker : w.code = (place .hart1).code .hart1 [])
      (turned : PingPong.Turned mem place holder) (summed : Summed total mem (varsOf b w) place) :
      Bounces total b w mem
  | reading {w : Part} {mem : Mem} {vars : Vars} (finished : w.code = [])
      (value : mem .count = BitVec.ofNat 64 (total * 2)) :
      Bounces total ⟨(PingPong.lastWait total).drop 1, vars⟩ w mem
  | judging {w : Part} {mem : Mem} {vars : Vars} (finished : w.code = [])
      (value : vars .fst = BitVec.ofNat 64 (total * 2)) :
      Bounces total ⟨(PingPong.lastWait total).drop 2, vars⟩ w mem
  | passed {w : Part} {mem : Mem} {vars : Vars} (finished : w.code = []) :
      Bounces total ⟨[.testPass], vars⟩ w mem

theorem Bounces.hart0 {n : LoopCounts} {total : Nat} {stmt : Stmt} {code : List Stmt} {vars : Vars}
    {w : Part} {m : Shared HartId} (link : Bounces total ⟨stmt :: code, vars⟩ w m.mem) :
    Goes n .hart0 stmt code vars m fun b mem => Bounces total b w mem := by
  generalize whole : (⟨stmt :: code, vars⟩ : Part) = b at link
  cases link with
  | @playing _ _ _ place holder own worker turned summed =>
    subst whole
    cases advanced : (place .hart0).advance .hart0 vars m with
    | some next =>
      obtain ⟨m', p', vars'⟩ := next
      obtain ⟨stmt', rest', whole, runs⟩ :=
        PingPong.exec_advance n (PingPong.lastWait total) advanced
      cases own.trans whole
      obtain ⟨holder', turned'⟩ := turned.advance advanced
      have summed' := summed.advance turned (i := .hart0) advanced
      rw [varsOf_hart0 _ _ (p'.code .hart0 (PingPong.lastWait total))] at summed'
      refine ⟨m', p'.code .hart0 (PingPong.lastWait total), vars', fun rest => ?_,
        PingPong.advance_posted advanced, .playing ?_ ?_ turned' summed'⟩
      · obtain ⟨stmt', rest', whole', runs⟩ :=
          PingPong.exec_advance n (PingPong.lastWait total ++ rest) advanced
        rw [← PingPong.code_append, whole, List.cons_append] at whole'
        cases whole'
        rw [runs, PingPong.code_append]
      · rw [Function.update_self]
      · rw [Function.update_of_ne (by decide)]
        exact worker
    | none =>
      have here := PingPong.waiting_of_stuck advanced
      rw [here] at own
      cases own
      by_cases turn : m.mem .turn = 0
      · have last := turned.last here turn
        have sum := summed.sum
        simp only [here, last, PingPong.Place.unstored] at sum
        refine ⟨m, _, vars, fun rest => ?_, rfl, .reading ?_ (by simpa using sum)⟩
        · simp only [exec, if_pos turn]
          rfl
        · rw [worker, last]
          rfl
      · refine ⟨m, _, vars, fun rest => ?_, rfl,
          .playing (by rw [here]; rfl) worker turned summed⟩
        simp only [exec, if_neg turn]
        rfl
  | reading finished value =>
    cases whole
    refine ⟨m, _, _, fun _ => rfl, rfl, .judging finished ?_⟩
    simpa using value
  | judging finished value =>
    cases whole
    refine ⟨m, _, vars, fun _ => ?_, rfl, .passed finished⟩
    simp only [exec, if_pos value]
  | passed finished =>
    cases whole
    exact ⟨m, [.testPass], vars, fun _ => rfl, rfl, .passed finished⟩

theorem Bounces.hart1 {n : LoopCounts} {total : Nat} {stmt : Stmt} {code : List Stmt} {vars : Vars}
    {b : Part} {m : Shared HartId} (link : Bounces total b ⟨stmt :: code, vars⟩ m.mem) :
    Goes n .hart1 stmt code vars m fun w mem => Bounces total b w mem := by
  cases link with
  | @playing _ _ _ place holder own worker turned summed =>
    cases advanced : (place .hart1).advance .hart1 vars m with
    | some next =>
      obtain ⟨m', p', vars'⟩ := next
      obtain ⟨stmt', rest', whole, runs⟩ := PingPong.exec_advance n [] advanced
      cases worker.trans whole
      obtain ⟨holder', turned'⟩ := turned.advance advanced
      have summed' := summed.advance turned (i := .hart1) advanced
      rw [varsOf_hart1 _ _ (p'.code .hart1 [])] at summed'
      refine ⟨m', p'.code .hart1 [], vars', fun rest => ?_,
        PingPong.advance_posted advanced, .playing ?_ ?_ turned' summed'⟩
      · obtain ⟨stmt', rest', whole', runs⟩ := PingPong.exec_advance n ([] ++ rest) advanced
        rw [← PingPong.code_append, whole, List.cons_append] at whole'
        cases whole'
        rw [runs, PingPong.code_append]
      · rw [Function.update_of_ne (by decide)]
        exact own
      · rw [Function.update_self]
    | none =>
      rw [PingPong.waiting_of_stuck advanced] at worker
      cases worker
  | reading finished => cases finished
  | judging finished => cases finished
  | passed finished => cases finished

theorem sure4 (n : LoopCounts) (total : Nat) : Sure n (Bounces total) := by
  refine ⟨fun link => link.hart0, fun link => link.hart1, ?_⟩
  intro b w mem link
  cases link with
  | @playing _ _ _ place holder own worker turned summed =>
    cases holder with
    | hart0 =>
      rw [own]
      exact .inl (pingPong_moves turned.turn fun _ => ⟨_, _, rfl, not_not_intro turned.turn⟩)
    | hart1 =>
      -- hart 1 has one round more than hart 0
      rw [worker]
      refine .inr (.inl (pingPong_moves turned.turn fun last => ?_))
      have left := turned.left
      simp [last, PingPong.Place.left, PingPong.turnOf] at left
  | reading finished value => exact .inl ⟨_, _, rfl, not_false⟩
  | judging finished value => exact .inl ⟨_, _, rfl, not_false⟩
  | passed finished => exact .inr (.inr ⟨finished, .inr rfl⟩)

end ZephyrRiscv.P4.Outcomes
