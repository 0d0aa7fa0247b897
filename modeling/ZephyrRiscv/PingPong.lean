import ZephyrRiscv.P4Harts

set_option autoImplicit false

namespace ZephyrRiscv.P4.PingPong

open Transition Interleaving

/-- The value of `turn` that a hart waits for. -/
def turnOf : HartId → BitVec 64
  | .hart0 => 0
  | .hart1 => 1

/-- Where a hart is in its loop, with the rounds that it has not begun. -/
inductive Place where
  | waiting (n : Nat)
  | entered (n : Nat)
  | loaded (n : Nat)
  | stored (n : Nat)

/-- The code of a hart at a place, where `after` follows the loop. -/
def Place.code (i : HartId) (after : List Stmt) : Place → List Stmt
  | .waiting n => forUpto n (turnRound (turnOf i) (turnOf i.other)) ++ after
  | .entered n =>
      .load .fst .count :: .putSucc .count .fst :: .put .turn (turnOf i.other) ::
        (forUpto n (turnRound (turnOf i) (turnOf i.other)) ++ after)
  | .loaded n =>
      .putSucc .count .fst :: .put .turn (turnOf i.other) ::
        (forUpto n (turnRound (turnOf i) (turnOf i.other)) ++ after)
  | .stored n =>
      .put .turn (turnOf i.other) :: (forUpto n (turnRound (turnOf i) (turnOf i.other)) ++ after)

/-- Between the end of the wait and the store that passes the turn. -/
def Place.inside : Place → Prop
  | .waiting _ => False
  | _ => True

/-- The rounds in which the hart has not passed the turn. -/
def Place.left : Place → Nat
  | .waiting n => n
  | .entered n | .loaded n | .stored n => n + 1

/-- The increments that the hart has not stored. -/
def Place.unstored : Place → Nat
  | .waiting n | .stored n => n
  | .entered n | .loaded n => n + 1

/-- One statement of the loop. -/
def Place.advance (i : HartId) (vars : Vars) (m : Shared HartId) :
    Place → Option (Shared HartId × Place × Vars)
  | .waiting 0 => none
  | .waiting (n + 1) =>
      some (m, if m.mem .turn = turnOf i then .entered n else .waiting (n + 1), vars)
  | .entered n => some (m, .loaded n, Function.update vars .fst (m.mem .count))
  | .loaded n =>
      some ({ m.write .count (vars .fst + 1) with increments := m.increments ++ [i] },
        .stored n, vars)
  | .stored n => some (m.write .turn (turnOf i.other), .waiting n, vars)

section Code

variable (i : HartId) (after : List Stmt) (n : Nat)

theorem code_waiting : (Place.waiting (n + 1)).code i after =
    .spinWait .turn (turnOf i) :: (Place.entered n).code i after := by
  simp [Place.code, turnRound]

theorem code_entered : (Place.entered n).code i after =
    .load .fst .count :: (Place.loaded n).code i after := rfl

theorem code_loaded : (Place.loaded n).code i after =
    .putSucc .count .fst :: (Place.stored n).code i after := rfl

theorem code_stored : (Place.stored n).code i after =
    .put .turn (turnOf i.other) :: (Place.waiting n).code i after := rfl

theorem code_append (p : Place) (rest : List Stmt) :
    p.code i after ++ rest = p.code i (after ++ rest) := by
  cases p <;> simp [Place.code]

end Code

/-- The code of a place runs as the place advances. -/
theorem exec_advance (n : LoopCounts) {i : HartId} {p p' : Place} (after : List Stmt)
    {m m' : Shared HartId} {vars vars' : Vars}
    (advanced : p.advance i vars m = some (m', p', vars')) :
    ∃ stmt rest, p.code i after = stmt :: rest ∧
      exec n i stmt rest vars m = (m', ⟨p'.code i after, vars'⟩) := by
  cases p with
  | waiting k =>
    cases k with
    | zero => cases advanced
    | succ k =>
      cases advanced
      refine ⟨_, _, code_waiting i after k, ?_⟩
      rw [apply_ite (Place.code i after), code_waiting]
      rfl
  | entered k =>
    cases advanced
    exact ⟨_, _, code_entered i after k, rfl⟩
  | loaded k =>
    cases advanced
    exact ⟨_, _, code_loaded i after k, rfl⟩
  | stored k =>
    cases advanced
    exact ⟨_, _, code_stored i after k, rfl⟩

theorem waiting_of_stuck {i : HartId} {p : Place} {vars : Vars} {m : Shared HartId}
    (stuck : p.advance i vars m = none) : p = .waiting 0 := by
  cases p with
  | waiting k =>
    cases k with
    | zero => rfl
    | succ k => cases stuck
  | _ => cases stuck

theorem advance_posted {i : HartId} {p p' : Place} {m m' : Shared HartId} {vars vars' : Vars}
    (advanced : p.advance i vars m = some (m', p', vars')) : m'.posted = m.posted := by
  cases p with
  | waiting k =>
    cases k with
    | zero => cases advanced
    | succ k =>
      cases advanced
      rfl
  | _ =>
    cases advanced
    rfl

theorem step_advance {n : LoopCounts} {s : State HartId} {i : HartId} {p p' : Place}
    {after : List Stmt} {m' : Shared HartId} {vars' : Vars}
    (here : (s.thread i).code = p.code i after)
    (advanced : p.advance i (s.thread i).vars s.shared = some (m', p', vars')) :
    step (exec n) s i =
      { shared := m', thread := Function.update s.thread i ⟨p'.code i after, vars'⟩ } := by
  obtain ⟨stmt, rest, code, runs⟩ := exec_advance n after advanced
  rw [step_cons (here.trans code), runs]

/-- Hart 1 has as many rounds left as hart 0 when the turn is hart 0's, one more when it is its
own. -/
structure Turned (mem : Field → BitVec 64) (place : HartId → Place) (holder : HartId) : Prop where
  turn : mem .turn = turnOf holder
  idle : ¬ (place holder.other).inside
  left : (place .hart1).left = (place .hart0).left + (turnOf holder).toNat

theorem turn_ne_other (i : HartId) : turnOf i.other ≠ turnOf i := by
  cases i <;> decide

theorem eq_other {i holder : HartId} (different : i ≠ holder) : i = holder.other := by
  cases i <;> cases holder <;> first | rfl | exact absurd rfl different

theorem other_ne (i : HartId) : i.other ≠ i := by
  cases i <;> decide

/-- The hart without the turn is at its wait and stays there. -/
theorem Turned.blocked {m m' : Shared HartId} {place : HartId → Place} {holder : HartId}
    {p' : Place} {vars vars' : Vars} (turned : Turned m.mem place holder)
    (advanced : (place holder.other).advance holder.other vars m = some (m', p', vars')) :
    m' = m ∧ p' = place holder.other ∧ vars' = vars := by
  have idle := turned.idle
  cases here : place holder.other with
  | waiting k =>
    rw [here] at advanced
    cases k with
    | zero => cases advanced
    | succ k =>
      have kept : m.mem .turn ≠ turnOf holder.other := by
        rw [turned.turn]
        exact (turn_ne_other holder).symm
      simp only [Place.advance, if_neg kept] at advanced
      cases advanced
      exact ⟨rfl, rfl, rfl⟩
  | _ =>
    rw [here] at idle
    exact absurd trivial idle

/-- A step inside the holder's round keeps the turn. -/
theorem Turned.keep {m m' : Shared HartId} {place : HartId → Place} {holder : HartId} {p' : Place}
    (turned : Turned m.mem place holder) (same : m'.mem .turn = m.mem .turn)
    (left : p'.left = (place holder).left) :
    Turned m'.mem (Function.update place holder p') holder := by
  refine ⟨same.trans turned.turn, ?_, ?_⟩
  · rw [Function.update_of_ne (other_ne holder)]
    exact turned.idle
  · have before := turned.left
    cases holder with
    | hart0 => simpa [left] using before
    | hart1 => simpa [left] using before

theorem Turned.pass {m m' : Shared HartId} {place : HartId → Place} {holder : HartId} {k : Nat}
    (turned : Turned m.mem place holder) (here : place holder = .stored k)
    (now : m'.mem .turn = turnOf holder.other) :
    Turned m'.mem (Function.update place holder (.waiting k)) holder.other := by
  have before := turned.left
  cases holder with
  | hart0 =>
    refine ⟨now, by simp [HartId.other, Place.inside], ?_⟩
    rw [here] at before
    simpa [Place.left, turnOf, HartId.other] using before
  | hart1 =>
    refine ⟨now, by simp [HartId.other, Place.inside], ?_⟩
    rw [here] at before
    simpa [Place.left, turnOf, HartId.other] using before

theorem Turned.advance {m m' : Shared HartId} {place : HartId → Place} {holder i : HartId}
    {p' : Place} {vars vars' : Vars} (turned : Turned m.mem place holder)
    (advanced : (place i).advance i vars m = some (m', p', vars')) :
    ∃ holder', Turned m'.mem (Function.update place i p') holder' := by
  by_cases mine : i = holder
  · subst mine
    cases here : place i with
    | waiting k =>
      rw [here] at advanced
      cases k with
      | zero => cases advanced
      | succ k =>
        simp only [Place.advance, if_pos turned.turn] at advanced
        cases advanced
        exact ⟨i, turned.keep rfl (by rw [here]; rfl)⟩
    | entered k =>
      rw [here] at advanced
      cases advanced
      exact ⟨i, turned.keep rfl (by rw [here]; rfl)⟩
    | loaded k =>
      rw [here] at advanced
      cases advanced
      exact ⟨i, turned.keep (by simp [Function.update]) (by rw [here]; rfl)⟩
    | stored k =>
      rw [here] at advanced
      cases advanced
      exact ⟨i.other, turned.pass here (by simp)⟩
  · have mine := eq_other mine
    subst mine
    obtain ⟨rfl, rfl, rfl⟩ := turned.blocked advanced
    rw [Function.update_eq_self]
    exact ⟨holder, turned⟩

/-- When hart 0 has no rounds left and gets the turn back, hart 1 has none left either. -/
theorem Turned.last {mem : Field → BitVec 64} {place : HartId → Place} {holder : HartId}
    (turned : Turned mem place holder) (here : place .hart0 = .waiting 0) (turn : mem .turn = 0) :
    place .hart1 = .waiting 0 := by
  have left := turned.left
  rw [← turned.turn, turn, here] at left
  cases there : place .hart1 with
  | waiting k =>
    rw [there] at left
    exact congrArg Place.waiting left
  | _ =>
    rw [there] at left
    cases left

/-- `k` harts in turn, hart 0 first. -/
def alternating : Nat → List HartId
  | 0 => []
  | k + 1 => alternating k ++ [if k % 2 = 0 then .hart0 else .hart1]

theorem length_alternating (k : Nat) : (alternating k).length = k := by
  induction k with
  | zero => rfl
  | succ k ih => simp [alternating, ih]

structure Tallied (N : Nat) (m : Shared HartId) (vars : HartId → Vars) (place : HartId → Place) :
    Prop where
  fresh : ∀ i k, place i = .loaded k → vars i .fst = m.mem .count
  count : m.mem .count = BitVec.ofNat 64 m.increments.length
  total : m.increments.length + (place .hart0).unstored + (place .hart1).unstored = 2 * N
  order : m.increments = alternating m.increments.length

section Tally

variable {N : Nat} {m m' : Shared HartId} {vars : HartId → Vars} {place : HartId → Place}
  {holder i : HartId} {p' : Place} {vars' : Vars}

theorem Tallied.keep (tallied : Tallied N m vars place) (count : m'.mem .count = m.mem .count)
    (increments : m'.increments = m.increments) (owed : p'.unstored = (place i).unstored)
    (fresh : ∀ k, p' = .loaded k → vars' .fst = m.mem .count) :
    Tallied N m' (Function.update vars i vars') (Function.update place i p') := by
  have unstored (j : HartId) : (Function.update place i p' j).unstored = (place j).unstored := by
    by_cases this : j = i
    · subst this
      rw [Function.update_self, owed]
    · rw [Function.update_of_ne this]
  refine ⟨?_, ?_, ?_, ?_⟩
  · intro j k loaded
    by_cases this : j = i
    · subst this
      rw [Function.update_self] at loaded ⊢
      exact (fresh k loaded).trans count.symm
    · rw [Function.update_of_ne this] at loaded ⊢
      exact (tallied.fresh j k loaded).trans count.symm
  · rw [count, increments, tallied.count]
  · rw [increments, unstored, unstored, tallied.total]
  · rw [increments]
    exact tallied.order

/-- The store of the holder comes in its turn. -/
theorem Tallied.store (tallied : Tallied N m vars place) (turned : Turned m.mem place holder)
    {k : Nat} (here : place holder = .loaded k) (count : m'.mem .count = vars holder .fst + 1)
    (increments : m'.increments = m.increments ++ [holder]) :
    Tallied N m' (Function.update vars holder (vars holder))
      (Function.update place holder (.stored k)) := by
  have total := tallied.total
  have left := turned.left
  have idle := turned.idle
  obtain ⟨k', away⟩ : ∃ k', place holder.other = .waiting k' := by
    cases away : place holder.other with
    | waiting k' => exact ⟨k', rfl⟩
    | _ =>
      rw [away] at idle
      exact absurd trivial idle
  refine ⟨?_, ?_, ?_, ?_⟩
  · intro j k' loaded
    by_cases this : j = holder
    · subst this
      rw [Function.update_self] at loaded
      cases loaded
    · rw [Function.update_of_ne this, eq_other this, away] at loaded
      cases loaded
  · rw [count, increments, tallied.fresh holder k here, tallied.count]
    simp [BitVec.ofNat_add]
  · cases holder with
    | hart0 =>
      simp only [HartId.other] at away
      simp only [here, away, Place.unstored] at total
      simp [increments, away, Place.unstored]
      omega
    | hart1 =>
      simp only [HartId.other] at away
      simp only [here, away, Place.unstored] at total
      simp [increments, away, Place.unstored]
      omega
  · rw [increments, List.length_append, List.length_singleton, alternating, ← tallied.order]
    cases holder with
    | hart0 =>
      simp only [HartId.other] at away
      simp only [here, away, Place.unstored, Place.left, turnOf] at total left
      have even : m.increments.length % 2 = 0 := by
        simp at left
        omega
      rw [if_pos even]
    | hart1 =>
      simp only [HartId.other] at away
      simp only [here, away, Place.unstored, Place.left, turnOf] at total left
      have odd : ¬ m.increments.length % 2 = 0 := by
        simp at left
        omega
      rw [if_neg odd]

theorem Tallied.advance (tallied : Tallied N m vars place) (turned : Turned m.mem place holder)
    (advanced : (place i).advance i (vars i) m = some (m', p', vars')) :
    Tallied N m' (Function.update vars i vars') (Function.update place i p') := by
  by_cases mine : i = holder
  · subst mine
    cases here : place i with
    | waiting k =>
      rw [here] at advanced
      cases k with
      | zero => cases advanced
      | succ k =>
        simp only [Place.advance, if_pos turned.turn] at advanced
        cases advanced
        exact tallied.keep rfl rfl (by rw [here]; rfl) nofun
    | entered k =>
      rw [here] at advanced
      cases advanced
      exact tallied.keep rfl rfl (by rw [here]; rfl) (by simp)
    | loaded k =>
      rw [here] at advanced
      cases advanced
      exact tallied.store turned here (by simp) rfl
    | stored k =>
      rw [here] at advanced
      cases advanced
      exact tallied.keep (by simp [Function.update]) rfl (by rw [here]; rfl) nofun
  · have mine := eq_other mine
    subst mine
    obtain ⟨rfl, rfl, rfl⟩ := turned.blocked advanced
    rw [Function.update_eq_self, Function.update_eq_self]
    exact tallied

end Tally

/-- At the load of `count` or at the store of its successor. -/
def AccessesCount : List Stmt → Prop
  | .load _ f :: _ => f = .count
  | .putSucc f _ :: _ => f = .count
  | _ => False

/-- No `spin_wait` is left. -/
def PastWait (code : List Stmt) : Prop :=
  ∀ f v, .spinWait f v ∉ code

/-- Hart 0 about to enter its loop, hart 1 about to run `ping`. -/
structure AtStart (N : Nat) (s : State HartId) : Prop where
  hart0 : (s.thread .hart0).code = pingPongMain N
  hart1 : (s.thread .hart1).code = ping N
  turn : s.shared.mem .turn = 0
  count : s.shared.mem .count = 0
  increments : s.shared.increments = []

/-- What hart 0 runs after its loop. -/
def lastWait (N : Nat) : List Stmt :=
  [.spinWait .turn 0, .load .fst .count, .assertEq .fst (BitVec.ofNat 64 (N * 2)) 790, .testPass]

structure Playing (N : Nat) (s : State HartId) (place : HartId → Place) (holder : HartId) :
    Prop where
  hart0 : (s.thread .hart0).code = (place .hart0).code .hart0 (lastWait N)
  hart1 : (s.thread .hart1).code = (place .hart1).code .hart1 []
  turned : Turned s.shared.mem place holder
  tallied : Tallied N s.shared (fun i => (s.thread i).vars) place

/-- Hart 0 is past its last wait. -/
structure Played (N : Nat) (s : State HartId) : Prop where
  hart0 : (s.thread .hart0).code = (lastWait N).drop 1 ∨
    (s.thread .hart0).code = (lastWait N).drop 2 ∧
      (s.thread .hart0).vars .fst = BitVec.ofNat 64 (N * 2) ∨
    (s.thread .hart0).code = (lastWait N).drop 3
  hart1 : (s.thread .hart1).code = []
  count : s.shared.mem .count = BitVec.ofNat 64 (N * 2)
  increments : s.shared.increments = alternating (N * 2)

section Runs

variable {N : Nat} {n : LoopCounts} {s : State HartId} {place : HartId → Place} {holder : HartId}

theorem AtStart.playing (start : AtStart N s) :
    Playing N s (fun _ => .waiting N) .hart0 := by
  refine ⟨start.hart0, ?_, ⟨start.turn, by simp [Place.inside], rfl⟩, ?_⟩
  · simpa [ping, Place.code, turnOf, HartId.other] using start.hart1
  · refine ⟨?_, ?_, ?_, ?_⟩
    · intro i k loaded
      cases loaded
    · rw [start.count, start.increments]
      rfl
    · rw [start.increments, List.length_nil, Nat.zero_add]
      exact (Nat.two_mul N).symm
    · rw [start.increments]
      rfl

/-- A hart in its loop. -/
theorem Playing.advance (playing : Playing N s place holder) {i : HartId} {m' : Shared HartId}
    {p' : Place} {vars' : Vars}
    (advanced : (place i).advance i (s.thread i).vars s.shared = some (m', p', vars')) :
    ∃ place' holder', Playing N (step (exec n) s i) place' holder' := by
  obtain ⟨holder', turned⟩ := playing.turned.advance advanced
  have tallied := playing.tallied.advance playing.turned advanced
  refine ⟨Function.update place i p', holder', ?_⟩
  cases i with
  | hart0 =>
    rw [step_advance playing.hart0 advanced]
    refine ⟨by simp, by simp [playing.hart1], turned, ?_⟩
    rw [update_vars]
    exact tallied
  | hart1 =>
    rw [step_advance playing.hart1 advanced]
    refine ⟨by simp [playing.hart0], by simp, turned, ?_⟩
    rw [update_vars]
    exact tallied

theorem Playing.step (playing : Playing N s place holder) (i : HartId) :
    (∃ place' holder', Playing N (step (exec n) s i) place' holder') ∨
    Played N (step (exec n) s i) := by
  cases advanced : (place i).advance i (s.thread i).vars s.shared with
  | some next =>
    obtain ⟨m', p', vars'⟩ := next
    exact .inl (playing.advance advanced)
  | none =>
    have here := waiting_of_stuck advanced
    cases i with
    | hart1 =>
      have code : (s.thread .hart1).code = [] := by
        rw [playing.hart1, here]
        rfl
      rw [step_nil code]
      exact .inl ⟨place, holder, playing⟩
    | hart0 =>
      have code : (s.thread .hart0).code = lastWait N := by
        rw [playing.hart0, here]
        rfl
      by_cases turn : s.shared.mem .turn = 0
      · right
        have there := playing.turned.last here turn
        have total := playing.tallied.total
        rw [here, there] at total
        have length : s.shared.increments.length = N * 2 := by
          simp only [Place.unstored] at total
          omega
        rw [step_cons code]
        refine ⟨.inl ?_, ?_, ?_, ?_⟩
        · simp only [exec, if_pos turn, Function.update_self]
          rfl
        · show (s.thread .hart1).code = []
          rw [playing.hart1, there]
          rfl
        · simp only [exec]
          rw [playing.tallied.count, length]
        · simp only [exec]
          rw [playing.tallied.order, length]
      · left
        rw [step_waits code (by simp only [exec, if_neg turn])]
        exact ⟨place, holder, playing⟩

theorem Played.step (played : Played N s) (i : HartId) : Played N (step (exec n) s i) := by
  cases i with
  | hart1 =>
    rw [step_nil played.hart1]
    exact played
  | hart0 =>
    rcases played.hart0 with code | ⟨code, loaded⟩ | code
    · rw [step_cons code]
      refine ⟨.inr (.inl ⟨?_, ?_⟩), played.hart1, played.count, played.increments⟩
      · simp [exec, lastWait]
      · simpa [exec] using played.count
    · rw [step_cons code]
      refine ⟨.inr (.inr ?_), played.hart1, played.count, played.increments⟩
      simp [exec, lastWait, loaded]
    · rw [step_waits code rfl]
      exact played

theorem reached_playing_or_played
    (reached : Reachable (AtStart N) (Fires (interleave (exec n))) s) :
    (∃ place holder, Playing N s place holder) ∨ Played N s := by
  apply reached.invariant (I := fun s => (∃ place holder, Playing N s place holder) ∨ Played N s)
  · exact fun s start => .inl ⟨_, _, start.playing⟩
  · rintro s i s' (⟨place, holder, playing⟩ | played) fired
    · cases fired
      exact playing.step i
    · cases fired
      exact .inr (played.step i)

theorem inside_of_accesses {i : HartId} {p : Place} {after : List Stmt}
    (accesses : AccessesCount (p.code i after)) (quiet : ¬ AccessesCount after) : p.inside := by
  cases p with
  | waiting k =>
    cases k with
    | zero => exact absurd accesses quiet
    | succ k =>
      rw [code_waiting] at accesses
      exact accesses.elim
  | _ => trivial

theorem Playing.exclusive (playing : Playing N s place holder) :
    ¬ (AccessesCount (s.thread .hart0).code ∧ AccessesCount (s.thread .hart1).code) := by
  rintro ⟨left, right⟩
  rw [playing.hart0] at left
  rw [playing.hart1] at right
  have idle := playing.turned.idle
  cases holder with
  | hart0 => exact idle (inside_of_accesses right not_false)
  | hart1 => exact idle (inside_of_accesses left not_false)

theorem Playing.waits (playing : Playing N s place holder) :
    ¬ PastWait (s.thread .hart0).code := by
  intro past
  apply past .turn 0
  rw [playing.hart0]
  cases place .hart0 with
  | _ k => simp [Place.code, lastWait]

/-- The harts increment `count` one at a time and in turn, no increment is lost, and hart 0
passes its last wait only when both have done all rounds. -/
theorem turns_exact (N : Nat)
    (reached : Reachable (AtStart N) (Fires (interleave (exec n))) s) :
    ¬ (AccessesCount (s.thread .hart0).code ∧ AccessesCount (s.thread .hart1).code) ∧
    s.shared.mem .count = BitVec.ofNat 64 s.shared.increments.length ∧
    s.shared.increments = alternating s.shared.increments.length ∧
    (PastWait (s.thread .hart0).code →
      s.shared.mem .count = BitVec.ofNat 64 (2 * N) ∧ s.shared.increments.length = 2 * N ∧
      (s.thread .hart1).code = []) := by
  rcases reached_playing_or_played reached with ⟨place, holder, playing⟩ | played
  · exact ⟨playing.exclusive, playing.tallied.count, playing.tallied.order,
      fun past => absurd past playing.waits⟩
  · have length : s.shared.increments.length = N * 2 := by
      rw [played.increments, length_alternating]
    refine ⟨?_, ?_, ?_, fun _ => ⟨?_, ?_, played.hart1⟩⟩
    · rintro ⟨-, right⟩
      rw [played.hart1] at right
      exact right
    · rw [length, played.count]
    · rw [length, played.increments]
    · rw [played.count, Nat.mul_comm]
    · rw [length, Nat.mul_comm]

end Runs

/-- Two rounds of each hart. Both come to a turn that is not theirs, hart 0 at its last wait too. -/
def twoRounds : List HartId :=
  [.hart1, .hart0, .hart0, .hart0, .hart0, .hart0, .hart1, .hart1, .hart1, .hart1, .hart1,
    .hart0, .hart0, .hart0, .hart0, .hart0, .hart1, .hart1, .hart1, .hart1, .hart0]

def bothHarts : State HartId where
  shared := { mem := fun _ => 0, posted := [], increments := [] }
  thread i := ⟨match i with | .hart0 => pingPongMain 2 | .hart1 => ping 2, fun _ => 0⟩

theorem turns_exact_two_rounds :
    ∃ s : State HartId, Reachable (AtStart 2) (Fires (interleave (exec loopCounts))) s ∧
      s.shared.increments = [.hart0, .hart1, .hart0, .hart1] ∧
      s.shared.mem .count = BitVec.ofNat 64 (2 * 2) := by
  have replayed : (replay (interleave (exec loopCounts)) bothHarts twoRounds).map
      (fun s => ((s.thread .hart0).code, s.shared.increments)) =
        some ((lastWait 2).drop 1, [.hart0, .hart1, .hart0, .hart1]) := by
    decide
  obtain ⟨s, run, ended⟩ := Option.map_eq_some_iff.mp replayed
  simp only [Prod.mk.injEq] at ended
  have reached : Reachable (AtStart 2) (Fires (interleave (exec loopCounts))) s :=
    (Reachable.start ⟨rfl, rfl, rfl, rfl, rfl⟩).replay run
  have past : PastWait (s.thread .hart0).code := by
    rw [ended.1]
    simp [PastWait, lastWait]
  exact ⟨s, reached, ended.2, ((turns_exact 2 reached).2.2.2 past).1⟩

end ZephyrRiscv.P4.PingPong
