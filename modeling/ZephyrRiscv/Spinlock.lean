import ZephyrRiscv.P4Harts

set_option autoImplicit false

namespace ZephyrRiscv.P4.Spinlock

open Transition Interleaving

variable {ι : Type}

/-- Where a hart is in the loop, with the rounds that it has not begun. -/
inductive Place where
  | outside (n : Nat)
  | entered (n : Nat)
  | delaying (n j : Nat)
  | storing (n : Nat)
  | stored (n : Nat)

/-- The code at a place, where `after` follows the loop. -/
def Place.code (after : List Stmt) : Place → List Stmt
  | .outside n => forUpto n spinlockRound ++ after
  | .entered n => spinlockRound.tail ++ (forUpto n spinlockRound ++ after)
  | .delaying n j =>
      .delay j :: .putSucc .shared_var .fst :: .release .lock :: (forUpto n spinlockRound ++ after)
  | .storing n =>
      .putSucc .shared_var .fst :: .release .lock :: (forUpto n spinlockRound ++ after)
  | .stored n => .release .lock :: (forUpto n spinlockRound ++ after)

/-- Between a successful `spinlock_acquire` and its `spinlock_release`. -/
def Place.inside : Place → Prop
  | .entered _ | .delaying _ _ | .storing _ | .stored _ => True
  | .outside _ => False

/-- Between the load of `shared_var` and the store of its successor. -/
def Place.loaded : Place → Prop
  | .delaying _ _ | .storing _ => True
  | _ => False

/-- The increments that the hart has not stored. -/
def Place.unstored : Place → Nat
  | .outside n | .stored n => n
  | .entered n | .delaying n _ | .storing n => n + 1

/-- One statement of the loop. -/
def Place.advance (i : ι) (vars : Vars) (m : Shared ι) : Place → Option (Shared ι × Place × Vars)
  | .outside 0 => none
  | .outside (n + 1) =>
      some (m.write .lock 1, if m.mem .lock = 0 then .entered n else .outside (n + 1), vars)
  | .entered n => some (m, .delaying n 10, Function.update vars .fst (m.mem .shared_var))
  | .delaying n 0 => some (m, .storing n, vars)
  | .delaying n (j + 1) => some (m, .delaying n j, vars)
  | .storing n =>
      some ({ m.write .shared_var (vars .fst + 1) with increments := m.increments ++ [i] },
        .stored n, vars)
  | .stored n => some (m.write .lock 0, .outside n, vars)

section Code

variable (after : List Stmt) (n j : Nat)

theorem code_outside : (Place.outside (n + 1)).code after =
    .acquire .lock :: (Place.entered n).code after := by
  simp [Place.code, spinlockRound]

theorem code_entered : (Place.entered n).code after =
    .load .fst .shared_var :: (Place.delaying n 10).code after := rfl

theorem code_delaying : (Place.delaying n j).code after =
    .delay j :: (Place.storing n).code after := rfl

theorem code_storing : (Place.storing n).code after =
    .putSucc .shared_var .fst :: (Place.stored n).code after := rfl

theorem code_stored : (Place.stored n).code after =
    .release .lock :: (Place.outside n).code after := rfl

theorem code_append (p : Place) (rest : List Stmt) :
    p.code after ++ rest = p.code (after ++ rest) := by
  cases p <;> simp [Place.code]

end Code

/-- The code of a place runs as the place advances. -/
theorem exec_advance (n : LoopCounts) {i : ι} {p p' : Place} (after : List Stmt) {m m' : Shared ι}
    {vars vars' : Vars} (advanced : p.advance i vars m = some (m', p', vars')) :
    ∃ stmt rest, p.code after = stmt :: rest ∧
      exec n i stmt rest vars m = (m', ⟨p'.code after, vars'⟩) := by
  cases p with
  | outside k =>
    cases k with
    | zero => cases advanced
    | succ k =>
      cases advanced
      refine ⟨_, _, code_outside after k, ?_⟩
      rw [apply_ite (Place.code after), code_outside]
      rfl
  | entered k =>
    cases advanced
    exact ⟨_, _, code_entered after k, rfl⟩
  | delaying k j =>
    cases j with
    | zero =>
      cases advanced
      exact ⟨_, _, code_delaying after k 0, rfl⟩
    | succ j =>
      cases advanced
      exact ⟨_, _, code_delaying after k (j + 1), rfl⟩
  | storing k =>
    cases advanced
    exact ⟨_, _, code_storing after k, rfl⟩
  | stored k =>
    cases advanced
    exact ⟨_, _, code_stored after k, rfl⟩

theorem outside_of_stuck {i : ι} {p : Place} {vars : Vars} {m : Shared ι}
    (stuck : p.advance i vars m = none) : p = .outside 0 := by
  cases p with
  | outside k =>
    cases k with
    | zero => rfl
    | succ k => cases stuck
  | delaying k j => cases j <;> cases stuck
  | _ => cases stuck

/-- The loop has no other variables than the lock and the counter. -/
theorem advance_other {i : ι} {p p' : Place} {m m' : Shared ι} {vars vars' : Vars} {f : Field}
    (advanced : p.advance i vars m = some (m', p', vars')) (lock : f ≠ .lock)
    (counter : f ≠ .shared_var) : m'.mem f = m.mem f := by
  cases p with
  | outside k =>
    cases k with
    | zero => cases advanced
    | succ k =>
      cases advanced
      exact Function.update_of_ne lock _ _
  | delaying k j => cases j <;> cases advanced <;> rfl
  | entered k =>
    cases advanced
    rfl
  | storing k =>
    cases advanced
    exact Function.update_of_ne counter _ _
  | stored k =>
    cases advanced
    exact Function.update_of_ne lock _ _

theorem advance_posted {i : ι} {p p' : Place} {m m' : Shared ι} {vars vars' : Vars}
    (advanced : p.advance i vars m = some (m', p', vars')) : m'.posted = m.posted := by
  cases p with
  | outside k =>
    cases k with
    | zero => cases advanced
    | succ k =>
      cases advanced
      rfl
  | delaying k j => cases j <;> cases advanced <;> rfl
  | _ =>
    cases advanced
    rfl

theorem step_advance [DecidableEq ι] {n : LoopCounts} {s : State ι} {i : ι} {p p' : Place}
    {after : List Stmt} {m' : Shared ι} {vars' : Vars}
    (here : (s.thread i).code = p.code after)
    (advanced : p.advance i (s.thread i).vars s.shared = some (m', p', vars')) :
    step (exec n) s i =
      { shared := m', thread := Function.update s.thread i ⟨p'.code after, vars'⟩ } := by
  obtain ⟨stmt, rest, code, runs⟩ := exec_advance n after advanced
  rw [step_cons (here.trans code), runs]

structure Locked (mem : Field → BitVec 64) (place : ι → Place) : Prop where
  word : mem .lock = 0 ∨ mem .lock = 1
  guards : Guards (mem .lock ≠ 0) fun i => (place i).inside

/-- What the statements do to the lock word and to who is inside. -/
theorem advance_lock {i : ι} {p p' : Place} {m m' : Shared ι} {vars vars' : Vars}
    (advanced : p.advance i vars m = some (m', p', vars')) :
    (m.mem .lock = 0 ∧ m'.mem .lock = 1 ∧ ¬ p.inside ∧ p'.inside) ∨
    (m.mem .lock ≠ 0 ∧ m'.mem .lock = 1 ∧ ¬ p.inside ∧ ¬ p'.inside) ∨
    (m'.mem .lock = m.mem .lock ∧ p.inside ∧ p'.inside) ∨
    (m'.mem .lock = 0 ∧ p.inside ∧ ¬ p'.inside) := by
  cases p with
  | outside k =>
    cases k with
    | zero => cases advanced
    | succ k =>
      cases advanced
      by_cases free : m.mem .lock = 0
      · refine .inl ⟨free, by simp, not_false, ?_⟩
        rw [if_pos free]
        trivial
      · refine .inr (.inl ⟨free, by simp, not_false, ?_⟩)
        rw [if_neg free]
        exact not_false
  | entered k =>
    cases advanced
    exact .inr (.inr (.inl ⟨rfl, trivial, trivial⟩))
  | delaying k j =>
    cases j with
    | zero =>
      cases advanced
      exact .inr (.inr (.inl ⟨rfl, trivial, trivial⟩))
    | succ j =>
      cases advanced
      exact .inr (.inr (.inl ⟨rfl, trivial, trivial⟩))
  | storing k =>
    cases advanced
    exact .inr (.inr (.inl ⟨by simp [Function.update], trivial, trivial⟩))
  | stored k =>
    cases advanced
    exact .inr (.inr (.inr ⟨by simp, trivial, not_false⟩))

theorem Locked.advance [DecidableEq ι] {m m' : Shared ι} {place : ι → Place} {i : ι} {p' : Place}
    {vars vars' : Vars} (locked : Locked m.mem place)
    (advanced : (place i).advance i vars m = some (m', p', vars')) :
    Locked m'.mem (Function.update place i p') := by
  have frame (j : ι) (different : j ≠ i) :
      (Function.update place i p' j).inside ↔ (place j).inside := by
    rw [Function.update_of_ne different]
  rcases advance_lock advanced with ⟨free, now, out, into⟩ | ⟨held, now, out, out'⟩ |
    ⟨same, into, into'⟩ | ⟨now, into, out⟩
  · refine ⟨.inr now, locked.guards.acquire (i := i) (by simp [free]) (by simp [now]) ?_ frame⟩
    simpa using into
  · refine ⟨.inr now, locked.guards.keep ?_ ?_⟩
    · exact ⟨fun _ => held, fun _ => by simp [now]⟩
    · intro j
      by_cases same : j = i
      · subst same
        simpa [out] using out'
      · exact frame j same
  · refine ⟨same ▸ locked.word, locked.guards.keep (by rw [same]) ?_⟩
    intro j
    by_cases this : j = i
    · subst this
      simpa [into] using into'
    · exact frame j this
  · refine ⟨.inl now, locked.guards.release into (by simp [now]) ?_ frame⟩
    simpa using out

/-- A step that leaves the lock word and the places' sides of it alone. -/
theorem Locked.frame [DecidableEq ι] {m m' : Shared ι} {place : ι → Place} {i : ι} {p' : Place}
    (locked : Locked m.mem place) (same : m'.mem .lock = m.mem .lock)
    (side : p'.inside ↔ (place i).inside) : Locked m'.mem (Function.update place i p') := by
  refine ⟨same ▸ locked.word, locked.guards.keep (by rw [same]) ?_⟩
  intro j
  by_cases this : j = i
  · subst this
    simpa using side
  · rw [Function.update_of_ne this]

section Count

variable [Fintype ι]

/-- A loaded value is the current one, and what is stored and what is not stored make up the
whole count. -/
structure Counted (N : ι → Nat) (m : Shared ι) (vars : ι → Vars) (place : ι → Place) : Prop where
  fresh : ∀ i, (place i).loaded → vars i .fst = m.mem .shared_var
  total : m.mem .shared_var + BitVec.ofNat 64 (∑ i, (place i).unstored) =
    BitVec.ofNat 64 (∑ i, N i)

theorem Place.inside_of_loaded {p : Place} (loaded : p.loaded) : p.inside := by
  cases p with
  | delaying _ _ => trivial
  | storing _ => trivial
  | _ => cases loaded

variable [DecidableEq ι] {N : ι → Nat} {m m' : Shared ι} {vars : ι → Vars} {place : ι → Place}
  {i : ι} {p' : Place} {vars' : Vars}

/-- A step that keeps `shared_var`, what its hart has to store and a value loaded before. -/
theorem Counted.keep (counted : Counted N m vars place)
    (same : m'.mem .shared_var = m.mem .shared_var) (owed : p'.unstored = (place i).unstored)
    (fresh : p'.loaded → vars' .fst = m.mem .shared_var) :
    Counted N m' (Function.update vars i vars') (Function.update place i p') := by
  constructor
  · intro j loaded
    by_cases this : j = i
    · subst this
      rw [Function.update_self] at loaded ⊢
      exact (fresh loaded).trans same.symm
    · rw [Function.update_of_ne this] at loaded ⊢
      exact (counted.fresh j loaded).trans same.symm
  · have sums := sum_update Place.unstored place i p'
    rw [owed] at sums
    rw [same, Nat.add_right_cancel sums]
    exact counted.total

/-- The store of the successor of the value just read. -/
theorem Counted.store (counted : Counted N m vars place) (locked : Locked m.mem place)
    {k : Nat} (here : place i = .storing k)
    (now : m'.mem .shared_var = vars i .fst + 1) :
    Counted N m' (Function.update vars i (vars i)) (Function.update place i (.stored k)) := by
  have loaded : (place i).loaded := by
    rw [here]
    trivial
  constructor
  · intro j other
    by_cases this : j = i
    · subst this
      rw [Function.update_self] at other
      cases other
    · -- the lock kept every other hart from its load
      rw [Function.update_of_ne this] at other
      exact absurd (locked.guards.one j i (Place.inside_of_loaded other)
        (Place.inside_of_loaded loaded)) this
  · have sums := sum_update Place.unstored place i (.stored k)
    rw [here] at sums
    have one : ∑ j, (place j).unstored =
        ∑ j, (Function.update place i (.stored k) j).unstored + 1 := by
      simp only [Place.unstored] at sums ⊢
      omega
    rw [now, counted.fresh i loaded, ← counted.total, one, BitVec.ofNat_add, BitVec.add_assoc]
    exact congrArg _ (BitVec.add_comm _ _)

theorem Counted.advance (counted : Counted N m vars place) (locked : Locked m.mem place)
    (advanced : (place i).advance i (vars i) m = some (m', p', vars')) :
    Counted N m' (Function.update vars i vars') (Function.update place i p') := by
  cases here : place i with
  | outside k =>
    rw [here] at advanced
    cases k with
    | zero => cases advanced
    | succ k =>
      cases advanced
      apply counted.keep (by simp [Function.update])
      · rw [here]
        split <;> rfl
      · split <;> nofun
  | entered k =>
    rw [here] at advanced
    cases advanced
    exact counted.keep rfl (by rw [here]; rfl) (by simp)
  | delaying k j =>
    have loaded := counted.fresh i (by rw [here]; trivial)
    rw [here] at advanced
    cases j with
    | zero =>
      cases advanced
      exact counted.keep rfl (by rw [here]; rfl) fun _ => loaded
    | succ j =>
      cases advanced
      exact counted.keep rfl (by rw [here]; rfl) fun _ => loaded
  | storing k =>
    rw [here] at advanced
    cases advanced
    exact counted.store locked here (by simp)
  | stored k =>
    rw [here] at advanced
    cases advanced
    exact counted.keep (by simp [Function.update]) (by rw [here]; rfl) nofun

end Count

/-- The code from here comes to a release before it comes to an acquire. -/
def InCritical : List Stmt → Prop
  | [] => False
  | .release _ :: _ => True
  | .acquire _ :: _ => False
  | _ :: rest => InCritical rest

/-- Every hart about to run the worker with its own number of rounds, as hart 0 has prepared
`g_p4`. -/
structure AtStart (N : ι → Nat) (s : State ι) : Prop where
  code : ∀ i, (s.thread i).code = spinlockWorker (N i)
  lock : s.shared.mem .lock = 0
  shared_var : s.shared.mem .shared_var = 0

/-- What is left of the worker after its loop. -/
def LoopDone (code : List Stmt) : Prop :=
  code <:+ [.put .core1_lock_done 1]

theorem not_critical_of_done {code : List Stmt} (finished : LoopDone code) : ¬ InCritical code := by
  rcases List.suffix_cons_iff.mp finished with whole | nothing
  · rw [whole]
    exact not_false
  · rw [List.suffix_nil.mp nothing]
    exact not_false

theorem inside_of_critical {p : Place} {after : List Stmt} (finished : LoopDone after)
    (critical : InCritical (p.code after)) : p.inside := by
  cases p with
  | outside n =>
    cases n with
    | zero => exact absurd critical (not_critical_of_done finished)
    | succ n =>
      rw [code_outside] at critical
      exact critical
  | _ => trivial

theorem unstored_of_done {p : Place} {after : List Stmt} (finished : LoopDone (p.code after)) :
    p.unstored = 0 := by
  have head (stmt : Stmt) (rest : List Stmt) (same : p.code after = stmt :: rest) :
      stmt = .put .core1_lock_done 1 := by
    rw [same] at finished
    rcases List.suffix_cons_iff.mp finished with whole | nothing
    · exact (List.cons.inj whole).1
    · cases List.suffix_nil.mp nothing
  cases p with
  | outside n =>
    cases n with
    | zero => rfl
    | succ n => cases head _ _ (code_outside after n)
  | entered n => cases head _ _ (code_entered after n)
  | delaying n j => cases head _ _ (code_delaying after n j)
  | storing n => cases head _ _ (code_storing after n)
  | stored n => cases head _ _ (code_stored after n)

section Runs

variable [Fintype ι] [DecidableEq ι]

/-- Where the harts are, and the code that follows the loop of each. -/
structure Inv (N : ι → Nat) (s : State ι) (place : ι → Place) (after : ι → List Stmt) : Prop where
  code : ∀ i, (s.thread i).code = (place i).code (after i)
  after : ∀ i, LoopDone (after i)
  locked : Locked s.shared.mem place
  counted : Counted N s.shared (fun i => (s.thread i).vars) place

variable {N : ι → Nat} {s : State ι} {place : ι → Place} {after : ι → List Stmt}

omit [DecidableEq ι] in
theorem AtStart.inv (start : AtStart N s) :
    Inv N s (fun i => .outside (N i)) fun _ => [.put .core1_lock_done 1] := by
  refine ⟨start.code, fun _ => List.suffix_rfl, ⟨.inl start.lock, ?_⟩, ?_⟩
  · exact ⟨by simp [start.lock, Place.inside], by simp [Place.inside]⟩
  · exact ⟨by simp [Place.loaded], by simp [start.shared_var, Place.unstored]⟩

/-- A hart in its loop. -/
theorem Inv.advance {n : LoopCounts} (inv : Inv N s place after) {i : ι} {m' : Shared ι}
    {p' : Place} {vars' : Vars}
    (advanced : (place i).advance i (s.thread i).vars s.shared = some (m', p', vars')) :
    Inv N (step (exec n) s i) (Function.update place i p') after := by
  rw [step_advance (inv.code i) advanced]
  refine ⟨?_, inv.after, inv.locked.advance advanced, ?_⟩
  · intro j
    by_cases this : j = i
    · subst this
      simp
    · simp [this, inv.code j]
  · rw [update_vars]
    exact inv.counted.advance inv.locked advanced

/-- A hart after its loop. -/
theorem Inv.finish {n : LoopCounts} (inv : Inv N s place after) {i : ι}
    (here : place i = .outside 0) :
    ∃ after', Inv N (step (exec n) s i) place after' := by
  have code : (s.thread i).code = after i := by
    rw [inv.code i, here]
    rfl
  rcases List.suffix_cons_iff.mp (inv.after i) with whole | nothing
  · rw [whole] at code
    refine ⟨Function.update after i [], ?_⟩
    rw [step_cons code]
    refine ⟨?_, ?_, ⟨inv.locked.word, inv.locked.guards⟩, ?_⟩
    · intro j
      by_cases this : j = i
      · subst this
        simp [exec, here, Place.code]
      · simp [this, inv.code j]
    · intro j
      by_cases this : j = i
      · subst this
        simp [LoopDone]
      · simp [this, inv.after j]
    · rw [update_vars]
      have kept : Counted N (s.shared.write .core1_lock_done 1)
          (Function.update (fun j => (s.thread j).vars) i (s.thread i).vars)
          (Function.update place i (place i)) :=
        inv.counted.keep (by simp [Function.update]) rfl (inv.counted.fresh i)
      simpa [exec] using kept
  · rw [List.suffix_nil.mp nothing] at code
    rw [step_nil code]
    exact ⟨after, inv⟩

theorem Inv.step {n : LoopCounts} (inv : Inv N s place after) (i : ι) :
    ∃ place' after', Inv N (step (exec n) s i) place' after' := by
  cases advanced : (place i).advance i (s.thread i).vars s.shared with
  | some next =>
    obtain ⟨m', p', vars'⟩ := next
    exact ⟨_, after, inv.advance advanced⟩
  | none =>
    have here := outside_of_stuck advanced
    obtain ⟨after', next⟩ := inv.finish here
    exact ⟨place, after', next⟩

theorem reached_inv {n : LoopCounts}
    (reached : Reachable (AtStart N) (Fires (interleave (exec n))) s) :
    ∃ place after, Inv N s place after := by
  apply reached.invariant (I := fun s => ∃ place after, Inv N s place after)
  · exact fun s start => ⟨_, _, start.inv⟩
  · rintro s i s' ⟨place, after, inv⟩ fired
    cases fired
    exact inv.step i

/-- At most one hart is between its acquire and its release, and no increment is lost. -/
theorem spinlock_serialises {n : LoopCounts} (N : ι → Nat)
    (reached : Reachable (AtStart N) (Fires (interleave (exec n))) s) :
    (∀ i j, InCritical (s.thread i).code → InCritical (s.thread j).code → i = j) ∧
    ((∀ i, LoopDone (s.thread i).code) →
      s.shared.mem .shared_var = BitVec.ofNat 64 (∑ i, N i)) := by
  obtain ⟨place, after, inv⟩ := reached_inv reached
  constructor
  · intro i j left right
    rw [inv.code] at left right
    exact inv.locked.guards.one i j (inside_of_critical (inv.after i) left)
      (inside_of_critical (inv.after j) right)
  · intro finished
    have nothing : ∑ i, (place i).unstored = 0 := by
      apply Finset.sum_eq_zero
      intro i _
      have finished := finished i
      rw [inv.code i] at finished
      exact unstored_of_done finished
    rw [← inv.counted.total, nothing]
    exact (BitVec.add_zero _).symm

end Runs

/-- Two harts with one round each, the second kept waiting by the first. -/
def contended : List (Fin 2) :=
  [0, 1, 0, 1] ++ List.replicate 13 0 ++ List.replicate 16 1 ++ [0]

def twoHarts : State (Fin 2) where
  shared := { mem := fun _ => 0, posted := [], increments := [] }
  thread _ := ⟨spinlockWorker 1, fun _ => 0⟩

theorem spinlock_serialises_two_harts :
    ∃ s : State (Fin 2), Reachable (AtStart fun _ => 1) (Fires (interleave (exec loopCounts))) s ∧
      (∀ i j, InCritical (s.thread i).code → InCritical (s.thread j).code → i = j) ∧
      s.shared.mem .shared_var = BitVec.ofNat 64 (∑ _i : Fin 2, 1) := by
  have replayed : (replay (interleave (exec loopCounts)) twoHarts contended).map
      (fun s => ((s.thread 0).code, (s.thread 1).code)) = some ([], []) := by
    decide
  obtain ⟨s, run, ended⟩ := Option.map_eq_some_iff.mp replayed
  simp only [Prod.mk.injEq] at ended
  have reached : Reachable (AtStart fun _ => 1) (Fires (interleave (exec loopCounts))) s :=
    (Reachable.start ⟨fun _ => rfl, rfl, rfl⟩).replay run
  have finished (i : Fin 2) : LoopDone (s.thread i).code := by
    match i with
    | 0 => simp [ended.1, LoopDone]
    | 1 => simp [ended.2, LoopDone]
  have serialised := spinlock_serialises (fun _ => 1) reached
  exact ⟨s, reached, serialised.1, serialised.2 finished⟩

end ZephyrRiscv.P4.Spinlock
