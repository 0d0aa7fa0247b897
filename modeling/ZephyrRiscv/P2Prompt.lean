import ZephyrRiscv.P2Verdict

set_option autoImplicit false

namespace ZephyrRiscv.P2

open Verdict Pt TestRuns Transition

variable {p : Platform} {k k' : Irq → Nat} {E : Nat → Prop} {r : Nat}

/-- The test, with the rounds that the clock has not ticked for. -/
structure Paced where
  state : State
  debt : Nat

/-- The rounds of a loop that a statement stands for. -/
def Stmt.rounds : Stmt → Nat
  | .delay n => n
  | _ => 1

/-- A statement waits for M-mode's interrupts, and for the clock to tick once in `r` rounds. -/
def promptExec (p : Platform) (r : Nat) (stmt : Stmt) (x : Paced) : Option (Outcome Paced Nat) :=
  if timerPends x.state || softPends x.state || decide (r ≤ x.debt) then none
  else
    match trapStep p x.state with
    | some o => some (o.map fun state => { x with state })
    | none => some ((perform p x.state stmt).map fun state =>
        { state, debt := x.debt + stmt.rounds })

def promptEnv (p : Platform) (r : Nat) (x : Paced) (a : Action) : Option Paced :=
  (env p x.state a).map fun state =>
    match a with
    | .advance ticks => { state, debt := x.debt - r * ticks }
    | _ => { x with state }

def prompt (p : Platform) (r : Nat) : Machine Paced Stmt Nat Action where
  exec := promptExec p r
  env := promptEnv p r

/-- The rounds that the clock stands for, with those it owes. -/
def Paced.elapsed (r : Nat) (x : Paced) : Nat := r * x.state.mtime.toNat + x.debt

/-- What comes before a statement. -/
structure Turn (p : Platform) (r : Nat) (x x' : Paced) : Prop where
  move : Move p x.state x'.state
  later : x.elapsed r ≤ x'.elapsed r

/-- M-mode has nothing to do, and the clock has kept up. -/
structure OnTime (r : Nat) (x : Paced) : Prop where
  timer : timerPends x.state = false
  soft : softPends x.state = false
  paid : x.debt < r

theorem promptExec_cases {stmt : Stmt} {x : Paced} {o : Outcome Paced Nat}
    (done : promptExec p r stmt x = some o) :
    OnTime r x ∧
      ((∃ o', trapStep p x.state = some o' ∧ o = o'.map fun state => { x with state }) ∨
        trapStep p x.state = none ∧ o = (perform p x.state stmt).map fun state =>
          { state, debt := x.debt + stmt.rounds }) := by
  unfold promptExec at done
  split at done
  · cases done
  · rename_i free
    simp only [Bool.or_eq_true, decide_eq_true_eq, not_or, Bool.not_eq_true, Nat.not_le] at free
    refine ⟨⟨free.1.1, free.1.2, free.2⟩, ?_⟩
    split at done
    · rename_i o' trapped
      exact .inl ⟨o', trapped, (Option.some.inj done).symm⟩
    · rename_i none
      exact .inr ⟨none, (Option.some.inj done).symm⟩

theorem promptEnv_state {x x' : Paced} {a : Action} (moved : promptEnv p r x a = some x') :
    env p x.state a = some x'.state := by
  obtain ⟨state, went, rfl⟩ := Option.map_eq_some_iff.mp moved
  cases a <;> exact went

theorem map_map_id {σ τ ε : Type} (o : Outcome σ ε) {f : σ → τ} {g : τ → σ}
    (same : ∀ s, g (f s) = s) : (o.map f).map g = o := by
  cases o with
  | next s => exact congrArg Outcome.next (same s)
  | again s => exact congrArg Outcome.again (same s)
  | fail e => rfl

theorem prompt_covered : (machine p).Covers (prompt p r) Paced.state := by
  constructor
  · intro x a x' moved
    exact promptEnv_state moved
  · intro stmt x o done
    show exec p stmt x.state = _
    rcases (promptExec_cases done).2 with ⟨o', trapped, rfl⟩ | ⟨none, rfl⟩
    · rw [exec, trapped, map_map_id o' fun _ => rfl]
      rfl
    · rw [exec, none, map_map_id (perform p x.state stmt) fun _ => rfl]
      rfl

/-- A trap takes no time. -/
theorem trapStep_mtime {s s' : State} (trapped : trapStep p s = some (.again s')) :
    s'.mtime = s.mtime := by
  obtain ⟨core, rfl, -⟩ := trapStep_inv trapped
  rfl

theorem promptEnv_turn {x x' : Paced} {a : Action} (within : Within k x.state)
    (moved : promptEnv p r x a = some x') : Turn p r x x' := by
  refine ⟨env_move within (promptEnv_state moved), ?_⟩
  obtain ⟨state, went, rfl⟩ := Option.map_eq_some_iff.mp moved
  cases a with
  | advance ticks =>
    simp only [env, Option.ite_none_right_eq_some, Option.some.injEq] at went
    obtain ⟨bound, rfl⟩ := went
    have grown : (x.state.mtime + BitVec.ofNat 64 ticks).toNat = x.state.mtime.toNat + ticks := by
      rw [BitVec.toNat_add, BitVec.toNat_ofNat]
      omega
    simp only [Paced.elapsed, grown, Nat.mul_add]
    omega
  | mTimer =>
    simp only [env, Option.ite_none_right_eq_some, Option.some.injEq] at went
    obtain ⟨-, rfl⟩ := went
    exact Nat.le_refl _
  | mSoft =>
    simp only [env, Option.ite_none_right_eq_some, Option.some.injEq] at went
    obtain ⟨-, rfl⟩ := went
    exact Nat.le_refl _

/-- What a statement finds on a hart that is on time. -/
abbrev FitsPaced (p : Platform) : Stmt → Paced → Prop := fun stmt x => Fits p stmt x.state

/-- A statement of the test on time, from what it does and a fact beside its accounts. -/
theorem promptly {F Q : Fact} {G H : Paced → Prop} {stmt : Stmt}
    (base : (machine p).Does (Fits p) (fun _ => True) (With k F) stmt (With k' Q))
    (keeps : ∀ x x', Within k x.state → Turn p r x x' → G x → G x')
    (own : ∀ x, With k F x.state → G x → Ready x.state → OnTime r x →
      ((perform p x.state stmt).map fun state =>
        (⟨state, x.debt + stmt.rounds⟩ : Paced)).Meets E G H) :
    (prompt p r).Does (FitsPaced p) E (fun x => With k F x.state ∧ G x) stmt
      (fun x => With k' Q x.state ∧ H x) := by
  have pulled := base.pull (prompt_covered (p := p) (r := r))
  refine ⟨fun x holds => pulled.finds x holds.1, ?_, ?_⟩
  · intro x a x' holds moved
    exact ⟨pulled.stable x a x' holds.1 moved,
      keeps x x' holds.1.1 (promptEnv_turn holds.1.1 moved) holds.2⟩
  · intro x o holds done
    have meets := pulled.one x o holds.1 done
    obtain ⟨onTime, here⟩ := promptExec_cases done
    rcases trapStep_cases (p := p) holds.1.1 with ⟨s', trapped, move⟩ | ⟨quiet, ready⟩
    · rcases here with ⟨o', same, rfl⟩ | ⟨none, -⟩
      · rw [trapped] at same
        cases same
        refine ⟨meets, keeps x { x with state := s' } holds.1.1 ⟨move, ?_⟩ holds.2⟩
        simp only [Paced.elapsed, trapStep_mtime trapped]
        exact Nat.le_refl _
      · rw [trapped] at none
        cases none
    · rcases here with ⟨o', trapped, -⟩ | ⟨-, rfl⟩
      · rw [quiet] at trapped
        cases trapped
      · have met := own x holds.1 holds.2 ready onTime
        cases acts : perform p x.state stmt with
        | next s =>
          rw [acts] at met meets
          exact ⟨meets, met⟩
        | again s =>
          rw [acts] at met meets
          exact ⟨meets, met⟩
        | fail e =>
          rw [acts] at met
          exact met

/-- The interrupt will have been counted so many times when so many rounds have passed. -/
def DueIn (r : Nat) (irq : Irq) (n rounds : Nat) (x : Paced) : Prop :=
  x.state.core.Due irq n fun t => r * t.toNat ≤ x.elapsed r + rounds

theorem DueIn.later {irq : Irq} {n rounds rounds' : Nat} {x x' : Paced}
    (due : DueIn r irq n rounds x) (core : x'.state.core = x.state.core)
    (enough : x.elapsed r + rounds ≤ x'.elapsed r + rounds') : DueIn r irq n rounds' x' := by
  rw [DueIn, core]
  exact Core.Due.later due fun _ reached => Nat.le_trans reached enough

theorem DueIn.turn {irq : Irq} {n rounds : Nat} {x x' : Paced} (due : DueIn r irq n rounds x)
    (within : Within k x.state) (turn : Turn p r x x') : DueIn r irq n rounds x' := by
  have later := turn.later
  rcases turn.move.core with same | moves
  · exact due.later same (by omega)
  · exact (Core.Due.moves due within.account moves).later fun _ reached => by omega

/-- On a hart that is on time the interrupt has been counted, or the timer needs more rounds. -/
theorem DueIn.ready {irq : Irq} {n rounds : Nat} {x : Paced} (due : DueIn r irq n rounds x)
    (within : Within k x.state) (ready : Ready x.state) (onTime : OnTime r x) :
    n ≤ x.state.core.counted irq ∨ 1 ≤ rounds := by
  have quiet : x.state.core.hart.takesS irq.bit = false := by
    cases irq with
    | timer => exact ready.timer
    | soft => exact ready.soft
  refine (Core.Due.ready due within.account ready.idle quiet).imp id fun owed => ?_
  obtain ⟨-, pending, owes⟩ := owed
  rcases owes with set | raised
  · rw [pending] at set
    cases set
  · cases irq with
    | timer =>
      obtain ⟨on, reached⟩ := raised
      have early : x.state.mtime.toNat < x.state.core.hart.lines.mtimecmp.toNat := by
        have waits := onTime.timer
        simp only [timerPends, on, Bool.true_and, decide_eq_false_iff_not, BitVec.le_def] at waits
        omega
      have least : r * (x.state.mtime.toNat + 1) ≤ r * x.state.core.hart.lines.mtimecmp.toNat :=
        Nat.mul_le_mul_left r early
      have paid := onTime.paid
      rw [Nat.mul_add] at least
      simp only [Paced.elapsed] at reached
      omega
    | soft =>
      have waits := onTime.soft
      have raised' : x.state.core.hart.lines.msip.getLsbD 0 = true := raised
      rw [softPends, within.account.msie, raised'] at waits
      cases waits

/-- The loop has more rounds than the interrupt needs. -/
def Polls (r : Nat) (irq : Irq) (n : Nat) (x : Paced) : Prop :=
  ∃ rounds, DueIn r irq n rounds x ∧ rounds < x.state.vars.timeout.toNat ∧
    x.state.vars.timeout.toNat < 2 ^ 31

/-- The loop has come to its end with time left. -/
def Seen (irq : Irq) (x : Paced) : Prop :=
  x.state.core.On irq ∧ 0 < x.state.vars.timeout.toInt

theorem Seen.turn {irq : Irq} {x x' : Paced} (seen : Seen irq x) (within : Within k x.state)
    (turn : Turn p r x x') : Seen irq x' := by
  have time := seen.2
  rw [← turn.move.vars] at time
  refine ⟨?_, time⟩
  rcases turn.move.core with same | moves
  · rw [same]
    exact seen.1
  · exact seen.1.moves within.account moves

theorem toInt_positive {t : BitVec 32} (some : 1 ≤ t.toNat) (small : t.toNat < 2 ^ 31) :
    0 < t.toInt := by
  rw [BitVec.toInt_eq_toNat_cond]
  split <;> omega

theorem poll_prompt {F : Fact} (irq : Irq) (n : Nat) {wait : Wait} (keeps : Keeps p k F)
    (free : Free F) (sees : ∀ g, wait.holds g = false → n ≤ (g.value irq.counter).toNat)
    (seen : ∀ g, n ≤ (g.value irq.counter).toNat → (g.value irq.counter).toNat < 2 ^ 31 →
      wait.holds g = false) :
    (prompt p r).Does (FitsPaced p) E (fun x => With k F x.state ∧ Polls r irq n x) (.poll wait)
      (fun x => With k (fun v c => F v c ∧ InTime (AtLeast irq n) v c) x.state ∧
        Seen irq x) := by
  refine promptly (poll_does irq n keeps free sees) ?_ ?_
  · intro x x' within turn polls
    obtain ⟨rounds, due, more, small⟩ := polls
    rw [← turn.move.vars] at more small
    exact ⟨rounds, due.turn within turn, more, small⟩
  · intro x holds polls ready onTime
    obtain ⟨rounds, due, more, small⟩ := polls
    have on := due.1
    have left : 0 < x.state.vars.timeout.toInt := toInt_positive (by omega) small
    simp only [perform]
    cases waits : wait.holds x.state.core.hart.trap with
    | false => exact ⟨on, left⟩
    | true =>
      have some : 1 ≤ rounds := by
        refine (due.ready holds.1 ready onTime).resolve_left fun counted => ?_
        have bound := holds.1.account.bound irq
        have few := holds.1.account.small irq
        have stops := seen x.state.core.hart.trap counted (by
          show x.state.core.counted irq < 2 ^ 31
          omega)
        rw [waits] at stops
        cases stops
      have one : (1 : BitVec 32).toNat = 1 := rfl
      have less : (x.state.vars.timeout - 1).toNat = x.state.vars.timeout.toNat - 1 := by
        rw [BitVec.toNat_sub_of_le (by rw [BitVec.le_def, one]; omega), one]
      have positive : 0 < (x.state.vars.timeout - 1).toInt :=
        toInt_positive (by omega) (by omega)
      simp only [↓reduceIte, if_pos positive]
      refine ⟨rounds - 1, due.later rfl ?_, ?_, ?_⟩
      · show x.elapsed r + rounds ≤ r * x.state.mtime.toNat + (x.debt + 1) + (rounds - 1)
        simp only [Paced.elapsed]
        omega
      · show rounds - 1 < (x.state.vars.timeout - 1).toNat
        omega
      · show (x.state.vars.timeout - 1).toNat < 2 ^ 31
        omega

/-- A fact about the hart that traps keep. -/
theorem Turn.keeps {C : Core → Prop} {x x' : Paced} (turn : Turn p r x x')
    (within : Within k x.state)
    (moves : ∀ c c', Account k c → c.Moves p.sink c' → C c → C c') (fact : C x.state.core) :
    C x'.state.core := by
  rcases turn.move.core with same | moved
  · rw [same]
    exact fact
  · exact moves _ _ within.account moved fact

theorem On.turn {irq : Irq} {x x' : Paced} (on : x.state.core.On irq) (within : Within k x.state)
    (turn : Turn p r x x') : x'.state.core.On irq :=
  turn.keeps within (fun _ _ account moves on => Core.On.moves on account moves) on

/-- Both enables of an interrupt. -/
theorem opens_prompt {F : Fact} (irq : Irq) (keeps : Keeps p k F) (calm : Calm F) :
    Outline (prompt p r) (FitsPaced p) E (fun x => With k F x.state)
      [.csrsSie (sipBit irq), .enableSInterrupts]
      (fun x => With k F x.state ∧ x.state.core.On irq) := by
  refine .weaken (Q := fun x => With k F x.state ∧ True) (fun _ holds => ⟨holds, trivial⟩) ?_
  refine .cons (promptly (H := fun x => x.state.core.hart.csrs.mie.getLsbD irq.bit = true)
    (plain_does keeps calm rfl) (fun _ _ _ _ _ => trivial) fun x holds _ _ _ =>
      sie_set holds.1.account irq) ?_
  refine (promptly (plain_does keeps calm rfl) (fun x x' within turn set => ?_)
    fun x _ set ready _ => ?_).outline
  · exact turn.keeps within (fun _ _ account moves set =>
      (account.mie_moves irq moves).trans set) set
  · refine ⟨?_, set⟩
    have idle : x.state.core.handler = none := ready.idle
    show (x.state.core.hart.writeSstatusSie true).csrs.mstatus.getLsbD
      (if x.state.core.handler.isSome then SPIE else SIE) = true
    rw [idle]
    exact sie_written x.state.core.hart true

/-- A deadline from a clock that was read before. -/
theorem deadline_near {x : Paced} (delta : BitVec 64)
    (read : r * x.state.vars.now.toNat ≤ x.elapsed r) :
    r * (x.state.vars.now + delta).toNat ≤ x.elapsed r + r * delta.toNat := by
  have sum : (x.state.vars.now + delta).toNat ≤ x.state.vars.now.toNat + delta.toNat := by
    rw [BitVec.toNat_add]
    exact Nat.mod_le _ _
  calc r * (x.state.vars.now + delta).toNat
      ≤ r * (x.state.vars.now.toNat + delta.toNat) := Nat.mul_le_mul_left r sum
    _ = r * x.state.vars.now.toNat + r * delta.toNat := Nat.mul_add _ _ _
    _ ≤ x.elapsed r + r * delta.toNat := Nat.add_le_add_right read _

/-- The timer is set, and the loop behind it has rounds enough. -/
theorem timed_prompt {F : Fact} {wait : Wait} {timeout : BitVec 32} (m n : Nat)
    (delta : BitVec 64) (k' : Irq → Nat) (Q : Fact) (keeps : Keeps p k F) (calm : Calm F)
    (few : ∀ v c, Account k c → F v c → c.counted .timer ≤ m)
    (most : ∀ v c, F v c → n ≤ c.counted .timer + 1)
    (small : ∀ irq, k' irq < 2 ^ 31) (own : m + 1 ≤ k' .timer) (other : k .soft ≤ k' .soft)
    (next : ∀ v c c', Account k c → F v c → Called c c' → c'.hart.trap = c.hart.trap → Q v c')
    (keepsQ : Keeps p k' Q) (freeQ : Free Q)
    (sees : ∀ g, wait.holds g = false → n ≤ (g.value .timerIrq).toNat)
    (seen : ∀ g, n ≤ (g.value .timerIrq).toNat → (g.value .timerIrq).toNat < 2 ^ 31 →
      wait.holds g = false)
    (enough : r * delta.toNat < timeout.toNat) (short : timeout.toNat < 2 ^ 31) :
    Outline (prompt p r) (FitsPaced p) E (fun x => With k F x.state ∧ x.state.core.On .timer)
      [.readMtime, .sbiSetTimer delta, .setTimeout timeout, .poll wait]
      (fun x => With k' (fun v c => Q v c ∧ InTime (AtLeast .timer n) v c) x.state ∧
        Seen .timer x) := by
  refine .cons (promptly (H := fun x => x.state.core.On .timer ∧
    r * x.state.vars.now.toNat ≤ x.elapsed r) (plain_does keeps calm rfl)
    (fun x x' within turn on => On.turn on within turn) fun x _ on _ _ => ⟨on, ?_⟩) ?_
  · show r * x.state.mtime.toNat ≤ r * x.state.mtime.toNat + (x.debt + 1)
    omega
  refine .cons (promptly (H := DueIn r .timer n (r * delta.toNat))
    (setTimer_does m delta k' Q keeps few small own other next) (fun x x' within turn facts => ?_)
    fun x holds facts ready _ => ?_) ?_
  · obtain ⟨on, read⟩ := facts
    rw [← turn.move.vars] at read
    exact ⟨On.turn on within turn, Nat.le_trans read turn.later⟩
  · obtain ⟨on, read⟩ := facts
    have idle := ready.idle
    have lines := lines_setTimer p.sink x.state.core.hart (x.state.vars.now + delta)
    have mie := mie_setTimer p.sink x.state.core.hart (x.state.vars.now + delta)
    have most := most _ _ holds.2
    refine ⟨⟨on.1, mie.trans on.2⟩, .inr ⟨?_, acks_none (by exact idle) .timer, .inr ⟨?_, ?_⟩⟩⟩
    · rw [total_idle (by exact idle)]
      exact most
    · simp only [State.withHart, lines]
    · simp only [State.withHart, lines]
      have near := deadline_near delta read
      show _ ≤ r * x.state.mtime.toNat + (x.debt + 1) + r * delta.toNat
      simp only [Paced.elapsed] at near
      omega
  refine .cons (promptly (H := Polls r .timer n) (vars_does keepsQ freeQ rfl fun _ => ⟨_, rfl⟩)
    (fun x x' within turn due => DueIn.turn due within turn) fun x _ due _ _ => ?_) ?_
  · refine ⟨r * delta.toNat, DueIn.later due rfl ?_, enough, short⟩
    show x.elapsed r + _ ≤ r * x.state.mtime.toNat + (x.debt + 1) + _
    simp only [Paced.elapsed]
    omega
  · exact (poll_prompt .timer n keepsQ freeQ sees seen).outline

/-- A software interrupt on its way is due at once. -/
theorem DueIn.sent {x : Paced} {rounds : Nat} (on : x.state.core.On .soft)
    (acks : x.state.core.acks .soft = false) (owes : x.state.core.Owes .soft fun _ => False) :
    DueIn r .soft 1 rounds x :=
  ⟨on, .inr ⟨Nat.le_add_left 1 _, acks, owes.later fun _ never => never.elim⟩⟩

theorem sendIpi_owes {c : Core} (account : Account k c) :
    Core.Owes .soft (fun _ => False) { c with hart := c.hart.sbi p.sink SBI_SEND_IPI 0 } := by
  right
  show (c.hart.sbi p.sink SBI_SEND_IPI 0).lines.msip.getLsbD 0 = true
  rw [lines_sendIpi p.sink account]
  show (1 : BitVec 32).getLsbD 0 = true
  decide

/-- The loop that waits for a software interrupt on its way. -/
theorem sent_prompt {F : Fact} {timeout : BitVec 32} (keeps : Keeps p k F) (free : Free F)
    (some : 0 < timeout.toNat) (short : timeout.toNat < 2 ^ 31) :
    Outline (prompt p r) (FitsPaced p) E (fun x => With k F x.state ∧ DueIn r .soft 1 0 x)
      [.setTimeout timeout, .poll (.zero .softIrq)]
      (fun x => With k (fun v c => F v c ∧ InTime (AtLeast .soft 1) v c) x.state ∧
        Seen .soft x) := by
  refine .cons (promptly (H := Polls r .soft 1) (vars_does keeps free rfl fun _ => ⟨_, rfl⟩)
    (fun x x' within turn due => DueIn.turn due within turn) fun x _ due _ _ => ?_) ?_
  · refine ⟨0, DueIn.later due rfl ?_, some, short⟩
    show x.elapsed r + 0 ≤ r * x.state.mtime.toNat + (x.debt + 1) + 0
    simp only [Paced.elapsed]
    omega
  · exact (poll_prompt .soft 1 keeps free (zero_sees .soft) (zero_seen .soft)).outline

/-- A check whose code is no matter. -/
theorem check_does {F : Fact} {stmt : Stmt} {condition : State → Bool} {code : Nat}
    (keeps : Keeps p k F) (no : stmt.accesses = false)
    (checks : ∀ s, perform p s stmt = check s (condition s) code) (fails : E code) :
    (machine p).Does (Fits p) E (With k F) stmt (With k F) := by
  refine does keeps (fun s _ => Stmt.accessible no s) fun s holds _ => ?_
  rw [checks]
  exact check_meets (fun _ => holds) fun _ => fails

theorem assertTimeout_prompt {F G : Fact} {irq : Irq} {code : Nat} (keeps : Keeps p k F)
    (keepsG : Keeps p k G) :
    (prompt p r).Does (FitsPaced p) E
      (fun x => With k (fun v c => F v c ∧ InTime G v c) x.state ∧ Seen irq x)
      (.assertTimeout code)
      (fun x => With k (fun v c => F v c ∧ G v c) x.state ∧ x.state.core.On irq) := by
  refine promptly (assertTimeout_does trivial keeps keepsG)
    (fun x x' within turn seen => Seen.turn seen within turn) fun x _ seen _ _ => ?_
  have passes : decide (0 < x.state.vars.timeout.toInt) = true := decide_eq_true seen.2
  show ((check x.state (decide (0 < x.state.vars.timeout.toInt)) code).map _).Meets E _ _
  rw [passes]
  exact seen.1

/-- The checks behind a loop that has seen its interrupt. -/
theorem judged_prompt {F : Fact} {irq : Irq} {late twice other : Nat} {counter : Counter}
    {value : BitVec 32} {cause : BitVec 64} (keeps : Keeps p k F) (calm : Calm F)
    (counted : E twice) (named : E other) :
    Outline (prompt p r) (FitsPaced p) E (fun x => With k F x.state ∧ Seen irq x)
      [.disableSInterrupts, .assertTimeout late, .assertCount counter value twice,
        .assertLastIrqCause cause other]
      (fun x => With k F x.state) := by
  refine .cons (promptly (H := fun x => 0 < x.state.vars.timeout.toInt)
    (plain_does keeps calm rfl) (fun x x' within turn seen => Seen.turn seen within turn)
    fun x _ seen _ _ => seen.2) ?_
  refine .cons (promptly (H := fun _ => True) (check_does keeps rfl (fun _ => rfl) trivial)
    (fun x x' _ turn left => by rw [turn.move.vars]; exact left) fun x _ left _ _ => ?_) ?_
  · have passes : decide (0 < x.state.vars.timeout.toInt) = true := decide_eq_true left
    show ((check x.state (decide (0 < x.state.vars.timeout.toInt)) late).map _).Meets E _ _
    rw [passes]
    trivial
  refine .weaken (Q := fun x => With k F x.state) (fun _ holds => holds.1) ?_
  refine .cons ((check_does keeps rfl (fun _ => rfl) counted).pull prompt_covered) ?_
  exact ((check_does keeps rfl (fun _ => rfl) named).pull prompt_covered).outline

/-- The codes of `timingCodes` on a hart that stalls in `wfi`. -/
def OfTime (code : Nat) : Prop := code ∈ [600, 610, 620, 621, 622, 641, 651]

instance (code : Nat) : Decidable (OfTime code) := inferInstanceAs (Decidable (_ ∈ _))

theorem timerInterrupt_prompt (fast : r ≤ 500) :
    Outline (prompt p r) (FitsPaced p) (fun code => ¬ OfTime code)
      (fun x => With (bounds 0 0) anything x.state) timerInterrupt (fun _ => True) := by
  have covered := prompt_covered (p := p) (r := r)
  refine .cons ((plain_does anything_keeps anything_calm rfl).pull covered) ?_
  refine .cons ((plain_does anything_keeps anything_calm rfl).pull covered) ?_
  refine .cons ((reset_does .timer 0 (bounds 0 0) anything anything_keeps
    (fun _ _ _ => Nat.zero_le _) (bounds_small (by omega) (by omega)) (by decide) (by decide)
    fun _ _ _ _ _ _ _ _ _ => trivial).pull covered) ?_
  have enough : r * (1000 : BitVec 64).toNat < (1000000 : BitVec 32).toNat := by
    show r * 1000 < 1000000
    omega
  refine (opens_prompt .timer anything_keeps anything_calm).append
    ((timed_prompt 0 1 1000 (bounds 1 0) anything anything_keeps anything_calm
      (fun v c account _ => ?_) (fun _ _ _ => Nat.le_add_left 1 _)
      (bounds_small (by omega) (by omega)) (by decide) (by decide)
      (fun _ _ _ _ _ _ _ => trivial) anything_keeps anything_free (zero_sees .timer)
      (zero_seen .timer) enough (by decide)).append ?_)
  · have bound := account.bound .timer
    have limit : bounds 0 0 .timer = 0 := rfl
    omega
  · exact (judged_prompt (anything_keeps.and (InTime.keeps (AtLeast.keeps .timer 1)))
      (anything_calm.and (InTime.calm (AtLeast.calm .timer 1))) (by decide) (by decide)).forget
      fun _ _ => trivial

theorem softwareInterrupt_prompt :
    Outline (prompt p r) (FitsPaced p) (fun code => ¬ OfTime code)
      (fun x => With (bounds 1 0) anything x.state) softwareInterrupt (fun _ => True) := by
  have covered := prompt_covered (p := p) (r := r)
  refine .cons ((plain_does anything_keeps anything_calm rfl).pull covered) ?_
  refine .cons ((reset_does .soft 0 (bounds 1 0) anything anything_keeps
    (fun _ _ _ => Nat.zero_le _) (bounds_small (by omega) (by omega)) (by decide) (by decide)
    fun _ _ _ _ _ _ _ _ _ => trivial).pull covered) ?_
  refine (opens_prompt .soft anything_keeps anything_calm).append ?_
  refine .cons (promptly (H := DueIn r .soft 1 0)
    (sendIpi_does (bounds 1 1) anything anything_keeps (bounds_small (by omega) (by omega))
      (by decide) (by decide) fun _ _ _ _ _ _ _ => trivial)
    (fun x x' within turn on => On.turn on within turn) fun x holds on ready _ => ?_) ?_
  · exact DueIn.sent on (acks_none (by exact ready.idle) .soft) (sendIpi_owes holds.1.account)
  refine (sent_prompt anything_keeps anything_free (by decide) (by decide)).append ?_
  exact (judged_prompt (anything_keeps.and (InTime.keeps (AtLeast.keeps .soft 1)))
    (anything_calm.and (InTime.calm (AtLeast.calm .soft 1))) (by decide) (by decide)).forget
    fun _ _ => trivial

/-- Before a round of P2.3. -/
def Round (i : Nat) (x : Paced) : Prop :=
  With (bounds i 1) (Both i 1) x.state ∧ x.state.core.On .timer

theorem timerRound_prompt (fast : r ≤ 500) (i : Nat) (round : i < 3) :
    Outline (prompt p r) (FitsPaced p) E (Round i) (timerRound i) (Round (i + 1)) := by
  have enough : r * (500 : BitVec 64).toNat < (500000 : BitVec 32).toNat := by
    show r * 500 < 500000
    omega
  have few : ∀ v c, Account (bounds i 1) c → Both i 1 v c → c.counted .timer ≤ i := by
    intro v c account _
    have bound := account.bound .timer
    have limit : bounds i 1 .timer = i := rfl
    omega
  have soft : ∀ v c c', Account (bounds i 1) c → Both i 1 v c → Called c c' →
      c'.hart.trap = c.hart.trap → AtLeast .soft 1 v c' := by
    intro v c c' _ both _ trap
    show 1 ≤ c'.counted .soft
    rw [Core.counted, trap]
    exact both.2
  have timed := timed_prompt (p := p) (r := r) (E := E) i (i + 1) 500 (bounds (i + 1) 1)
    (AtLeast .soft 1) (Both.keeps i 1) (Both.calm i 1) few
    (fun v c both => Nat.add_le_add_right both.1 1) (bounds_small (by omega) (by omega))
    (Nat.le_refl _) (Nat.le_refl _) soft (AtLeast.keeps .soft 1) (AtLeast.free .soft 1)
    (below_sees .timer (by omega)) (below_seen .timer (by omega)) enough (by decide)
  refine timed.append ((assertTimeout_prompt (AtLeast.keeps .soft 1)
    (AtLeast.keeps .timer (i + 1))).outline.forget fun x holds => ?_)
  exact ⟨⟨holds.1.1, holds.1.2.2, holds.1.2.1⟩, holds.2⟩

theorem timerInterrupts_prompt (fast : r ≤ 500) :
    Outline (prompt p r) (FitsPaced p) (fun code => ¬ OfTime code)
      (fun x => With (bounds 1 1) (Both 1 1) x.state) timerInterrupts (fun _ => True) := by
  have covered := prompt_covered (p := p) (r := r)
  have rounds : Outline (prompt p r) (FitsPaced p) (fun code => ¬ OfTime code) (Round 0)
      ((List.range 3).flatMap timerRound) (Round 3) :=
    .rounds (A := Round) 3 fun i round => timerRound_prompt fast i round
  refine .append (.append ?_ rounds) ?_
  · refine .cons ((reset_does .timer 1 (bounds 0 1) (Both 0 1) (Both.keeps 1 1)
      (fun _ _ both => both.1) (bounds_small (by omega) (by omega)) (by decide) (by decide)
      fun v c c' _ both _ _ same _ => ⟨Nat.zero_le _, ?_⟩).pull covered) ?_
    · exact Nat.le_trans both.2 (Nat.le_of_eq same.symm)
    · exact opens_prompt .timer (Both.keeps 0 1) (Both.calm 0 1)
  · refine .weaken (Q := fun x => With (bounds 3 1) (Both 3 1) x.state) (fun _ holds => holds.1) ?_
    refine .cons ((plain_does (Both.keeps 3 1) (Both.calm 3 1) rfl).pull covered) ?_
    exact ((check_does (Both.keeps 3 1) rfl (fun _ => rfl) (by decide)).pull covered).outline.forget
      fun _ _ => trivial

/-- SIE is clear between two traps, and the software interrupt is enabled. -/
def Barred (c : Core) : Prop :=
  (∃ stie, Shut false stie c) ∧ c.hart.csrs.mie.getLsbD SSI = true

theorem Barred.moves {c c' : Core} (barred : Barred c) (account : Account k c)
    (moves : c.Moves p.sink c') : Barred c' := by
  obtain ⟨⟨stie, shut⟩, ssie⟩ := barred
  exact ⟨⟨stie, (shut.moves account (.inl rfl) moves).1⟩,
    (account.mie_moves .soft moves).trans ssie⟩

/-- It is on its way to `sip`, or there. -/
def HeldBack (c : Core) : Prop := Barred c ∧ c.Owes .soft fun _ => False

theorem HeldBack.moves {c c' : Core} (held : HeldBack c) (account : Account k c)
    (moves : c.Moves p.sink c') : HeldBack c' := by
  obtain ⟨barred, owes⟩ := held
  refine ⟨barred.moves account moves, ?_⟩
  obtain ⟨⟨stie, shut⟩, -⟩ := barred
  rcases owes.moves account (acks_none shut.idle .soft) moves with ⟨-, owes'⟩ | ⟨-, taken, -⟩
  · exact owes'
  · simp only [Hart.takesS, shut.sie, Bool.false_and] at taken
    cases taken

theorem sieMasks_prompt :
    Outline (prompt p r) (FitsPaced p) (fun code => ¬ OfTime code)
      (fun x => With (bounds 1 1) (AtLeast .soft 1) x.state) sieMasks (fun _ => True) := by
  have covered := prompt_covered (p := p) (r := r)
  refine .cons ((reset_does .soft 1 (bounds 1 0) anything (AtLeast.keeps .soft 1)
    (fun _ _ counted => counted) (bounds_small (by omega) (by omega)) (by decide) (by decide)
    fun _ _ _ _ _ _ _ _ _ => trivial).pull covered) ?_
  refine .weaken (Q := fun x => With (bounds 1 0) anything x.state ∧ True)
    (fun _ holds => ⟨holds, trivial⟩) ?_
  refine .cons (promptly (H := fun x => x.state.core.hart.csrs.mie.getLsbD SSI = true)
    (plain_does anything_keeps anything_calm rfl) (fun _ _ _ _ _ => trivial) fun x holds _ _ _ =>
      sie_set holds.1.account .soft) ?_
  refine .cons (promptly (H := fun x => Barred x.state.core)
    (plain_does anything_keeps anything_calm rfl)
    (fun x x' within turn set => turn.keeps within (fun _ _ account moves set =>
      (account.mie_moves .soft moves).trans set) set)
    fun x _ set ready _ => ⟨⟨_, ready.idle, sie_written x.state.core.hart false, rfl⟩, set⟩) ?_
  refine .cons (promptly (H := fun x => HeldBack x.state.core)
    (sendIpi_does (bounds 1 1) anything anything_keeps (bounds_small (by omega) (by omega))
      (by decide) (by decide) fun _ _ _ _ _ _ _ => trivial)
    (fun x x' within turn barred => turn.keeps within (fun _ _ account moves barred =>
      Barred.moves barred account moves) barred) fun x holds barred _ _ => ?_) ?_
  · obtain ⟨⟨stie, shut⟩, set⟩ := barred
    exact ⟨⟨⟨stie, shut.idle, shut.sie, shut.stie⟩, set⟩, sendIpi_owes holds.1.account⟩
  have held : ∀ x x', Within (bounds 1 1) x.state → Turn p r x x' → HeldBack x.state.core →
      HeldBack x'.state.core := fun x x' within turn held =>
    turn.keeps within (fun _ _ account moves held => HeldBack.moves held account moves) held
  refine .cons (promptly (H := fun x => HeldBack x.state.core) (delay_does 10000 anything_keeps)
    held fun _ _ facts _ _ => facts) ?_
  refine .cons (promptly (H := fun x => HeldBack x.state.core)
    (check_does anything_keeps rfl (fun _ => rfl) trivial) held fun x _ facts _ _ => ?_) ?_
  · show ((check x.state (decide (x.state.core.hart.trap.value .softIrq = 0)) 640).map _).Meets
      _ _ _
    cases decide (x.state.core.hart.trap.value .softIrq = 0) with
    | false =>
      show ¬ OfTime 640
      decide
    | true => exact facts
  refine .cons (promptly (H := DueIn r .soft 1 0) (plain_does anything_keeps anything_calm rfl) held
    fun x _ facts ready _ => ?_) ?_
  · have idle := ready.idle
    refine DueIn.sent ⟨?_, facts.1.2⟩ (acks_none (by exact idle) .soft) facts.2
    show (x.state.core.hart.writeSstatusSie true).csrs.mstatus.getLsbD
      (if x.state.core.handler.isSome then SPIE else SIE) = true
    rw [idle]
    exact sie_written x.state.core.hart true
  refine .cons (promptly (H := DueIn r .soft 1 0) (delay_does 3 anything_keeps)
    (fun x x' within turn due => DueIn.turn due within turn) fun x _ due _ _ => ?_) ?_
  · refine DueIn.later due rfl ?_
    show x.elapsed r + 0 ≤ r * x.state.mtime.toNat + (x.debt + 3) + 0
    simp only [Paced.elapsed]
    omega
  refine (sent_prompt anything_keeps anything_free (by decide) (by decide)).append ?_
  have counted := AtLeast.keeps (p := p) (k := bounds 1 1) .soft 1
  have keeps := anything_keeps.and (InTime.keeps counted)
  refine .cons (promptly (H := fun x => 0 < x.state.vars.timeout.toInt)
    (plain_does keeps (anything_calm.and (InTime.calm (AtLeast.calm .soft 1))) rfl)
    (fun x x' within turn seen => Seen.turn seen within turn) fun x _ seen _ _ => seen.2) ?_
  refine ((promptly (H := fun _ => True) (check_does keeps rfl (fun _ => rfl) trivial)
    (fun x x' _ turn left => by rw [turn.move.vars]; exact left)
    fun x holds left ready _ => ?_).outline).forget fun _ _ => trivial
  -- the loop has seen the one interrupt there is
  have one := (holds.2.2 left).exact holds.1.account ready.idle rfl
  have value : x.state.core.hart.trap.value .softIrq = 1 := BitVec.eq_of_toNat_eq one
  show ((check x.state (decide (x.state.core.hart.trap.value .softIrq = 1)) 641).map _).Meets
    _ _ _
  rw [value]
  trivial

/-- STIE is clear, and the timer's interrupt comes to `sip` in so many rounds. -/
def ComesIn (r rounds : Nat) (x : Paced) : Prop :=
  x.state.core.hart.csrs.mie.getLsbD STI = false ∧ x.state.core.acks .timer = false ∧
    x.state.core.Owes .timer fun t => r * t.toNat ≤ x.elapsed r + rounds

theorem ComesIn.turn {rounds : Nat} {x x' : Paced} (comes : ComesIn r rounds x)
    (within : Within k x.state) (turn : Turn p r x x') : ComesIn r rounds x' := by
  obtain ⟨stie, acks, owes⟩ := comes
  have later := turn.later
  rcases turn.move.core with same | moves
  · rw [ComesIn, same]
    exact ⟨stie, acks, owes.later fun _ reached => by omega⟩
  · have account := within.account
    refine ⟨(account.mie_moves .timer moves).trans stie, ?_⟩
    rcases owes.moves account acks moves with ⟨acks', owes'⟩ | ⟨-, taken, -⟩
    · exact ⟨acks', owes'.later fun _ reached => by omega⟩
    · have enable : x.state.core.hart.csrs.mie.getLsbD (Irq.bit .timer) = false := stie
      simp only [Hart.takesS, enable, Bool.and_false, Bool.false_and] at taken
      cases taken

theorem ComesIn.later {rounds rounds' : Nat} {x x' : Paced} (comes : ComesIn r rounds x)
    (core : x'.state.core = x.state.core)
    (enough : x.elapsed r + rounds ≤ x'.elapsed r + rounds') : ComesIn r rounds' x' := by
  rw [ComesIn, core]
  exact ⟨comes.1, comes.2.1, comes.2.2.later fun _ reached => Nat.le_trans reached enough⟩

/-- The rounds of a delay have been made. -/
theorem ComesIn.delayed {rounds : Nat} {x : Paced} (comes : ComesIn r rounds x) :
    ComesIn r 0 { x with debt := x.debt + (Stmt.delay rounds).rounds } := by
  refine comes.later rfl ?_
  show r * x.state.mtime.toNat + x.debt + rounds ≤ r * x.state.mtime.toNat + (x.debt + rounds) + 0
  omega

/-- On a hart that is on time it is there when no rounds are left. -/
theorem ComesIn.ready {x : Paced} (comes : ComesIn r 0 x) (onTime : OnTime r x) :
    x.state.core.hart.lines.stip = true := by
  obtain ⟨-, -, pending | ⟨on, reached⟩⟩ := comes
  · exact pending
  · have waits := onTime.timer
    have paid := onTime.paid
    simp only [timerPends, on, Bool.true_and, decide_eq_false_iff_not, BitVec.le_def] at waits
    have least : r * (x.state.mtime.toNat + 1) ≤ r * x.state.core.hart.lines.mtimecmp.toNat :=
      Nat.mul_le_mul_left r (by omega)
    rw [Nat.mul_add] at least
    simp only [Paced.elapsed] at reached
    omega

theorem stieMasks_prompt (fast : r ≤ 500) :
    Outline (prompt p r) (FitsPaced p) (fun code => ¬ OfTime code)
      (fun x => With (bounds 1 1) anything x.state) stieMasks (fun _ => True) := by
  have covered := prompt_covered (p := p) (r := r)
  refine .cons ((reset_does .timer 0 (bounds 1 1) anything anything_keeps
    (fun _ _ _ => Nat.zero_le _) (bounds_small (by omega) (by omega)) (by decide) (by decide)
    fun _ _ _ _ _ _ _ _ _ => trivial).pull covered) ?_
  refine .weaken (Q := fun x => With (bounds 1 1) anything x.state ∧ True)
    (fun _ holds => ⟨holds, trivial⟩) ?_
  have off : ∀ x x', Within (bounds 1 1) x.state → Turn p r x x' →
      x.state.core.hart.csrs.mie.getLsbD STI = false →
      x'.state.core.hart.csrs.mie.getLsbD STI = false := fun x x' within turn clear =>
    turn.keeps within (C := fun c => c.hart.csrs.mie.getLsbD STI = false)
      (fun _ _ account moves clear => (account.mie_moves .timer moves).trans clear) clear
  refine .cons (promptly (H := fun x => x.state.core.hart.csrs.mie.getLsbD STI = false)
    (plain_does anything_keeps anything_calm rfl) (fun _ _ _ _ _ => trivial) fun x holds _ _ _ =>
      stie_cleared holds.1.account) ?_
  refine .cons (promptly (H := fun x => x.state.core.hart.csrs.mie.getLsbD STI = false)
    (plain_does anything_keeps anything_calm rfl) off fun _ _ clear _ _ => clear) ?_
  refine .cons (promptly (H := fun x => x.state.core.hart.csrs.mie.getLsbD STI = false ∧
      r * x.state.vars.now.toNat ≤ x.elapsed r)
    (plain_does anything_keeps anything_calm rfl) off fun x _ clear _ _ => ⟨clear, ?_⟩) ?_
  · show r * x.state.mtime.toNat ≤ r * x.state.mtime.toNat + (x.debt + 1)
    omega
  refine .cons (promptly (H := ComesIn r 50000)
    (setTimer_does 1 100 (bounds 2 1) anything anything_keeps (fun v c account _ => ?_)
      (bounds_small (by omega) (by omega)) (Nat.le_refl 2) (Nat.le_refl 1)
      fun _ _ _ _ _ _ _ => trivial)
    (fun x x' within turn facts => ⟨off x x' within turn facts.1, ?_⟩)
    fun x holds facts ready _ => ?_) ?_
  · have bound := account.bound .timer
    have limit : bounds 1 1 .timer = 1 := rfl
    omega
  · rw [turn.move.vars]
    exact Nat.le_trans facts.2 turn.later
  · have idle := ready.idle
    have lines := lines_setTimer p.sink x.state.core.hart (x.state.vars.now + 100)
    have mie := mie_setTimer p.sink x.state.core.hart (x.state.vars.now + 100)
    have near := deadline_near 100 facts.2
    have delta : (100 : BitVec 64).toNat = 100 := rfl
    refine ⟨mie.trans facts.1, acks_none (by exact idle) .timer, .inr ⟨?_, ?_⟩⟩
    · simp only [State.withHart, lines]
    · simp only [State.withHart, lines]
      show _ ≤ r * x.state.mtime.toNat + (x.debt + 1) + 50000
      rw [delta] at near
      simp only [Paced.elapsed] at near
      omega
  refine .cons (promptly (H := ComesIn r 0) (delay_does 50000 anything_keeps)
    (fun x x' within turn comes => ComesIn.turn comes within turn)
    fun _ _ comes _ _ => comes.delayed) ?_
  refine .cons (promptly (H := ComesIn r 0) (check_does anything_keeps rfl (fun _ => rfl) trivial)
    (fun x x' within turn comes => ComesIn.turn comes within turn) fun x _ comes _ _ => ?_) ?_
  · show ((check x.state (decide (x.state.core.hart.trap.value .timerIrq = 0)) 650).map _).Meets
      _ _ _
    cases decide (x.state.core.hart.trap.value .timerIrq = 0) with
    | false =>
      show ¬ OfTime 650
      decide
    | true =>
      refine ComesIn.later comes rfl ?_
      show r * x.state.mtime.toNat + x.debt + 0 ≤ r * x.state.mtime.toNat + (x.debt + 1) + 0
      omega
  refine .cons (promptly (H := fun x => x.state.vars.sip &&& SIP_STIP ≠ 0)
    (plain_does anything_keeps anything_calm rfl)
    (fun x x' within turn comes => ComesIn.turn comes within turn)
    fun x holds comes _ onTime => ?_) ?_
  · exact (sip_stip holds.1.account).mpr (comes.ready onTime)
  refine .cons (promptly (H := fun _ => True) (check_does anything_keeps rfl (fun _ => rfl) trivial)
    (fun x x' _ turn set => by rw [turn.move.vars]; exact set) fun x _ set _ _ => ?_) ?_
  · have passes : decide (x.state.vars.sip &&& SIP_STIP ≠ 0) = true := decide_eq_true set
    show ((check x.state (decide (x.state.vars.sip &&& SIP_STIP ≠ 0)) 651).map _).Meets _ _ _
    rw [passes]
    trivial
  refine .weaken (Q := fun x => With (bounds 2 1) anything x.state) (fun _ holds => holds.1) ?_
  refine .cons ((plain_does anything_keeps anything_calm rfl).pull covered) ?_
  refine .cons ((delay_does 2 anything_keeps).pull covered) ?_
  refine .cons ((vars_does anything_keeps anything_free rfl fun _ => ⟨_, rfl⟩).pull covered) ?_
  refine .cons ((poll_does .timer 1 anything_keeps anything_free (zero_sees .timer)).pull
    covered) ?_
  refine .weaken (Q := fun x => With (bounds 2 1) anything x.state)
    (fun _ holds => ⟨holds.1, trivial⟩) ?_
  refine .cons ((plain_does anything_keeps anything_calm rfl).pull covered) ?_
  exact ((check_does anything_keeps rfl (fun _ => rfl) (by decide)).pull covered).outline.forget
    fun _ _ => trivial

theorem wfi_cases (p : Platform) (s : State) :
    wfi p s = .again s ∨ ∃ s', wfi p s = .next s' := by
  unfold wfi
  split
  · exact .inr ⟨_, rfl⟩
  · split
    · exact .inr ⟨_, rfl⟩
    · split
      · exact .inr ⟨_, rfl⟩
      · split
        · exact .inr ⟨_, rfl⟩
        · exact .inl rfl

/-- Whatever `wfi` comes back from, the accounts hold. -/
theorem wfi_turns : (machine p).Does (Fits p) E (With k anything) .wfi (With k anything) := by
  refine does anything_keeps (fun _ _ => trivial) fun s holds _ => ?_
  have within := holds.1
  show (wfi p s).Meets E _ _
  unfold wfi
  split
  · exact holds
  · split
    · rename_i pends
      exact ⟨⟨within.mtime, within.account.moves (.mSoft (softPends_raised pends))⟩, trivial⟩
    · split
      · rename_i pends
        obtain ⟨on, real⟩ := deadline_real within pends
        exact ⟨⟨within.mtime, within.account.moves (.mTimer on real)⟩, trivial⟩
      · split
        · exact holds
        · exact holds

/-- SIE is clear and STIE set between two traps, and the timer's interrupt is in `sip`, or comes at
a deadline. -/
def Dozes (deadline : BitVec 64 → Prop) (c : Core) : Prop :=
  Shut false true c ∧ c.Owes .timer deadline

theorem Dozes.moves {deadline : BitVec 64 → Prop} {c c' : Core} (dozes : Dozes deadline c)
    (account : Account k c) (moves : c.Moves p.sink c') : Dozes deadline c' := by
  obtain ⟨shut, owes⟩ := dozes
  refine ⟨(shut.moves account (.inl rfl) moves).1, ?_⟩
  rcases owes.moves account (acks_none shut.idle .timer) moves with ⟨-, owes'⟩ | ⟨-, taken, -⟩
  · exact owes'
  · simp only [Hart.takesS, shut.sie, Bool.false_and] at taken
    cases taken

/-- The deadline is so many ticks away at most. -/
def DozesFor (r ticks : Nat) (x : Paced) : Prop :=
  Dozes (fun t => r * t.toNat ≤ x.elapsed r + r * ticks) x.state.core

theorem DozesFor.later {ticks : Nat} {x x' : Paced} (dozes : DozesFor r ticks x)
    (core : x'.state.core = x.state.core) (later : x.elapsed r ≤ x'.elapsed r) :
    DozesFor r ticks x' := by
  rw [DozesFor, core]
  exact ⟨dozes.1, dozes.2.later fun _ reached => by omega⟩

theorem DozesFor.turn {ticks : Nat} {x x' : Paced} (dozes : DozesFor r ticks x)
    (within : Within k x.state) (turn : Turn p r x x') : DozesFor r ticks x' := by
  have later := turn.later
  rcases turn.move.core with same | moves
  · exact dozes.later same later
  · have next := Dozes.moves dozes within.account moves
    exact ⟨next.1, next.2.later fun _ reached => by omega⟩

/-- What `wfi` finds beside its accounts. -/
def Awaits (r : Nat) (stmt : Stmt) (x : Paced) : Prop := stmt = .wfi → DozesFor r 500 x

theorem wfiWakes_prompt :
    Outline (prompt p r) (Awaits r) (fun _ => True)
      (fun x => With (bounds 1 1) anything x.state) wfiWakes (fun _ => True) := by
  have covered := prompt_covered (p := p) (r := r)
  have shut : ∀ x x', Within (bounds 1 1) x.state → Turn p r x x' →
      Shut false true x.state.core → Shut false true x'.state.core := fun x x' within turn shut =>
    turn.keeps within (fun _ _ account moves shut => (shut.moves account (.inl rfl) moves).1) shut
  have before : Outline (prompt p r) (FitsPaced p) (fun _ => True)
      (fun x => With (bounds 1 1) anything x.state)
      [.setCount .timerIrq 0, .csrsSie SIP_STIP, .disableSInterrupts, .readMtime, .sbiSetTimer 500]
      (fun x => With (bounds 2 1) anything x.state ∧ DozesFor r 500 x) := by
    refine .cons ((reset_does .timer 0 (bounds 1 1) anything anything_keeps
      (fun _ _ _ => Nat.zero_le _) (bounds_small (by omega) (by omega)) (by decide) (by decide)
      fun _ _ _ _ _ _ _ _ _ => trivial).pull covered) ?_
    refine .weaken (Q := fun x => With (bounds 1 1) anything x.state ∧ True)
      (fun _ holds => ⟨holds, trivial⟩) ?_
    refine .cons (promptly (H := fun x => x.state.core.hart.csrs.mie.getLsbD STI = true)
      (plain_does anything_keeps anything_calm rfl) (fun _ _ _ _ _ => trivial) fun x holds _ _ _ =>
        sie_set holds.1.account .timer) ?_
    refine .cons (promptly (H := fun x => Shut false true x.state.core)
      (plain_does anything_keeps anything_calm rfl)
      (fun x x' within turn set => turn.keeps within (fun _ _ account moves set =>
        (account.mie_moves .timer moves).trans set) set)
      fun x _ set ready _ => ⟨ready.idle, sie_written x.state.core.hart false, set⟩) ?_
    refine .cons (promptly (H := fun x => Shut false true x.state.core ∧
        r * x.state.vars.now.toNat ≤ x.elapsed r)
      (plain_does anything_keeps anything_calm rfl) shut
      fun x _ closed _ _ => ⟨⟨closed.idle, closed.sie, closed.stie⟩, ?_⟩) ?_
    · show r * x.state.mtime.toNat ≤ r * x.state.mtime.toNat + (x.debt + 1)
      omega
    refine (promptly (setTimer_does 1 500 (bounds 2 1) anything anything_keeps
        (fun v c account _ => ?_) (bounds_small (by omega) (by omega)) (Nat.le_refl 2)
        (Nat.le_refl 1) fun _ _ _ _ _ _ _ => trivial)
      (fun x x' within turn facts => ⟨shut x x' within turn facts.1, ?_⟩)
      fun x holds facts ready _ => ?_).outline
    · have bound := account.bound .timer
      have limit : bounds 1 1 .timer = 1 := rfl
      omega
    · have lines := lines_setTimer p.sink x.state.core.hart (x.state.vars.now + 500)
      have mie := mie_setTimer p.sink x.state.core.hart (x.state.vars.now + 500)
      have near := deadline_near 500 facts.2
      refine ⟨⟨facts.1.idle, facts.1.sie, mie.trans facts.1.stie⟩, .inr ⟨?_, ?_⟩⟩
      · simp only [State.withHart, lines]
      · simp only [State.withHart, lines]
        show _ ≤ r * x.state.mtime.toNat + (x.debt + 1) + r * 500
        have delta : (500 : BitVec 64).toNat = 500 := rfl
        rw [delta] at near
        simp only [Paced.elapsed] at near
        omega
    · rw [turn.move.vars]
      exact Nat.le_trans facts.2 turn.later
  have sleeps : (prompt p r).Does (Awaits r) (fun _ => True)
      (fun x => With (bounds 2 1) anything x.state ∧ DozesFor r 500 x) .wfi
      (fun x => With (bounds 2 1) anything x.state ∧ True) := by
    refine (promptly wfi_turns (fun x x' within turn dozes =>
      DozesFor.turn dozes within turn) fun x _ dozes _ _ => ?_).finding
        fun x holds _ => holds.2
    show ((wfi p x.state).map _).Meets _ _ _
    rcases wfi_cases p x.state with stays | ⟨s', goes⟩
    · rw [stays]
      refine DozesFor.later dozes rfl ?_
      show r * x.state.mtime.toNat + x.debt ≤ r * x.state.mtime.toNat + (x.debt + 1)
      omega
    · rw [goes]
      trivial
  have behind : Outline (prompt p r) (FitsPaced p) (fun _ => True)
      (fun x => With (bounds 2 1) anything x.state)
      [.readSip, .assertSip SIP_STIP 660, .assertCount .timerIrq 0 661, .enableSInterrupts,
        .delay 1, .disableSInterrupts, .assertCount .timerIrq 1 662]
      (fun x => With (bounds 2 1) anything x.state) := by
    refine .cons ((plain_does anything_keeps anything_calm rfl).pull covered) ?_
    refine .cons ((check_does anything_keeps rfl (fun _ => rfl) trivial).pull covered) ?_
    refine .cons ((check_does anything_keeps rfl (fun _ => rfl) trivial).pull covered) ?_
    refine .cons ((plain_does anything_keeps anything_calm rfl).pull covered) ?_
    refine .cons ((delay_does 1 anything_keeps).pull covered) ?_
    refine .cons ((plain_does anything_keeps anything_calm rfl).pull covered) ?_
    exact ((check_does anything_keeps rfl (fun _ => rfl) trivial).pull covered).outline
  have awake : ∀ stmts : List Stmt, (∀ stmt ∈ stmts, stmt ≠ .wfi) → ∀ stmt ∈ stmts, ∀ x,
      FitsPaced p stmt x → Awaits r stmt x := fun _ others stmt member _ _ sleeps =>
    absurd sleeps (others stmt member)
  refine (before.wider (awake _ (by decide)) fun _ fails => fails).append (.cons sleeps ?_)
  refine .weaken (fun _ holds => holds.1)
    ((behind.wider (awake _ (by decide)) fun _ fails => fails).forget fun _ _ => trivial)

end ZephyrRiscv.P2
