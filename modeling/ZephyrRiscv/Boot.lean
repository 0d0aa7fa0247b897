import ZephyrRiscv.Transition

set_option autoImplicit false

namespace ZephyrRiscv.Boot

open Transition

/-- Memory by bytes. -/
abbrev Bytes := BitVec 64 → BitVec 8

/-- The .bss section with `g_core1_smode_ready`, an `int`, in it. -/
structure Layout where
  bssStart : BitVec 64
  bssEnd : BitVec 64
  flag : BitVec 64
  starts : bssStart.toNat ≤ flag.toNat
  inside : flag.toNat + 4 ≤ bssEnd.toNat
  positive : bssEnd.toNat + 8 ≤ 2 ^ 63

/-- `sd zero, 0(a)`. -/
def sdZero (m : Bytes) (a : BitVec 64) : Bytes := fun b => if (b - a).toNat < 8 then 0 else m b

def storeInt (m : Bytes) (a : BitVec 64) (value : BitVec 32) : Bytes := fun b =>
  if (b - a).toNat < 4 then (value >>> (8 * (b - a).toNat)).setWidth 8 else m b

def loadInt (m : Bytes) (a : BitVec 64) : BitVec 32 := m (a + 3) ++ m (a + 2) ++ m (a + 1) ++ m a

/-- Where hart 0 is: `_start` up to the clear loop, the loop, the rest of the boot up to
`wake_core1_smode`, and its wait. -/
inductive Hart0 where
  | start
  | laT1
  | laT2
  | bge
  | sd
  | addi
  | jump
  | bssDone
  | waitReady
  | storeTarget
deriving DecidableEq, Repr

/-- Where hart 1 is: `_start`, past the clear loop, `core1_smode_park_loop`. -/
inductive Hart1 where
  | start
  | skipBss
  | parkLoop
  | storeReady
  | parked
deriving DecidableEq, Repr

structure State where
  hart0 : Hart0
  t1 : BitVec 64
  t2 : BitVec 64
  hart1 : Hart1
  mem : Bytes

inductive Action where
  | hart0
  | hart1
  | other (address : BitVec 64) (value : BitVec 8)
deriving DecidableEq, Repr

variable (L : Layout)

def hart0Step (s : State) : State :=
  match s.hart0 with
  | .start => { s with hart0 := .laT1 }
  | .laT1 => { s with t1 := L.bssStart, hart0 := .laT2 }
  | .laT2 => { s with t2 := L.bssEnd, hart0 := .bge }
  | .bge => { s with hart0 := if s.t1.slt s.t2 then .sd else .bssDone }
  | .sd => { s with mem := sdZero s.mem s.t1, hart0 := .addi }
  | .addi => { s with t1 := s.t1 + 8, hart0 := .jump }
  | .jump => { s with hart0 := .bge }
  | .bssDone => { s with hart0 := .waitReady }
  | .waitReady => if loadInt s.mem L.flag = 0 then s else { s with hart0 := .storeTarget }
  | .storeTarget => s

def hart1Step (s : State) : State :=
  match s.hart1 with
  | .start => { s with hart1 := .skipBss }
  | .skipBss => { s with hart1 := .parkLoop }
  | .parkLoop => { s with hart1 := .storeReady }
  | .storeReady => { s with mem := storeInt s.mem L.flag 1, hart1 := .parked }
  | .parked => s

def step (s : State) : Action → Option State
  | .hart0 => some (hart0Step L s)
  | .hart1 => some (hart1Step L s)
  | .other address value =>
      -- nothing else stores to the flag
      if 4 ≤ (address - L.flag).toNat then
        some { s with mem := fun b => if b = address then value else s.mem b }
      else none

/-- Both harts at `_start`, whatever memory holds. -/
def AtReset (s : State) : Prop := s.hart0 = .start ∧ s.hart1 = .start

/-- The lowest address that the clear loop may still write. -/
def State.frontier (s : State) : Nat :=
  match s.hart0 with
  | .start | .laT1 => L.bssStart.toNat
  | .addi => s.t1.toNat + 8
  | _ => s.t1.toNat

/-- Hart 1 raises the flag only after the clear loop has passed it. -/
def RaisesAfterClear (s : State) (a : Action) : Prop :=
  a = .hart1 → s.hart1 = .storeReady → L.flag.toNat < s.frontier L

instance (s : State) (a : Action) : Decidable (RaisesAfterClear L s a) :=
  inferInstanceAs (Decidable (_ → _ → _))

/-- The loop's registers. -/
def Clearing (s : State) : Prop :=
  match s.hart0 with
  | .start | .laT1 => True
  | .laT2 => s.t1.toNat < L.bssEnd.toNat
  | .bge | .jump => s.t2 = L.bssEnd ∧ s.t1.toNat < L.bssEnd.toNat + 8
  | .sd | .addi => s.t2 = L.bssEnd ∧ s.t1.toNat < L.bssEnd.toNat
  | .bssDone | .waitReady | .storeTarget => L.bssEnd.toNat ≤ s.t1.toNat

/-- Below 2^63 the signed comparison of addresses is the unsigned one. -/
theorem slt_of_positive {a b : BitVec 64} (low : a.toNat < 2 ^ 63) (low' : b.toNat < 2 ^ 63) :
    a.slt b = true ↔ a.toNat < b.toNat := by
  rw [BitVec.slt_iff_toInt_lt, BitVec.toInt_eq_toNat_of_lt (by omega),
    BitVec.toInt_eq_toNat_of_lt (by omega)]
  omega

variable {L}

theorem toNat_add_eight {a : BitVec 64} (low : a.toNat < 2 ^ 63) :
    (a + 8).toNat = a.toNat + 8 := by
  have eight : (8 : BitVec 64).toNat = 8 := rfl
  rw [BitVec.toNat_add, eight]
  omega

theorem Clearing.hart0 {s : State} (inv : Clearing L s) : Clearing L (hart0Step L s) := by
  have positive := L.positive
  rcases s with ⟨hart0, t1, t2, hart1, mem⟩
  cases hart0 with
  | start => trivial
  | laT1 =>
      have starts := L.starts
      have inside := L.inside
      show L.bssStart.toNat < L.bssEnd.toNat
      omega
  | laT2 =>
      have below : t1.toNat < L.bssEnd.toNat := inv
      exact ⟨rfl, Nat.lt_add_right 8 below⟩
  | bge =>
      rcases inv with ⟨rfl, overshoot⟩
      have below : t1.toNat < L.bssEnd.toNat + 8 := overshoot
      have signed : t1.slt L.bssEnd = true ↔ t1.toNat < L.bssEnd.toNat :=
        slt_of_positive (by omega) (by omega)
      simp only [hart0Step]
      by_cases less : t1.slt L.bssEnd = true
      · rw [if_pos less]
        exact ⟨rfl, signed.mp less⟩
      · rw [if_neg less]
        exact Nat.le_of_not_lt fun below' => less (signed.mpr below')
  | sd => exact inv
  | addi =>
      rcases inv with ⟨rfl, within⟩
      have below : t1.toNat < L.bssEnd.toNat := within
      have next : (t1 + 8).toNat = t1.toNat + 8 := toNat_add_eight (by omega)
      refine ⟨rfl, ?_⟩
      show (t1 + 8).toNat < L.bssEnd.toNat + 8
      rw [next]
      exact Nat.add_lt_add_right below 8
  | jump => exact inv
  | bssDone => exact inv
  | waitReady =>
      simp only [hart0Step]
      split <;> exact inv
  | storeTarget => exact inv

theorem Clearing.step {s s' : State} {a : Action} (inv : Clearing L s)
    (fired : Fires (step L) s a s') : Clearing L s' := by
  cases a with
  | hart0 =>
      cases fired
      exact inv.hart0
  | hart1 =>
      cases fired
      unfold hart1Step
      split <;> exact inv
  | other address value =>
      simp only [Fires, Boot.step, Option.ite_none_right_eq_some, Option.some.injEq] at fired
      rcases fired with ⟨-, rfl⟩
      exact inv

theorem AtReset.clearing {s : State} (reset : AtReset s) : Clearing L s := by
  unfold Clearing
  rw [reset.1]
  trivial

/-- The clear loop only moves on. -/
theorem frontier_le {s : State} (inv : Clearing L s) :
    s.frontier L ≤ (hart0Step L s).frontier L := by
  have positive := L.positive
  rcases s with ⟨hart0, t1, t2, hart1, mem⟩
  cases hart0 with
  | sd => exact Nat.le_add_right t1.toNat 8
  | addi =>
      rcases inv with ⟨-, within⟩
      have below : t1.toNat < L.bssEnd.toNat := within
      have next : (t1 + 8).toNat = t1.toNat + 8 := toNat_add_eight (by omega)
      exact Nat.le_of_eq next.symm
  | bge =>
      by_cases less : t1.slt t2 = true <;> simp [hart0Step, State.frontier, less]
  | waitReady =>
      simp only [hart0Step]
      split <;> exact Nat.le_refl _
  | _ => exact Nat.le_refl _

theorem sdZero_other (m : Bytes) {a b : BitVec 64} (apart : 8 ≤ (b - a).toNat) :
    sdZero m a b = m b :=
  if_neg (Nat.not_lt.mpr apart)

theorem storeInt_same (m : Bytes) (a : BitVec 64) (value : BitVec 32) :
    storeInt m a value a = value.setWidth 8 := by
  simp [storeInt]

theorem loadInt_ne_zero {m : Bytes} {a : BitVec 64} (byte : m a = 1) : loadInt m a ≠ 0 := by
  intro zero
  have bit : (loadInt m a).getLsbD 0 = false := by
    rw [zero]
    rfl
  rw [loadInt, BitVec.getLsbD_append, byte] at bit
  cases bit

/-- A raised flag lies behind the clear loop. -/
def Raised (L : Layout) (s : State) : Prop :=
  s.hart1 = .parked → s.mem L.flag = 1 ∧ L.flag.toNat < s.frontier L

theorem Raised.hart0 {s : State} (clearing : Clearing L s) (inv : Raised L s) :
    Raised L (hart0Step L s) := by
  have positive := L.positive
  have onward := frontier_le clearing
  intro parked
  have before : s.hart1 = .parked := by
    unfold hart0Step at parked
    cases here : s.hart0 <;> simp only [here] at parked <;> first | exact parked | skip
    split at parked <;> exact parked
  rcases inv before with ⟨byte, passed⟩
  refine ⟨?_, Nat.lt_of_lt_of_le passed onward⟩
  rcases s with ⟨hart0, t1, t2, hart1, mem⟩
  cases hart0 with
  | sd =>
      have below : t1.toNat < L.bssEnd.toNat := clearing.2
      have behind : L.flag.toNat < t1.toNat := passed
      have apart : 8 ≤ (L.flag - t1).toNat := by
        rw [BitVec.toNat_sub]
        omega
      exact (sdZero_other mem apart).trans byte
  | waitReady =>
      simp only [hart0Step]
      split <;> exact byte
  | _ => exact byte

theorem Raised.step {s s' : State} {a : Action} (clearing : Clearing L s) (inv : Raised L s)
    (after : RaisesAfterClear L s a) (fired : Fires (step L) s a s') : Raised L s' := by
  cases a with
  | hart0 =>
      cases fired
      exact inv.hart0 clearing
  | hart1 =>
      cases fired
      rcases s with ⟨hart0, t1, t2, hart1, mem⟩
      cases hart1 with
      | storeReady => exact fun _ => ⟨storeInt_same mem L.flag 1, after rfl rfl⟩
      | parked => exact inv
      | _ => nofun
  | other address value =>
      simp only [Fires, Boot.step, Option.ite_none_right_eq_some, Option.some.injEq] at fired
      rcases fired with ⟨apart, rfl⟩
      intro parked
      rcases inv parked with ⟨byte, passed⟩
      have elsewhere : L.flag ≠ address := by
        intro same
        rw [same, BitVec.sub_self] at apart
        cases apart
      exact ⟨(if_neg elsewhere).trans byte, passed⟩

theorem reachable_raised {s : State}
    (reached : Reachable AtReset (Guarded (RaisesAfterClear L) (Fires (step L))) s) :
    Clearing L s ∧ Raised L s := by
  apply reached.invariant
  · intro s reset
    refine ⟨reset.clearing, ?_⟩
    intro parked
    rw [reset.2] at parked
    cases parked
  · intro s a s' inv fired
    exact ⟨inv.1.step fired.2, inv.2.step inv.1 fired.1 fired.2⟩

/-- The upper bytes of a raised flag. -/
def UpperClear (L : Layout) (m : Bytes) : Prop :=
  m (L.flag + 3) = 0 ∧ m (L.flag + 2) = 0 ∧ m (L.flag + 1) = 0

/-- A byte of 1 above the lowest one. -/
theorem storeInt_byte (m : Bytes) (a offset : BitVec 64) (low : offset.toNat < 4)
    (upper : ((1 : BitVec 32) >>> (8 * offset.toNat)).setWidth 8 = (0 : BitVec 8)) :
    storeInt m a 1 (a + offset) = 0 := by
  have distance : a + offset - a = offset := by rw [BitVec.add_comm, BitVec.add_sub_cancel]
  rw [storeInt, distance, if_pos low]
  exact upper

theorem storeInt_upper (m : Bytes) : UpperClear L (storeInt m L.flag 1) :=
  ⟨storeInt_byte m L.flag 3 (by decide) (by decide),
    storeInt_byte m L.flag 2 (by decide) (by decide),
    storeInt_byte m L.flag 1 (by decide) (by decide)⟩

theorem sdZero_zero {m : Bytes} (a : BitVec 64) {b : BitVec 64} (zero : m b = 0) :
    sdZero m a b = 0 := by
  unfold sdZero
  split
  · rfl
  · exact zero

theorem UpperClear.sdZero {m : Bytes} (upper : UpperClear L m) (a : BitVec 64) :
    UpperClear L (sdZero m a) :=
  ⟨sdZero_zero a upper.1, sdZero_zero a upper.2.1, sdZero_zero a upper.2.2⟩

theorem UpperClear.loadInt_zero {m : Bytes} (upper : UpperClear L m) (byte : m L.flag = 0) :
    loadInt m L.flag = 0 := by
  rw [loadInt, upper.1, upper.2.1, upper.2.2, byte]
  rfl

/-- Instructions until the next `sd`. -/
def Hart0.rank : Hart0 → Nat
  | .start => 8
  | .laT1 => 7
  | .laT2 => 6
  | .addi => 5
  | .jump => 4
  | .bge => 3
  | .sd => 2
  | _ => 0

/-- How far the clear loop is from passing the flag. -/
def State.distance (L : Layout) (s : State) : Nat :=
  (L.flag.toNat + 8 - s.frontier L) * 10 + s.hart0.rank

/-- The clear loop comes closer to the flag, or clears it. -/
theorem clear_progress {s : State} (clearing : Clearing L s)
    (early : s.frontier L ≤ L.flag.toNat) (upper : UpperClear L s.mem) :
    (hart0Step L s).hart1 = s.hart1 ∧ UpperClear L (hart0Step L s).mem ∧
      (loadInt (hart0Step L s).mem L.flag = 0 ∨
        ((hart0Step L s).frontier L ≤ L.flag.toNat ∧
          (hart0Step L s).distance L < s.distance L)) := by
  have positive := L.positive
  have inside := L.inside
  rcases s with ⟨hart0, t1, t2, hart1, mem⟩
  cases hart0 with
  | start => exact ⟨rfl, upper, Or.inr ⟨early, Nat.lt_succ_self _⟩⟩
  | laT1 => exact ⟨rfl, upper, Or.inr ⟨early, Nat.lt_succ_self _⟩⟩
  | laT2 => exact ⟨rfl, upper, Or.inr ⟨early, Nat.add_lt_add_left (show 3 < 6 by decide) _⟩⟩
  | jump => exact ⟨rfl, upper, Or.inr ⟨early, Nat.lt_succ_self _⟩⟩
  | addi =>
      have below : t1.toNat < L.bssEnd.toNat := clearing.2
      have next : (t1 + 8).toNat = t1.toNat + 8 := toNat_add_eight (by omega)
      have onward : (t1 + 8).toNat ≤ L.flag.toNat := next ▸ early
      refine ⟨rfl, upper, Or.inr ⟨onward, ?_⟩⟩
      show (L.flag.toNat + 8 - (t1 + 8).toNat) * 10 + 4 <
        (L.flag.toNat + 8 - (t1.toNat + 8)) * 10 + 5
      omega
  | bge =>
      have before : t1.toNat ≤ L.flag.toNat := early
      have bound : t2 = L.bssEnd := clearing.1
      have less : t1.slt t2 = true := by
        rw [bound]
        exact (slt_of_positive (by omega) (by omega)).mpr (by omega)
      simp only [hart0Step, less, ↓reduceIte, true_and]
      exact ⟨upper, Or.inr ⟨early, Nat.lt_succ_self _⟩⟩
  | sd =>
      have before : t1.toNat ≤ L.flag.toNat := early
      refine ⟨rfl, upper.sdZero t1, ?_⟩
      by_cases last : L.flag.toNat < t1.toNat + 8
      · have covered : (L.flag - t1).toNat < 8 := by
          rw [BitVec.toNat_sub]
          omega
        exact Or.inl ((upper.sdZero t1).loadInt_zero (if_pos covered))
      · refine Or.inr ⟨Nat.le_of_not_lt last, ?_⟩
        show (L.flag.toNat + 8 - (t1.toNat + 8)) * 10 + 5 < (L.flag.toNat + 8 - t1.toNat) * 10 + 2
        omega
  | bssDone =>
      have passed : L.bssEnd.toNat ≤ t1.toNat := clearing
      have before : t1.toNat ≤ L.flag.toNat := early
      omega
  | waitReady =>
      have passed : L.bssEnd.toNat ≤ t1.toNat := clearing
      have before : t1.toNat ≤ L.flag.toNat := early
      omega
  | storeTarget =>
      have passed : L.bssEnd.toNat ≤ t1.toNat := clearing
      have before : t1.toNat ≤ L.flag.toNat := early
      omega

/-- Hart 0 runs on until it has cleared the flag. -/
theorem raised_early_cleared {s : State} (clearing : Clearing L s) (parked : s.hart1 = .parked)
    (early : s.frontier L ≤ L.flag.toNat) (upper : UpperClear L s.mem) :
    ∃ s', Reachable (· = s) (Fires (step L)) s' ∧ s'.hart1 = .parked ∧
      loadInt s'.mem L.flag = 0 := by
  induction far : s.distance L using Nat.strongRecOn generalizing s with
  | ind n ih =>
      have here : Reachable (· = s) (Fires (step L)) s := Reachable.start rfl
      have next : Reachable (· = s) (Fires (step L)) (hart0Step L s) :=
        here.next (a := .hart0) rfl
      rcases clear_progress clearing early upper with
        ⟨same, upper', cleared | ⟨early', closer⟩⟩
      · exact ⟨hart0Step L s, next, same.trans parked, cleared⟩
      · rcases ih _ (far ▸ closer) clearing.hart0 (same.trans parked) early' upper' rfl with
          ⟨s', onward, parked', cleared⟩
        exact ⟨s', next.trans onward, parked', cleared⟩

/-- The flag stays raised in every run that raises it behind the clear loop; a flag raised
before that can be cleared. -/
theorem ready_stays_raised (L : Layout) :
    (∀ s, Reachable AtReset (Guarded (RaisesAfterClear L) (Fires (step L))) s →
      s.hart1 = .parked → loadInt s.mem L.flag ≠ 0) ∧
    ∀ s, Reachable AtReset (Fires (step L)) s → s.hart1 = .storeReady →
      ¬ RaisesAfterClear L s .hart1 →
        ∃ s', Reachable (· = hart1Step L s) (Fires (step L)) s' ∧ s'.hart1 = .parked ∧
          loadInt s'.mem L.flag = 0 := by
  constructor
  · intro s reached parked
    exact loadInt_ne_zero ((reachable_raised reached).2 parked).1
  · intro s reached about early
    have clearing : Clearing L s :=
      reached.invariant (fun _ reset => reset.clearing) fun _ _ _ inv fired => inv.step fired
    have before : s.frontier L ≤ L.flag.toNat := by
      unfold RaisesAfterClear at early
      simp only [about, forall_const, Nat.not_lt] at early
      exact early
    have stored : hart1Step L s =
        { s with mem := storeInt s.mem L.flag 1, hart1 := .parked } := by
      unfold hart1Step
      rw [about]
    rw [stored]
    exact raised_early_cleared clearing rfl before (storeInt_upper s.mem)

/-- A .bss section that begins with the flag. -/
def smallLayout : Layout where
  bssStart := 0x80001000
  bssEnd := 0x80001010
  flag := 0x80001000
  starts := by decide
  inside := by decide
  positive := by decide

def resetState : State where
  hart0 := .start
  t1 := 0
  t2 := 0
  hart1 := .start
  mem _ := 0

/-- Hart 1 comes behind the clear loop, and hart 0 finds the flag raised. -/
def hart1Behind : List Action :=
  List.replicate 13 .hart0 ++ [.hart1, .hart1, .hart1, .hart1, .hart0]

theorem ready_stays_raised_behind :
    ∃ s, Reachable AtReset (Guarded (RaisesAfterClear smallLayout) (Fires (step smallLayout))) s ∧
      s.hart0 = .storeTarget ∧ s.hart1 = .parked ∧ loadInt s.mem smallLayout.flag ≠ 0 := by
  have runs : (replay (checked (RaisesAfterClear smallLayout) (step smallLayout)) resetState
      hart1Behind).map (fun s => (s.hart0, s.hart1)) = some (.storeTarget, .parked) := by decide
  obtain ⟨s, replayed, final⟩ := Option.map_eq_some_iff.mp runs
  simp only [Prod.mk.injEq] at final
  have reset : AtReset resetState := ⟨rfl, rfl⟩
  have reached := ((Reachable.start reset).replay replayed).of_checked
  exact ⟨s, reached, final.1, final.2, (ready_stays_raised smallLayout).1 s reached final.2⟩

/-- Hart 1 runs ahead of the clear loop. -/
def hart1Ahead : List Action :=
  [.hart1, .hart1, .hart1, .hart1, .hart0, .hart0, .hart0, .hart0, .hart0]

theorem raised_flag_cleared :
    ¬ ∀ (L : Layout) (s : State), Reachable AtReset (Fires (step L)) s →
      s.hart1 = .parked → loadInt s.mem L.flag ≠ 0 := by
  intro always
  have runs : (replay (step smallLayout) resetState hart1Ahead).map
      (fun s => (s.hart1, loadInt s.mem smallLayout.flag)) = some (.parked, 0) := by decide
  rcases Option.map_eq_some_iff.mp runs with ⟨s, replayed, final⟩
  simp only [Prod.mk.injEq] at final
  have reset : AtReset resetState := ⟨rfl, rfl⟩
  have reached := (Reachable.start reset).replay replayed
  exact always smallLayout s reached final.1 final.2

end ZephyrRiscv.Boot
