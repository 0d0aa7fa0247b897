import ZephyrRiscv.Sv39
import ZephyrRiscv.Transition
import Mathlib.Data.Finset.Card

set_option autoImplicit false

namespace ZephyrRiscv.CompareAndSwap

open Sv39 Transition

variable {ι : Type} [DecidableEq ι]

/-- The arguments of a call. An increment makes the call again when it fails. -/
structure Call where
  addr : BitVec 64
  expected : BitVec 64
  desired : BitVec 64
  retries : Bool
deriving DecidableEq

/-- The next instruction of a hart, with the registers `old` and `sc_result`: the load of
an increment, the four instructions of the loop, or the return. -/
inductive Hart where
  | idle
  | ld (addr : BitVec 64)
  | lr (c : Call)
  | bne (c : Call) (old : BitVec 64)
  | sc (c : Call) (old : BitVec 64)
  | bnez (c : Call) (old scResult : BitVec 64)
  | out (c : Call) (old : BitVec 64)
deriving DecidableEq

structure State (ι : Type) where
  mem : Mem
  hart : ι → Hart
  reservation : ι → Option (BitVec 64)

inductive Action (ι : Type) where
  | store (i : ι) (addr value : BitVec 64)
  | amo (i : ι) (addr : BitVec 64) (op : BitVec 64 → BitVec 64)
  | call (i : ι) (addr expected desired : BitVec 64)
  | increment (i : ι) (addr : BitVec 64)
  | ld (i : ι)
  | lr (i : ι)
  | bne (i : ι)
  | sc (i : ι) (scResult : BitVec 64)
  | bnez (i : ι)
  | ret (i : ι) (addr : BitVec 64) (value : BitVec 32)

def Action.hart : Action ι → ι
  | .store i _ _ | .amo i _ _ | .call i _ _ _ | .increment i _ | .ld i | .lr i | .bne i | .sc i _
  | .bnez i | .ret i _ _ => i

/-- `(old == expected) ? 1 : 0`. -/
def Call.value (c : Call) (old : BitVec 64) : BitVec 32 := if old = c.expected then 1 else 0

def State.goto (s : State ι) (i : ι) (next : Hart) : State ι :=
  { s with hart := Function.update s.hart i next }

/-- A store breaks every reservation of its address. -/
def State.write (s : State ι) (addr value : BitVec 64) : State ι :=
  { s with
    mem := s.mem.store addr value
    reservation := fun i => if s.reservation i = some addr then none else s.reservation i }

def State.reserve (s : State ι) (i : ι) (reserved : Option (BitVec 64)) : State ι :=
  { s with reservation := Function.update s.reservation i reserved }

/-- `sc.d` gives up its reservation. It may fail at any time, with any code but zero, and
succeeds only while the reservation of its `lr.d` holds. -/
def scStep (s : State ι) (i : ι) (scResult : BitVec 64) (c : Call) (old : BitVec 64) :
    Option (State ι) :=
  if scResult = 0 then
    if s.reservation i = some c.addr then
      some (((s.write c.addr c.desired).reserve i none).goto i (.bnez c old scResult))
    else none
  else some ((s.reserve i none).goto i (.bnez c old scResult))

def step (s : State ι) (action : Action ι) : Option (State ι) :=
  match action, s.hart action.hart with
  | .store _ addr value, .idle => some (s.write addr value)
  | .amo _ addr op, .idle => some (s.write addr (op (s.mem addr)))
  | .call i addr expected desired, .idle => some (s.goto i (.lr ⟨addr, expected, desired, false⟩))
  | .increment i addr, .idle => some (s.goto i (.ld addr))
  | .ld i, .ld addr => some (s.goto i (.lr ⟨addr, s.mem addr, s.mem addr + 1, true⟩))
  | .lr i, .lr c => some ((s.reserve i (some c.addr)).goto i (.bne c (s.mem c.addr)))
  | .bne i, .bne c old => some (s.goto i (if old ≠ c.expected then .out c old else .sc c old))
  | .sc i scResult, .sc c old => scStep s i scResult c old
  | .bnez i, .bnez c old scResult => some (s.goto i (if scResult ≠ 0 then .lr c else .out c old))
  | .ret i addr value, .out c old =>
      if addr = c.addr ∧ value = c.value old then
        some (s.goto i (if c.retries ∧ value = 0 then .ld c.addr else .idle))
      else none
  | _, _ => none

@[simp] theorem goto_hart (s : State ι) (i : ι) (next : Hart) : (s.goto i next).hart i = next :=
  Function.update_self ..

@[simp] theorem goto_mem (s : State ι) (i : ι) (next : Hart) : (s.goto i next).mem = s.mem := rfl

@[simp] theorem goto_reservation (s : State ι) (i : ι) (next : Hart) :
    (s.goto i next).reservation = s.reservation := rfl

@[simp] theorem reserve_mem (s : State ι) (i : ι) (reserved : Option (BitVec 64)) :
    (s.reserve i reserved).mem = s.mem := rfl

/-- A store by a hart itself. -/
def OwnWrite (i : ι) : Action ι → Prop
  | .store j _ _ | .amo j _ _ => j = i
  | .sc j scResult => j = i ∧ scResult = 0
  | _ => False

variable {s s' : State ι} {action : Action ι}

/-- What a step of a hart makes of a state. -/
inductive Executed (s : State ι) (i : ι) : Action ι → State ι → Prop
  | store {addr value : BitVec 64} (here : s.hart i = .idle) :
      Executed s i (.store i addr value) (s.write addr value)
  | amo {addr : BitVec 64} {op : BitVec 64 → BitVec 64} (here : s.hart i = .idle) :
      Executed s i (.amo i addr op) (s.write addr (op (s.mem addr)))
  | call {addr expected desired : BitVec 64} (here : s.hart i = .idle) :
      Executed s i (.call i addr expected desired)
        (s.goto i (.lr ⟨addr, expected, desired, false⟩))
  | increment {addr : BitVec 64} (here : s.hart i = .idle) :
      Executed s i (.increment i addr) (s.goto i (.ld addr))
  | ld {addr : BitVec 64} (here : s.hart i = .ld addr) :
      Executed s i (.ld i) (s.goto i (.lr ⟨addr, s.mem addr, s.mem addr + 1, true⟩))
  | lr {c : Call} (here : s.hart i = .lr c) :
      Executed s i (.lr i) ((s.reserve i (some c.addr)).goto i (.bne c (s.mem c.addr)))
  | found {c : Call} {old : BitVec 64} (here : s.hart i = .bne c old) (same : old = c.expected) :
      Executed s i (.bne i) (s.goto i (.sc c old))
  | differs {c : Call} {old : BitVec 64} (here : s.hart i = .bne c old)
      (other : old ≠ c.expected) : Executed s i (.bne i) (s.goto i (.out c old))
  | swap {c : Call} {old : BitVec 64} (here : s.hart i = .sc c old)
      (reserved : s.reservation i = some c.addr) :
      Executed s i (.sc i 0) (((s.write c.addr c.desired).reserve i none).goto i (.bnez c old 0))
  | broken {c : Call} {old scResult : BitVec 64} (here : s.hart i = .sc c old)
      (failed : scResult ≠ 0) :
      Executed s i (.sc i scResult) ((s.reserve i none).goto i (.bnez c old scResult))
  | again {c : Call} {old scResult : BitVec 64} (here : s.hart i = .bnez c old scResult)
      (failed : scResult ≠ 0) : Executed s i (.bnez i) (s.goto i (.lr c))
  | leave {c : Call} {old : BitVec 64} (here : s.hart i = .bnez c old 0) :
      Executed s i (.bnez i) (s.goto i (.out c old))
  | ret {c : Call} {old : BitVec 64} (here : s.hart i = .out c old) :
      Executed s i (.ret i c.addr (c.value old))
        (s.goto i (if c.retries ∧ c.value old = 0 then .ld c.addr else .idle))

theorem executed_of_step (fired : step s action = some s') : Executed s action.hart action s' := by
  unfold step at fired
  split at fired
  · rename_i here
    obtain rfl := Option.some.inj fired
    exact .store here
  · rename_i here
    obtain rfl := Option.some.inj fired
    exact .amo here
  · rename_i here
    obtain rfl := Option.some.inj fired
    exact .call here
  · rename_i here
    obtain rfl := Option.some.inj fired
    exact .increment here
  · rename_i here
    obtain rfl := Option.some.inj fired
    exact .ld here
  · rename_i here
    obtain rfl := Option.some.inj fired
    exact .lr here
  · rename_i c old here
    obtain rfl := Option.some.inj fired
    by_cases same : old = c.expected
    · rw [if_neg (not_not.mpr same)]
      exact .found here same
    · rw [if_pos same]
      exact .differs here same
  · rename_i scResult c old here
    unfold scStep at fired
    split at fired
    · rename_i succeeded
      subst succeeded
      split at fired
      · rename_i reserved
        obtain rfl := Option.some.inj fired
        exact .swap here reserved
      · cases fired
    · rename_i failed
      obtain rfl := Option.some.inj fired
      exact .broken here failed
  · rename_i c old scResult here
    obtain rfl := Option.some.inj fired
    by_cases succeeded : scResult = 0
    · subst succeeded
      exact .leave here
    · rw [if_pos succeeded]
      exact .again here succeeded
  · rename_i addr value c old here
    split at fired
    · rename_i returned
      obtain ⟨rfl, rfl⟩ := returned
      obtain rfl := Option.some.inj fired
      exact .ret here
    · cases fired
  · cases fired

/-- While a reservation holds, its word stays. -/
structure Frame (i : ι) (s s' : State ι) : Prop where
  hart : s'.hart i = s.hart i
  word : ∀ addr, s'.reservation i = some addr →
    s.reservation i = some addr ∧ s'.mem addr = s.mem addr

theorem Frame.goto {s : State ι} {i j : ι} (different : i ≠ j) (next : Hart) :
    Frame i s (s.goto j next) :=
  ⟨Function.update_of_ne different _ _, fun _ reserved => ⟨reserved, rfl⟩⟩

theorem Frame.reserve {s : State ι} {i j : ι} (different : i ≠ j)
    (reserved : Option (BitVec 64)) : Frame i s (s.reserve j reserved) := by
  have same : (s.reserve j reserved).reservation i = s.reservation i :=
    Function.update_of_ne different _ _
  refine ⟨rfl, fun addr held => ⟨?_, rfl⟩⟩
  rw [← same]
  exact held

omit [DecidableEq ι] in
theorem Frame.write (s : State ι) (i : ι) (addr value : BitVec 64) :
    Frame i s (s.write addr value) := by
  refine ⟨rfl, fun a held => ?_⟩
  simp only [State.write] at held
  split at held
  · cases held
  · rename_i apart
    refine ⟨held, Mem.store_other _ _ _ _ ?_⟩
    rintro rfl
    exact apart held

omit [DecidableEq ι] in
theorem Frame.trans {i : ι} {s s' s'' : State ι} (first : Frame i s s') (second : Frame i s' s'') :
    Frame i s s'' := by
  refine ⟨second.hart.trans first.hart, fun addr held => ?_⟩
  obtain ⟨held', same'⟩ := second.word addr held
  obtain ⟨held'', same''⟩ := first.word addr held'
  exact ⟨held'', same'.trans same''⟩

/-- A step of another hart. -/
theorem Executed.frame {i j : ι} (executed : Executed s j action s') (different : i ≠ j) :
    Frame i s s' := by
  cases executed with
  | store here => exact Frame.write s i _ _
  | amo here => exact Frame.write s i _ _
  | lr here => exact (Frame.reserve different _).trans (Frame.goto different _)
  | swap here reserved =>
      exact ((Frame.write s i _ _).trans (Frame.reserve different none)).trans
        (Frame.goto different _)
  | broken here failed => exact (Frame.reserve different none).trans (Frame.goto different _)
  | _ => exact Frame.goto different _

omit [DecidableEq ι] in
theorem ownWrite_hart {i : ι} {action : Action ι} (own : OwnWrite i action) : action.hart = i := by
  cases action with
  | store j addr value => exact own
  | amo j addr op => exact own
  | sc j scResult => exact own.1
  | _ => cases own

abbrev Steps (s₀ : State ι) : List (Action ι) → State ι → Prop := Run (· = s₀) (Fires step)

/-- The hart itself stores nothing. -/
def Quiet (i : ι) (labels : List (Action ι)) : Prop := ∀ action ∈ labels, ¬ OwnWrite i action

/-- An `lr.d` of the call loaded a value. -/
def Observed (i : ι) (c : Call) (s₀ : State ι) (labels : List (Action ι)) (old : BitVec 64) :
    Prop :=
  ∃ early late s₁, labels = early ++ .lr i :: late ∧ Steps s₀ early s₁ ∧ s₁.mem c.addr = old

/-- One `sc.d` of the call found the expected value and stored the desired one, and the
hart stored nothing else. -/
def Swapped (i : ι) (c : Call) (s₀ : State ι) (labels : List (Action ι)) (s : State ι) : Prop :=
  ∃ early late s₁ s₂, labels = early ++ .sc i 0 :: late ∧ Steps s₀ early s₁ ∧
    Fires step s₁ (.sc i 0) s₂ ∧ Steps s₂ late s ∧ s₁.mem c.addr = c.expected ∧
    s₂.mem = s₁.mem.store c.addr c.desired ∧ Quiet i (early ++ late)

omit [DecidableEq ι] in
theorem Quiet.snoc {i : ι} {labels : List (Action ι)} {action : Action ι} (quiet : Quiet i labels)
    (notOwn : ¬ OwnWrite i action) : Quiet i (labels ++ [action]) := by
  intro a member
  cases List.mem_append.mp member with
  | inl old => exact quiet a old
  | inr new =>
      rw [List.mem_singleton.mp new]
      exact notOwn

variable {i : ι} {c : Call} {s₀ : State ι} {labels : List (Action ι)} {old : BitVec 64}

theorem Observed.snoc (observed : Observed i c s₀ labels old) (action : Action ι) :
    Observed i c s₀ (labels ++ [action]) old := by
  obtain ⟨early, late, s₁, rfl, before, loaded⟩ := observed
  exact ⟨early, late ++ [action], s₁, by simp, before, loaded⟩

theorem Swapped.snoc (swapped : Swapped i c s₀ labels s) (next : Fires step s action s')
    (notOwn : ¬ OwnWrite i action) : Swapped i c s₀ (labels ++ [action]) s' := by
  obtain ⟨early, late, s₁, s₂, rfl, before, sc, after, found, stored, quiet⟩ := swapped
  refine ⟨early, late ++ [action], s₁, s₂, by simp, before, sc, after.snoc next, found, stored, ?_⟩
  rw [← List.append_assoc]
  exact quiet.snoc notOwn

/-- What a call has done when its hart is at an instruction. -/
def Progress (i : ι) (c : Call) (s₀ : State ι) (labels : List (Action ι)) (s : State ι) :
    Hart → Prop
  | .lr c' => c' = c ∧ Quiet i labels
  | .bne c' old => c' = c ∧ Quiet i labels ∧ Observed i c s₀ labels old ∧
      (s.reservation i = some c.addr → s.mem c.addr = old)
  | .sc c' old => c' = c ∧ Quiet i labels ∧ old = c.expected ∧
      (s.reservation i = some c.addr → s.mem c.addr = c.expected)
  | .bnez c' old scResult => c' = c ∧ old = c.expected ∧
      if scResult = 0 then Swapped i c s₀ labels s else Quiet i labels
  | .out c' old => c' = c ∧ if old = c.expected then Swapped i c s₀ labels s
      else Quiet i labels ∧ Observed i c s₀ labels old
  | .idle | .ld _ => False

theorem Progress.other (progress : Progress i c s₀ labels s (s.hart i))
    (next : Fires step s action s') (different : i ≠ action.hart) :
    Progress i c s₀ (labels ++ [action]) s' (s'.hart i) := by
  have frame := (executed_of_step next).frame different
  have notOwn : ¬ OwnWrite i action := fun own => different (ownWrite_hart own).symm
  rw [frame.hart]
  cases here : s.hart i with
  | idle =>
      rw [here] at progress
      exact progress
  | ld addr =>
      rw [here] at progress
      exact progress
  | lr c' =>
      rw [here] at progress
      exact ⟨progress.1, progress.2.snoc notOwn⟩
  | bne c' old =>
      rw [here] at progress
      obtain ⟨same, quiet, observed, held⟩ := progress
      refine ⟨same, quiet.snoc notOwn, observed.snoc action, fun reserved => ?_⟩
      obtain ⟨before, word⟩ := frame.word _ reserved
      rw [word]
      exact held before
  | sc c' old =>
      rw [here] at progress
      obtain ⟨same, quiet, found, held⟩ := progress
      refine ⟨same, quiet.snoc notOwn, found, fun reserved => ?_⟩
      obtain ⟨before, word⟩ := frame.word _ reserved
      rw [word]
      exact held before
  | bnez c' old scResult =>
      rw [here] at progress
      obtain ⟨same, found, done⟩ := progress
      refine ⟨same, found, ?_⟩
      split at done
      · rename_i success
        rw [if_pos success]
        exact done.snoc next notOwn
      · rename_i failure
        rw [if_neg failure]
        exact done.snoc notOwn
  | out c' old =>
      rw [here] at progress
      obtain ⟨same, done⟩ := progress
      refine ⟨same, ?_⟩
      split at done
      · rename_i found
        rw [if_pos found]
        exact done.snoc next notOwn
      · rename_i other
        rw [if_neg other]
        exact ⟨done.1.snoc notOwn, done.2.snoc action⟩

theorem Progress.own (run : Steps s₀ labels s) (progress : Progress i c s₀ labels s (s.hart i))
    (next : Fires step s action s') (same : action.hart = i)
    (inside : ∀ addr value, action ≠ .ret i addr value) :
    Progress i c s₀ (labels ++ [action]) s' (s'.hart i) := by
  have executed := executed_of_step next
  rw [same] at executed
  cases executed with
  | store here | amo here | call here | increment here | ld here =>
      rw [here] at progress
      cases progress
  | lr here =>
      rw [here] at progress
      obtain ⟨rfl, quiet⟩ := progress
      rw [goto_hart]
      exact ⟨rfl, quiet.snoc id, ⟨labels, [], s, rfl, run, rfl⟩, fun _ => rfl⟩
  | found here agrees =>
      rw [here] at progress
      obtain ⟨rfl, quiet, observed, held⟩ := progress
      rw [goto_hart]
      exact ⟨rfl, quiet.snoc id, agrees, fun reserved => (held reserved).trans agrees⟩
  | differs here other =>
      rw [here] at progress
      obtain ⟨rfl, quiet, observed, held⟩ := progress
      rw [goto_hart]
      refine ⟨rfl, ?_⟩
      rw [if_neg other]
      exact ⟨quiet.snoc id, observed.snoc _⟩
  | swap here reserved =>
      -- the call takes effect here, on the word that its reservation has held
      rw [here] at progress
      obtain ⟨rfl, quiet, rfl, held⟩ := progress
      rw [goto_hart]
      refine ⟨rfl, rfl, ?_⟩
      rw [if_pos rfl]
      refine ⟨labels, [], s, _, rfl, run, next, .start rfl, held reserved, rfl, ?_⟩
      rw [List.append_nil]
      exact quiet
  | broken here failed =>
      rw [here] at progress
      obtain ⟨rfl, quiet, rfl, held⟩ := progress
      rw [goto_hart]
      refine ⟨rfl, rfl, ?_⟩
      rw [if_neg failed]
      exact quiet.snoc fun own => failed own.2
  | again here failed =>
      rw [here] at progress
      obtain ⟨rfl, found, quiet⟩ := progress
      rw [if_neg failed] at quiet
      rw [goto_hart]
      exact ⟨rfl, quiet.snoc id⟩
  | leave here =>
      rw [here] at progress
      obtain ⟨rfl, found, swapped⟩ := progress
      rw [if_pos rfl] at swapped
      rw [goto_hart]
      refine ⟨rfl, ?_⟩
      rw [if_pos found]
      exact swapped.snoc next id
  | ret here => exact absurd rfl (inside _ _)

theorem progress_run (entered : s₀.hart i = .lr c) (run : Steps s₀ labels s)
    (inside : ∀ addr value, .ret i addr value ∉ labels) :
    Progress i c s₀ labels s (s.hart i) := by
  induction run with
  | start same =>
      rw [same, entered]
      exact ⟨rfl, fun _ member => absurd member List.not_mem_nil⟩
  | @snoc labels s s' action before next ih =>
      have earlier := ih fun addr value member => inside addr value (List.mem_append_left _ member)
      have last : ∀ addr value, action ≠ .ret i addr value := fun addr value same =>
        inside addr value (List.mem_append_right _ (by rw [same]; exact List.mem_singleton_self _))
      by_cases mine : i = action.hart
      · exact earlier.own before next mine.symm last
      · exact earlier.other next mine

theorem ret_cases {addr : BitVec 64} {value : BitVec 32}
    (fired : step s (.ret i addr value) = some s') :
    ∃ c old, s.hart i = .out c old ∧ addr = c.addr ∧ value = c.value old ∧
      s' = s.goto i (if c.retries ∧ value = 0 then .ld c.addr else .idle) := by
  have executed : Executed s i (.ret i addr value) s' := executed_of_step fired
  cases executed with
  | ret here => exact ⟨_, _, here, rfl, rfl, rfl⟩

/-- A call that returns 1 has taken effect once; a call that returns 0 has loaded another
value and stored nothing. -/
theorem call_outcome {value : BitVec 32} {addr : BitVec 64} (entered : s₀.hart i = .lr c)
    (run : Steps s₀ labels s) (inside : ∀ addr value, .ret i addr value ∉ labels)
    (returned : Fires step s (.ret i addr value) s') :
    value = 1 ∧ Swapped i c s₀ labels s ∨
      value = 0 ∧ Quiet i labels ∧ ∃ old, old ≠ c.expected ∧ Observed i c s₀ labels old := by
  have progress := progress_run entered run inside
  obtain ⟨c', old, here, -, result, -⟩ := ret_cases returned
  rw [here] at progress
  obtain ⟨rfl, done⟩ := progress
  rw [Call.value] at result
  by_cases found : old = c'.expected
  · rw [if_pos found] at result done
    exact Or.inl ⟨result, done⟩
  · rw [if_neg found] at result done
    exact Or.inr ⟨result, done.1, old, found, done.2⟩

/-- Stores and single calls that keep the number of increments: nothing but calls for one
more stores to the counter. -/
def Counts (ctr : BitVec 64) (_ : State ι) : Action ι → Prop
  | .store _ addr _ | .amo _ addr _ => addr ≠ ctr
  | .call _ addr expected desired => addr = ctr → desired = expected + 1
  | _ => True

/-- A call for the counter that returns 1. -/
def success (ctr : BitVec 64) : Action ι → Bool
  | .ret _ addr value => addr = ctr ∧ value = 1
  | _ => false

/-- The call that a hart is in. -/
def Hart.current : Hart → Option Call
  | .lr c | .bne c _ | .sc c _ | .bnez c _ _ | .out c _ => some c
  | .idle | .ld _ => none

/-- The call has taken effect on the counter, and has not returned. -/
def Pending (ctr : BitVec 64) : Hart → Prop
  | .bnez c _ scResult => c.addr = ctr ∧ scResult = 0
  | .out c old => c.addr = ctr ∧ old = c.expected
  | _ => False

instance (ctr : BitVec 64) : (h : Hart) → Decidable (Pending ctr h)
  | .bnez _ _ _ => inferInstanceAs (Decidable (_ ∧ _))
  | .out _ _ => inferInstanceAs (Decidable (_ ∧ _))
  | .idle | .ld _ | .lr _ | .bne _ _ | .sc _ _ => inferInstanceAs (Decidable False)

def weight (ctr : BitVec 64) (h : Hart) : Nat := if Pending ctr h then 1 else 0

/-- A call for the counter asks for one more, and its reservation holds the value that
it has loaded. -/
def Counting (ctr : BitVec 64) (reserved : Option (BitVec 64)) (word : BitVec 64) : Hart → Prop
  | .lr c => c.addr = ctr → c.desired = c.expected + 1
  | .bne c old => c.addr = ctr → c.desired = c.expected + 1 ∧ (reserved = some ctr → word = old)
  | .sc c old => c.addr = ctr → c.desired = c.expected + 1 ∧ old = c.expected ∧
      (reserved = some ctr → word = old)
  | .bnez c old _ => c.addr = ctr → c.desired = c.expected + 1 ∧ old = c.expected
  | .out c _ => c.addr = ctr → c.desired = c.expected + 1
  | .idle | .ld _ => True

def AllCounting (ctr : BitVec 64) (s : State ι) : Prop :=
  ∀ i, Counting ctr (s.reservation i) (s.mem ctr) (s.hart i)

omit [DecidableEq ι] in
theorem Counting.frame {ctr : BitVec 64} (frame : Frame i s s')
    (counting : Counting ctr (s.reservation i) (s.mem ctr) (s.hart i)) :
    Counting ctr (s'.reservation i) (s'.mem ctr) (s'.hart i) := by
  rw [frame.hart]
  cases here : s.hart i with
  | bne c old =>
      rw [here] at counting
      intro mine
      refine ⟨(counting mine).1, fun reserved => ?_⟩
      obtain ⟨before, word⟩ := frame.word ctr reserved
      rw [word]
      exact (counting mine).2 before
  | sc c old =>
      rw [here] at counting
      intro mine
      refine ⟨(counting mine).1, (counting mine).2.1, fun reserved => ?_⟩
      obtain ⟨before, word⟩ := frame.word ctr reserved
      rw [word]
      exact (counting mine).2.2 before
  | _ =>
      rw [here] at counting
      exact counting

theorem weight_pending {ctr : BitVec 64} {h : Hart} (pending : Pending ctr h) : weight ctr h = 1 :=
  if_pos pending

theorem weight_idle {ctr : BitVec 64} {h : Hart} (idle : ¬ Pending ctr h) : weight ctr h = 0 :=
  if_neg idle

/-- What an instruction makes of its hart's call and of the counter: the counter and the
calls that have returned 1 differ by those about to. -/
structure Gains (ctr : BitVec 64) (s : State ι) (action : Action ι) (s' : State ι) : Prop where
  counting : Counting ctr (s'.reservation action.hart) (s'.mem ctr) (s'.hart action.hart)
  total : s'.mem ctr + BitVec.ofNat 64 (weight ctr (s.hart action.hart)) =
    s.mem ctr +
      BitVec.ofNat 64 (weight ctr (s'.hart action.hart) + (success ctr action).toNat)

omit [DecidableEq ι] in
/-- An instruction that leaves memory, the pending calls and the returned ones alone. -/
theorem Gains.quiet {ctr : BitVec 64}
    (counting : Counting ctr (s'.reservation action.hart) (s'.mem ctr) (s'.hart action.hart))
    (word : s'.mem ctr = s.mem ctr)
    (pending : weight ctr (s'.hart action.hart) = weight ctr (s.hart action.hart))
    (returns : success ctr action = false) : Gains ctr s action s' := by
  refine ⟨counting, ?_⟩
  rw [word, pending, returns]
  rfl

omit [DecidableEq ι] in
theorem write_gains {ctr addr value : BitVec 64} (idle : s.hart action.hart = .idle)
    (apart : addr ≠ ctr) (returns : success ctr action = false) :
    Gains ctr s action (s.write addr value) := by
  have word : (s.write addr value).mem ctr = s.mem ctr :=
    Mem.store_other _ _ _ _ (Ne.symm apart)
  have same : (s.write addr value).hart action.hart = s.hart action.hart := rfl
  apply Gains.quiet _ word (by rw [same]) returns
  rw [same, idle]
  trivial

theorem swap_gains {ctr : BitVec 64} (here : s.hart i = .sc c old)
    (counting : Counting ctr (s.reservation i) (s.mem ctr) (.sc c old))
    (reserved : s.reservation i = some c.addr) :
    Gains ctr s (.sc i 0)
      (((s.write c.addr c.desired).reserve i none).goto i (.bnez c old 0)) := by
  have before : weight ctr (s.hart i) = 0 := by
    rw [here]
    exact weight_idle id
  by_cases mine : c.addr = ctr
  · obtain ⟨more, found, held⟩ := counting mine
    rw [mine] at reserved
    have pending : weight ctr (.bnez c old 0) = 1 := weight_pending ⟨mine, rfl⟩
    have stored : (((s.write c.addr c.desired).reserve i none).goto i
        (.bnez c old 0)).mem ctr = s.mem ctr + 1 := by
      show s.mem.store c.addr c.desired ctr = s.mem ctr + 1
      rw [mine, Mem.store_same, more, ← found, held reserved]
    constructor
    · rw [Action.hart, goto_hart]
      exact fun _ => ⟨more, found⟩
    · rw [Action.hart, goto_hart, before, pending, stored]
      exact BitVec.add_zero _
  · have pending : weight ctr (.bnez c old 0) = 0 := weight_idle fun pending => mine pending.1
    apply Gains.quiet
    · rw [Action.hart, goto_hart]
      exact fun same => absurd same mine
    · exact Mem.store_other _ _ _ _ (Ne.symm mine)
    · rw [Action.hart, goto_hart, before, pending]
    · rfl

theorem goto_gains (action : Action ι) {ctr : BitVec 64} {h next : Hart}
    (here : s.hart action.hart = h)
    (counting : Counting ctr (s.reservation action.hart) (s.mem ctr) next)
    (pending : weight ctr next = weight ctr h) (returns : success ctr action = false) :
    Gains ctr s action (s.goto action.hart next) := by
  apply Gains.quiet
  · rw [goto_hart]
    exact counting
  · rfl
  · rw [here, goto_hart]
    exact pending
  · exact returns

theorem ret_gains {ctr addr : BitVec 64} {value : BitVec 32} (here : s.hart i = .out c old)
    (address : addr = c.addr) (result : value = c.value old) {next : Hart}
    (leaves : next = .ld c.addr ∨ next = .idle) :
    Gains ctr s (.ret i addr value) (s.goto i next) := by
  have after : weight ctr next = 0 := by
    obtain rfl | rfl := leaves
    · exact weight_idle id
    · exact weight_idle id
  have before : weight ctr (.out c old) = (success ctr (.ret i addr value)).toNat := by
    by_cases found : old = c.expected
    · have one : value = 1 := result.trans (if_pos found)
      by_cases mine : c.addr = ctr
      · have returns : success ctr (.ret i addr value) = true :=
          decide_eq_true ⟨address.trans mine, one⟩
        have pending : Pending ctr (.out c old) := ⟨mine, found⟩
        rw [weight_pending pending, returns]
        rfl
      · have returns : success ctr (.ret i addr value) = false :=
          decide_eq_false fun both => mine (address.symm.trans both.1)
        have idle : ¬ Pending ctr (.out c old) := fun pending => mine pending.1
        rw [weight_idle idle, returns]
        rfl
    · have zero : value = 0 := result.trans (if_neg found)
      have returns : success ctr (.ret i addr value) = false :=
        decide_eq_false fun both => absurd (zero.symm.trans both.2) (by decide)
      have idle : ¬ Pending ctr (.out c old) := fun pending => found pending.2
      rw [weight_idle idle, returns]
      rfl
  constructor
  · rw [Action.hart, goto_hart]
    obtain rfl | rfl := leaves
    · trivial
    · trivial
  · rw [Action.hart, goto_hart, here, after, before, Nat.zero_add, goto_mem]

theorem step_gains {ctr : BitVec 64} (all : AllCounting ctr s) (counts : Counts ctr s action)
    (fired : step s action = some s') : Gains ctr s action s' := by
  have counting := all action.hart
  have executed := executed_of_step fired
  generalize action.hart = i at counting executed
  cases executed with
  | store here => exact write_gains here counts rfl
  | amo here => exact write_gains here counts rfl
  | @call addr expected desired here =>
      exact goto_gains (.call i addr expected desired) here counts rfl rfl
  | @increment addr here => exact goto_gains (.increment i addr) here trivial rfl rfl
  | ld here => exact goto_gains (.ld i) here (fun _ => rfl) rfl rfl
  | lr here =>
      rw [here] at counting
      apply Gains.quiet
      · rw [Action.hart, goto_hart]
        exact fun mine => ⟨counting mine, fun _ => by rw [mine]; rfl⟩
      · rfl
      · rw [Action.hart, goto_hart, here]
        rfl
      · rfl
  | @found c old here agrees =>
      rw [here] at counting
      have sane : Counting ctr (s.reservation i) (s.mem ctr) (.sc c old) :=
        fun mine => ⟨(counting mine).1, agrees, (counting mine).2⟩
      exact goto_gains (.bne i) here sane rfl rfl
  | @differs c old here other =>
      rw [here] at counting
      have sane : Counting ctr (s.reservation i) (s.mem ctr) (.out c old) :=
        fun mine => (counting mine).1
      have idle : ¬ Pending ctr (.out c old) := fun pending => other pending.2
      exact goto_gains (.bne i) here sane (weight_idle idle) rfl
  | swap here reserved =>
      rw [here] at counting
      exact swap_gains here counting reserved
  | @broken c old scResult here failed =>
      rw [here] at counting
      have idle : ¬ Pending ctr (.bnez c old scResult) := fun pending => failed pending.2
      apply Gains.quiet
      · rw [Action.hart, goto_hart]
        exact fun mine => ⟨(counting mine).1, (counting mine).2.1⟩
      · rfl
      · rw [Action.hart, goto_hart, here, weight_idle idle]
        rfl
      · rfl
  | @again c old scResult here failed =>
      rw [here] at counting
      have sane : Counting ctr (s.reservation i) (s.mem ctr) (.lr c) :=
        fun mine => (counting mine).1
      have idle : ¬ Pending ctr (.bnez c old scResult) := fun pending => failed pending.2
      exact goto_gains (.bnez i) here sane (weight_idle idle).symm rfl
  | @leave c old here =>
      rw [here] at counting
      have sane : Counting ctr (s.reservation i) (s.mem ctr) (.out c old) :=
        fun mine => (counting mine).1
      have same : Pending ctr (.out c old) ↔ Pending ctr (.bnez c old 0) :=
        ⟨fun pending => ⟨pending.1, rfl⟩, fun pending => ⟨pending.1, (counting pending.1).2⟩⟩
      have weights : weight ctr (.out c old) = weight ctr (.bnez c old 0) := by
        simp only [weight, same]
      exact goto_gains (.bnez i) here sane weights rfl
  | ret here =>
      apply ret_gains here rfl rfl
      split
      · exact Or.inl rfl
      · exact Or.inr rfl

/-- The pending calls after a step of one hart. -/
theorem pending_step {ctr : BitVec 64} {j : ι} {pending : Finset ι}
    (members : ∀ i, i ∈ pending ↔ Pending ctr (s.hart i))
    (others : ∀ i, i ≠ j → s'.hart i = s.hart i) :
    ∃ pending' : Finset ι, (∀ i, i ∈ pending' ↔ Pending ctr (s'.hart i)) ∧
      pending'.card + weight ctr (s.hart j) = pending.card + weight ctr (s'.hart j) := by
  have rest : (pending.erase j).card + weight ctr (s.hart j) = pending.card := by
    by_cases before : Pending ctr (s.hart j)
    · rw [weight_pending before, Finset.card_erase_add_one ((members j).mpr before)]
    · have outside : j ∉ pending := fun member => before ((members j).mp member)
      rw [weight_idle before, Finset.erase_eq_of_notMem outside, Nat.add_zero]
  have elsewhere : ∀ i, i ≠ j → (i ∈ pending.erase j ↔ Pending ctr (s'.hart i)) := by
    intro i different
    rw [others i different, Finset.mem_erase, members i]
    exact and_iff_right different
  by_cases after : Pending ctr (s'.hart j)
  · refine ⟨insert j (pending.erase j), ?_, ?_⟩
    · intro i
      by_cases same : i = j
      · rw [same]
        exact iff_of_true (Finset.mem_insert_self _ _) after
      · rw [Finset.mem_insert, or_iff_right same]
        exact elsewhere i same
    · rw [Finset.card_insert_of_notMem (Finset.notMem_erase j pending), weight_pending after]
      omega
  · refine ⟨pending.erase j, ?_, ?_⟩
    · intro i
      by_cases same : i = j
      · rw [same]
        exact iff_of_false (Finset.notMem_erase j pending) after
      · exact elsewhere i same
    · rw [weight_idle after]
      omega

/-- The counter holds the increments that have returned and those about to. -/
structure Counted (ctr initial : BitVec 64) (labels : List (Action ι)) (s : State ι) : Prop where
  counting : AllCounting ctr s
  total : ∃ pending : Finset ι, (∀ i, i ∈ pending ↔ Pending ctr (s.hart i)) ∧
    s.mem ctr = initial + BitVec.ofNat 64 (labels.countP (success ctr) + pending.card)

theorem Counted.step {ctr initial : BitVec 64} (counted : Counted ctr initial labels s)
    (counts : Counts ctr s action) (fired : step s action = some s') :
    Counted ctr initial (labels ++ [action]) s' := by
  have gains := step_gains counted.counting counts fired
  have frame : ∀ i, i ≠ action.hart → Frame i s s' := fun _ different =>
    (executed_of_step fired).frame different
  refine ⟨fun i => ?_, ?_⟩
  · by_cases mine : i = action.hart
    · rw [mine]
      exact gains.counting
    · exact (counted.counting i).frame (frame i mine)
  · obtain ⟨pending, members, total⟩ := counted.total
    obtain ⟨pending', members', cards⟩ := pending_step members fun i different =>
      (frame i different).hart
    refine ⟨pending', members', ?_⟩
    have count : (labels ++ [action]).countP (success ctr) =
        labels.countP (success ctr) + (success ctr action).toNat := by
      rw [List.countP_append, List.countP_singleton]
      cases success ctr action <;> rfl
    have sum := gains.total
    rw [total, BitVec.add_assoc, ← BitVec.ofNat_add] at sum
    apply (BitVec.add_left_inj (BitVec.ofNat 64 (weight ctr (s.hart action.hart)))).mp
    rw [sum, count, BitVec.add_assoc, ← BitVec.ofNat_add]
    congr 2
    omega

/-- No hart is in a call for an address. -/
def Unused (addr : BitVec 64) (s : State ι) : Prop :=
  ∀ i c, (s.hart i).current = some c → c.addr ≠ addr

omit [DecidableEq ι] in
theorem Unused.counting {ctr : BitVec 64} (unused : Unused ctr s) : AllCounting ctr s := by
  intro i
  have other := unused i
  cases here : s.hart i with
  | idle => trivial
  | ld addr => trivial
  | _ =>
      rw [here] at other
      exact fun mine => absurd mine (other _ rfl)

omit [DecidableEq ι] in
theorem Unused.pending {ctr : BitVec 64} (unused : Unused ctr s) (i : ι) :
    ¬ Pending ctr (s.hart i) := by
  have other := unused i
  cases here : s.hart i with
  | bnez c old scResult =>
      rw [here] at other
      exact fun pending => other c rfl pending.1
  | out c old =>
      rw [here] at other
      exact fun pending => other c rfl pending.1
  | _ => exact id

theorem counted_run {ctr : BitVec 64} (unused : Unused ctr s₀)
    (run : Run (· = s₀) (Guarded (Counts ctr) (Fires step)) labels s) :
    Counted ctr (s₀.mem ctr) labels s := by
  induction run with
  | start same =>
      rw [same]
      refine ⟨unused.counting, ∅, fun i => ?_, ?_⟩
      · exact iff_of_false (Finset.notMem_empty i) (unused.pending i)
      · exact (BitVec.add_zero _).symm
  | snoc _ next ih => exact ih.step next.1 next.2

/-- A call that returns 1 has at one step replaced the expected value by the desired one,
and a call that returns 0 has stored nothing and loaded another value. A counter that is
only incremented has grown by the calls that returned 1. -/
theorem cas_d_atomic (ι : Type) [DecidableEq ι] :
    (∀ (i : ι) (c : Call) (s₀ s s' : State ι) (labels : List (Action ι)) (addr : BitVec 64)
      (value : BitVec 32), s₀.hart i = .lr c → Steps s₀ labels s →
      (∀ addr value, .ret i addr value ∉ labels) → Fires step s (.ret i addr value) s' →
        (value = 1 → Swapped i c s₀ labels s) ∧
        (value = 0 → Quiet i labels ∧ ∃ old, old ≠ c.expected ∧ Observed i c s₀ labels old) ∧
        (value = 1 ∨ value = 0)) ∧
    ∀ (ctr : BitVec 64) (s₀ s : State ι) (labels : List (Action ι)), Unused ctr s₀ →
      Run (· = s₀) (Guarded (Counts ctr) (Fires step)) labels s → Unused ctr s →
        s.mem ctr = s₀.mem ctr + BitVec.ofNat 64 (labels.countP (success ctr)) := by
  constructor
  · intro i c s₀ s s' labels addr value entered run inside returned
    obtain ⟨rfl, swapped⟩ | ⟨rfl, refused⟩ := call_outcome entered run inside returned
    · exact ⟨fun _ => swapped, fun zero => absurd zero (by decide), Or.inl rfl⟩
    · exact ⟨fun one => absurd one (by decide), fun _ => refused, Or.inr rfl⟩
  · intro ctr s₀ s labels unused run done
    obtain ⟨pending, members, total⟩ := (counted_run unused run).total
    have none : pending = ∅ := by
      apply Finset.eq_empty_of_forall_notMem
      intro i member
      exact done.pending i ((members i).mp member)
    rw [total, none, Finset.card_empty, Nat.add_zero]

instance (ctr : BitVec 64) (s : State ι) : (action : Action ι) → Decidable (Counts ctr s action)
  | .store _ _ _ | .amo _ _ _ => inferInstanceAs (Decidable (_ ≠ _))
  | .call _ _ _ _ => inferInstanceAs (Decidable (_ → _))
  | .increment _ _ | .ld _ | .lr _ | .bne _ | .sc _ _ | .bnez _ | .ret _ _ _ =>
      inferInstanceAs (Decidable True)

def atRest : State Bool where
  mem _ := 0
  hart _ := .idle
  reservation _ := none

theorem atRest_unused : Unused 0x80200000 atRest := by
  intro i c busy
  cases busy

/-- The hart `true` breaks the reservation of `false`, whose call fails and is made again. -/
def contended : List (Action Bool) :=
  [.increment false 0x80200000, .increment true 0x80200000, .ld false, .ld true, .lr false,
    .lr true, .bne false, .bne true, .sc true 0, .sc false 1, .bnez false, .lr false, .bne false,
    .ret false 0x80200000 0, .bnez true, .ret true 0x80200000 1, .ld false, .lr false, .bne false,
    .sc false 0, .bnez false, .ret false 0x80200000 1]

theorem contended_run : ∃ s, Run (· = atRest) (Guarded (Counts 0x80200000) (Fires step))
    contended s ∧ Unused 0x80200000 s := by
  have runs : (replay (checked (Counts 0x80200000) step) atRest contended).any
      (fun s => decide (∀ i, s.hart i = .idle)) = true := by decide +kernel
  cases replayed : replay (checked (Counts 0x80200000) step) atRest contended with
  | none =>
      rw [replayed] at runs
      cases runs
  | some s =>
      rw [replayed] at runs
      have idle : ∀ i, s.hart i = .idle := of_decide_eq_true runs
      have start : Run (· = atRest) (Fires (checked (Counts 0x80200000) step)) [] atRest :=
        .start rfl
      refine ⟨s, (start.replay replayed).of_checked, ?_⟩
      intro i c busy
      rw [idle i] at busy
      cases busy

/-- Both increments count, and a call of one hart alone takes effect at its `sc.d`. -/
theorem cas_d_atomic_contended :
    (∃ s, Run (· = atRest) (Guarded (Counts 0x80200000) (Fires step)) contended s ∧
      s.mem 0x80200000 = 2) ∧
    ∃ s₀ s : State Bool, Swapped false ⟨0x80200000, 0, 5, false⟩ s₀
      [.lr false, .bne false, .sc false 0, .bnez false] s := by
  constructor
  · obtain ⟨s, run, done⟩ := contended_run
    have total := (cas_d_atomic Bool).2 0x80200000 atRest s contended atRest_unused run done
    exact ⟨s, run, total.trans (by decide)⟩
  · let c : Call := ⟨0x80200000, 0, 5, false⟩
    let s₀ : State Bool := atRest.goto false (.lr c)
    let labels : List (Action Bool) := [.lr false, .bne false, .sc false 0, .bnez false]
    have runs : (replay step s₀ labels).any
        (fun s => (step s (.ret false 0x80200000 1)).isSome) = true := by decide +kernel
    cases replayed : replay step s₀ labels with
    | none =>
        rw [replayed] at runs
        cases runs
    | some s =>
        rw [replayed] at runs
        obtain ⟨s', returned⟩ := Option.isSome_iff_exists.mp runs
        have start : Steps s₀ [] s₀ := .start rfl
        have inside : ∀ addr value, .ret false addr value ∉ labels := by
          intro addr value member
          simp [labels] at member
        have outcome := (cas_d_atomic Bool).1 false c s₀ s s' labels 0x80200000 1
          (goto_hart atRest false (.lr c)) (start.replay replayed) inside returned
        exact ⟨s₀, s, outcome.1 rfl⟩

end ZephyrRiscv.CompareAndSwap
