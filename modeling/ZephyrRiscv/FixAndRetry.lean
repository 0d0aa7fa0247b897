import ZephyrRiscv.FaultRepair
import ZephyrRiscv.TrapMemory

set_option autoImplicit false

namespace ZephyrRiscv.PageFaults

open Sv39 Mmu RadixForest Tables Pt

/-- An instruction that accesses one address. A store leaves `value` in the doubleword
of its address. -/
structure MemAccess where
  kind : AccessKind
  va : BitVec 64
  pc : BitVec 64
  value : BitVec 64

/-- What the linker has placed: `g_trap`, and the doublewords of the code and the stack that
the accesses and `s_trap_handler` run on. -/
structure Image where
  gTrap : BitVec 64
  running : BitVec 64 → Bool
  aligned : gTrap.toNat % 8 = 0

def Image.Holds (image : Image) (address : BitVec 64) : Prop :=
  InTrap image.gTrap address ∨ image.running address = true

/-- `g_trap` is no part of the page-table pool. -/
def Image.Beside (image : Image) (pool : Pool) : Prop :=
  ∀ i, i < pool.pages → ∀ k, ¬ InTrap image.gTrap (slot (pool.page i) k)

structure Machine where
  mem : Mem
  satp : BitVec 64
  image : Image

namespace Machine

def trap (m : Machine) : TrapState := readTrap m.mem m.image.gTrap

def translate (status : Status) (m : Machine) (a : MemAccess) : Option Nat :=
  access m.mem m.satp status a.kind a.va

/-- The program is no data of the model: a store over running code or its stack ends the run. -/
def retire (m : Machine) (a : MemAccess) (pa : Nat) : Option Machine :=
  if a.kind = .store then
    let address := BitVec.ofNat 64 (pa / 8 * 8)
    if m.image.running address then none
    else some { m with mem := m.mem.store address a.value }
  else some m

def context (m : Machine) : SContext where
  satp := m.satp
  mem := m.mem
  handlerAction := m.trap.handlerAction

/-- The machine after the handler, when it returns to the faulting instruction. -/
def trapped (m : Machine) (a : MemAccess) : Option Machine :=
  let effects := sTrapHandler m.context a.kind.cause a.va a.pc
  if Resumes effects then
    some { m with mem := effects.foldl (storeEffect m.image.gTrap) m.mem }
  else none

/-- Memory when the handler has recorded and counted the fault. -/
def recorded (m : Machine) (a : MemAccess) : Mem :=
  storeEffect m.image.gTrap
    (storeEffect m.image.gTrap m.mem (.trapRecord a.kind.cause a.va a.pc)) (.count .fault)

end Machine

/-- An instruction executed at most so many times, until it does not fault. -/
def attempt (status : Status) : Nat → Machine → MemAccess → Option (Machine × Nat)
  | 0, _, _ => none
  | times + 1, m, a =>
      match m.translate status a with
      | some pa => (m.retire a pa).map fun done => (done, pa)
      | none => (m.trapped a).bind fun handled => attempt status times handled a

/-- Each access executed at most twice. -/
def runAccesses (status : Status) : List MemAccess → Machine → Option Machine
  | [], m => some m
  | a :: rest, m => (attempt status 2 m a).bind fun done => runAccesses status rest done.1

/-- How many accesses the state before them does not permit. -/
def refusals (status : Status) : List MemAccess → Machine → Nat
  | [], _ => 0
  | a :: rest, m =>
      (if m.translate status a = none then 1 else 0) +
        (attempt status 2 m a).elim 0 fun done => refusals status rest done.1

/-- What the handler does to the entry of an access, and to nothing else but `g_trap`. -/
structure Repair (root : BitVec 64) (m : Machine) (a : MemAccess) (handled : Machine) : Prop where
  entry : handled.mem (endOf m.mem a.va 2 root).1 =
    m.mem (endOf m.mem a.va 2 root).1 ||| fixBits a.kind
  ppnKept : ppn (handled.mem (endOf m.mem a.va 2 root).1) =
    ppn (m.mem (endOf m.mem a.va 2 root).1)
  others : ∀ q, q ≠ (endOf m.mem a.va 2 root).1 → ¬ InTrap m.image.gTrap q →
    handled.mem q = m.mem q
  otherPages : ∀ va, ¬ SameBlock 0 a.va va → view handled.mem root va = view m.mem root va
  counted : handled.trap.faultCount = m.trap.faultCount + 1

/-- One access of a run: it goes to the requested page at once or after one repair, and
at once when an access of its kind to its page came before. -/
structure RetryLaw (status : Status) (root : BitVec 64) (before : List MemAccess) (m : Machine)
    (a : MemAccess) (r : Request) : Prop where
  rooted : satpRoot m.satp = root
  permitted : m.translate status a ≠ none →
    ∃ done, m.retire a (r.pa.toNat + a.va.toNat % 4096) = some done ∧
      attempt status 1 m a = some (done, r.pa.toNat + a.va.toNat % 4096)
  repaired : m.translate status a = none →
    ∃ handled done, m.trapped a = some handled ∧ Repair root m a handled ∧
      handled.retire a (r.pa.toNat + a.va.toNat % 4096) = some done ∧
      attempt status 1 handled a = some (done, r.pa.toNat + a.va.toNat % 4096)
  repeated : ∀ b ∈ before, b.kind = a.kind → SameBlock 0 b.va a.va → m.translate status a ≠ none

/-- Every access of a run obeys the law, and `fault_count` counts the refused ones. -/
def SequentialLaw (status : Status) (root : BitVec 64) (requests : List Request) (m : Machine)
    (accesses : List MemAccess) : Prop :=
  (∀ before a after, accesses = before ++ a :: after → ∃ m', runAccesses status before m = some m' ∧
    ∀ r ∈ requests, SameBlock 0 r.va a.va → RetryLaw status root before m' a r) ∧
  ∃ m', runAccesses status accesses m = some m' ∧
    m'.trap.faultCount = m.trap.faultCount + BitVec.ofNat 32 (refusals status accesses m)

/-- An entry that serves a request whatever its V, A, D, R, W and X. -/
def Serves (r : Request) (pte : BitVec 64) : Prop :=
  pte.toNat < 2 ^ 54 ∧ ppn pte = r.pa.toNat / 4096 ∧ pte.getLsbD 4 = false

/-- Sv39 is on with the root, the handler is in fix mode, `g_trap` lies beside the tables, and
every requested page ends in an entry of level 0 that serves it. -/
structure Serving (requests : List Request) (live : BitVec 64 → Prop) (root : BitVec 64)
    (image : Image) (m : Machine) : Prop where
  sameImage : m.image = image
  placed : ∀ t k, live t → ¬ InTrap image.gTrap (slot t k)
  rooted : satpRoot m.satp = root
  fixMode : m.trap.handlerAction = 0
  tree : ∃ level, TableTree m.mem live root level
  inSram : ∀ t, live t → SRAM_BASE.toNat ≤ t.toNat
  entries : ∀ r ∈ requests, ∃ pte, view m.mem root r.va = (0, pte) ∧ Serves r pte

/-- The pages behind the requests are aligned and physical; none is a table or holds `g_trap`
or running code. -/
structure Backed (live : BitVec 64 → Prop) (image : Image) (r : Request) : Prop where
  aligned : r.pa.toNat % 4096 = 0
  physical : r.pa.toNat < 2 ^ 56
  apart : ∀ t, live t → r.pa ≠ t
  outside : ∀ address, image.Holds address → address.toNat / 4096 ≠ r.pa.toNat / 4096

section
variable {requests : List Request} {live : BitVec 64 → Prop} {root : BitVec 64} {image : Image}
  {m : Machine} {status : Status} {a : MemAccess} {r : Request}

theorem Serving.translate_eq (serving : Serving requests live root image m) (member : r ∈ requests)
    (backed : Backed live image r) (canonical : Canonical a.va) (page : SameBlock 0 r.va a.va) :
    m.translate status a =
      if allows status a.kind (view m.mem root r.va) then
        some (r.pa.toNat + a.va.toNat % 4096)
      else none := by
  obtain ⟨level, tree⟩ := serving.tree
  obtain ⟨pte, final, -, frame, -⟩ := serving.entries r member
  have shared : view m.mem root a.va = view m.mem root r.va :=
    view_uniform (by rw [final]; exact page)
  have aligned := backed.aligned
  have base : ppn pte * 4096 = r.pa.toNat := by
    rw [frame]
    omega
  rw [Machine.translate, access, serving.rooted, tree.walk_eq, if_pos canonical, shared,
    final_access, final]
  simp only [base, Nat.pow_zero, Nat.mul_one]

theorem trapped_eq (fixMode : m.trap.handlerAction ≠ 1)
    (entry : (endOf m.mem a.va 2 (satpRoot m.satp)).1 ≠ 0) :
    m.trapped a = some { m with
      mem := (m.recorded a).store (endOf m.mem a.va 2 (satpRoot m.satp)).1
        (m.mem (endOf m.mem a.va 2 (satpRoot m.satp)).1 ||| fixBits a.kind) } := by
  have fixModeHere : m.context.handlerAction ≠ 1 := fixMode
  obtain ⟨-, resumes, -⟩ := handler_repairs fixModeHere a.kind a.pc entry
  have listed := sTrapHandler_eq fixModeHere a.kind a.va a.pc
  rw [fixFault_eq] at listed
  have found : ¬ (endOf m.context.mem a.va 2 (satpRoot m.context.satp)).1 = 0 := entry
  simp only [if_neg found] at listed
  rw [Machine.trapped, if_pos resumes, listed]
  rfl

theorem recorded_other (m : Machine) (a : MemAccess) {q : BitVec 64}
    (outside : ¬ InTrap m.image.gTrap q) : m.recorded a q = m.mem q :=
  (storeEffect_other outside fun _ _ same => by cases same).trans
    (storeEffect_other outside fun _ _ same => by cases same)

theorem readTrap_recorded (m : Machine) (a : MemAccess) :
    readTrap (m.recorded a) m.image.gTrap = { m.trap with
      scause := a.kind.cause, stval := a.va, sepc := a.pc
      faultCount := m.trap.faultCount + 1 } := by
  rw [Machine.recorded, readTrap_storeEffect (fun _ _ same => by cases same),
    readTrap_storeEffect (fun _ _ same => by cases same)]
  rfl

/-- A refused access: the handler repairs the entry of its page and no other. -/
theorem Serving.refused (serving : Serving requests live root image m) (member : r ∈ requests)
    (page : SameBlock 0 r.va a.va) :
    ∃ handled pte, m.trapped a = some handled ∧ Repair root m a handled ∧
      view m.mem root r.va = (0, pte) ∧
      view handled.mem root = (view m.mem root).setBlock 0 a.va (0, pte ||| fixBits a.kind) ∧
      (∃ level, TableTree handled.mem live root level) ∧ satpRoot handled.satp = root ∧
      handled.image = image ∧ handled.trap.handlerAction = 0 := by
  obtain ⟨level, tree⟩ := serving.tree
  obtain ⟨pte, final, -⟩ := serving.entries r member
  have shared : view m.mem root a.va = (0, pte) := by
    rw [view_uniform (by rw [final]; exact page), final]
  have word : m.mem (endOf m.mem a.va 2 root).1 = pte := congrArg Prod.snd shared
  obtain ⟨table, alive, here, slotted⟩ := tree.endOf_live a.va
  rw [shared] at here slotted
  have repaired := tree.write (Nat.zero_le 2) here (pte ||| fixBits a.kind)
    fun positive => absurd positive (by omega)
  have trapped := trapped_eq (m := m) (a := a) (by rw [serving.fixMode]; decide)
    (by rw [serving.rooted]; exact entry_not_null tree serving.inSram a.va)
  rw [serving.rooted, word] at trapped
  rw [← slotted] at repaired
  have placed : ∀ t k, live t → ¬ InTrap m.image.gTrap (slot t k) := by
    rw [serving.sameImage]
    exact serving.placed
  -- the stores to `g_trap` do not show in the tables
  have tables : ∀ t k, live t →
      words ((m.recorded a).store (endOf m.mem a.va 2 root).1 (pte ||| fixBits a.kind)) t k =
        words (m.mem.store (endOf m.mem a.va 2 root).1 (pte ||| fixBits a.kind)) t k := by
    intro t k live
    simp only [words, Mem.store, recorded_other m a (placed t k live)]
  have frame := repaired.1.frame tables
  have entry : ¬ InTrap m.image.gTrap (endOf m.mem a.va 2 root).1 := by
    rw [slotted]
    exact placed table _ alive
  have record := (readTrap_store (m := m.recorded a) (pte ||| fixBits a.kind) entry).trans
    (readTrap_recorded m a)
  refine ⟨_, pte, trapped, ⟨?_, ?_, ?_, ?_, congrArg TrapState.faultCount record⟩, final,
    frame.2.trans repaired.2, ⟨level, frame.1⟩, serving.rooted, serving.sameImage,
    (congrArg TrapState.handlerAction record).trans serving.fixMode⟩
  · rw [word]
    exact Mem.store_same ..
  · rw [word]
    exact (congrArg ppn (Mem.store_same ..)).trans (ppn_fixed pte a.kind)
  · intro q apart outside
    exact (Mem.store_other _ _ _ q apart).trans (recorded_other m a outside)
  · intro va apart
    exact (congrFun (frame.2.trans repaired.2) va).trans (View.setBlock_other apart)

/-- What a repair leaves of the other requests' entries. -/
theorem Serving.handled (serving : Serving requests live root image m)
    (distinct : ∀ r' ∈ requests, SameBlock 0 a.va r'.va → r' = r) {handled : Machine}
    {pte : BitVec 64} (final : view m.mem root r.va = (0, pte))
    (viewed : view handled.mem root = (view m.mem root).setBlock 0 a.va (0, pte ||| fixBits a.kind))
    (tree : ∃ level, TableTree handled.mem live root level) (rooted : satpRoot handled.satp = root)
    (placed : handled.image = image) (fixMode : handled.trap.handlerAction = 0) :
    Serving requests live root image handled := by
  refine ⟨placed, serving.placed, rooted, fixMode, tree, serving.inSram, ?_⟩
  intro r' member
  obtain ⟨old, oldFinal, serves⟩ := serving.entries r' member
  rw [viewed]
  by_cases same : SameBlock 0 a.va r'.va
  · rw [View.setBlock_same same]
    obtain rfl := distinct r' member same
    obtain rfl : old = pte := congrArg Prod.snd (oldFinal.symm.trans final)
    have high := high_fixed old a.kind
    refine ⟨_, rfl, ?_, ?_, ?_⟩
    · have fits := serves.1
      omega
    · rw [ppn_fixed, serves.2.1]
    · have userBit : (fixBits a.kind).getLsbD 4 = false := by cases a.kind <;> rfl
      rw [BitVec.getLsbD_or, serves.2.2, userBit]
      rfl
  · rw [View.setBlock_other same]
    exact ⟨old, oldFinal, serves⟩

/-- A store to a page that is no table and does not hold `g_trap` changes neither. -/
theorem Serving.retire (serving : Serving requests live root image m)
    (backed : Backed live image r) :
    ∃ done, m.retire a (r.pa.toNat + a.va.toNat % 4096) = some done ∧
      Serving requests live root image done ∧ view done.mem root = view m.mem root ∧
      done.trap = m.trap := by
  by_cases stores : a.kind = .store
  · let address := BitVec.ofNat 64 ((r.pa.toNat + a.va.toNat % 4096) / 8 * 8)
    have aligned := backed.aligned
    have physical := backed.physical
    have inPage : address.toNat / 4096 = r.pa.toNat / 4096 := by
      rw [BitVec.toNat_ofNat]
      omega
    have idle : ¬ m.image.running address = true := by
      rw [serving.sameImage]
      exact fun running => backed.outside address (Or.inr running) inPage
    have beside : ¬ InTrap m.image.gTrap address := by
      rw [serving.sameImage]
      exact fun inside => backed.outside address (Or.inl inside) inPage
    obtain ⟨level, tree⟩ := serving.tree
    have untouched : ∀ t k, live t →
        words (m.mem.store address a.value) t k = words m.mem t k := by
      intro t k alive
      apply Mem.store_other
      intro same
      have apart : r.pa.toNat ≠ t.toNat := fun equal =>
        backed.apart t alive (BitVec.eq_of_toNat_eq equal)
      have alignedT := tree.aligned alive
      have physicalT := tree.physical alive
      have small := k.isLt
      have there := congrArg BitVec.toNat same
      rw [slot_toNat t k (by omega)] at there
      omega
    have frame := tree.frame untouched
    have trap : readTrap (m.mem.store address a.value) m.image.gTrap = m.trap :=
      readTrap_store a.value beside
    refine ⟨{ m with mem := m.mem.store address a.value }, ?_,
      ⟨serving.sameImage, serving.placed, serving.rooted, ?_, ⟨level, frame.1⟩, serving.inSram, ?_⟩,
      frame.2, trap⟩
    · rw [Machine.retire, if_pos stores]
      exact if_neg idle
    · exact (congrArg TrapState.handlerAction trap).trans serving.fixMode
    · intro r' member
      obtain ⟨pte, final, serves⟩ := serving.entries r' member
      exact ⟨pte, by rw [← final, ← frame.2], serves⟩
  · exact ⟨m, if_neg stores, serving, rfl, rfl⟩

/-- Every access that a state allows on a requested page, the later one allows too. -/
def Kept (status : Status) (requests : List Request) (root : BitVec 64) (m m' : Machine) : Prop :=
  ∀ r ∈ requests, ∀ kind, allows status kind (view m.mem root r.va) = true →
    allows status kind (view m'.mem root r.va) = true

/-- The requests of a run: every access goes to the page of one of them. -/
structure Targets (requests : List Request) (live : BitVec 64 → Prop) (image : Image)
    (a : MemAccess) (r : Request) : Prop where
  member : r ∈ requests
  page : SameBlock 0 r.va a.va
  canonical : Canonical a.va
  alone : ∀ r' ∈ requests, SameBlock 0 a.va r'.va → r' = r
  backed : Backed live image r

/-- A permitted access of a serving state. -/
theorem Serving.attempt_allowed (serving : Serving requests live root image m)
    (target : Targets requests live image a r)
    (allowed : allows status a.kind (view m.mem root r.va) = true) {done : Machine}
    (retired : m.retire a (r.pa.toNat + a.va.toNat % 4096) = some done) (times : Nat) :
    attempt status (times + 1) m a = some (done, r.pa.toNat + a.va.toNat % 4096) := by
  have translated : m.translate status a = _ :=
    serving.translate_eq target.member target.backed target.canonical target.page
  rw [if_pos allowed] at translated
  rw [attempt, translated]
  simp only [retired, Option.map_some]

/-- A refused access of a serving state is repaired, and then permitted. -/
theorem Serving.repair (serving : Serving requests live root image m)
    (target : Targets requests live image a r)
    (refused : ¬ allows status a.kind (view m.mem root r.va) = true) :
    ∃ handled, m.trapped a = some handled ∧ Repair root m a handled ∧
      Serving requests live root image handled ∧ Kept status requests root m handled ∧
      allows status a.kind (view handled.mem root r.va) = true := by
  obtain ⟨handled, pte, trapped, repair, final, viewed, tree, rooted, placed, fixMode⟩ :=
    serving.refused target.member target.page
  have own : view handled.mem root r.va = (0, pte ||| fixBits a.kind) := by
    rw [viewed]
    exact View.setBlock_same target.page.symm
  refine ⟨handled, trapped, repair,
    serving.handled target.alone final viewed tree rooted placed fixMode, ?_, ?_⟩
  · intro r' member kind allowed
    by_cases same : SameBlock 0 a.va r'.va
    · obtain rfl := target.alone r' member same
      rw [final] at allowed
      rw [own]
      exact allows_mono a.kind allowed
    · rw [repair.otherPages r'.va same]
      exact allowed
  · obtain ⟨old, oldFinal, fits, -, user⟩ := serving.entries r target.member
    obtain rfl : old = pte := congrArg Prod.snd (oldFinal.symm.trans final)
    rw [own, allows_fixed_iff]
    refine ⟨fits, by rw [Nat.pow_zero, Nat.mod_one], fun set => ?_⟩
    rw [user] at set
    cases set

/-- One access of a run. -/
theorem Serving.step (serving : Serving requests live root image m) (status : Status)
    (target : Targets requests live image a r) :
    ∃ m', attempt status 2 m a = some (m', r.pa.toNat + a.va.toNat % 4096) ∧
      Serving requests live root image m' ∧ Kept status requests root m m' ∧
      allows status a.kind (view m'.mem root r.va) = true ∧
      m'.trap.faultCount =
        m.trap.faultCount + if m.translate status a = none then 1 else 0 := by
  have translated : m.translate status a = _ :=
    serving.translate_eq target.member target.backed target.canonical target.page
  by_cases allowed : allows status a.kind (view m.mem root r.va) = true
  · obtain ⟨done, retired, serving', viewed, trap⟩ := serving.retire (a := a) target.backed
    rw [if_pos allowed] at translated
    refine ⟨done, serving.attempt_allowed target allowed retired 1, serving', ?_, ?_, ?_⟩
    · intro r' _ kind holds
      rw [viewed]
      exact holds
    · rw [viewed]
      exact allowed
    · rw [trap, if_neg (by rw [translated]; exact Option.some_ne_none _)]
      exact (BitVec.add_zero _).symm
  · obtain ⟨handled, trapped, repair, servingHandled, kept, now⟩ := serving.repair target allowed
    obtain ⟨done, retired, serving', viewed, trap⟩ := servingHandled.retire (a := a) target.backed
    rw [if_neg allowed] at translated
    refine ⟨done, ?_, serving', ?_, ?_, ?_⟩
    · rw [attempt, translated]
      simp only [trapped, Option.bind_some]
      exact servingHandled.attempt_allowed target now retired 0
    · intro r' member kind holds
      rw [viewed]
      exact kept r' member kind holds
    · rw [viewed]
      exact now
    · rw [trap, repair.counted, if_pos translated]

/-- A run of accesses: the accesses of the past stay permitted, and `fault_count` grows
with each refusal. -/
theorem Serving.run (serving : Serving requests live root image m) (status : Status)
    (accesses : List MemAccess)
    (targets : ∀ a ∈ accesses, ∃ r, Targets requests live image a r) :
    ∃ m', runAccesses status accesses m = some m' ∧ Serving requests live root image m' ∧
      Kept status requests root m m' ∧
      (∀ b ∈ accesses, ∀ r, Targets requests live image b r →
        allows status b.kind (view m'.mem root r.va) = true) ∧
      m'.trap.faultCount = m.trap.faultCount + BitVec.ofNat 32 (refusals status accesses m) := by
  induction accesses generalizing m with
  | nil =>
      refine ⟨m, rfl, serving, fun _ _ _ holds => holds, fun b member => ?_, ?_⟩
      · cases member
      · exact (BitVec.add_zero _).symm
  | cons a rest ih =>
      obtain ⟨r, target⟩ := targets a List.mem_cons_self
      obtain ⟨m₁, done, serving₁, kept₁, allowed, counted₁⟩ := serving.step status target
      obtain ⟨m', ran, serving', kept', past, counted'⟩ :=
        ih serving₁ fun b member => targets b (List.mem_cons_of_mem a member)
      refine ⟨m', ?_, serving', ?_, ?_, ?_⟩
      · rw [runAccesses, done]
        exact ran
      · exact fun r' member kind holds => kept' r' member kind (kept₁ r' member kind holds)
      · intro b member r' target'
        rcases List.mem_cons.mp member with rfl | later
        · obtain rfl := target.alone r' target'.member target'.page.symm
          exact kept' r' target'.member b.kind allowed
        · exact past b later r' target'
      · rw [counted', counted₁, refusals, done, Option.elim_some, BitVec.add_assoc,
          BitVec.ofNat_add]
        congr 2
        split <;> rfl

theorem Serving.law (before : List MemAccess) (serving : Serving requests live root image m)
    (past : ∀ b ∈ before, SameBlock 0 b.va a.va →
      allows status b.kind (view m.mem root r.va) = true)
    (target : Targets requests live image a r) : RetryLaw status root before m a r := by
  have translated : m.translate status a = _ :=
    serving.translate_eq target.member target.backed target.canonical target.page
  have permitted_iff : m.translate status a ≠ none ↔
      allows status a.kind (view m.mem root r.va) = true := by
    rw [translated]
    by_cases allowed : allows status a.kind (view m.mem root r.va) = true
    · rw [if_pos allowed]
      exact ⟨fun _ => allowed, fun _ => Option.some_ne_none _⟩
    · rw [if_neg allowed]
      exact ⟨fun absent => absurd rfl absent, fun holds => absurd holds allowed⟩
  refine ⟨serving.rooted, ?_, ?_, ?_⟩
  · intro permitted
    obtain ⟨done, retired, -⟩ := serving.retire (a := a) target.backed
    exact ⟨done, retired, serving.attempt_allowed target (permitted_iff.mp permitted) retired 0⟩
  · intro refused
    have denied := fun allowed => permitted_iff.mpr allowed refused
    obtain ⟨handled, trapped, repair, servingHandled, -, now⟩ := serving.repair target denied
    obtain ⟨done, retired, -⟩ := servingHandled.retire (a := a) target.backed
    exact ⟨handled, done, trapped, repair, retired,
      servingHandled.attempt_allowed target now retired 0⟩
  · intro b member kinds same
    rw [permitted_iff, ← kinds]
    exact past b member same

end

/-- Requests for distinct canonical pages outside the identity gigapages, with R, W and X
only, that the pool has room for. -/
structure Requested (pool : Pool) (start : PtState) (requests : List Request) : Prop where
  canonical : ∀ r ∈ requests, Canonical r.va
  distinct : requests.Pairwise fun r r' => r.va.toNat / 4096 ≠ r'.va.toNat / 4096
  outside : ∀ r ∈ requests, ¬ SameBlock 2 SRAM_BASE r.va ∧ ¬ SameBlock 2 0 r.va
  aligned : ∀ r ∈ requests, r.pa.toNat % 4096 = 0
  physical : ∀ r ∈ requests, r.pa.toNat < 2 ^ 56
  permitted : ∀ r ∈ requests, r.perm &&& ~~~PTE_XWR = 0#64
  room : (build pool start (requests.map Request.call)).2.ptPoolNextPage ≤ pool.pages

/-- The pages that the tables of the requests take from the pool. -/
def TablePage (pool : Pool) (start : PtState) (requests : List Request) : BitVec 64 → Prop :=
  Live pool start.ptPoolNextPage (build pool start (requests.map Request.call)).2.ptPoolNextPage

/-- The machine with Sv39 on over the tables of the requests. -/
def machineOn (pool : Pool) (start : PtState) (requests : List Request) (image : Image) :
    Machine where
  mem := (build pool start (requests.map Request.call)).2.mem
  satp := mmuEnableSv39 (build pool start (requests.map Request.call)).1
  image := image

theorem pageEntry_serves {r : Request} (physical : r.pa.toNat < 2 ^ 56)
    (permitted : r.perm &&& ~~~PTE_XWR = 0#64) :
    Serves r (pageEntry r.pa r.perm r.valid) := by
  have masked : r.perm = r.perm &&& PTE_XWR := by
    have split : r.perm &&& (PTE_XWR ||| ~~~PTE_XWR) = r.perm := by
      rw [show PTE_XWR ||| ~~~PTE_XWR = BitVec.allOnes 64 by decide, BitVec.and_allOnes]
    rw [BitVec.and_or_distrib_left, permitted, BitVec.or_zero] at split
    exact split.symm
  have low : r.perm.toNat < 2 ^ 8 := by
    rw [masked, BitVec.toNat_and]
    exact Nat.lt_of_le_of_lt Nat.and_le_right (by decide)
  have userBit : r.perm.getLsbD 4 = false := by
    rw [masked, BitVec.getLsbD_and, show PTE_XWR.getLsbD 4 = false by decide, Bool.and_false]
  have bits := entryBits_low r.valid low
  rw [pageEntry_eq]
  refine ⟨?_, ppn_physToPpn_or _ _ physical (by omega), ?_⟩
  · rw [toNat_physToPpn_or _ _ physical (by omega)]
    omega
  · rw [getLsbD_physToPpn_or _ _ 4 (by omega)]
    cases r.valid with
    | false =>
        show (r.perm &&& ~~~PTE_V).getLsbD 4 = false
        rw [BitVec.getLsbD_and, userBit, Bool.false_and]
    | true =>
        show (r.perm ||| PTE_V ||| PTE_A ||| PTE_D).getLsbD 4 = false
        simp only [BitVec.getLsbD_or, userBit]
        decide

theorem Requested.serving {pool : Pool} {start : PtState} {requests : List Request}
    (requested : Requested pool start requests) {image : Image} (beside : image.Beside pool)
    (fixMode : (machineOn pool start requests image).trap.handlerAction = 0) :
    Serving requests (TablePage pool start requests)
      (build pool start (requests.map Request.call)).1 image
      (machineOn pool start requests image) := by
  have clears := (requests_clear identityView_regular
    (fun a => ¬ SameBlock 2 SRAM_BASE a ∧ ¬ SameBlock 2 0 a) requested.outside
    fun a outside => identityView_clear outside.1 outside.2).1
  obtain ⟨⟨level, tree⟩, viewed⟩ := build_spec clears requested.room
  obtain ⟨aligned, physical, -⟩ := tree.rooted.geometry requested.room
  have placed : ∀ t k, TablePage pool start requests t → ¬ InTrap image.gTrap (slot t k) := by
    rintro t k ⟨i, -, below, rfl⟩
    exact beside i (Nat.lt_of_lt_of_le below requested.room) k
  refine ⟨rfl, placed, mmuEnableSv39_root aligned physical, fixMode, ⟨level, tree⟩,
    fun t alive => (Live.geometry alive requested.room).2.2, ?_⟩
  intro r member
  have distinct : requests.Pairwise fun r r' => ¬ SameBlock 0 r'.va r.va := by
    apply requested.distinct.imp_of_mem
    intro r r' here there apart same
    rw [page_canonical (requested.canonical r' there) (requested.canonical r here)] at same
    exact apart same.symm
  have entry := requests_entry identityView_regular clears distinct member
  refine ⟨_, ?_, pageEntry_serves (requested.physical r member) (requested.permitted r member)⟩
  rw [← entry, ← viewed]
  rfl

/-- An access to a requested page that is no page table and holds nothing of the image. -/
theorem Requested.targets {pool : Pool} {start : PtState} {requests : List Request} {image : Image}
    (requested : Requested pool start requests) {a : MemAccess} {r : Request}
    (member : r ∈ requests) (same : r.va.toNat / 4096 = a.va.toNat / 4096)
    (apart : ∀ t, TablePage pool start requests t → r.pa ≠ t)
    (outside : ∀ address, image.Holds address → address.toNat / 4096 ≠ r.pa.toNat / 4096) :
    Targets requests (TablePage pool start requests) image a r := by
  have canonicalR := requested.canonical r member
  have canonical : Canonical a.va := by
    unfold Canonical at canonicalR ⊢
    omega
  refine ⟨member, (page_canonical canonicalR canonical).mpr same, canonical, ?_,
    requested.aligned r member, requested.physical r member, apart, outside⟩
  intro r' there covers
  rw [page_canonical canonical (requested.canonical r' there)] at covers
  have one := List.Pairwise.forall_of_forall_of_flip (R := fun r r' : Request =>
      r.va.toNat / 4096 = r'.va.toNat / 4096 → r' = r) (fun _ _ _ => rfl)
    (requested.distinct.imp fun apart equal => absurd equal apart)
    (requested.distinct.imp fun apart equal => absurd equal.symm apart)
  exact one member there (same.trans covers)

/-- Accesses to pages that hold neither page tables nor `g_trap` nor running code: each is
retried at most once, and `fault_count` grows by the number of accesses that were refused. -/
theorem sequential_fix_and_retry {pool : Pool} {start : PtState} {requests : List Request}
    {image : Image} (requested : Requested pool start requests) (beside : image.Beside pool)
    (apart : ∀ r ∈ requests, ∀ t, TablePage pool start requests t → r.pa ≠ t)
    (outside : ∀ r ∈ requests, ∀ address, image.Holds address →
      address.toNat / 4096 ≠ r.pa.toNat / 4096)
    (fixMode : (machineOn pool start requests image).trap.handlerAction = 0) (status : Status)
    {accesses : List MemAccess}
    (targets : ∀ a ∈ accesses, ∃ r ∈ requests, r.va.toNat / 4096 = a.va.toNat / 4096) :
    SequentialLaw status (build pool start (requests.map Request.call)).1 requests
      (machineOn pool start requests image) accesses := by
  have serving := requested.serving beside fixMode
  have reached : ∀ a ∈ accesses,
      ∃ r, Targets requests (TablePage pool start requests) image a r := by
    intro a member
    obtain ⟨r, there, same⟩ := targets a member
    exact ⟨r, requested.targets there same (apart r there) (outside r there)⟩
  constructor
  · intro before a after whole
    have inBefore : ∀ b ∈ before, b ∈ accesses := by
      intro b member
      rw [whole]
      exact List.mem_append_left _ member
    have member : a ∈ accesses := by
      rw [whole]
      exact List.mem_append_right _ List.mem_cons_self
    obtain ⟨m, ran, servingM, -, past, -⟩ := serving.run status before
      fun b earlier => reached b (inBefore b earlier)
    refine ⟨m, ran, fun r there covers => ?_⟩
    obtain ⟨rA, targetA⟩ := reached a member
    obtain rfl := targetA.alone r there covers.symm
    refine servingM.law before (fun b earlier same => past b earlier r ?_) targetA
    obtain ⟨rB, targetB⟩ := reached b (inBefore b earlier)
    obtain rfl := targetB.alone r there (same.trans covers.symm)
    exact targetB
  · obtain ⟨m, ran, -, -, -, counted⟩ := serving.run status accesses reached
    exact ⟨m, ran, counted⟩

/-- Code at the start of RAM, `g_trap` behind it, and the stacks up to the pool. -/
def smallImage : Image where
  gTrap := 0x80008000
  running address := decide (0x80000000 ≤ address.toNat ∧ address.toNat < 0x80008000 ∨
    0x80008040 ≤ address.toNat ∧ address.toNat < 0x80010000)
  aligned := by decide

theorem smallImage_holds {address : BitVec 64} (holds : smallImage.Holds address) :
    0x80000000 ≤ address.toNat ∧ address.toNat < 0x80010000 := by
  obtain inside | running := holds
  · have near : (address - 0x80008000#64).toNat < 64 := inside
    have small := address.isLt
    rw [BitVec.toNat_sub, show (0x80008000#64).toNat = 0x80008000 from rfl] at near
    omega
  · have placed := of_decide_eq_true running
    omega

theorem smallImage_beside : smallImage.Beside linkerPool := by
  intro i inside k within
  have small := k.isLt
  have pages : ∀ i, i < 8 → 0x80010000 ≤ (linkerPool.page i).toNat ∧
      (linkerPool.page i).toNat < 0x80018000 := by decide
  obtain ⟨low, high⟩ := pages i inside
  have near := (smallImage_holds (Or.inl within)).2
  rw [slot_toNat _ _ (by omega)] at near
  omega

/-- P1C.1 and a repetition: one invalid page, loaded twice. -/
theorem sequential_fix_and_retry_twice :
    let request : Request := ⟨0xD0100000, 0x801B0000, PTE_R ||| PTE_W, false⟩
    let load : MemAccess := ⟨.load, 0xD0100008, 0x80000100, 0⟩
    SequentialLaw plain (build linkerPool coldStart [request.call]).1 [request]
      (machineOn linkerPool coldStart [request] smallImage) [load, load] := by
  intro request load
  have taken : (build linkerPool coldStart [request.call]).2.ptPoolNextPage = 3 := by
    decide +kernel
  have requested : Requested linkerPool coldStart [request] := by
    refine ⟨by decide, List.pairwise_singleton _ _, by decide, by decide, by decide, by decide, ?_⟩
    exact Nat.le_trans (Nat.le_of_eq taken) (by decide)
  refine sequential_fix_and_retry requested smallImage_beside ?_ ?_ (by decide +kernel) plain ?_
  · rintro r member t ⟨i, -, below, rfl⟩
    obtain rfl := List.mem_singleton.mp member
    have small : i < 3 := taken ▸ below
    exact (by decide : ∀ i < 3, (0x801B0000 : BitVec 64) ≠ linkerPool.page i) i small
  · intro r member address holds
    obtain rfl := List.mem_singleton.mp member
    have high := (smallImage_holds holds).2
    show address.toNat / 4096 ≠ 0x801B0000 / 4096
    omega
  · intro a member
    refine ⟨request, List.mem_singleton_self request, ?_⟩
    simp only [List.mem_cons, List.not_mem_nil, or_false, or_self] at member
    rw [member]
    decide

/-- The law for requests that meet a condition on their pages. -/
def RetryClaim (ok : Pool → PtState → List Request → Image → Prop) : Prop :=
  ∀ (pool : Pool) (start : PtState) (requests : List Request) (image : Image) (status : Status)
    (accesses : List MemAccess), Requested pool start requests → image.Beside pool →
    ok pool start requests image →
    (machineOn pool start requests image).trap.handlerAction = 0 →
    (∀ a ∈ accesses, ∃ r ∈ requests, r.va.toNat / 4096 = a.va.toNat / 4096) →
    SequentialLaw status (build pool start (requests.map Request.call)).1 requests
      (machineOn pool start requests image) accesses

/-- A page that is its own page table: a store to it takes the repair back. -/
theorem store_undoes_repair : ¬ RetryClaim fun _ _ requests image =>
    ∀ r ∈ requests, ∀ address, image.Holds address →
      address.toNat / 4096 ≠ r.pa.toNat / 4096 := by
  intro claim
  let request : Request := ⟨0xD0000000, 0x80012000, PTE_R ||| PTE_W, false⟩
  let load : MemAccess := ⟨.load, 0xD0000000, 0x80000100, 0⟩
  let store : MemAccess := ⟨.store, 0xD0000000, 0x80000104, 0⟩
  have requested : Requested linkerPool coldStart [request] := by
    refine ⟨by decide, List.pairwise_singleton _ _, by decide, by decide, by decide, by decide, ?_⟩
    decide +kernel
  have outside : ∀ r ∈ [request], ∀ address, smallImage.Holds address →
      address.toNat / 4096 ≠ r.pa.toNat / 4096 := by
    intro r member address holds
    obtain rfl := List.mem_singleton.mp member
    have high := (smallImage_holds holds).2
    show address.toNat / 4096 ≠ 0x80012000 / 4096
    omega
  obtain ⟨m, ran, law⟩ := (claim linkerPool coldStart [request] smallImage plain
    [load, store, load] requested smallImage_beside outside (by decide +kernel) (by decide)).1
    [load, store] load [] rfl
  have again := (law request (List.mem_singleton_self request) (by decide)).repeated load
    List.mem_cons_self rfl rfl
  have refused : (runAccesses plain [load, store] (machineOn linkerPool coldStart [request]
      smallImage)).map (fun m => m.translate plain load) = some none := by
    decide +kernel
  rw [ran] at refused
  exact again (Option.some.inj refused)

/-- A page that holds `g_trap`: a store to it turns the fix mode off. -/
theorem store_ends_fix_mode : ¬ RetryClaim fun pool start requests image =>
    (∀ r ∈ requests, ∀ t, TablePage pool start requests t → r.pa ≠ t) ∧
      ∀ r ∈ requests, ∀ address, image.running address = true →
        address.toNat / 4096 ≠ r.pa.toNat / 4096 := by
  intro claim
  let image : Image := ⟨0x801B0000, fun _ => false, by decide⟩
  let trap : Request := ⟨0xD0100000, 0x801B0000, PTE_R ||| PTE_W, true⟩
  let other : Request := ⟨0xD0101000, 0x801B1000, PTE_R ||| PTE_W, false⟩
  let store : MemAccess := ⟨.store, 0xD0100028, 0x80000100, 1⟩
  let load : MemAccess := ⟨.load, 0xD0101000, 0x80000104, 0⟩
  have taken : (build linkerPool coldStart [trap.call, other.call]).2.ptPoolNextPage = 3 := by
    decide +kernel
  have requested : Requested linkerPool coldStart [trap, other] := by
    refine ⟨by decide, by decide, by decide, by decide, by decide, by decide, ?_⟩
    exact Nat.le_trans (Nat.le_of_eq taken) (by decide)
  have beside : image.Beside linkerPool := by
    intro i inside k within
    have small := k.isLt
    have pages : ∀ i, i < 8 → (linkerPool.page i).toNat < 0x80018000 := by decide
    have near : (slot (linkerPool.page i) k - 0x801B0000#64).toNat < 64 := within
    have bound := pages i inside
    rw [BitVec.toNat_sub, slot_toNat _ _ (by omega),
      show (0x801B0000#64).toNat = 0x801B0000 from rfl] at near
    omega
  have apart : ∀ r ∈ [trap, other], ∀ t, TablePage linkerPool coldStart [trap, other] t →
      r.pa ≠ t := by
    rintro r member t ⟨i, -, below, rfl⟩
    have small : i < 3 := taken ▸ below
    exact (by decide : ∀ r ∈ [trap, other], ∀ i < 3, r.pa ≠ linkerPool.page i) r member i small
  obtain ⟨m, ran, law⟩ := (claim linkerPool coldStart [trap, other] image plain [store, load]
    requested beside ⟨apart, fun _ _ _ running => by cases running⟩ (by decide +kernel)
    (by decide)).1 [store] load [] rfl
  have obeyed := law other (List.mem_cons_of_mem trap List.mem_cons_self) (by decide)
  have skipped : (runAccesses plain [store] (machineOn linkerPool coldStart [trap, other]
      image)).map (fun m => (m.translate plain load, (m.trapped load).isSome)) =
        some (none, false) := by
    decide +kernel
  rw [ran] at skipped
  obtain ⟨refused, stopped⟩ := Prod.mk.inj (Option.some.inj skipped)
  obtain ⟨handled, -, returned, -⟩ := obeyed.repaired refused
  rw [returned] at stopped
  cases stopped

/-- The claim without its two conditions on the pages. -/
theorem retry_limits :
    (¬ RetryClaim fun _ _ requests image => ∀ r ∈ requests, ∀ address, image.Holds address →
      address.toNat / 4096 ≠ r.pa.toNat / 4096) ∧
    ¬ RetryClaim fun pool start requests image =>
      (∀ r ∈ requests, ∀ t, TablePage pool start requests t → r.pa ≠ t) ∧
        ∀ r ∈ requests, ∀ address, image.running address = true →
          address.toNat / 4096 ≠ r.pa.toNat / 4096 :=
  ⟨store_undoes_repair, store_ends_fix_mode⟩

end ZephyrRiscv.PageFaults
