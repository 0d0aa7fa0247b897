import ZephyrRiscv.TrapFrames

set_option autoImplicit false

namespace ZephyrRiscv

open Sv39 Verdict Preemption

/-- What S-mode sees of the CSRs. -/
@[ext]
structure Supervisor where
  mode : Mode
  sstatus : BitVec 64
  stvec : BitVec 64
  scause : BitVec 64
  sepc : BitVec 64
  stval : BitVec 64
  satp : BitVec 64

def Hart.supervisor (h : Hart) : Supervisor where
  mode := h.mode
  sstatus := h.sstatus
  stvec := h.csrs.stvec
  scause := h.csrs.scause
  sepc := h.csrs.sepc
  stval := h.csrs.stval
  satp := h.csrs.satp

/-- The interrupted program goes on as if nothing had happened. -/
structure Transparent (t : Trap) (h h' : Hart) : Prop where
  mode : h'.mode = .S
  pc : h'.pc = t.resumeAt h.pc
  regs : h'.regs = h.regs
  sie : h'.csrs.mstatus.getLsbD SIE = h.csrs.mstatus.getLsbD SIE
  mem : ∀ a : BitVec 64, (h.regs .sp).toNat ≤ a.toNat → h'.mem a = h.mem a

/-- A trap to M-mode shows in no CSR of S-mode either. -/
structure Restores (t : Trap) (h h' : Hart) : Prop where
  supervisor : h'.supervisor = h.supervisor
  user : { h.user with pc := t.resumeAt h.pc : UserState }.Resumes h'.user

theorem Restores.transparent {t : Trap} {h h' : Hart} (restores : Restores t h h')
    (mode : h.mode = .S) : Transparent t h h' where
  mode := (congrArg Supervisor.mode restores.supervisor).trans mode
  pc := restores.user.pc
  regs := restores.user.regs
  sie := sstatus_bit (congrArg Supervisor.sstatus restores.supervisor) SIE (by decide)
  mem := restores.user.mem

/-- What every trap from S-mode guarantees to the code that it interrupts. -/
def Guarantee (c : Compiled) (t : Trap) (h h' : Hart) : Prop :=
  t.Taken h ∧ (h.mode = .S → t.room c ≤ (h.regs .sp).toNat →
    Transparent t h h' ∧ (t.isMachine = true → Restores t h h'))

/-- An effect that forwards an interrupt or programs a device. -/
def MEffect.forwards : MEffect → Bool
  | .csrsMip _ | .csrcMip _ | .csrsMie _ | .csrcMie _ | .mtimecmp .. | .msip .. => true
  | _ => false

/-- The handler of a trap to M-mode returns where the trap resumes, and only forwards. -/
theorem Trap.mTrapHandler_forwards {t : Trap} (machine : t.isMachine = true) (ctx : MContext)
    (mepc mtval : BitVec 64) (frame : Nat → BitVec 64) (sbi : t = .ecall → IsSbi (frame 11)) :
    ∃ effects, mTrapHandler ctx t.cause mepc mtval frame = (effects, some (t.resumeAt mepc)) ∧
      ∀ e ∈ effects, e.forwards = true := by
  cases t with
  | mTimer => exact ⟨_, rfl, by simp [MEffect.forwards]⟩
  | mSoft => exact ⟨_, rfl, by simp [MEffect.forwards]⟩
  | sTimer => cases machine
  | sSoft => cases machine
  | ecall =>
    rcases sbi rfl with func | func | func
    · refine ⟨[.mtimecmp ctx.mhartid (frame 4), .csrcMip MIP_STIP, .csrsMie MIP_MTIP], ?_, ?_⟩
      · simp only [mTrapHandler, func]
        rfl
      · simp [MEffect.forwards]
    · refine ⟨if frame 4 < NUM_HARTS then [.msip (frame 4) 1] else [], ?_, ?_⟩
      · simp only [mTrapHandler, func]
        rfl
      · split <;> simp [MEffect.forwards]
    · refine ⟨[.csrcMip MIP_SSIP], ?_, ?_⟩
      · simp only [mTrapHandler, func]
        rfl
      · simp [MEffect.forwards]

/-- M-mode with known CSRs, but for `mie`. -/
structure InMachine (csrs : Csrs) (g : Hart) : Prop where
  mode : g.mode = .M
  csrs : ∃ mie, g.csrs = { csrs with mie }

theorem InMachine.userFree (csrs : Csrs) : UserFree (InMachine csrs) :=
  fun _ _ inside => ⟨inside.mode, inside.csrs⟩

theorem InMachine.mstatus {csrs : Csrs} {g : Hart} (inside : InMachine csrs g) :
    g.csrs.mstatus = csrs.mstatus := by
  obtain ⟨mie, same⟩ := inside.csrs
  rw [same]

theorem InMachine.read {csrs : Csrs} {g : Hart} (inside : InMachine csrs g) (csr : Csr) :
    g.csrs.read csr = csrs.read csr := by
  obtain ⟨mie, same⟩ := inside.csrs
  rw [same]
  cases csr <;> rfl

theorem InMachine.writeMepc {csrs : Csrs} {g : Hart} (inside : InMachine csrs g)
    (value : BitVec 64) :
    InMachine { csrs with mepc := value } { g with csrs := g.csrs.write value .mepc } := by
  obtain ⟨mie, same⟩ := inside.csrs
  exact ⟨inside.mode, mie, by rw [same]; rfl⟩

theorem InMachine.applyM {csrs : Csrs} {g : Hart} (inside : InMachine csrs g) {e : MEffect}
    (forwards : e.forwards = true) : InMachine csrs (g.applyM e) := by
  obtain ⟨mie, same⟩ := inside.csrs
  cases e with
  | csrsMip bits => exact ⟨inside.mode, mie, same⟩
  | csrcMip bits => exact ⟨inside.mode, mie, same⟩
  | csrsMie bits => exact ⟨inside.mode, mie ||| bits, by simp only [Hart.applyM, same]⟩
  | csrcMie bits => exact ⟨inside.mode, mie &&& ~~~bits, by simp only [Hart.applyM, same]⟩
  | mtimecmp hart value => exact ⟨inside.mode, mie, same⟩
  | msip hart value => exact ⟨inside.mode, mie, same⟩
  | _ => cases forwards

theorem InMachine.foldl {csrs : Csrs} {effects : List MEffect}
    (forwards : ∀ e ∈ effects, e.forwards = true) {g : Hart} (inside : InMachine csrs g) :
    InMachine csrs (effects.foldl Hart.applyM g) := by
  induction effects generalizing g with
  | nil => exact inside
  | cons e effects ih =>
    apply ih fun e' member => forwards e' (List.mem_cons_of_mem e member)
    exact inside.applyM (forwards e List.mem_cons_self)

section Machine

variable {c : Compiled} {sink : Sink} {traps : Trap → Hart → Hart → Prop} {t : Trap}
  {csrs : Csrs} {k₀ k : UserState}

/-- Nothing interrupts M-mode while MIE is off. -/
theorem InMachine.rely (sound : ∀ t g g', traps t g g' → t.Taken g)
    (off : csrs.mstatus.getLsbD MIE = false) (low : Nat) :
    Rely traps (InMachine csrs) low := by
  intro g g' inside _ interrupted
  obtain ⟨t, interrupt, taken⟩ := interrupted
  have allowed := sound t g g' taken
  cases t <;> simp [Trap.Taken, inside.mode, inside.mstatus, off] at allowed

theorem mSaves_fits : ∀ s ∈ mSaves, s.2 < 128 := by decide

/-- The frame is in place, and so are the arguments of `m_trap_handler`. -/
structure MCalling (csrs : Csrs) (k₀ k : UserState) : Prop extends Framed 128 mSaves k₀ k where
  a0 : k.regs .a0 = csrs.mcause
  a1 : k.regs .a1 = csrs.mepc
  a3 : k.regs .a3 = k.regs .sp

theorem mMoves_calling (framed : Framed 128 mSaves k₀ k) :
    MCalling csrs k₀ (mMoves.foldl (UserState.exec csrs.read) k) := by
  have unsaved : ∀ r, r ∉ mSaves.map Prod.fst →
      (mMoves.foldl (UserState.exec csrs.read) k).regs r = k.regs r := by
    intro r absent
    cases r <;> first | rfl | exact absurd (by decide) absent
  constructor
  · constructor
    · exact framed.sp
    · intro r notStack absent
      rw [unsaved r absent, framed.unsaved r notStack absent]
    · exact framed.slots
    · exact framed.above
  · rfl
  · rfl
  · rfl

/-- The first half of `_m_trap_vector` and the moves. -/
theorem held_mCalling (rely : Rely traps (InMachine csrs) 0) (room : 128 ≤ (k₀.regs .sp).toNat) :
    CodeTriple c sink traps (Held (InMachine csrs) k₀)
      ([.addiSp (-(128 : Nat))] ++ stores mSaves ++ mMoves)
      fun g => ∃ k, MCalling csrs k₀ k ∧ Held (InMachine csrs) k g := by
  have lower := lowered_toNat (k₀.regs .sp) room
  have top := (k₀.regs .sp).isLt
  have saves : CodeTriple c sink traps (Held (InMachine csrs) k₀)
      ([.addiSp (-(128 : Nat))] ++ stores mSaves)
      fun g => ∃ k, Framed 128 mSaves k₀ k ∧ Held (InMachine csrs) k g :=
    held_save mSaves_saveList mSaves_fits (InMachine.userFree csrs) rely (by omega)
  refine saves.append (Triple.unknown ?_)
  intro k framed
  have moves : CodeTriple c sink traps (Held (InMachine csrs) k) mMoves
      (Held (InMachine csrs) (mMoves.foldl (UserState.exec csrs.read) k)) :=
    held_straight 128 [.mcause, .mepc, .mtval] (by decide) (InMachine.userFree csrs) rely
      (fun g inside csr _ => inside.read csr) (Nat.zero_le _) (by rw [framed.sp]; omega)
  exact moves.forget (mMoves_calling framed)

/-- `m_trap_handler` finds the call of the SBI in the frame. -/
theorem MCalling.handled (calling : MCalling csrs k₀ k) (machine : t.isMachine = true)
    (cause : csrs.mcause = t.cause) (sbi : t = .ecall → IsSbi (k₀.regs .a7))
    (room : 128 ≤ (k₀.regs .sp).toNat) (sink : Sink) {g : Hart}
    (held : Held (InMachine csrs) k g) :
    ∃ effects, mTrapHandler (g.mContext sink) (g.regs .a0) (g.regs .a1) (g.regs .a2)
        (fun i => g.mem (frameWord (g.regs .a3) i)) =
          (effects, some (t.resumeAt csrs.mepc)) ∧
      ∀ e ∈ effects, e.forwards = true := by
  have regs : g.regs = k.regs := held.agrees.regs
  have lower := lowered_toNat (k₀.regs .sp) room
  have address := lowered_offset (k₀.regs .sp) room (by decide : 88 < 128)
  have slot : g.mem (lowered (k₀.regs .sp) 128 + BitVec.ofNat 64 88) = k₀.regs .a7 :=
    (held.agrees.mem _ (by rw [calling.sp]; omega)).trans (calling.slots (.a7, 88) (by decide))
  have a7 : g.mem (frameWord (g.regs .a3) 11) = k₀.regs .a7 := by
    rw [regs, calling.a3, calling.sp]
    exact slot
  have a0 : g.regs .a0 = t.cause := by rw [regs, calling.a0, cause]
  have a1 : g.regs .a1 = csrs.mepc := by rw [regs, calling.a1]
  rw [a0, a1]
  exact Trap.mTrapHandler_forwards machine _ _ _ _ (by rw [a7]; exact sbi)

/-- A call of `m_trap_handler` returns in `a0` where the trap resumes. -/
theorem held_callM (machine : t.isMachine = true) (rely : Rely traps (InMachine csrs) 0)
    (calling : MCalling csrs k₀ k) (cause : csrs.mcause = t.cause)
    (sbi : t = .ecall → IsSbi (k₀.regs .a7)) (room : 128 + c.mStack ≤ (k₀.regs .sp).toNat) :
    CodeTriple c sink traps (Held (InMachine csrs) k) [.callM]
      fun g => ∃ k', (Framed 128 mSaves k₀ k' ∧ k'.regs .a0 = t.resumeAt csrs.mepc) ∧
        Held (InMachine csrs) k' g := by
  have deep : 128 ≤ (k₀.regs .sp).toNat := by omega
  have lower := lowered_toNat (k₀.regs .sp) deep
  have stable : Stable (Interrupted traps) (Held (InMachine csrs) k) :=
    Held.stable rely (Nat.zero_le _)
  refine stable.single ?_
  intro g g' held executed
  have regs : g.regs = k.regs := held.agrees.regs
  cases executed with
  | plain _ _ simple _ => cases simple
  | @callM _ effects result k' handled called =>
    obtain ⟨effects', returns, forwards⟩ := calling.handled machine cause sbi deep sink held
    rw [returns] at handled
    cases handled
    have stack : c.mStack ≤ (g.regs .sp).toNat := by rw [regs, calling.sp]; omega
    have saved := c.mAbi.saved called stack
    have framed : Framed 128 mSaves k₀ k' := by
      apply calling.toFramed.call deep mSaves_fits
      · rw [saved .sp rfl, ← regs]
        rfl
      · intro r _ unsaved
        rw [saved r (by rw [mSaves_callerSaved]; exact decide_eq_false unsaved), ← regs]
        rfl
      · intro a above
        rw [c.mAbi.mem called stack a (by rw [← regs] at above; exact above)]
        exact held.agrees.mem a above
    exact ⟨k', ⟨framed, c.mAbi.result called⟩,
      InMachine.userFree csrs _ k' (held.kept.foldl forwards), .refl k'⟩

/-- What follows the call in `_m_trap_vector`, up to `mret`. -/
theorem held_mAfter (sound : ∀ t g g', traps t g g' → t.Taken g)
    (off : csrs.mstatus.getLsbD MIE = false) (framed : Framed 128 mSaves k₀ k)
    {pc : BitVec 64} (result : k.regs .a0 = pc) (room : 128 ≤ (k₀.regs .sp).toNat) :
    CodeTriple c sink traps (Held (InMachine csrs) k)
      ([.csrw .mepc .a0] ++ (loads mSaves ++ [.addiSp (128 : Nat)]))
      (Held (InMachine { csrs with mepc := pc }) k₀) := by
  let csrs' : Csrs := { csrs with mepc := pc }
  have off' : csrs'.mstatus.getLsbD MIE = false := off
  have rely' : Rely traps (InMachine csrs') 0 := InMachine.rely sound off' 0
  have written : CodeTriple c sink traps (Held (InMachine csrs) k) [.csrw .mepc .a0]
      (Held (InMachine csrs') k) := by
    apply held_csrw (InMachine.userFree csrs') (InMachine.rely sound off 0) (Nat.zero_le _)
    intro g inside
    rw [result]
    exact inside.writeMepc pc
  have restored : CodeTriple c sink traps (Held (InMachine csrs') k)
      (loads mSaves ++ [.addiSp (128 : Nat)]) (Held (InMachine csrs') k₀) :=
    held_restore mSaves_saveList mSaves_fits (InMachine.userFree csrs') rely' (by omega) framed
  exact written.append restored

theorem Csrs.entryStatus_returns (csrs : Csrs) : mppMode csrs.entryStatus = .S := by
  have high : csrs.entryStatus.getLsbD MPP_HIGH = false := by
    rw [Csrs.entryStatus, getLsbD_setBit _ _ _ (by decide)]
    rfl
  have low : csrs.entryStatus.getLsbD MPP_LOW = true := by
    rw [Csrs.entryStatus, getLsbD_setBit _ _ _ (by decide), getLsbD_setBit _ _ _ (by decide)]
    rfl
  rw [mppMode, high, low]
  rfl

theorem Hart.trapToM_mie {h : Hart} (mode : h.mode = .S) (cause tval : BitVec 64) :
    (h.trapToM cause tval).csrs.mstatus.getLsbD MIE = false := by
  rw [Hart.trapToM_mstatus mode, Csrs.entryStatus, getLsbD_setBit _ _ _ (by decide),
    getLsbD_setBit _ _ _ (by decide), getLsbD_setBit _ _ _ (by decide)]
  rfl

/-- `mret` at the end of the vector, with the stack pointer back in place. -/
theorem InMachine.mret {h g : Hart} (mode : h.mode = .S)
    (held : Held (InMachine { (h.trapToM t.cause 0).csrs with mepc := t.resumeAt h.pc }) h.user g) :
    Restores t h g.mret := by
  have status : g.csrs.mstatus = h.csrs.entryStatus :=
    held.kept.mstatus.trans (Hart.trapToM_mstatus mode t.cause 0)
  obtain ⟨mie, csrs⟩ := held.kept.csrs
  have back : g.mret.mode = .S := by
    change mppMode g.csrs.mstatus = .S
    rw [status, Csrs.entryStatus_returns]
  have sstatus : g.mret.sstatus = h.sstatus := by
    unfold Hart.mret Hart.sstatus
    simp only [status, Csrs.entryStatus_returns, reduceCtorEq, ↓reduceIte]
    rw [setBit_hidden _ _ _ (by decide) (by decide), setBit_hidden _ _ _ (by decide) (by decide),
      setBit_hidden _ _ _ (by decide) (by decide), setBit_hidden _ _ _ (by decide) (by decide),
      setBit_hidden _ _ _ (by decide) (by decide), Csrs.entryStatus_masked]
  constructor
  · apply Supervisor.ext
    · exact back.trans mode.symm
    · exact sstatus
    all_goals
      simp only [Hart.supervisor, Hart.mret, csrs]
      rfl
  · refine ⟨⟨held.agrees.regs, held.agrees.mem⟩, ?_⟩
    simp only [Hart.user, Hart.mret, csrs]

/-- A trap to M-mode gives S-mode back all that it can see. -/
theorem TrapBody.restores (machine : t.isMachine = true)
    (sound : ∀ t g g', traps t g g' → t.Taken g) {h h' : Hart} (mode : h.mode = .S)
    (room : t.room c ≤ (h.regs .sp).toNat) (body : TrapBody c sink traps t h h') :
    Restores t h h' := by
  obtain ⟨taken, run⟩ := body
  simp only [Trap.vector, Trap.enter, Trap.room, machine, ↓reduceIte] at run room
  let csrs := (h.trapToM t.cause 0).csrs
  let csrs' : Csrs := { csrs with mepc := t.resumeAt csrs.mepc }
  have off : csrs.mstatus.getLsbD MIE = false := Hart.trapToM_mie mode t.cause 0
  have off' : csrs'.mstatus.getLsbD MIE = false := off
  have rely : Rely traps (InMachine csrs) 0 := InMachine.rely sound off 0
  have rely' : Rely traps (InMachine csrs') 0 := InMachine.rely sound off' 0
  have deep : 128 ≤ (h.user.regs .sp).toNat := by
    change 128 ≤ (h.regs .sp).toNat
    omega
  have sbi : t = .ecall → IsSbi (h.regs .a7) := by
    intro isEcall
    rw [isEcall] at taken
    exact taken.2
  have enters : CodeTriple c sink traps (Held (InMachine csrs) h.user)
      ([.addiSp (-(128 : Nat))] ++ stores mSaves ++ mMoves)
      fun g => ∃ k, MCalling csrs h.user k ∧ Held (InMachine csrs) k g :=
    held_mCalling rely deep
  have calls : CodeTriple c sink traps
      (fun g => ∃ k, MCalling csrs h.user k ∧ Held (InMachine csrs) k g) [.callM]
      fun g => ∃ k, (Framed 128 mSaves h.user k ∧ k.regs .a0 = t.resumeAt csrs.mepc) ∧
        Held (InMachine csrs) k g :=
    .unknown fun k calling => held_callM machine rely calling rfl sbi room
  have restores : CodeTriple c sink traps
      (fun g => ∃ k, (Framed 128 mSaves h.user k ∧ k.regs .a0 = t.resumeAt csrs.mepc) ∧
        Held (InMachine csrs) k g)
      ([.csrw .mepc .a0] ++ (loads mSaves ++ [.addiSp (128 : Nat)]))
      (Held (InMachine csrs') h.user) :=
    .unknown fun k returned => held_mAfter sound off returned.1 returned.2 deep
  have stable : Stable (Interrupted traps) (Held (InMachine csrs') h.user) :=
    Held.stable rely' (Nat.zero_le _)
  have leaves : CodeTriple c sink traps (Held (InMachine csrs') h.user) [.mret] (Restores t h) := by
    refine stable.single ?_
    intro g g' held executed
    cases executed with
    | plain _ _ simple _ => cases simple
    | mret => exact InMachine.mret mode held
  exact (((enters.append calls).append restores).append leaves) _ _
    ⟨⟨rfl, csrs.mie, rfl⟩, rfl, fun _ _ => rfl⟩ run

end Machine

/-- S-mode sees its CSRs as `v`. -/
def InSupervisor (v : Supervisor) (g : Hart) : Prop := g.supervisor = v

theorem InSupervisor.userFree (v : Supervisor) : UserFree (InSupervisor v) :=
  fun _ _ inside => inside

/-- The CSRs that `_s_trap_vector` reads. -/
def sCsrs : List Csr := [.scause, .stval, .sepc]

def Supervisor.read (v : Supervisor) : Csr → BitVec 64
  | .scause => v.scause
  | .stval => v.stval
  | .sepc => v.sepc
  | _ => 0

theorem InSupervisor.read {v : Supervisor} {g : Hart} (inside : InSupervisor v g) :
    ∀ csr ∈ sCsrs, g.csrs.read csr = v.read csr := by
  intro csr member
  simp only [sCsrs, List.mem_cons, List.not_mem_nil, or_false] at member
  rcases member with rfl | rfl | rfl
  · exact congrArg Supervisor.scause inside
  · exact congrArg Supervisor.stval inside
  · exact congrArg Supervisor.sepc inside

/-- `sepc` is written with what it holds. -/
theorem InSupervisor.writeSepc {v : Supervisor} {g : Hart} (inside : InSupervisor v g) :
    InSupervisor v { g with csrs := g.csrs.write v.sepc .sepc } := by
  have sepc : g.csrs.sepc = v.sepc := congrArg Supervisor.sepc inside
  rw [← sepc]
  exact inside

/-- No trap to S-mode is taken. -/
structure Supervisor.Masked (v : Supervisor) : Prop where
  mode : v.mode = .S
  sie : v.sstatus.getLsbD SIE = false

theorem Hart.sstatus_bit (h : Hart) {i : Nat} (shown : SSTATUS_MASK.getLsbD i = true) :
    h.sstatus.getLsbD i = h.csrs.mstatus.getLsbD i := by
  rw [Hart.sstatus, BitVec.getLsbD_and, shown, Bool.and_true]

/-- An effect other than an `ecall` shows in no CSR of S-mode. -/
theorem applyS_supervisor {sink : Sink} {frame : BitVec 64} {h h' : Hart} {e : SEffect}
    (plain : ∀ a7 a0, e ≠ .ecall a7 a0) (applied : h.applyS sink frame e = some h') :
    h'.supervisor = h.supervisor := by
  cases e with
  | ecall a7 a0 => exact absurd rfl (plain a7 a0)
  | testFail code => cases applied
  | _ =>
    cases applied
    rfl

section SMode

variable {c : Compiled} {sink : Sink} {traps : Trap → Hart → Hart → Prop} {t : Trap}
  {v : Supervisor} {k₀ k : UserState} {low : Nat}

/-- While S-mode is masked only M-mode interrupts it, and such a trap keeps what S-mode sees. -/
theorem InSupervisor.rely (sound : ∀ t g g', traps t g g' → Guarantee c t g g')
    (masked : v.Masked) : Rely traps (InSupervisor v) (128 + c.mStack) := by
  intro g g' inside stack interrupted
  obtain ⟨t, interrupt, taken⟩ := interrupted
  obtain ⟨allowed, guarantee⟩ := sound t g g' taken
  have mode : g.mode = .S := (congrArg Supervisor.mode inside).trans masked.mode
  have sstatus : g.sstatus = v.sstatus := congrArg Supervisor.sstatus inside
  have off : g.csrs.mstatus.getLsbD SIE = false := by
    rw [← g.sstatus_bit (by decide), sstatus, masked.sie]
  cases t with
  | mTimer =>
    have restores := (guarantee mode stack).2 rfl
    exact ⟨restores.supervisor.trans inside, restores.user⟩
  | mSoft =>
    have restores := (guarantee mode stack).2 rfl
    exact ⟨restores.supervisor.trans inside, restores.user⟩
  | sTimer => simp [Trap.Taken, mode, off] at allowed
  | sSoft => simp [Trap.Taken, mode, off] at allowed
  | ecall => exact absurd rfl interrupt

/-- A call of `s_trap_handler` is one of its compiled code, interrupted now and then. -/
theorem HandlerRun.reaches (sound : ∀ t g g', traps t g g' → Guarantee c t g g')
    (masked : v.Masked) {start : UserState} (entry : start.pc = c.s.entry)
    (room : c.sStack + (128 + c.mStack) ≤ (start.regs .sp).toNat) {frame ra : BitVec 64}
    {todo : List SEffect} {h h' : Hart} (run : HandlerRun c sink traps frame ra todo h h')
    {done : List SEffect} (reached : c.s.Reaches start done h.user) (inside : InSupervisor v h) :
    InSupervisor v h' ∧ c.s.Reaches start (done ++ todo) h'.user ∧ h'.pc = ra := by
  have rely := InSupervisor.rely sound masked
  induction run generalizing done with
  | returned back =>
    rw [List.append_nil]
    exact ⟨inside, reached, back⟩
  | step stepped _ ih => exact ih (reached.step stepped) inside
  | @effect e todo h h₁ h' k plain performed applied _ ih =>
    have inside₁ : InSupervisor v h₁ := (applyS_supervisor plain applied).trans inside
    have rest := ih (reached.effect performed) inside₁
    rw [List.append_assoc] at rest
    exact rest
  | @ecall a7 a0 todo h h₁ h' k performed taken _ ih =>
    have stack : (start.regs .sp).toNat ≤ (h.regs .sp).toNat + c.sStack :=
      c.sAbi.depth entry (by omega) reached
    have mode : h.mode = .S := (congrArg Supervisor.mode inside).trans masked.mode
    have restores := ((sound .ecall h h₁ taken).2 mode (by change 128 + c.mStack ≤ _; omega)).2 rfl
    have after : k.Resumes h₁.user := by
      rw [(c.sAbi.ecall performed).2.2]
      exact restores.user
    have rest := ih ((reached.effect performed).interrupted after)
      (restores.supervisor.trans inside)
    rw [List.append_assoc] at rest
    exact rest
  | @preempted t todo h h₁ h' interrupt taken _ ih =>
    have stack : (start.regs .sp).toNat ≤ (h.regs .sp).toNat + c.sStack :=
      c.sAbi.depth entry (by omega) reached
    obtain ⟨inside₁, resumes⟩ := rely h h₁ inside (by omega) ⟨t, interrupt, taken⟩
    exact ih (reached.interrupted resumes) inside₁

/-- On the interrupts of the suite `s_trap_handler` stores to no frame and no page table. -/
theorem sTrapHandler_target (ctx : SContext) (stval sepc frame : BitVec 64)
    (supervisor : t.isMachine = false) :
    ∀ e ∈ sTrapHandler ctx t.cause stval sepc, e.target frame = none := by
  cases t with
  | sTimer =>
    have effects : sTrapHandler ctx Trap.sTimer.cause stval sepc =
        [.trapRecord Trap.sTimer.cause stval sepc, .count .fault, .count .irq,
          .lastIrqCause Trap.sTimer.cause, .count .timerIrq,
          .ecall SBI_SET_TIMER 0xFFFFFFFFFFFFFFFF] := rfl
    rw [effects]
    simp [SEffect.target]
  | sSoft =>
    have effects : sTrapHandler ctx Trap.sSoft.cause stval sepc =
        [.trapRecord Trap.sSoft.cause stval sepc, .count .fault, .count .irq,
          .lastIrqCause Trap.sSoft.cause, .count .softIrq, .csrcSip MIP_SSIP] := rfl
    rw [effects]
    simp [SEffect.target]
  | _ => cases supervisor

theorem sSaves_fits : ∀ s ∈ sSaves, s.2 < 256 := sSaves_saveList.inside

theorem sSaves_all {r : Reg} (notStack : r ≠ .sp) : r ∈ sSaves.map Prod.fst := by
  rcases sSaves_complete r with stack | saved
  · exact absurd stack notStack
  · exact saved

/-- The frame holds the saved registers and `sepc`. -/
structure SFramed (v : Supervisor) (k₀ k : UserState) : Prop extends Framed 256 sSaves k₀ k where
  sepc : k.mem (lowered (k₀.regs .sp) 256 + BitVec.ofNat 64 240) = v.sepc

/-- A call keeps the frame that leaves the stack pointer and the memory from there on. -/
theorem SFramed.call {k' : UserState} (framed : SFramed v k₀ k) (deep : 256 ≤ (k₀.regs .sp).toNat)
    (sp : k'.regs .sp = k.regs .sp)
    (mem : ∀ a : BitVec 64, (k.regs .sp).toNat ≤ a.toNat → k'.mem a = k.mem a) :
    SFramed v k₀ k' := by
  have lower := lowered_toNat (k₀.regs .sp) deep
  have address := lowered_offset (k₀.regs .sp) deep (by decide : 240 < 256)
  have frame : Framed 256 sSaves k₀ k' := by
    apply framed.toFramed.call deep sSaves_fits sp _ mem
    intro r notStack absent
    exact absurd (sSaves_all notStack) absent
  refine ⟨frame, ?_⟩
  rw [mem _ (by rw [framed.sp]; omega), framed.sepc]

theorem sBefore_framed (framed : Framed 256 sSaves k₀ k) (deep : 256 ≤ (k₀.regs .sp).toNat) :
    let k' := sBefore.foldl (UserState.exec v.read) k
    SFramed v k₀ k' ∧ k'.regs .a0 = v.scause := by
  intro k'
  have stored : k'.mem =
      k.mem.store (lowered (k₀.regs .sp) 256 + BitVec.ofNat 64 240) v.sepc := by
    rw [← framed.sp]
    rfl
  have framed' : Framed 256 sSaves k₀ k' := by
    constructor
    · exact framed.sp
    · intro r notStack absent
      exact absurd (sSaves_all notStack) absent
    · intro s member
      have other : lowered (k₀.regs .sp) 256 + BitVec.ofNat 64 s.2 ≠
          lowered (k₀.regs .sp) 256 + BitVec.ofNat 64 240 := by
        intro same
        exact sSaves_apart s member
          (offset_injective _ (sSaves_fits s member) (by omega) same)
      rw [stored, Mem.store_other _ _ _ _ other, framed.slots s member]
    · intro a inProgram
      have other := frame_below deep (by decide : 240 < 256) inProgram
      rw [stored, Mem.store_other _ _ _ _ other, framed.above a inProgram]
  refine ⟨⟨framed', ?_⟩, rfl⟩
  rw [stored, Mem.store_same]

/-- The first half of `_s_trap_vector` and the moves. -/
theorem held_sCalling (rely : Rely traps (InSupervisor v) low)
    (room : low + 256 ≤ (k₀.regs .sp).toNat) :
    CodeTriple c sink traps (Held (InSupervisor v) k₀)
      ([.addiSp (-(256 : Nat))] ++ stores sSaves ++ sBefore)
      fun g => ∃ k, (SFramed v k₀ k ∧ k.regs .a0 = v.scause) ∧ Held (InSupervisor v) k g := by
  have deep : 256 ≤ (k₀.regs .sp).toNat := by omega
  have lower := lowered_toNat (k₀.regs .sp) deep
  have top := (k₀.regs .sp).isLt
  have saves : CodeTriple c sink traps (Held (InSupervisor v) k₀)
      ([.addiSp (-(256 : Nat))] ++ stores sSaves)
      fun g => ∃ k, Framed 256 sSaves k₀ k ∧ Held (InSupervisor v) k g :=
    held_save sSaves_saveList sSaves_fits (InSupervisor.userFree v) rely room
  refine saves.append (Triple.unknown ?_)
  intro k framed
  have moves : CodeTriple c sink traps (Held (InSupervisor v) k) sBefore
      (Held (InSupervisor v) (sBefore.foldl (UserState.exec v.read) k)) :=
    held_straight 256 sCsrs (by decide) (InSupervisor.userFree v) rely
      (fun g inside => inside.read) (by rw [framed.sp]; omega) (by rw [framed.sp]; omega)
  exact moves.forget (sBefore_framed framed deep)

/-- A call of `s_trap_handler` on an interrupt keeps the frame, the `sepc` in it included. -/
theorem held_callS (supervisor : t.isMachine = false)
    (sound : ∀ t g g', traps t g g' → Guarantee c t g g') (masked : v.Masked)
    (room : 256 + c.sStack + (128 + c.mStack) ≤ (k₀.regs .sp).toNat) (framed : SFramed v k₀ k)
    (cause : k.regs .a0 = t.cause) :
    CodeTriple c sink traps (Held (InSupervisor v) k) [.callS]
      fun g => ∃ k', SFramed v k₀ k' ∧ Held (InSupervisor v) k' g := by
  have deep : 256 ≤ (k₀.regs .sp).toNat := by omega
  have lower := lowered_toNat (k₀.regs .sp) deep
  have stable : Stable (Interrupted traps) (Held (InSupervisor v) k) :=
    Held.stable (InSupervisor.rely sound masked) (by rw [framed.sp]; omega)
  refine stable.single ?_
  intro g g' held executed
  have regs : g.regs = k.regs := held.agrees.regs
  cases executed with
  | plain _ _ simple _ => cases simple
  | callS ra outside run =>
    have a0 : g.regs .a0 = t.cause := by rw [regs, cause]
    rw [a0] at run
    let start : UserState := (Hart.setReg { g with pc := c.s.entry } .ra ra).user
    have sp : start.regs .sp = k.regs .sp := by
      rw [← regs]
      rfl
    have deepStart : c.sStack + (128 + c.mStack) ≤ (start.regs .sp).toNat := by
      rw [sp, framed.sp]
      omega
    have stack : c.sStack ≤ (start.regs .sp).toNat := by omega
    have back : start.regs .ra = ra := setRegOf_same g.regs .ra ra
    rw [← back] at outside
    obtain ⟨inside, reached, back⟩ :=
      run.reaches sound masked rfl deepStart (.start : c.s.Reaches start [] start) held.kept
    have framed' : SFramed v k₀ g'.user := by
      apply framed.call deep
      · rw [← sp]
        exact c.sAbi.saved rfl outside stack reached back .sp rfl
      · intro a above
        have untouched : g'.mem a = start.mem a := by
          apply c.sAbi.mem rfl outside stack reached back
          · rw [sp]
            exact above
          · intro e member
            rw [sTrapHandler_target _ _ _ _ supervisor e member]
            exact (Option.some_ne_none a).symm
        exact untouched.trans (held.agrees.mem a above)
    exact ⟨g'.user, framed', inside, .refl _⟩

/-- What follows the call in `_s_trap_vector`, up to `sret`. -/
theorem held_sAfter (rely : Rely traps (InSupervisor v) low)
    (room : low + 256 ≤ (k₀.regs .sp).toNat) (framed : SFramed v k₀ k) :
    CodeTriple c sink traps (Held (InSupervisor v) k)
      (sAfter ++ (loads sSaves ++ [.addiSp (256 : Nat)])) (Held (InSupervisor v) k₀) := by
  have deep : 256 ≤ (k₀.regs .sp).toNat := by omega
  have lower := lowered_toNat (k₀.regs .sp) deep
  have top := (k₀.regs .sp).isLt
  let k₁ := k.exec v.read (.ld .t0 240)
  have load : CodeTriple c sink traps (Held (InSupervisor v) k) [.ld .t0 240]
      (Held (InSupervisor v) k₁) :=
    held_straight 256 sCsrs (by decide) (InSupervisor.userFree v) rely
      (fun g inside => inside.read) (by rw [framed.sp]; omega) (by rw [framed.sp]; omega)
  have framed₁ : SFramed v k₀ k₁ := framed.call deep rfl fun _ _ => rfl
  have t0 : k₁.regs .t0 = v.sepc := by
    rw [← framed.sepc, ← framed.sp]
    rfl
  have written : CodeTriple c sink traps (Held (InSupervisor v) k₁) [.csrw .sepc .t0]
      (Held (InSupervisor v) k₁) := by
    apply held_csrw (InSupervisor.userFree v) rely (by rw [framed₁.sp]; omega)
    intro g inside
    rw [t0]
    exact inside.writeSepc
  have restored : CodeTriple c sink traps (Held (InSupervisor v) k₁)
      (loads sSaves ++ [.addiSp (256 : Nat)]) (Held (InSupervisor v) k₀) :=
    held_restore sSaves_saveList sSaves_fits (InSupervisor.userFree v) rely room framed₁.toFramed
  exact (load.append written).append restored

/-- `sret` at the end of the vector, with the stack pointer back in place. -/
theorem InSupervisor.sret {h g : Hart} (supervisor : t.isMachine = false) (mode : h.mode = .S)
    (held : Held (InSupervisor (h.trapToS t.cause 0).supervisor) h.user g) :
    Transparent t h g.sret := by
  have same : g.supervisor = (h.trapToS t.cause 0).supervisor := held.kept
  have sstatus : g.sstatus = (h.trapToS t.cause 0).sstatus := congrArg Supervisor.sstatus same
  obtain ⟨-, spie, spp⟩ := trapToS_bits h t.cause 0
  rw [← sstatus_bit sstatus SPIE (by decide)] at spie
  rw [← sstatus_bit sstatus SPP (by decide), mode] at spp
  constructor
  · simp only [Hart.sret, spp]
    rfl
  · have resume : t.resumeAt h.pc = h.pc := by
      cases t with
      | ecall => cases supervisor
      | _ => rfl
    rw [resume]
    exact congrArg Supervisor.sepc same
  · exact held.agrees.regs
  · simp only [Hart.sret]
    rw [getLsbD_setBit _ _ _ (by decide), getLsbD_setBit _ _ _ (by decide),
      getLsbD_setBit _ _ _ (by decide), getLsbD_setBit _ _ _ (by decide), spie]
    rfl
  · exact held.agrees.mem

theorem masked_trapToS (h : Hart) (cause tval : BitVec 64) :
    (h.trapToS cause tval).supervisor.Masked := by
  refine ⟨rfl, ?_⟩
  rw [← (trapToS_bits h cause tval).1]
  exact (h.trapToS cause tval).sstatus_bit (by decide)

/-- An interrupt of S-mode is transparent, whatever M-mode does meanwhile. -/
theorem TrapBody.transparent (supervisor : t.isMachine = false)
    (sound : ∀ t g g', traps t g g' → Guarantee c t g g') {h h' : Hart} (mode : h.mode = .S)
    (room : t.room c ≤ (h.regs .sp).toNat) (body : TrapBody c sink traps t h h') :
    Transparent t h h' := by
  obtain ⟨-, run⟩ := body
  simp only [Trap.vector, Trap.enter, Trap.room, supervisor, Bool.false_eq_true, ↓reduceIte]
    at run room
  let v := (h.trapToS t.cause 0).supervisor
  have masked : v.Masked := masked_trapToS h t.cause 0
  have rely : Rely traps (InSupervisor v) (128 + c.mStack) := InSupervisor.rely sound masked
  have deep : 128 + c.mStack + 256 ≤ (h.user.regs .sp).toNat := by
    change 128 + c.mStack + 256 ≤ (h.regs .sp).toNat
    omega
  have enters : CodeTriple c sink traps (Held (InSupervisor v) h.user)
      ([.addiSp (-(256 : Nat))] ++ stores sSaves ++ sBefore)
      fun g => ∃ k, (SFramed v h.user k ∧ k.regs .a0 = v.scause) ∧ Held (InSupervisor v) k g :=
    held_sCalling rely deep
  have calls : CodeTriple c sink traps
      (fun g => ∃ k, (SFramed v h.user k ∧ k.regs .a0 = v.scause) ∧ Held (InSupervisor v) k g)
      [.callS] fun g => ∃ k, SFramed v h.user k ∧ Held (InSupervisor v) k g :=
    .unknown fun k calling => held_callS supervisor sound masked room calling.1 calling.2
  have restores : CodeTriple c sink traps
      (fun g => ∃ k, SFramed v h.user k ∧ Held (InSupervisor v) k g)
      (sAfter ++ (loads sSaves ++ [.addiSp (256 : Nat)])) (Held (InSupervisor v) h.user) :=
    .unknown fun k framed => held_sAfter rely deep framed
  have stable : Stable (Interrupted traps) (Held (InSupervisor v) h.user) :=
    Held.stable rely (by omega)
  have leaves : CodeTriple c sink traps (Held (InSupervisor v) h.user) [.sret]
      (Transparent t h) := by
    refine stable.single ?_
    intro g g' held executed
    cases executed with
    | plain _ _ simple _ => cases simple
    | sret => exact InSupervisor.sret supervisor mode held
  exact (((enters.append calls).append restores).append leaves) _ _
    ⟨rfl, rfl, fun _ _ => rfl⟩ run

end SMode

/-- Every trap guarantees its transparency, at any depth of nesting. -/
theorem TrapRun.guarantee {c : Compiled} {sink : Sink} (depth : Nat) {t : Trap} {h h' : Hart}
    (run : TrapRun c sink depth t h h') : Guarantee c t h h' := by
  refine Nested.guarantee ?_ depth run
  intro traps sound t h h' body
  refine ⟨body.1, ?_⟩
  intro mode room
  cases machine : t.isMachine with
  | false => exact ⟨body.transparent machine sound mode room, fun absurd => by cases absurd⟩
  | true =>
    have restores := body.restores machine (fun t g g' taken => (sound t g g' taken).1) mode room
    exact ⟨restores.transparent mode, fun _ => restores⟩

end ZephyrRiscv
