import ZephyrRiscv.Interrupts
import ZephyrRiscv.Transition

set_option autoImplicit false

namespace ZephyrRiscv.Ipi

open Transition Verdict

/-- The target of the sends. Completed sends are counted, and of every S-soft trap the
number of sends completed before it is recorded. -/
structure State where
  core : Core
  sends : Nat
  entries : List Nat

inductive Action where
  | send (sender : BitVec 64)
  | setSie (on : Bool)
  | setSsie (on : Bool)
  | mSoft
  | sSoft
  | handler
deriving DecidableEq, Repr

def step (sink : Sink) (s : State) : Action → Option State
  | .send sender =>
      -- the target itself cannot send from within its handler
      if sender < NUM_HARTS ∧ (sender = s.core.hart.csrs.mhartid → s.core.handler.isNone) then
        let hart := s.core.hart.ipiFrom sink sender s.core.hart.csrs.mhartid
        some { s with core := { s.core with hart }, sends := s.sends + 1 }
      else none
  | .setSie on =>
      if s.core.handler.isNone then
        some { s with core := { s.core with hart := s.core.hart.writeSstatusSie on } }
      else none
  | .setSsie on =>
      if s.core.handler.isNone then
        some { s with core := { s.core with hart := s.core.hart.writeSie SSI on } }
      else none
  | .mSoft =>
      if s.core.hart.lines.msie ∧ s.core.hart.lines.msip.getLsbD 0 then
        some { s with core := { s.core with hart := s.core.hart.mInterrupt sink IRQ_M_SOFT } }
      else none
  | .sSoft =>
      (s.core.sInterrupt IRQ_S_SOFT).map fun core =>
        { s with core, entries := s.entries ++ [s.sends] }
  | .handler => (s.core.handlerStep sink).map fun core => { s with core }

/-- Hart `target` with no interrupt pending. -/
structure AtBoot (target : BitVec 64) (s : State) : Prop where
  handler : s.core.handler = none
  mhartid : s.core.hart.csrs.mhartid = target
  mideleg : s.core.hart.csrs.mideleg.getLsbD SSI = true
  msip : s.core.hart.lines.msip = 0
  ssip : s.core.hart.lines.ssip = false
  sends : s.sends = 0
  entries : s.entries = []
  count : s.core.hart.trap.softIrqCount = 0

/-- Every completed send is still pending or followed by an entry of `s_trap_handler`. -/
def NotSwallowed (s : State) : Prop :=
  ∀ i, i < s.sends → s.core.hart.lines.msip.getLsbD 0 = true ∨ s.core.hart.lines.ssip = true ∨
    ∃ entry ∈ s.entries, i < entry

/-- No M-soft trap is taken while the handler has still to clear SSIP. -/
def Unhurried (s : State) (a : Action) : Prop := a = .mSoft → s.core.acking = false

instance (s : State) (a : Action) : Decidable (Unhurried s a) :=
  inferInstanceAs (Decidable (_ → _))

/-- The change of what the sends and the interrupts leave. -/
inductive Change (s : State) (a : Action) (s' : State) : Prop
  | stay (lines : s'.core.hart.lines = s.core.hart.lines) (acking : s'.core.acking = s.core.acking)
      (sends : s'.sends = s.sends) (entries : s'.entries = s.entries)
  | send (lines : s'.core.hart.lines = { s.core.hart.lines with msip := 1 })
      (acking : s'.core.acking = s.core.acking)
      (sends : s'.sends = s.sends + 1) (entries : s'.entries = s.entries)
  | mSoft (action : a = .mSoft) (raised : s.core.hart.lines.msip.getLsbD 0 = true)
      (lines : s'.core.hart.lines = { s.core.hart.lines with msip := 0, ssip := true })
      (acking : s'.core.acking = s.core.acking)
      (sends : s'.sends = s.sends) (entries : s'.entries = s.entries)
  | sSoft (raised : s.core.hart.lines.ssip = true) (before : s.core.acking = false)
      (lines : s'.core.hart.lines = s.core.hart.lines) (acking : s'.core.acking = true)
      (sends : s'.sends = s.sends) (entries : s'.entries = s.entries ++ [s.sends])
  | ack (before : s.core.acking = true) (acking : s'.core.acking = false)
      (lines : s'.core.hart.lines = { s.core.hart.lines with ssip := false })
      (sends : s'.sends = s.sends) (entries : s'.entries = s.entries)

theorem step_change {sink : Sink} {target : BitVec 64} {s s' : State} {a : Action}
    (known : target < NUM_HARTS) (soft : Soft target s.core)
    (fired : Fires (step sink) s a s') : Soft target s'.core ∧ Change s a s' := by
  cases a with
  | send sender =>
      simp only [Fires, step, Option.ite_none_right_eq_some, Option.some.injEq] at fired
      rcases fired with ⟨-, rfl⟩
      rcases Soft.ipiFrom sink sender soft known with ⟨soft', lines⟩
      exact ⟨soft', .send lines rfl rfl rfl⟩
  | setSie on =>
      simp only [Fires, step, Option.ite_none_right_eq_some, Option.some.injEq] at fired
      rcases fired with ⟨-, rfl⟩
      exact ⟨soft.keep ⟨rfl, rfl⟩, .stay rfl rfl rfl rfl⟩
  | setSsie on =>
      simp only [Fires, step, Option.ite_none_right_eq_some, Option.some.injEq] at fired
      rcases fired with ⟨-, rfl⟩
      have lines := lines_writeSie s.core.hart (i := SSI) on (by decide) (by decide) (by decide)
      exact ⟨soft.keep ⟨rfl, rfl⟩, .stay lines rfl rfl rfl⟩
  | mSoft =>
      simp only [Fires, step, Option.ite_none_right_eq_some, Option.some.injEq] at fired
      rcases fired with ⟨⟨-, raised⟩, rfl⟩
      have lines := lines_mSoft sink s.core.hart
      exact ⟨soft.keep (foldl_applyM_configured _ _).1, .mSoft rfl raised lines rfl rfl rfl⟩
  | sSoft =>
      rcases Option.map_eq_some_iff.mp fired with ⟨core, taken, rfl⟩
      rcases soft.sInterrupt taken with ⟨soft', lines, raised, before, acking⟩
      exact ⟨soft', .sSoft raised before lines acking rfl rfl⟩
  | handler =>
      rcases Option.map_eq_some_iff.mp fired with ⟨core, stepped, rfl⟩
      rcases soft.handlerStep stepped with
        ⟨soft', ⟨lines, acking⟩ | ⟨-, before, acking, lines⟩⟩
      · exact ⟨soft', .stay lines acking rfl rfl⟩
      · exact ⟨soft', .ack before acking lines rfl rfl⟩

theorem step_counts {sink : Sink} {s s' : State} {a : Action}
    (counts : Counts .softIrq 0 s.core s.entries.length) (fired : Fires (step sink) s a s') :
    Counts .softIrq 0 s'.core s'.entries.length := by
  have same : ∀ hart : Hart, hart.trap = s.core.hart.trap →
      Counts .softIrq 0 { s.core with hart } s.entries.length := by
    intro hart trap
    rcases counts with ⟨k, value, sum⟩
    exact ⟨k, (congrArg (TrapState.value · .softIrq) trap).trans value, sum⟩
  cases a with
  | send sender =>
      simp only [Fires, step, Option.ite_none_right_eq_some, Option.some.injEq] at fired
      rcases fired with ⟨-, rfl⟩
      exact same _ (foldl_applyM_configured _ _).2
  | setSie on =>
      simp only [Fires, step, Option.ite_none_right_eq_some, Option.some.injEq] at fired
      rcases fired with ⟨-, rfl⟩
      exact same _ rfl
  | setSsie on =>
      simp only [Fires, step, Option.ite_none_right_eq_some, Option.some.injEq] at fired
      rcases fired with ⟨-, rfl⟩
      exact same _ rfl
  | mSoft =>
      simp only [Fires, step, Option.ite_none_right_eq_some, Option.some.injEq] at fired
      rcases fired with ⟨-, rfl⟩
      exact same _ (foldl_applyM_configured _ _).2
  | sSoft =>
      rcases Option.map_eq_some_iff.mp fired with ⟨core, taken, rfl⟩
      rcases sInterrupt_cases taken with ⟨idle, -, hart, ctx, sepc, rfl, -, trap, -⟩
      rcases same hart trap with ⟨k, value, sum⟩
      refine ⟨k, value, ?_⟩
      simp only [idle] at sum
      rw [List.length_append, ← sum, sTrapHandler_soft]
      rfl
  | handler =>
      rcases Option.map_eq_some_iff.mp fired with ⟨core, stepped, rfl⟩
      exact counts.handlerStep stepped

/-- The pending interrupts that the handler will not clear with the one it handles. -/
def unseen (c : Core) : Nat :=
  (if c.hart.lines.msip.getLsbD 0 then 1 else 0) +
    if c.hart.lines.ssip && !c.acking then 1 else 0

structure Counting (target : BitVec 64) (s : State) : Prop where
  soft : Soft target s.core
  counted : Counts .softIrq 0 s.core s.entries.length
  sent : s.entries.length + unseen s.core ≤ s.sends

theorem AtBoot.counting {target : BitVec 64} {s : State} (boot : AtBoot target s) :
    Counting target s := by
  rcases boot with ⟨handler, mhartid, mideleg, msip, ssip, sends, entries, count⟩
  constructor
  · exact ⟨mhartid, mideleg, by simp [handler]⟩
  · exact ⟨0, by simp [TrapState.value, count], by simp [handler, entries, uncounted]⟩
  · simp [unseen, msip, ssip, sends, entries]

theorem Change.unseen_le {s s' : State} {a : Action} (change : Change s a s')
    (sent : s.entries.length + unseen s.core ≤ s.sends) :
    s'.entries.length + unseen s'.core ≤ s'.sends := by
  unfold unseen at sent ⊢
  cases change with
  | stay lines acking sends entries =>
      rw [lines, acking, sends, entries]
      exact sent
  | send lines acking sends entries =>
      rw [lines, acking, sends, entries]
      split at sent <;> simp_all <;> omega
  | mSoft action raised lines acking sends entries =>
      rw [lines, acking, sends, entries]
      rw [raised] at sent
      cases s.core.acking <;> simp_all <;> omega
  | sSoft raised before lines acking sends entries =>
      rw [lines, acking, sends, entries, List.length_append]
      rw [raised, before] at sent
      simp_all
      omega
  | ack before acking lines sends entries =>
      rw [lines, acking, sends, entries]
      rw [before] at sent
      simp_all

theorem Counting.step {sink : Sink} {target : BitVec 64} {s s' : State} {a : Action}
    (known : target < NUM_HARTS) (inv : Counting target s) (fired : Fires (step sink) s a s') :
    Counting target s' := by
  rcases step_change known inv.soft fired with ⟨soft, change⟩
  exact ⟨soft, step_counts inv.counted fired, change.unseen_le inv.sent⟩

theorem reachable_counting {sink : Sink} {target : BitVec 64} {s : State}
    (known : target < NUM_HARTS) (reached : Reachable (AtBoot target) (Fires (step sink)) s) :
    Counting target s :=
  reached.invariant (fun _ boot => boot.counting) fun _ _ _ inv fired => inv.step known fired

/-- `soft_irq_count` never exceeds the number of sends. -/
theorem softIrqCount_le {sink : Sink} {target : BitVec 64} {s : State}
    (known : target < NUM_HARTS) (reached : Reachable (AtBoot target) (Fires (step sink)) s) :
    s.core.hart.trap.softIrqCount.toNat ≤ s.sends := by
  have inv := reachable_counting known reached
  rcases inv.counted with ⟨k, value, sum⟩
  have sent := inv.sent
  have count : s.core.hart.trap.softIrqCount = BitVec.ofNat 32 k :=
    value.trans (BitVec.zero_add _)
  rw [count, BitVec.toNat_ofNat]
  have small := Nat.mod_le k (2 ^ 32)
  omega

/-- The latest send was followed by an entry, or an entry will follow it. -/
def Heard (s : State) : Prop :=
  s.sends = 0 ∨ s.sends ∈ s.entries ∨ s.core.hart.lines.msip.getLsbD 0 = true ∨
    (s.core.hart.lines.ssip = true ∧ s.core.acking = false)

theorem Heard.notSwallowed {s : State} (heard : Heard s) : NotSwallowed s := by
  intro i completed
  rcases heard with none_sent | entered | msip | ⟨ssip, -⟩
  · omega
  · exact Or.inr (Or.inr ⟨s.sends, entered, completed⟩)
  · exact Or.inl msip
  · exact Or.inr (Or.inl ssip)

theorem Change.heard {s s' : State} {a : Action} (change : Change s a s')
    (unhurried : Unhurried s a) (heard : Heard s) : Heard s' := by
  unfold Heard at heard ⊢
  cases change with
  | stay lines acking sends entries =>
      rw [lines, acking, sends, entries]
      exact heard
  | send lines acking sends entries =>
      rw [lines]
      exact Or.inr (Or.inr (Or.inl (by simp)))
  | mSoft action raised lines acking sends entries =>
      rw [lines, acking]
      exact Or.inr (Or.inr (Or.inr ⟨rfl, unhurried action⟩))
  | sSoft raised before lines acking sends entries =>
      rw [sends, entries]
      exact Or.inr (Or.inl (List.mem_append_right _ List.mem_cons_self))
  | ack before acking lines sends entries =>
      -- SSIP is cleared, but only for sends that an entry followed
      rw [lines, sends, entries]
      rcases heard with none_sent | entered | msip | ⟨-, idle⟩
      · exact Or.inl none_sent
      · exact Or.inr (Or.inl entered)
      · exact Or.inr (Or.inr (Or.inl msip))
      · rw [before] at idle
        cases idle

theorem reachable_heard {sink : Sink} {target : BitVec 64} {s : State}
    (known : target < NUM_HARTS)
    (reached : Reachable (AtBoot target) (Guarded Unhurried (Fires (step sink))) s) :
    Soft target s.core ∧ Heard s := by
  apply reached.invariant
  · intro s boot
    exact ⟨boot.counting.soft, Or.inl boot.sends⟩
  · intro s a s' inv fired
    rcases step_change known inv.1 fired.2 with ⟨soft, change⟩
    exact ⟨soft, change.heard fired.1 inv.2⟩

/-- In a run that takes no M-soft trap before the acknowledgement, every completed send is
pending or was followed by an entry of the handler. -/
theorem ipi_not_swallowed {sink : Sink} {target : BitVec 64} {s : State}
    (known : target < NUM_HARTS)
    (reached : Reachable (AtBoot target) (Guarded Unhurried (Fires (step sink))) s) :
    NotSwallowed s ∧ s.core.hart.trap.softIrqCount.toNat ≤ s.sends :=
  ⟨(reachable_heard known reached).2.notSwallowed, softIrqCount_le known reached.of_guarded⟩

/-- Hart 1 with software interrupts enabled. -/
def bootState : State where
  core := { hart := sModeHart 1 0x2 0xA, handler := none }
  sends := 0
  entries := []

/-- An IPI sent, forwarded and entered; then another one, forwarded before the handler
clears SSIP. -/
def closeSends : List Action :=
  [.send 0, .mSoft, .sSoft, .handler, .handler, .send 0, .mSoft, .handler, .handler, .handler,
    .handler, .handler]

theorem bootState_atBoot : AtBoot 1 bootState :=
  ⟨rfl, rfl, by decide, rfl, rfl, rfl, rfl, rfl⟩

/-- The second of two close IPIs is neither pending nor followed by an entry. -/
theorem second_ipi_swallowed :
    ¬ ∀ (sink : Sink) (target : BitVec 64) (s : State), target < NUM_HARTS →
      Reachable (AtBoot target) (Fires (step sink)) s →
        NotSwallowed s ∧ s.core.hart.trap.softIrqCount.toNat ≤ s.sends := by
  intro always
  have runs : (replay (step .htif) bootState closeSends).map
      (fun s => (s.sends, s.entries, s.core.hart.lines.msip, s.core.hart.lines.ssip)) =
        some (2, [1], 0, false) := by decide
  rcases Option.map_eq_some_iff.mp runs with ⟨s, replayed, final⟩
  simp only [Prod.mk.injEq] at final
  rcases final with ⟨sends, entries, msip, ssip⟩
  have reached := (Reachable.start bootState_atBoot).replay replayed
  have kept := (always .htif 1 s (by decide) reached).1 1 (by omega)
  rw [msip, ssip, entries] at kept
  simp at kept

/-- One IPI, forwarded, entered and acknowledged, then another one. -/
def spacedSends : List Action :=
  [.send 0, .mSoft, .sSoft, .handler, .handler, .handler, .handler, .handler, .handler, .send 0,
    .handler, .mSoft, .sSoft]

theorem ipi_not_swallowed_spaced :
    ∃ s, replay (checked Unhurried (step .htif)) bootState spacedSends = some s ∧
      NotSwallowed s ∧ s.core.hart.trap.softIrqCount.toNat ≤ s.sends := by
  have runs : (replay (checked Unhurried (step .htif)) bootState spacedSends).isSome := by decide
  rcases Option.isSome_iff_exists.mp runs with ⟨s, replayed⟩
  have reached := ((Reachable.start bootState_atBoot).replay replayed).of_checked
  exact ⟨s, replayed, ipi_not_swallowed (by decide) reached⟩

end ZephyrRiscv.Ipi
