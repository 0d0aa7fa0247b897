import ZephyrRiscv.P2Phases

set_option autoImplicit false

namespace ZephyrRiscv.P2

open Sv39 Mmu RadixForest Tables Pt PageFaults TestRuns

variable {p : Platform} {k : Irq → Nat} {E : Nat → Prop} {pool : Pool}

/-- A fact about the counts, and one about the tables of the test. -/
def Spaced (F : Fact) (P : Vars → Space → Prop) : Fact := fun v c => F v c ∧ P v c.space

theorem Spaced.keeps {F : Fact} {P : Vars → Space → Prop} (keeps : Keeps p k F) :
    Keeps p k (Spaced F P) := by
  intro v c c' account moves facts
  refine ⟨keeps v c c' account moves facts.1, ?_⟩
  rw [account.space_moves moves]
  exact facts.2

/-- Both counts are this far, and `fault_count` goes with the timer's. -/
def Lagging (timer a b : Nat) : Fact := fun v c => Both timer 1 v c ∧ Lag a b c

theorem Lagging.keeps {timer a b : Nat} (soft : k .soft ≤ 1) (few : b < 2 ^ 31) :
    Keeps p k (Lagging timer a b) := by
  intro v c c' account moves facts
  obtain ⟨both, lag⟩ := facts
  exact ⟨Both.keeps timer 1 v c c' account moves both,
    lag.moves account (Nat.le_trans soft both.2) few moves⟩

theorem Called.space {c c' : Core} (called : Called c c') : c'.space = c.space := by
  rw [space_idle called.handler, space_idle called.idle, called.mem, called.satp, called.action]

/-- A statement that stores to memory and sets variables of the test. -/
theorem memory_turns {F : Fact} {P Q : Vars → Space → Prop} {stmt : Stmt} (keeps : Keeps p k F)
    (fits : ∀ s, P s.vars s.core.space → Accessible p.pool s stmt)
    (steady : ∀ v v' c mem, F v c → F v' { c with hart := { c.hart with mem } })
    (turns : ∀ s, P s.vars (hartSpace s.core.hart) → ∃ mem vars,
      perform p s stmt = .next { s.withHart { s.core.hart with mem } with vars } ∧
        Q vars { hartSpace s.core.hart with mem }) :
    (machine p).Does (Fits p) E (With k (Spaced F P)) stmt (With k (Spaced F Q)) := by
  refine does (Spaced.keeps keeps) (fun s holds => fits s holds.2.2) fun s holds ready => ?_
  have idle := ready.idle
  obtain ⟨within, fact, here⟩ := holds
  rw [space_idle idle] at here
  obtain ⟨mem, vars, done, next⟩ := turns s here
  have similar : Similar s.core { s.core with hart := { s.core.hart with mem } } :=
    ⟨idle, idle, rfl, ⟨rfl, rfl⟩, fun _ => rfl, rfl⟩
  rw [done]
  refine ⟨⟨within.mtime, account_similar within.account similar⟩, steady _ _ _ _ fact, ?_⟩
  rw [space_idle (by exact idle)]
  exact next

/-- The identity map, with Sv39 off before and on behind. -/
theorem identity_outline (room : RoomFor p.pool) :
    Outline (machine p) (Fits p) E (With (bounds 3 1) (Both 3 1))
      [.ptReset, .ptSetupIdentityKernel, .mmuEnableSv39, .setHandlerAction 0]
      (With (bounds 3 1) (Spaced (Both 3 1) fun v space =>
        Paged p.pool identityView v.root v.ptPoolNextPage space ∧ v.ptPoolNextPage ≤ 1)) := by
  have keeps := Both.keeps (p := p) (k := bounds 3 1) 3 1
  refine .cons (plain_turns (Q := Spaced (Both 3 1) fun v _ => v.ptPoolNextPage = 0) keeps rfl
    fun s s' holds ready done => ?_) ?_
  · cases done
    exact ⟨holds.2, rfl⟩
  refine .cons (memory_turns (Q := fun v space =>
    Built p.pool identityView v.root v.ptPoolNextPage space.mem ∧ v.ptPoolNextPage ≤ 1) keeps
    (fun _ _ => trivial) (fun _ _ _ _ both => both) fun s start => ⟨_, _, rfl, ?_⟩) ?_
  · have zero : s.vars.ptPoolNextPage = 0 := start
    simp only [zero]
    exact ⟨Built.setup room s.core.hart.mem, Nat.le_refl 1⟩
  refine .cons (plain_turns (Q := Spaced (Both 3 1) fun v space =>
    (Built p.pool identityView v.root v.ptPoolNextPage space.mem ∧ v.ptPoolNextPage ≤ 1) ∧
      space.satp = Pt.mmuEnableSv39 v.root) (Spaced.keeps keeps) rfl
    fun s s' holds ready done => ?_) ?_
  · cases done
    exact ⟨holds.2.1, holds.2.2, rfl⟩
  refine (plain_turns (Spaced.keeps keeps) rfl fun s s' holds ready done => ?_).outline
  cases done
  exact ⟨holds.2.1, ⟨holds.2.2.1.1, holds.2.2.2, rfl⟩, holds.2.2.1.2⟩

/-- The counts start again, one after the other. -/
theorem counts_outline {P : Vars → Space → Prop} :
    Outline (machine p) (Fits p) E (With (bounds 3 1) (Spaced (Both 3 1) P))
      [.setCount .fault 0, .setCount .timerIrq 0]
      (With (bounds 0 1) (Spaced (Lagging 0 0 0) P)) := by
  refine .cons (plain_turns (Q := Spaced (Lagging 3 3 0) P) (Spaced.keeps (Both.keeps 3 1)) rfl
    fun s s' holds ready done => ?_) ?_
  · have timers := holds.2.1.1.exact holds.1.account ready.idle rfl
    have idle := ready.idle
    cases done
    refine ⟨⟨holds.2.1, ?_⟩, holds.2.2⟩
    rw [Lag, total_idle (by exact idle), total_idle (by exact idle)]
    show 0 + 3 = s.core.counted .timer + 0
    omega
  have keeps : Keeps p (bounds 3 1) (Lagging 3 3 0) := Lagging.keeps (Nat.le_refl 1) (by omega)
  refine (reset_does .timer 3 (bounds 0 1) (Spaced (Lagging 0 0 0) P) (Spaced.keeps keeps)
    (fun _ _ facts => facts.1.1.1) (bounds_small (by omega) (by omega)) (by decide) (by decide)
    fun v c c' account facts called none same faults => ?_).outline
  obtain ⟨⟨both, lag⟩, here⟩ := facts
  have timers := account.timers_le
  have limit : bounds 3 1 .timer = 3 := rfl
  have before : c.total .fault + 3 = c.total .timerIrq + 0 := lag
  rw [total_idle called.idle, ← faults] at before
  have zero : (c'.hart.trap.value .timerIrq).toNat = 0 := none
  refine ⟨⟨⟨Nat.zero_le _, Nat.le_trans both.2 (Nat.le_of_eq same.symm)⟩, ?_⟩, ?_⟩
  · rw [Lag, total_idle called.handler, total_idle called.handler]
    omega
  · rw [called.space]
    exact here

/-- The page has its entry, and nothing has gone through it. -/
def Mapped (pool : Pool) : Fact := Spaced (Lagging 0 0 0) fun v =>
  Loaded pool mappedView v.root v.ptPoolNextPage

theorem Mapped.keeps (soft : k .soft ≤ 1) : Keeps p k (Mapped pool) :=
  Spaced.keeps (Lagging.keeps soft (by omega))

/-- The page is stored to through the identity map, and its entry written invalid. -/
theorem mapping_outline (room : RoomFor p.pool) :
    Outline (machine p) (Fits p) E
      (With (bounds 0 1) (Spaced (Lagging 0 0 0) fun v space =>
        Paged p.pool identityView v.root v.ptPoolNextPage space ∧ v.ptPoolNextPage ≤ 1))
      [.store faultPa faultWord, .ptMapPage faultVa faultPa (PTE_R ||| PTE_W) false, .sfenceVma]
      (With (bounds 0 1) (Mapped p.pool)) := by
  have keeps : Keeps p (bounds 0 1) (Lagging 0 0 0) := Lagging.keeps (Nat.le_refl 1) (by omega)
  refine .cons (memory_turns (Q := fun v space =>
    Loaded p.pool identityView v.root v.ptPoolNextPage space ∧ v.ptPoolNextPage ≤ 1) keeps
    (fun s paged => ⟨rfl, paged.1⟩) (fun _ _ _ _ facts => facts) fun s paged => ?_) ?_
  · refine ⟨s.core.hart.mem.store (doubleword faultPa.toNat) faultWord, s.vars, ?_, ?_⟩
    · show accessing p s .store faultPa _ = _
      rw [accessing, identity_store room paged.1]
      rfl
    have word : s.core.hart.mem.store (doubleword faultPa.toNat) faultWord
        (doubleword faultPa.toNat) = faultWord := Mem.store_same ..
    exact ⟨⟨⟨paged.1.built.store room faultWord, paged.1.satp, paged.1.fixMode⟩, word⟩, paged.2⟩
  refine .cons (memory_turns (Q := fun v => Loaded p.pool mappedView v.root v.ptPoolNextPage) keeps
    (fun _ _ => trivial) (fun _ _ _ _ facts => facts)
    fun s loaded => ⟨_, _, rfl, loaded.1.mapPage room loaded.2⟩) ?_
  refine (plain_turns (Mapped.keeps (Nat.le_refl 1)) rfl fun s s' holds ready done => ?_).outline
  cases done
  exact holds.2

/-- The load has not faulted yet, or the handler has repaired its entry or will. -/
def Loading (pool : Pool) : Fact := fun v c =>
  Mapped pool v c ∨
    Spaced (Lagging 0 0 1) (fun v => Loaded pool repairedView v.root v.ptPoolNextPage) v c

theorem Loading.keeps (soft : k .soft ≤ 1) : Keeps p k (Loading pool) := by
  have behind : Keeps p k (Lagging 0 0 1) := Lagging.keeps soft (by omega)
  intro v c c' account moves loading
  rcases loading with fresh | repaired
  · exact .inl (Mapped.keeps soft v c c' account moves fresh)
  · exact .inr (Spaced.keeps behind v c c' account moves repaired)

/-- The load is done: the page fault is one of `fault_count`. -/
def Done : Fact := fun v c => Lagging 0 0 1 v c ∧ v.val = faultWord

theorem Done.keeps (soft : k .soft ≤ 1) : Keeps p k Done := by
  have lagging : Keeps p k (Lagging 0 0 1) := Lagging.keeps soft (by omega)
  exact fun v c c' account moves facts => ⟨lagging v c c' account moves facts.1, facts.2⟩

/-- Through the repaired entry it comes back with what was stored. -/
theorem load_served (room : RoomFor p.pool) {s : State} (idle : s.core.handler = none)
    (repaired : Loaded p.pool repairedView s.vars.root s.vars.ptPoolNextPage s.core.space) :
    perform p s (.load faultVa) = .next { s with vars := { s.vars with val := faultWord } } := by
  rw [space_idle idle] at repaired
  have word : s.core.hart.mem (doubleword faultPa.toNat) = faultWord := repaired.word
  show accessing p s .load faultVa _ = _
  rw [accessing, repaired_load room repaired.paged]
  simp only [word]

/-- Through the invalid one it faults, and its handler starts the repair. -/
theorem load_faults (room : RoomFor p.pool) {s : State} (within : Within k s)
    (idle : s.core.handler = none)
    (mapped : Loaded p.pool mappedView s.vars.root s.vars.ptPoolNextPage s.core.space) :
    let core := pageFault s.core.hart .load faultVa
    perform p s (.load faultVa) = .again { s with core } ∧ Within k { s with core } ∧
      Loaded p.pool repairedView s.vars.root s.vars.ptPoolNextPage core.space ∧
      uncounted .fault core.handler = 1 ∧ uncounted .timerIrq core.handler = 0 := by
  rw [space_idle idle] at mapped
  obtain ⟨repaired, mild, counts⟩ := mapped.repair room s.core.hart.pc
  refine ⟨?_, ⟨within.mtime, within.account.repairing idle mild rfl ⟨rfl, rfl⟩ rfl⟩, repaired,
    counts, uncounted_mild mild .timer⟩
  show accessing p s .load faultVa _ = _
  rw [accessing, mapped_load room mapped.paged]

theorem load_does (room : RoomFor p.pool) :
    (machine p).Does (Fits p) E (With (bounds 1 1) (Loading p.pool)) (.load faultVa)
      (With (bounds 1 1) Done) := by
  refine does (Loading.keeps (Nat.le_refl 1))
    (fun s holds => ⟨rfl, holds.2.imp And.right And.right⟩) fun s holds ready => ?_
  have idle := ready.idle
  obtain ⟨within, ⟨facts, here⟩ | ⟨facts, here⟩⟩ := holds
  · obtain ⟨faulted, within', repaired, one, none⟩ := load_faults room within idle here
    rw [faulted]
    exact ⟨within', .inr ⟨⟨facts.1, facts.2.repairing idle rfl one none⟩, repaired⟩⟩
  · rw [load_served room idle here]
    exact ⟨⟨within.mtime, within.account⟩, facts, rfl⟩

/-- The interrupt that P2.4 asks for comes anywhere from here on, or not at all. -/
theorem faulting_outline (room : RoomFor p.pool) :
    Outline (machine p) (Fits p) E
      (With (bounds 0 1) (Mapped p.pool))
      [.csrsSie SIP_STIP, .enableSInterrupts, .readMtime, .sbiSetTimer 200, .load faultVa,
        .delay 10000, .disableSInterrupts, .assertFault 630, .assertVal faultWord 631,
        .writeSatp 0, .sfenceVma]
      (With (bounds 1 1) (AtLeast .soft 1)) := by
  have before : Keeps p (bounds 0 1) (Mapped p.pool) := Mapped.keeps (Nat.le_refl 1)
  have done : Keeps p (bounds 1 1) Done := Done.keeps (Nat.le_refl 1)
  refine .cons (plain_turns (Q := Mapped p.pool) before rfl fun s s' holds _ did => ?_) ?_
  · cases did
    exact holds.2
  refine .cons (plain_turns (Q := Mapped p.pool) before rfl fun s s' holds _ did => ?_) ?_
  · cases did
    exact holds.2
  refine .cons (plain_turns (Q := Mapped p.pool) before rfl fun s s' holds _ did => ?_) ?_
  · cases did
    exact holds.2
  refine .cons (setTimer_does 0 200 (bounds 1 1) (Loading p.pool) before
    (fun v c account _ => ?_) (bounds_small (by omega) (by omega)) (Nat.le_refl 1) (Nat.le_refl 1)
    fun v c c' _ facts called trap => ?_) ?_
  · have bound := account.bound .timer
    have limit : bounds 0 1 .timer = 0 := rfl
    omega
  · obtain ⟨⟨both, lag⟩, here⟩ := facts
    refine .inl ⟨⟨⟨Nat.zero_le _, ?_⟩, ?_⟩, ?_⟩
    · show 1 ≤ c'.counted .soft
      rw [Core.counted, trap]
      exact both.2
    · rw [Lag, total_idle called.handler, total_idle called.handler, trap]
      rw [Lag, total_idle called.idle, total_idle called.idle] at lag
      exact lag
    · rw [called.space]
      exact here
  refine .cons (load_does room) ?_
  refine .cons (delay_does 10000 done) ?_
  refine .cons (plain_turns (Q := Done) done rfl fun s s' holds _ did => ?_) ?_
  · cases did
    exact holds.2
  refine .cons (does done (fun _ _ => trivial) fun s holds ready =>
    check_meets (fun _ => holds) fun wrong => ?_) ?_
  · have lag : Lag 0 1 s.core := holds.2.1.2
    have timers := holds.1.account.timers_le
    have limit : bounds 1 1 .timer = 1 := rfl
    rw [Lag, total_idle ready.idle] at lag
    have count : (s.core.hart.trap.value .fault).toNat =
        s.core.hart.trap.faultCount.toNat := rfl
    have few := of_decide_eq_false wrong
    rw [BitVec.toInt_eq_toNat_cond] at few
    split at few <;> omega
  refine .cons (does done (fun _ _ => trivial) fun s holds _ =>
    check_meets (fun _ => holds) fun wrong =>
      absurd holds.2.2 (of_decide_eq_false wrong)) ?_
  refine .weaken (Q := With (bounds 1 1) (AtLeast .soft 1))
    (fun _ holds => ⟨holds.1, holds.2.1.1.2⟩) ?_
  have counted := AtLeast.keeps (p := p) (k := bounds 1 1) .soft 1
  refine .cons (plain_does counted (AtLeast.calm .soft 1) rfl) ?_
  exact (plain_does counted (AtLeast.calm .soft 1) rfl).outline

theorem timerAndFault_outline (room : RoomFor p.pool) :
    Outline (machine p) (Fits p) E (With (bounds 3 1) (Both 3 1)) timerAndFault
      (With (bounds 1 1) (AtLeast .soft 1)) :=
  (identity_outline room).append (counts_outline.append
    ((mapping_outline room).append (faulting_outline room)))

end ZephyrRiscv.P2
