import ZephyrRiscv.TrapHandlers

set_option autoImplicit false

namespace ZephyrRiscv.PageFaults

open Sv39

/-- The effects of the handler on `g_trap`. -/
def recordEffect (t : TrapState) : SEffect → TrapState
  | .trapRecord scause stval sepc => { t with scause, stval, sepc }
  | .count .fault => { t with faultCount := t.faultCount + 1 }
  | .count .irq => { t with irqCount := t.irqCount + 1 }
  | .count .timerIrq => { t with timerIrqCount := t.timerIrqCount + 1 }
  | .count .softIrq => { t with softIrqCount := t.softIrqCount + 1 }
  | .lastIrqCause value => { t with lastIrqCause := value }
  | _ => t

/-- A doubleword with two `int`s, the one at the lower address first. -/
def ints (low high : BitVec 32) : BitVec 64 := high ++ low

def lowInt (word : BitVec 64) : BitVec 32 := word.setWidth 32
def highInt (word : BitVec 64) : BitVec 32 := (word >>> 32).setWidth 32

@[simp] theorem lowInt_ints (low high : BitVec 32) : lowInt (ints low high) = low := by
  simp only [lowInt, ints, BitVec.setWidth_append, BitVec.setWidth_eq, Nat.le_refl, ↓reduceDIte]

@[simp] theorem highInt_ints (low high : BitVec 32) : highInt (ints low high) = high := by
  apply BitVec.eq_of_toNat_eq
  simp only [highInt, ints, BitVec.toNat_setWidth, BitVec.toNat_ushiftRight, BitVec.toNat_append]
  rw [Nat.shiftRight_or_distrib, Nat.shiftLeft_shiftRight, Nat.shiftRight_eq_div_pow,
    Nat.div_eq_of_lt low.isLt, Nat.or_zero]
  exact Nat.mod_eq_of_lt high.isLt

/-- The address of a field of `g_trap`, by its offset in `struct trap_state`. -/
def field (gTrap : BitVec 64) (offset : Nat) : BitVec 64 := gTrap + BitVec.ofNat 64 offset

/-- The doublewords of `g_trap`. -/
def InTrap (gTrap address : BitVec 64) : Prop := (address - gTrap).toNat < 64

instance (gTrap address : BitVec 64) : Decidable (InTrap gTrap address) :=
  inferInstanceAs (Decidable (_ < _))

/-- `expected_cause` and `expected_stval`, at 28 and 32, are no fields of the model. -/
def readTrap (m : Mem) (gTrap : BitVec 64) : TrapState where
  scause := m (field gTrap 0)
  stval := m (field gTrap 8)
  sepc := m (field gTrap 16)
  faultCount := lowInt (m (field gTrap 24))
  handlerAction := lowInt (m (field gTrap 40))
  irqCount := highInt (m (field gTrap 40))
  timerIrqCount := lowInt (m (field gTrap 48))
  softIrqCount := highInt (m (field gTrap 48))
  lastIrqCause := m (field gTrap 56)

/-- Memory after an effect of the handler. -/
def storeEffect (gTrap : BitVec 64) (m : Mem) : SEffect → Mem
  | .trapRecord scause stval sepc =>
      ((m.store (field gTrap 0) scause).store (field gTrap 8) stval).store (field gTrap 16) sepc
  | .count .fault =>
      let word := m (field gTrap 24)
      m.store (field gTrap 24) (ints (lowInt word + 1) (highInt word))
  | .count .irq =>
      let word := m (field gTrap 40)
      m.store (field gTrap 40) (ints (lowInt word) (highInt word + 1))
  | .count .timerIrq =>
      let word := m (field gTrap 48)
      m.store (field gTrap 48) (ints (lowInt word + 1) (highInt word))
  | .count .softIrq =>
      let word := m (field gTrap 48)
      m.store (field gTrap 48) (ints (lowInt word) (highInt word + 1))
  | .lastIrqCause value => m.store (field gTrap 56) value
  | .storePte address value => m.store address value
  | _ => m

section
variable {m : Mem} {gTrap : BitVec 64}

theorem inTrap_field (gTrap : BitVec 64) {offset : Nat} (inside : offset < 64) :
    InTrap gTrap (field gTrap offset) := by
  have small := gTrap.isLt
  rw [InTrap, field, BitVec.toNat_sub, BitVec.toNat_add, BitVec.toNat_ofNat]
  omega

theorem field_ne (gTrap : BitVec 64) {i j : Nat} (hi : i < 64) (hj : j < 64) (apart : i ≠ j) :
    field gTrap i ≠ field gTrap j := by
  intro same
  have small := gTrap.isLt
  have address := congrArg BitVec.toNat same
  rw [field, field, BitVec.toNat_add, BitVec.toNat_add, BitVec.toNat_ofNat,
    BitVec.toNat_ofNat] at address
  omega

theorem outside_field {address : BitVec 64} (outside : ¬ InTrap gTrap address) {offset : Nat}
    (inside : offset < 64) : address ≠ field gTrap offset := by
  rintro rfl
  exact outside (inTrap_field gTrap inside)

/-- A field of `g_trap` after a store to another one. -/
theorem store_field (value : BitVec 64) {i j : Nat} (hi : i < 64) (hj : j < 64) (apart : j ≠ i) :
    m.store (field gTrap i) value (field gTrap j) = m (field gTrap j) :=
  Mem.store_other _ _ _ _ (field_ne gTrap hj hi apart)

/-- A store elsewhere does not show in `g_trap`. -/
theorem readTrap_store {address : BitVec 64} (value : BitVec 64)
    (outside : ¬ InTrap gTrap address) :
    readTrap (m.store address value) gTrap = readTrap m gTrap := by
  have other : ∀ offset, offset < 64 →
      m.store address value (field gTrap offset) = m (field gTrap offset) := by
    intro offset inside
    exact Mem.store_other _ _ _ _ (outside_field outside inside).symm
  simp only [readTrap, other 0 (by omega), other 8 (by omega), other 16 (by omega),
    other 24 (by omega), other 40 (by omega), other 48 (by omega), other 56 (by omega)]

/-- In memory the effects do to `g_trap` what they do to its record. -/
theorem readTrap_storeEffect {effect : SEffect}
    (apart : ∀ address value, effect = .storePte address value → ¬ InTrap gTrap address) :
    readTrap (storeEffect gTrap m effect) gTrap = recordEffect (readTrap m gTrap) effect := by
  cases effect with
  | trapRecord scause stval sepc =>
    unfold storeEffect readTrap recordEffect
    simp (disch := omega) only [store_field, Mem.store_same]
  | count counter =>
    unfold storeEffect readTrap recordEffect
    cases counter <;>
      simp (disch := omega) only [store_field, Mem.store_same, lowInt_ints, highInt_ints]
  | lastIrqCause value =>
    unfold storeEffect readTrap recordEffect
    simp (disch := omega) only [store_field, Mem.store_same]
  | storePte address value => exact readTrap_store value (apart address value rfl)
  | ecall | csrcSip | out | testFail | frameSepc | fence | sfenceVma => rfl

/-- Outside `g_trap` and its own entry an effect stores nothing. -/
theorem storeEffect_other {effect : SEffect} {address : BitVec 64}
    (outside : ¬ InTrap gTrap address)
    (apart : ∀ entry value, effect = .storePte entry value → address ≠ entry) :
    storeEffect gTrap m effect address = m address := by
  have other : ∀ (m : Mem) (value : BitVec 64) (offset : Nat), offset < 64 →
      m.store (field gTrap offset) value address = m address := by
    intro m value offset inside
    exact Mem.store_other _ _ _ _ (outside_field outside inside)
  cases effect with
  | trapRecord scause stval sepc =>
    exact (other _ sepc 16 (by decide)).trans
      ((other _ stval 8 (by decide)).trans (other m scause 0 (by decide)))
  | count counter =>
    cases counter with
    | fault => exact other m _ 24 (by decide)
    | irq => exact other m _ 40 (by decide)
    | timerIrq => exact other m _ 48 (by decide)
    | softIrq => exact other m _ 48 (by decide)
  | lastIrqCause value => exact other m value 56 (by decide)
  | storePte entry value => exact Mem.store_other _ _ _ _ (apart entry value rfl)
  | ecall | csrcSip | out | testFail | frameSepc | fence | sfenceVma => rfl

end

end ZephyrRiscv.PageFaults
