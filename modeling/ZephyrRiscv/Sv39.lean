import Mathlib.Algebra.Group.Nat.Defs
import Mathlib.Tactic.Common

set_option autoImplicit false

namespace ZephyrRiscv.Sv39

/-- Physical memory as the doubleword at each 8-byte aligned address. -/
abbrev Mem := BitVec 64 → BitVec 64

def Mem.store (m : Mem) (address value : BitVec 64) : Mem :=
  fun a => if a = address then value else m a

@[simp] theorem Mem.store_same (m : Mem) (address value : BitVec 64) :
    m.store address value address = value := by
  simp only [Mem.store, ↓reduceIte]

theorem Mem.store_other (m : Mem) (address value a : BitVec 64) (h : a ≠ address) :
    m.store address value a = m a := by
  simp only [Mem.store, h, ↓reduceIte]

def PTE_V : BitVec 64 := 0x001
def PTE_R : BitVec 64 := 0x002
def PTE_W : BitVec 64 := 0x004
def PTE_X : BitVec 64 := 0x008
def PTE_U : BitVec 64 := 0x010
def PTE_A : BitVec 64 := 0x040
def PTE_D : BitVec 64 := 0x080

/-- R, W and X together: a valid entry with none of them links to a table. -/
def PTE_XWR : BitVec 64 := PTE_R ||| PTE_W ||| PTE_X

/-- `VPN[level]` of an address. The 9-bit width is the mask with 511. -/
def vpn (va : BitVec 64) (level : Nat) : BitVec 9 :=
  (va >>> (12 + 9 * level)).setWidth 9

/-- The address of one of the 512 doublewords of a table. -/
def slot (table : BitVec 64) (index : BitVec 9) : BitVec 64 :=
  table + 8#64 * index.setWidth 64

/-- Bits 63 to 39 repeat bit 38. -/
def Canonical (va : BitVec 64) : Prop :=
  va.toNat < 2 ^ 38 ∨ 2 ^ 64 - 2 ^ 38 ≤ va.toNat

instance (va : BitVec 64) : Decidable (Canonical va) :=
  inferInstanceAs (Decidable (_ ∨ _))

/-- The physical page number, bits 53 to 10 of an entry. -/
def ppn (pte : BitVec 64) : Nat := pte.toNat / 2 ^ 10 % 2 ^ 44

/-- What a successful walk yields: the physical address and the leaf's permission bits. -/
structure Translation where
  pa : Nat
  r : Bool
  w : Bool
  x : Bool
  u : Bool
  a : Bool
  d : Bool
deriving DecidableEq, Repr

/-- A leaf entry at a level. The low page number bits of a superpage must be zero. -/
def leafTranslation (va : BitVec 64) (level : Nat) (pte : BitVec 64) : Option Translation :=
  if ppn pte % 512 ^ level = 0 then
    some {
      pa := ppn pte * 4096 + va.toNat % (4096 * 512 ^ level)
      r := pte.getLsbD 1
      w := pte.getLsbD 2
      x := pte.getLsbD 3
      u := pte.getLsbD 4
      a := pte.getLsbD 6
      d := pte.getLsbD 7 }
  else none

/-- The page-table walk of the privileged architecture from a table of the given
level. Entries with a reserved encoding fault: W without R, any of bits 63 to 54,
and D, A or U in a link. -/
def walkFrom (m : Mem) (va : BitVec 64) (level : Nat) (table : BitVec 64) : Option Translation :=
  let pte := m (slot table (vpn va level))
  if !pte.getLsbD 0 || (!pte.getLsbD 1 && pte.getLsbD 2) || decide (2 ^ 54 ≤ pte.toNat) then
    none
  else if pte.getLsbD 1 || pte.getLsbD 3 then
    leafTranslation va level pte
  else if pte.getLsbD 4 || pte.getLsbD 6 || pte.getLsbD 7 then
    none
  else
    match level with
    | 0 => none
    | below + 1 => walkFrom m va below (BitVec.ofNat 64 (ppn pte * 4096))

/-- The walk from the root table. -/
def walk (m : Mem) (root va : BitVec 64) : Option Translation :=
  if Canonical va then walkFrom m va 2 root else none

/-- The page number of a physical address, in place in an entry. -/
def physToPpn (pa : BitVec 64) : BitVec 64 := (pa >>> 12) <<< 10

/-- The table or page base an entry points to. -/
def pteToPhys (pte : BitVec 64) : BitVec 64 := (pte >>> 10) <<< 12

theorem and_bit_eq_zero (pte : BitVec 64) (i : Nat) (inside : i < 64) :
    pte &&& BitVec.twoPow 64 i = 0#64 ↔ pte.getLsbD i = false := by
  have nonzero : BitVec.twoPow 64 i ≠ 0#64 := by
    intro zero
    have bit := congrArg (fun word : BitVec 64 => word.getLsbD i) zero
    simp [inside] at bit
  rw [BitVec.and_twoPow]
  cases pte.getLsbD i <;> simp [nonzero]

theorem and_PTE_V (pte : BitVec 64) : pte &&& PTE_V = 0#64 ↔ pte.getLsbD 0 = false :=
  and_bit_eq_zero pte 0 (by omega)

theorem and_PTE_XWR (pte : BitVec 64) :
    pte &&& PTE_XWR = 0#64 ↔
      pte.getLsbD 1 = false ∧ pte.getLsbD 2 = false ∧ pte.getLsbD 3 = false := by
  simp only [PTE_XWR, BitVec.and_or_distrib_left]
  rw [BitVec.or_eq_zero_iff, BitVec.or_eq_zero_iff, and_assoc]
  exact and_congr (and_bit_eq_zero pte 1 (by omega))
    (and_congr (and_bit_eq_zero pte 2 (by omega)) (and_bit_eq_zero pte 3 (by omega)))

theorem getLsbD_physToPpn_or (pa bits : BitVec 64) (i : Nat) (low : i < 10) :
    (physToPpn pa ||| bits).getLsbD i = bits.getLsbD i := by
  simp only [physToPpn, BitVec.getLsbD_or, BitVec.getLsbD_shiftLeft, low, decide_true,
    Bool.not_true, Bool.and_false, Bool.false_and, Bool.false_or]

theorem toNat_physToPpn_or (pa bits : BitVec 64) (physical : pa.toNat < 2 ^ 56)
    (low : bits.toNat < 2 ^ 10) :
    (physToPpn pa ||| bits).toNat = pa.toNat / 4096 * 1024 + bits.toNat := by
  have shifted : (physToPpn pa).toNat = (pa.toNat / 4096) <<< 10 := by
    simp only [physToPpn, BitVec.toNat_shiftLeft, BitVec.toNat_ushiftRight,
      Nat.shiftRight_eq_div_pow, Nat.shiftLeft_eq]
    omega
  rw [BitVec.toNat_or, shifted, ← Nat.shiftLeft_add_eq_or_of_lt low, Nat.shiftLeft_eq]

theorem ppn_physToPpn_or (pa bits : BitVec 64) (physical : pa.toNat < 2 ^ 56)
    (low : bits.toNat < 2 ^ 10) : ppn (physToPpn pa ||| bits) = pa.toNat / 4096 := by
  rw [ppn, toNat_physToPpn_or pa bits physical low]
  omega

theorem pteToPhys_physToPpn_or (pa bits : BitVec 64) (physical : pa.toNat < 2 ^ 56)
    (low : bits.toNat < 2 ^ 10) (aligned : pa.toNat % 4096 = 0) :
    pteToPhys (physToPpn pa ||| bits) = pa := by
  apply BitVec.eq_of_toNat_eq
  simp only [pteToPhys, BitVec.toNat_shiftLeft, BitVec.toNat_ushiftRight,
    Nat.shiftRight_eq_div_pow, Nat.shiftLeft_eq, toNat_physToPpn_or pa bits physical low]
  omega

theorem vpn_toNat (va : BitVec 64) (level : Nat) :
    (vpn va level).toNat = va.toNat / (4096 * 512 ^ level) % 512 := by
  have power : 2 ^ (12 + 9 * level) = 4096 * 512 ^ level := by
    rw [Nat.pow_add, Nat.pow_mul]
  simp only [vpn, BitVec.toNat_setWidth, BitVec.toNat_ushiftRight, Nat.shiftRight_eq_div_pow,
    power]

theorem slot_toNat (table : BitVec 64) (index : BitVec 9) (bound : table.toNat + 4096 ≤ 2 ^ 64) :
    (slot table index).toNat = table.toNat + 8 * index.toNat := by
  have small := index.isLt
  have scaled : (8#64 * index.setWidth 64).toNat = 8 * index.toNat := by
    simp only [BitVec.toNat_mul, BitVec.toNat_setWidth, BitVec.toNat_ofNat]
    omega
  rw [slot, BitVec.toNat_add, scaled]
  omega

end ZephyrRiscv.Sv39
