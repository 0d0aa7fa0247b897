import ZephyrRiscv.Sv39

set_option autoImplicit false

/- The kernel's Sv39 tables (arch/riscv/core/mmu.c). Everything is identity-mapped,
so a pointer to a table is its physical address. -/
namespace ZephyrRiscv.Mmu

open Sv39

/-- Build-time constants. The pool is one 4 KB page a table and an object of the image, so it
is not at NULL; the image starts on a page of RAM, and RAM lies above the device gigabyte. The
flag values are those of the generic memory-management layer. -/
structure Config where
  numTables : Nat
  mmuTables : BitVec 64
  zMappedStart : BitVec 64
  zMappedEnd : BitVec 64
  K_MEM_PERM_RW : BitVec 32
  K_MEM_PERM_EXEC : BitVec 32
  K_MEM_PERM_USER : BitVec 32
  tablesNotNull : mmuTables ≠ 0
  tablesAligned : mmuTables.toNat % 4096 = 0
  tablesPhysical : mmuTables.toNat + 4096 * numTables ≤ 2 ^ 56
  imageAligned : zMappedStart.toNat % 4096 = 0
  imageInRam : 2 ^ 30 ≤ zMappedStart.toNat
  imageOrdered : zMappedStart.toNat ≤ zMappedEnd.toNat
  imageCanonical : zMappedEnd.toNat ≤ 2 ^ 38

/-- `mmu_tables[i]`. -/
def Config.table (cfg : Config) (i : Nat) : BitVec 64 :=
  cfg.mmuTables + BitVec.ofNat 64 (4096 * i)

/-- A read or write of a word as a page-table entry, with the used flags it found. -/
structure Access where
  address : BitVec 64
  mmuTableUsed : Nat → Bool

/-- A table that `alloc_table` returned, with the root and memory at its return. -/
structure Grant where
  table : BitVec 64
  kernelRoot : BitVec 64
  mem : Mem

/-- The static state of mmu.c, memory and `satp`. `touched` and `granted` are ghosts,
newest first: every access to a page-table entry, and every table allocated. -/
structure MmuState where
  mem : Mem
  mmuTableUsed : Nat → Bool
  kernelRoot : BitVec 64
  satp : BitVec 64
  touched : List Access
  granted : List Grant

/-- The ghost record of an access. -/
def MmuState.touch (s : MmuState) (pte : BitVec 64) : MmuState :=
  { s with touched := ⟨pte, s.mmuTableUsed⟩ :: s.touched }

/-- `*pte = value`. -/
def MmuState.writePte (s : MmuState) (pte value : BitVec 64) : MmuState :=
  { s with mem := s.mem.store pte value, touched := ⟨pte, s.mmuTableUsed⟩ :: s.touched }

/-- How a call can fail to return: `k_panic`, a failed assertion, or a loop
whose counter wraps to zero before it reaches its bound. -/
inductive Stop where
  | panic (s : MmuState)
  | assertion (s : MmuState)
  | spin

def PT_ENTRIES : Nat := 512
def SV39_LEVELS : Nat := 3
def SATP_MODE_SV39 : BitVec 64 := 8

/-- A whole table of zero doublewords. -/
def clearTable (m : Mem) (table : BitVec 64) : Mem :=
  fun a => if (a - table).toNat < 8 * PT_ENTRIES then 0 else m a

def allocTable (cfg : Config) (s : MmuState) : Except Stop (BitVec 64 × MmuState) :=
  match (List.range cfg.numTables).find? fun i => !s.mmuTableUsed i with
  | some i =>
      let mem := clearTable s.mem (cfg.table i)
      .ok (cfg.table i, { s with
        mem
        mmuTableUsed := fun j => if j = i then true else s.mmuTableUsed j
        granted := ⟨cfg.table i, s.kernelRoot, mem⟩ :: s.granted })
  | none => .error (.panic s)

/-- The descent of `map_page` and `z_riscv_mmu_map_raw` through `steps` levels above
`level`. Only V is tested: a valid entry is followed whatever its R, W and X say. -/
def walkDown (cfg : Config) (va : BitVec 64) (level : Nat) :
    Nat → BitVec 64 → MmuState → Except Stop (BitVec 64 × MmuState)
  | 0, tbl, s => .ok (tbl, s)
  | steps + 1, tbl, s =>
      let pte := slot tbl (vpn va (level + steps + 1))
      let s := s.touch pte
      if s.mem pte &&& PTE_V = 0#64 then
        match allocTable cfg s with
        | .error stop => .error stop
        | .ok (next, s) =>
            let s := s.writePte pte (physToPpn next ||| PTE_V)
            walkDown cfg va level steps (pteToPhys (s.mem pte)) s
      else
        walkDown cfg va level steps (pteToPhys (s.mem pte)) s

def mapPage (cfg : Config) (va pa perm : BitVec 64) (s : MmuState) : Except Stop MmuState :=
  match walkDown cfg va 0 (SV39_LEVELS - 1) s.kernelRoot s with
  | .error stop => .error stop
  | .ok (tbl, s) =>
      .ok (s.writePte (slot tbl (vpn va 0)) (physToPpn pa ||| (perm ||| PTE_V ||| PTE_A ||| PTE_D)))

def mapGigapage (va pa perm : BitVec 64) (s : MmuState) : MmuState :=
  s.writePte (slot s.kernelRoot (vpn va 2))
    (physToPpn pa ||| (perm ||| PTE_V ||| PTE_A ||| PTE_D))

/-- `unmap_page` from a table of the given level. -/
def unmapFrom (va : BitVec 64) : Nat → BitVec 64 → MmuState → MmuState
  | 0, tbl, s => s.writePte (slot tbl (vpn va 0)) 0#64
  | level + 1, tbl, s =>
      let pte := slot tbl (vpn va (level + 1))
      let s := s.touch pte
      if s.mem pte &&& PTE_V = 0#64 then s
      else if s.mem pte &&& PTE_XWR ≠ 0#64 then s.writePte pte 0#64
      else unmapFrom va level (pteToPhys (s.mem pte)) s

def unmapPage (va : BitVec 64) (s : MmuState) : MmuState :=
  unmapFrom va (SV39_LEVELS - 1) s.kernelRoot s

def permFromFlags (cfg : Config) (flags : BitVec 32) : BitVec 64 :=
  PTE_R
    ||| (if flags &&& cfg.K_MEM_PERM_RW ≠ 0#32 then PTE_W else 0#64)
    ||| (if flags &&& cfg.K_MEM_PERM_EXEC ≠ 0#32 then PTE_X else 0#64)
    ||| (if flags &&& cfg.K_MEM_PERM_USER ≠ 0#32 then PTE_U else 0#64)

/-- The number of pages a byte count reaches into. -/
def pageCount (size : BitVec 64) : Nat := (size.toNat + 4095) / 4096

/-- `for (off = 0; off < size; off += PAGE_SIZE_4K)` over the page index. -/
def forPages (size : BitVec 64) (body : MmuState → Nat → Except Stop MmuState) (s : MmuState) :
    Except Stop MmuState :=
  if 2 ^ 64 - 4096 < size.toNat then .error .spin
  else (List.range (pageCount size)).foldlM body s

/-- The address `i` pages above another. -/
def pageAfter (base : BitVec 64) (i : Nat) : BitVec 64 := base + BitVec.ofNat 64 (4096 * i)

def archMemMap (cfg : Config) (virt phys size : BitVec 64) (flags : BitVec 32) (s : MmuState) :
    Except Stop MmuState :=
  forPages size
    (fun s i => mapPage cfg (pageAfter virt i) (pageAfter phys i) (permFromFlags cfg flags) s) s

def archMemUnmap (addr size : BitVec 64) (s : MmuState) : Except Stop MmuState :=
  forPages size (fun s i => .ok (unmapPage (pageAfter addr i) s)) s

def zRiscvMmuMapRaw (cfg : Config) (va pa pteBits : BitVec 64) (level : Nat) (s : MmuState) :
    Except Stop MmuState :=
  if level < SV39_LEVELS ∧ va.toNat % (4096 * 512 ^ level) = 0 ∧
      pa.toNat % (4096 * 512 ^ level) = 0 then
    match walkDown cfg va level (SV39_LEVELS - 1 - level) s.kernelRoot s with
    | .error stop => .error stop
    | .ok (tbl, s) => .ok (s.writePte (slot tbl (vpn va level)) (physToPpn pa ||| pteBits))
  else .error (.assertion s)

def zRiscvMmuInit (cfg : Config) (s : MmuState) : Except Stop MmuState :=
  match allocTable cfg s with
  | .error stop => .error stop
  | .ok (root, s) =>
      let s := mapGigapage 0#64 0#64 (PTE_R ||| PTE_W) { s with kernelRoot := root }
      match forPages (cfg.zMappedEnd - cfg.zMappedStart) (fun s i =>
          mapPage cfg (pageAfter cfg.zMappedStart i) (pageAfter cfg.zMappedStart i)
            (PTE_R ||| PTE_W ||| PTE_X) s) s with
      | .error stop => .error stop
      | .ok s => .ok { s with satp := SATP_MODE_SV39 <<< 60 ||| s.kernelRoot >>> 12 }

/-- The static data before `z_riscv_mmu_init`, over any memory. -/
structure AtReset (s : MmuState) : Prop where
  unused : ∀ i, s.mmuTableUsed i = false
  rootNull : s.kernelRoot = 0#64
  untouched : s.touched = []
  ungranted : s.granted = []

/-- A state that `z_riscv_mmu_init` returns in. -/
def Booted (cfg : Config) (s : MmuState) : Prop :=
  ∃ reset, AtReset reset ∧ zRiscvMmuInit cfg reset = .ok s

/-- The calls a run is made of. -/
inductive Call where
  | memMap (virt phys size : BitVec 64) (flags : BitVec 32)
  | memUnmap (addr size : BitVec 64)
  | mapRaw (va pa pteBits : BitVec 64) (level : Nat)

def Call.exec (cfg : Config) (s : MmuState) : Call → Except Stop MmuState
  | .memMap virt phys size flags => archMemMap cfg virt phys size flags s
  | .memUnmap addr size => archMemUnmap addr size s
  | .mapRaw va pa pteBits level => zRiscvMmuMapRaw cfg va pa pteBits level s

/-- A call that returns. -/
def Returns (cfg : Config) (s : MmuState) (call : Call) (s' : MmuState) : Prop :=
  call.exec cfg s = .ok s'

end ZephyrRiscv.Mmu
