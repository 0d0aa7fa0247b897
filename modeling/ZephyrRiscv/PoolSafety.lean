import ZephyrRiscv.SuiteTables

set_option autoImplicit false

namespace ZephyrRiscv.Pt

open Sv39 Mmu RadixForest Tables

/-- The operations on the pool. -/
inductive PoolCall where
  | reset
  | allocPage
  | setupIdentityKernel
  | mapPage (root va pa perm : BitVec 64) (valid : Bool)

def ptReset (s : PtState) : PtState := { s with ptPoolNextPage := 0 }

def PoolCall.exec (pool : Pool) (s : PtState) : PoolCall → PtState
  | .reset => ptReset s
  | .allocPage => (ptAllocPage pool s).2
  | .setupIdentityKernel => (ptSetupIdentityKernel pool s).2
  | .mapPage root va pa perm valid => ptMapPage pool root va pa perm valid s

/-- A table as `pt_alloc_page` handed it out, and memory around its zeroing loop. -/
structure Obtained where
  table : BitVec 64
  before : Mem
  after : Mem

def obtain (pool : Pool) (s : PtState) : Obtained :=
  ⟨(ptAllocPage pool s).1, s.mem, (ptAllocPage pool s).2.mem⟩

/-- The tables that one step of a descent obtains. -/
def obtainedFor (pool : Pool) (pte : BitVec 64) (s : PtState) : List Obtained :=
  if s.mem pte &&& PTE_V = 0#64 then [obtain pool s] else []

def PoolCall.obtained (pool : Pool) (s : PtState) : PoolCall → List Obtained
  | .reset => []
  | .allocPage | .setupIdentityKernel => [obtain pool s]
  | .mapPage root va _ _ _ =>
      let next := ptNextTable pool (slot root (vpn va 2)) s
      obtainedFor pool (slot root (vpn va 2)) s ++
        obtainedFor pool (slot next.1 (vpn va 1)) next.2

/-- The tables since the last reset, and all of them, oldest first. -/
structure PoolHistory where
  state : PtState
  current : List Obtained
  all : List Obtained

def PoolHistory.step (pool : Pool) (h : PoolHistory) (call : PoolCall) : PoolHistory where
  state := call.exec pool h.state
  current :=
    match call with
    | .reset => []
    | _ => h.current ++ call.obtained pool h.state
  all := h.all ++ call.obtained pool h.state

/-- The calls of a program from the start, when no page has been handed out. -/
def poolRun (pool : Pool) (m : Mem) (calls : List PoolCall) : PoolHistory :=
  calls.foldl (PoolHistory.step pool) ⟨⟨m, 0⟩, [], []⟩

def Pool.endOfPool (pool : Pool) : Nat := pool.pageTableStart.toNat + 4096 * pool.pages

/-- The tables in use are zeroed pages of the pool, apart from each other, and no zeroing
loop ever left the pool. -/
structure PoolSafe (pool : Pool) (h : PoolHistory) : Prop where
  inside : ∀ g ∈ h.current, pool.pageTableStart.toNat ≤ g.table.toNat ∧
    g.table.toNat + 4096 ≤ pool.endOfPool
  zeroed : ∀ g ∈ h.current, ∀ k, g.after (slot g.table k) = 0#64
  disjoint : h.current.Pairwise fun g g' =>
    g.table.toNat + 4096 ≤ g'.table.toNat ∨ g'.table.toNat + 4096 ≤ g.table.toNat
  confined : ∀ g ∈ h.all, ∀ a, (a - g.table).toNat < 8 * PT_ENTRIES →
    pool.pageTableStart.toNat ≤ a.toNat ∧ a.toNat < pool.endOfPool

/-- The tables that a call lacks. A blank page put under its own entry already ends in a
valid one. -/
def PoolCall.lacks (pool : Pool) (s : PtState) : PoolCall → Nat
  | .reset => 0
  | .allocPage | .setupIdentityKernel => 1
  | .mapPage root va _ _ _ =>
      let pte := slot root (vpn va 2)
      if s.mem pte &&& PTE_V = 0#64 then
        if slot (pool.page s.ptPoolNextPage) (vpn va 1) = pte then 1 else 2
      else if s.mem (slot (pteToPhys (s.mem pte)) (vpn va 1)) &&& PTE_V = 0#64 then 1
      else 0

/-- The pool has a page for every table that a call lacks. -/
def PoolCall.HasRoom (pool : Pool) (s : PtState) (call : PoolCall) : Prop :=
  s.ptPoolNextPage + call.lacks pool s ≤ pool.pages

/-- Every call of a program finds room. -/
def RoomThroughout (pool : Pool) : PtState → List PoolCall → Prop
  | _, [] => True
  | s, call :: calls => call.HasRoom pool s ∧ RoomThroughout pool (call.exec pool s) calls

instance (pool : Pool) (s : PtState) (call : PoolCall) : Decidable (call.HasRoom pool s) :=
  inferInstanceAs (Decidable (_ ≤ _))

def RoomThroughout.decidable (pool : Pool) :
    (s : PtState) → (calls : List PoolCall) → Decidable (RoomThroughout pool s calls)
  | _, [] => isTrue trivial
  | s, call :: calls =>
      have := RoomThroughout.decidable pool (call.exec pool s) calls
      inferInstanceAs (Decidable (call.HasRoom pool s ∧ RoomThroughout pool _ calls))

instance (pool : Pool) (s : PtState) (calls : List PoolCall) :
    Decidable (RoomThroughout pool s calls) := RoomThroughout.decidable pool s calls

/-- Zeroed pages of the pool, one after the other. -/
structure Consecutive (pool : Pool) (first : Nat) (gs : List Obtained) : Prop where
  tables : gs.map Obtained.table = (List.range' first gs.length).map pool.page
  cleared : ∀ g ∈ gs, g.after = clearTable g.before g.table

theorem Consecutive.nil (pool : Pool) (first : Nat) : Consecutive pool first [] :=
  ⟨rfl, fun _ member => absurd member List.not_mem_nil⟩

theorem Consecutive.append {pool : Pool} {first : Nat} {gs gs' : List Obtained}
    (front : Consecutive pool first gs) (rest : Consecutive pool (first + gs.length) gs') :
    Consecutive pool first (gs ++ gs') := by
  constructor
  · rw [List.map_append, List.length_append, front.tables, rest.tables, ← List.map_append,
      List.range'_append_1]
  · intro g member
    obtain old | new := List.mem_append.mp member
    · exact front.cleared g old
    · exact rest.cleared g new

theorem obtain_consecutive (pool : Pool) (s : PtState) :
    Consecutive pool s.ptPoolNextPage [obtain pool s] := by
  refine ⟨rfl, fun g member => ?_⟩
  rw [List.mem_singleton.mp member]
  rfl

theorem obtainedFor_spec (pool : Pool) (pte : BitVec 64) (s : PtState) :
    Consecutive pool s.ptPoolNextPage (obtainedFor pool pte s) ∧
      (ptNextTable pool pte s).2.ptPoolNextPage =
        s.ptPoolNextPage + (obtainedFor pool pte s).length := by
  rw [obtainedFor, ptNextTable]
  split
  · exact ⟨obtain_consecutive pool s, rfl⟩
  · exact ⟨Consecutive.nil pool _, rfl⟩

/-- A call hands out the next pages, and the counter counts them. -/
theorem PoolCall.obtained_spec (pool : Pool) (s : PtState) (call : PoolCall) :
    Consecutive pool s.ptPoolNextPage (call.obtained pool s) ∧
      (call ≠ .reset →
        (call.exec pool s).ptPoolNextPage = s.ptPoolNextPage + (call.obtained pool s).length) := by
  cases call with
  | reset => exact ⟨Consecutive.nil pool _, fun other => absurd rfl other⟩
  | allocPage => exact ⟨obtain_consecutive pool s, fun _ => rfl⟩
  | setupIdentityKernel => exact ⟨obtain_consecutive pool s, fun _ => rfl⟩
  | mapPage root va pa perm valid =>
      obtain ⟨first, counted⟩ := obtainedFor_spec pool (slot root (vpn va 2)) s
      obtain ⟨second, counted'⟩ := obtainedFor_spec pool
        (slot (ptNextTable pool (slot root (vpn va 2)) s).1 (vpn va 1))
        (ptNextTable pool (slot root (vpn va 2)) s).2
      rw [counted] at second counted'
      refine ⟨first.append second, fun _ => ?_⟩
      rw [PoolCall.obtained, List.length_append, ← Nat.add_assoc]
      exact counted'

/-- The entry of a blank page is not valid unless the link to the page lies there. -/
theorem linked_blank (pool : Pool) {s : PtState} {pte : BitVec 64} (k : BitVec 9)
    (invalid : s.mem pte &&& PTE_V = 0#64) (inside : s.ptPoolNextPage < pool.pages) :
    let next := ptNextTable pool pte s
    (obtainedFor pool (slot next.1 k) next.2).length =
      if slot (pool.page s.ptPoolNextPage) k = pte then 0 else 1 := by
  obtain ⟨-, physical, -⟩ := page_geometry pool inside
  intro next
  have linked : next = _ := ptNextTable_invalid invalid inside
  by_cases own : slot (pool.page s.ptPoolNextPage) k = pte
  · have value : next.2.mem (slot next.1 k) = physToPpn (pool.page s.ptPoolNextPage) ||| PTE_V := by
      rw [linked, own]
      exact Mem.store_same ..
    have valid : ¬ next.2.mem (slot next.1 k) &&& PTE_V = 0#64 := by
      rw [value, and_PTE_V, getLsbD_physToPpn_or _ _ 0 (by omega)]
      decide
    rw [obtainedFor, if_neg valid, if_pos own, List.length_nil]
  · have value : next.2.mem (slot next.1 k) = 0#64 := by
      rw [linked]
      exact (Mem.store_other _ _ _ _ own).trans (clearTable_blank s.mem physical k)
    rw [obtainedFor, value, if_pos BitVec.zero_and, if_neg own, List.length_singleton]

/-- With a counter inside the pool a call has room when its pages do. -/
theorem PoolCall.hasRoom_iff {pool : Pool} {s : PtState} (call : PoolCall)
    (inside : s.ptPoolNextPage ≤ pool.pages) :
    call.HasRoom pool s ↔ s.ptPoolNextPage + (call.obtained pool s).length ≤ pool.pages := by
  rw [PoolCall.HasRoom]
  cases call with
  | reset => exact Iff.rfl
  | allocPage => exact Iff.rfl
  | setupIdentityKernel => exact Iff.rfl
  | mapPage root va pa perm valid =>
      rw [PoolCall.lacks, PoolCall.obtained, List.length_append]
      by_cases invalid : s.mem (slot root (vpn va 2)) &&& PTE_V = 0#64
      · have first : (obtainedFor pool (slot root (vpn va 2)) s).length = 1 := by
          rw [obtainedFor, if_pos invalid, List.length_singleton]
        rw [if_pos invalid, first]
        by_cases room : s.ptPoolNextPage < pool.pages
        · rw [linked_blank pool (vpn va 1) invalid room]
          split <;> omega
        · split <;> omega
      · have first : (obtainedFor pool (slot root (vpn va 2)) s).length = 0 := by
          rw [obtainedFor, if_neg invalid, List.length_nil]
        rw [if_neg invalid, first, ptNextTable_valid invalid, obtainedFor]
        dsimp only
        split
        · rw [List.length_singleton]
        · rw [List.length_nil]

/-- A history inside the pool: the tables in use are its first pages. -/
structure Tracked (pool : Pool) (h : PoolHistory) : Prop where
  current : Consecutive pool 0 h.current
  counted : h.state.ptPoolNextPage = h.current.length
  room : h.state.ptPoolNextPage ≤ pool.pages
  pages : ∀ g ∈ h.all, ∃ i < pool.pages, g.table = pool.page i

theorem Consecutive.mem {pool : Pool} {first : Nat} {gs : List Obtained}
    (consecutive : Consecutive pool first gs) {g : Obtained} (member : g ∈ gs) :
    ∃ i, first ≤ i ∧ i < first + gs.length ∧ g.table = pool.page i := by
  have listed := List.mem_map_of_mem (f := Obtained.table) member
  rw [consecutive.tables] at listed
  obtain ⟨i, range, same⟩ := List.mem_map.mp listed
  rw [List.mem_range'_1] at range
  exact ⟨i, range.1, range.2, same.symm⟩

theorem Tracked.safe {pool : Pool} {h : PoolHistory} (tracked : Tracked pool h) :
    PoolSafe pool h := by
  have bounds : ∀ i < pool.pages, (pool.page i).toNat = pool.pageTableStart.toNat + 4096 * i :=
    fun i inside => page_toNat pool inside
  have room : h.current.length ≤ pool.pages := tracked.counted ▸ tracked.room
  have page : ∀ g ∈ h.current, ∃ i < pool.pages, g.table = pool.page i := by
    intro g member
    obtain ⟨i, -, below, same⟩ := tracked.current.mem member
    exact ⟨i, by omega, same⟩
  constructor
  · intro g member
    obtain ⟨i, below, same⟩ := page g member
    rw [same, bounds i below, Pool.endOfPool]
    omega
  · intro g member k
    obtain ⟨i, below, same⟩ := page g member
    rw [tracked.current.cleared g member]
    apply clearTable_blank
    rw [same]
    exact (page_geometry pool below).2.1
  · have apart : (List.range' 0 h.current.length).Pairwise fun i j =>
        (pool.page i).toNat + 4096 ≤ (pool.page j).toNat ∨
          (pool.page j).toNat + 4096 ≤ (pool.page i).toNat := by
      rw [List.pairwise_iff_getElem]
      intro i j below below' order
      rw [List.length_range'] at below below'
      simp only [List.getElem_range', Nat.zero_add, Nat.one_mul]
      rw [bounds i (by omega), bounds j (by omega)]
      omega
    have tables : ((List.range' 0 h.current.length).map pool.page).Pairwise fun t t' =>
        t.toNat + 4096 ≤ t'.toNat ∨ t'.toNat + 4096 ≤ t.toNat := List.pairwise_map.mpr apart
    rw [← tracked.current.tables] at tables
    exact List.pairwise_map.mp tables
  · intro g member a written
    obtain ⟨i, below, same⟩ := tracked.pages g member
    have base := bounds i below
    have physical := pool.physical
    rw [same, BitVec.toNat_sub, base, PT_ENTRIES] at written
    rw [Pool.endOfPool]
    have small := a.isLt
    omega

theorem Tracked.step {pool : Pool} {h : PoolHistory} {call : PoolCall} (tracked : Tracked pool h)
    (room : call.HasRoom pool h.state) : Tracked pool (h.step pool call) := by
  obtain ⟨obtained, counted⟩ := call.obtained_spec pool h.state
  rw [call.hasRoom_iff tracked.room] at room
  have pages : ∀ g ∈ h.all ++ call.obtained pool h.state,
      ∃ i < pool.pages, g.table = pool.page i := by
    intro g member
    obtain old | new := List.mem_append.mp member
    · exact tracked.pages g old
    · obtain ⟨i, -, below, same⟩ := obtained.mem new
      exact ⟨i, by omega, same⟩
  cases call with
  | reset => exact ⟨Consecutive.nil pool 0, rfl, Nat.zero_le _, pages⟩
  | allocPage | setupIdentityKernel | mapPage =>
      have counted := counted (by nofun)
      refine ⟨tracked.current.append ?_, ?_, Nat.le_trans (Nat.le_of_eq counted) room, pages⟩
      · rw [Nat.zero_add, ← tracked.counted]
        exact obtained
      · rw [tracked.counted, ← List.length_append] at counted
        exact counted

/-- A call without room zeroes the page behind the pool. -/
theorem Tracked.overflow {pool : Pool} {h : PoolHistory} {call : PoolCall}
    (tracked : Tracked pool h) (full : ¬ call.HasRoom pool h.state) :
    ∃ g ∈ (h.step pool call).all, g.table = pool.page pool.pages := by
  obtain ⟨obtained, -⟩ := call.obtained_spec pool h.state
  rw [call.hasRoom_iff tracked.room, Nat.not_le] at full
  have room := tracked.room
  have last : pool.page pool.pages ∈ (call.obtained pool h.state).map Obtained.table := by
    rw [obtained.tables]
    exact List.mem_map_of_mem (List.mem_range'_1.mpr ⟨room, full⟩)
  obtain ⟨g, member, same⟩ := List.mem_map.mp last
  exact ⟨g, List.mem_append_right _ member, same⟩

theorem all_kept (pool : Pool) (calls : List PoolCall) {h : PoolHistory} {g : Obtained}
    (member : g ∈ h.all) : g ∈ (calls.foldl (PoolHistory.step pool) h).all := by
  induction calls generalizing h with
  | nil => exact member
  | cons call calls ih => exact ih (List.mem_append_left _ member)

/-- The page behind the pool is none of its pages. -/
theorem PoolSafe.below {pool : Pool} {h : PoolHistory} (safe : PoolSafe pool h) {g : Obtained}
    (member : g ∈ h.all) : g.table ≠ pool.page pool.pages := by
  intro same
  have physical := pool.physical
  have first := (safe.confined g member g.table (by
    rw [BitVec.sub_self, PT_ENTRIES]
    decide)).2
  rw [same, Pool.page, Pool.endOfPool, BitVec.toNat_add, BitVec.toNat_ofNat] at first
  omega

theorem Tracked.safe_iff {pool : Pool} (calls : List PoolCall) {h : PoolHistory}
    (tracked : Tracked pool h) :
    PoolSafe pool (calls.foldl (PoolHistory.step pool) h) ↔ RoomThroughout pool h.state calls := by
  induction calls generalizing h with
  | nil => exact iff_of_true tracked.safe trivial
  | cons call calls ih =>
      by_cases room : call.HasRoom pool h.state
      · have rest := ih (tracked.step room)
        exact rest.trans (and_iff_right room).symm
      · refine iff_of_false (fun safe => ?_) fun throughout => room throughout.1
        obtain ⟨g, member, same⟩ := tracked.overflow room
        exact safe.below (all_kept pool calls member) same

theorem Tracked.start (pool : Pool) (m : Mem) : Tracked pool ⟨⟨m, 0⟩, [], []⟩ :=
  ⟨Consecutive.nil pool 0, rfl, Nat.zero_le _, fun _ member => absurd member List.not_mem_nil⟩

/-- The pool is safe through a program exactly when every call finds room in it. -/
theorem pool_safe_iff (pool : Pool) (m : Mem) (calls : List PoolCall) :
    PoolSafe pool (poolRun pool m calls) ↔ RoomThroughout pool ⟨m, 0⟩ calls :=
  (Tracked.start pool m).safe_iff calls

/-- The identity map, and then a page in each of some gigabytes. -/
def gigabytePages (root : BitVec 64) (count : Nat) : List PoolCall :=
  .setupIdentityKernel :: (List.range count).map fun i =>
    .mapPage root (0xC0000000 + BitVec.ofNat 64 (0x40000000 * i)) 0x80000000 PTE_R true

example : RoomThroughout linkerPool ⟨fun _ => 0, 0⟩ (gigabytePages 0x80010000 3) := by
  decide +kernel

/-- Pages in four gigabytes take two tables each, beside the root: one more than the
linker script reserves. -/
theorem fourth_gigabyte_overflows :
    ¬ ∀ (pool : Pool) (m : Mem) (calls : List PoolCall), PoolSafe pool (poolRun pool m calls) := by
  intro always
  have overflow : ¬ RoomThroughout linkerPool ⟨fun _ => 0, 0⟩ (gigabytePages 0x80010000 4) := by
    decide +kernel
  have safe := always linkerPool (fun _ => 0) (gigabytePages 0x80010000 4)
  exact overflow (((Tracked.start linkerPool _).safe_iff _).mp safe)

end ZephyrRiscv.Pt
