import ZephyrRiscv.LiveTables
import ZephyrRiscv.Tlb

set_option autoImplicit false

/- The kernel's address space (arch/riscv/core/mmu.c) as the hardware of its hart sees it
while calls change the tables. The walk reads one entry at a time, and the tables and
translations that it came to may be used again until the `sfence.vma` that ends each call. -/
namespace ZephyrRiscv.LiveTranslations

open Sv39 Mmu Tables Changeover Transition
open Tlb (pageOf onPage)

/-- A table that a walk has come to, for the addresses that share the indices above it. -/
structure Node where
  level : Nat
  region : Nat
  table : BitVec 64
deriving DecidableEq

/-- One read of a walk. -/
def readEntry (m : Mem) (node : Node) (va : BitVec 64) : Reply Node Translation :=
  let pte := m (slot node.table (vpn va node.level))
  if !pte.getLsbD 0 || (!pte.getLsbD 1 && pte.getLsbD 2) || decide (2 ^ 54 ≤ pte.toNat) then
    .fault
  else if pte.getLsbD 1 || pte.getLsbD 3 then
    match leafTranslation va node.level pte with
    | some t => .answer t
    | none => .fault
  else if pte.getLsbD 4 || pte.getLsbD 6 || pte.getLsbD 7 then .fault
  else
    match node.level with
    | 0 => .fault
    | below + 1 => .next ⟨below, page va / 512 ^ (below + 1), BitVec.ofNat 64 (ppn pte * 4096)⟩

/-- The hardware of a hart whose `satp` names a root. -/
def hardware (root : BitVec 64) : Walker Mem Node (BitVec 64) Nat Translation where
  root := ⟨2, 0, root⟩
  serves node va := Canonical va ∧ page va / 512 ^ (node.level + 1) = node.region
  read := readEntry
  key := pageOf

/-- A call on its way: the stores left, and the state it returns in. -/
structure Pending where
  call : Call
  stages : List Mem
  result : MmuState

/-- The state in which the last call returned, the calls until then, the call on its way,
and the hardware's view of memory with what it remembers. -/
structure Live where
  tables : MmuState
  calls : List Call
  pending : Option Pending
  cache : Changeover.State Mem Node Nat Translation

def Live.root (s : Live) : BitVec 64 := (s.tables.satp &&& 0x00000FFFFFFFFFFF) <<< 12

inductive Action where
  | call (call : Call)
  | store
  | sfenceVma
  | write (address value : BitVec 64)
  | walk (node : Node) (va : BitVec 64)
  | forgetNode (node : Node)
  | forgetTranslation (entry : Nat × Translation)

/-- Calls run one at a time, under the lock and with interrupts off. Between them the
kernel writes to what is not in the pool of tables. The hardware walks at any time. The words
`kernel_root` and `mmu_table_used` are no part of this memory: only mmu.c writes to them. -/
inductive Step (cfg : Config) (s : Live) : Action → Live → Prop
  | call {call : Call} {result : MmuState} (idle : s.pending = none)
      (admissible : Admissible s.tables call) (returns : Returns cfg s.tables call result) :
      Step cfg s (.call call)
        { s with pending := some ⟨call, callStages cfg s.tables call, result⟩ }
  | store {call : Call} {m : Mem} {stages : List Mem} {result : MmuState}
      (pending : s.pending = some ⟨call, m :: stages, result⟩) :
      Step cfg s .store
        { s with
          pending := some ⟨call, stages, result⟩
          cache := (hardware s.root).next s.cache (.write m) }
  | sfenceVma {call : Call} {result : MmuState} (pending : s.pending = some ⟨call, [], result⟩) :
      Step cfg s .sfenceVma
        { tables := result
          calls := s.calls ++ [call]
          pending := none
          cache := (hardware s.root).next s.cache .flush }
  | write {address value : BitVec 64} (idle : s.pending = none)
      (outside : ∀ i < cfg.numTables, ∀ k, address ≠ slot (cfg.table i) k) :
      Step cfg s (.write address value)
        { s with
          tables := { s.tables with mem := s.tables.mem.store address value }
          cache := (hardware s.root).next s.cache (.write (s.tables.mem.store address value)) }
  | walk {node : Node} {va : BitVec 64} (usable : (hardware s.root).Usable s.cache node va) :
      Step cfg s (.walk node va)
        { s with cache := (hardware s.root).next s.cache (.walk node va) }
  | forgetNode {node : Node} :
      Step cfg s (.forgetNode node)
        { s with cache := (hardware s.root).next s.cache (.forgetNode node) }
  | forgetTranslation {entry : Nat × Translation} :
      Step cfg s (.forgetTranslation entry)
        { s with cache := (hardware s.root).next s.cache (.forgetAnswer entry) }

/-- `z_riscv_mmu_init` ends with the write of `satp` and a fence. -/
structure Start (cfg : Config) (s : Live) : Prop where
  booted : Booted cfg s.tables
  calls : s.calls = []
  idle : s.pending = none
  cache : s.cache = ⟨s.tables.mem, [], []⟩

/-- What an access to an address can be given: a translation, or a page fault. -/
def Live.Replies (s : Live) (va : BitVec 64) : Option Translation → Prop
  | some r => ∃ t, (hardware s.root).Sees s.cache va (some t) ∧ r = onPage t va
  | none => (hardware s.root).Sees s.cache va none

/-- The address space that the calls so far have made. -/
def Live.map (cfg : Config) (s : Live) : PageMap :=
  s.calls.foldl (PageMap.step cfg) (PageMap.boot cfg)

/-- The reply of the address space, or of the one that the call on its way is making. -/
def Live.Expects (cfg : Config) (s : Live) (va : BitVec 64) (reply : Option Translation) : Prop :=
  reply = (s.map cfg).translate va ∨
    ∃ pending, s.pending = some pending ∧
      reply = ((s.map cfg).step cfg pending.call).translate va

section
variable {m m' : Mem} {live : BitVec 64 → Prop} {root va a t : BitVec 64} {level : BitVec 64 → Nat}
  {l : Nat}

/-- A read depends on one word. -/
theorem readEntry_congr {node : Node}
    (same : m (slot node.table (vpn va node.level)) = m' (slot node.table (vpn va node.level))) :
    readEntry m node va = readEntry m' node va := by
  rw [readEntry, readEntry, same]

/-- A walk, one read after another. -/
theorem walkFrom_read (m : Mem) (va : BitVec 64) (node : Node) :
    walkFrom m va node.level node.table =
      match readEntry m node va with
      | .next onward => walkFrom m va onward.level onward.table
      | .answer t => some t
      | .fault => none := by
  obtain ⟨l, region, table⟩ := node
  rw [walkFrom.eq_def, readEntry]
  dsimp only
  generalize m (slot table (vpn va l)) = pte
  split
  · rfl
  · split
    · cases leafTranslation va l pte with
      | none => rfl
      | some t => rfl
    · split
      · rfl
      · cases l with
        | zero => rfl
        | succ below => rfl

/-- The walk from any table on the way. -/
theorem walkFrom_at (tree : TableTree m live root level) (bound : l ≤ 2)
    (here : At m root va l t) : walkFrom m va 2 root = walkFrom m va l t := by
  induction steps : 2 - l generalizing l t with
  | zero =>
      obtain rfl : l = 2 := by omega
      rw [Option.some.inj here]
  | succ n ih =>
      obtain ⟨above, reached, link⟩ := (at_succ (by omega)).mp here
      obtain ⟨out, levelAbove⟩ := tree.at_live (by omega) reached
      obtain ⟨outT, -⟩ := tree.at_live bound here
      have physical := tree.physical outT
      rw [ih (by omega) reached (by omega)]
      exact walkFrom_link (tree.exact out (by omega) link) (tree.aligned outT) (by omega)

/-- A read that goes on goes on to the next table of the tree. -/
theorem readEntry_next {node onward : Node} (tree : TableTree m live root level)
    (bound : node.level ≤ 2) (here : At m root va node.level node.table)
    (read : readEntry m node va = .next onward) :
    onward.level < node.level ∧ onward.region = page va / 512 ^ (onward.level + 1) ∧
      At m root va onward.level onward.table := by
  obtain ⟨l, region, table⟩ := node
  have shape : ∃ below, l = below + 1 ∧
      hardwareLink (m (slot table (vpn va (below + 1)))) = true ∧
      onward = ⟨below, page va / 512 ^ (below + 1),
        BitVec.ofNat 64 (ppn (m (slot table (vpn va (below + 1)))) * 4096)⟩ := by
    rw [readEntry] at read
    dsimp only at read
    split at read
    · cases read
    · rename_i sane
      split at read
      · split at read <;> cases read
      · rename_i noLeaf
        split at read
        · cases read
        · rename_i clean
          cases l with
          | zero => cases read
          | succ below =>
              refine ⟨below, rfl, ?_, (Reply.next.inj read).symm⟩
              simp only [Bool.or_eq_true, Bool.not_eq_true', Bool.and_eq_true, decide_eq_true_eq,
                not_or, not_and, Bool.not_eq_true, Bool.not_eq_false, Nat.not_le]
                at sane noLeaf clean
              have w := sane.1.2 noLeaf.1
              simp only [hardwareLink, sane.1.1, noLeaf.1, noLeaf.2, w, clean.1.1, clean.1.2,
                clean.2, sane.2, decide_true, Bool.not_false, Bool.and_self]
  obtain ⟨below, rfl, link, rfl⟩ := shape
  refine ⟨Nat.lt_succ_self below, rfl, ?_⟩
  obtain ⟨next, child⟩ := Option.ne_none_iff_exists'.mp (hardwareLink_child link)
  have low : below + 1 ≤ 2 := bound
  obtain ⟨out, levelT⟩ := tree.at_live low here
  have below' := (at_succ low).mpr ⟨table, here, child⟩
  obtain ⟨outNext, -⟩ := tree.at_live (Nat.le_of_succ_le low) below'
  have physical := tree.physical outNext
  have word : m (slot table (vpn va (below + 1))) = physToPpn next ||| PTE_V :=
    tree.exact out (by rw [levelT]; exact Nat.succ_pos below) child
  rw [word, (hardwareLink_exact (tree.aligned outNext) (by omega)).2]
  exact below'

/-- The addresses that share the indices above a level share the table. -/
theorem at_region (bound : l ≤ 2) (here : At m root va l t)
    (same : page va / 512 ^ (l + 1) = page a / 512 ^ (l + 1)) : At m root a l t := by
  obtain rfl | lower := Nat.eq_or_lt_of_le bound
  · exact here
  · obtain ⟨above, reached, link⟩ := (at_succ (by omega)).mp here
    obtain ⟨reached', index⟩ := reached.block (by omega) same
    refine (at_succ (by omega)).mpr ⟨above, reached', ?_⟩
    rw [index]
    exact link

/-- A translation of one address serves its whole page. -/
theorem walk_onPage {r : Translation} (tree : TableTree m live root level)
    (canonical : Canonical a) (same : pageOf a = pageOf va) (found : walk m root va = some r) :
    walk m root a = some (onPage r a) := by
  have canonical' : Canonical va := by
    unfold Canonical at canonical ⊢
    unfold pageOf at same
    omega
  have shared : view m root a = view m root va := by
    apply view_uniform
    exact sameBlock_mono (Nat.zero_le _) (Tlb.sameBlock_of_page same)
  rw [tree.walk_eq, if_pos canonical'] at found
  rw [tree.walk_eq, if_pos canonical, shared]
  unfold finalTranslation leafTranslation at found ⊢
  split at found
  · cases found
  · split at found
    · split at found
      · rename_i fault leaf aligned
        rw [if_neg fault, if_pos leaf, if_pos aligned, ← Option.some.inj found]
        simp only [onPage, Option.some.injEq, Translation.mk.injEq, and_true]
        unfold pageOf at same
        rw [Nat.mod_mul, Nat.mod_mul (x := va.toNat), same]
        omega
      · cases found
    · cases found

end

/-- A table that the walk of each address of its region reaches in a memory seen. -/
def GoodNode (root : BitVec 64) (seen : List Mem) (node : Node) : Prop :=
  node.level ≤ 2 ∧ ∀ va, page va / 512 ^ (node.level + 1) = node.region →
    ∃ m ∈ seen, At m root va node.level node.table

/-- A translation that each address of its page may be given. -/
def FineTranslation (expects : BitVec 64 → Option Translation → Prop) (page : Nat)
    (t : Translation) : Prop :=
  ∀ va, Canonical va → pageOf va = page → expects va (some (onPage t va))

/-- The memories that walks may have read from since the last fence. -/
structure Watched (root : BitVec 64) (expects : BitVec 64 → Option Translation → Prop)
    (seen : List Mem) (cache : Changeover.State Mem Node Nat Translation) : Prop where
  current : cache.source ∈ seen
  traceable : Traceable root seen cache.source
  rooted : ∀ m ∈ seen, Rooted root m
  expected : ∀ m ∈ seen, ∀ va, Canonical va → expects va (walk m root va)
  remembers : Remembers (GoodNode root seen) (FineTranslation expects) cache

section
variable {root : BitVec 64} {expects expects' : BitVec 64 → Option Translation → Prop}
  {seen : List Mem} {cache : Changeover.State Mem Node Nat Translation}

/-- A read at a good node is a read in a memory in which the walk comes to the node. -/
theorem Watched.read (watched : Watched root expects seen cache) {node : Node} {va : BitVec 64}
    (good : GoodNode root seen node) (serves : (hardware root).serves node va) :
    ∃ m ∈ seen, At m root va node.level node.table ∧
      readEntry cache.source node va = readEntry m node va := by
  obtain ⟨m', member', here'⟩ := good.2 va serves.2
  obtain ⟨m, member, here, word⟩ :=
    watched.traceable va node.level node.table good.1 m' member' here'
  exact ⟨m, member, here, readEntry_congr word⟩

theorem Watched.sound (watched : Watched root expects seen cache) :
    (hardware root).Sound cache.source (GoodNode root seen) (FineTranslation expects) := by
  constructor
  · refine ⟨le_refl 2, ?_⟩
    intro va _
    exact ⟨cache.source, watched.current, at_root cache.source root va⟩
  · intro node va onward good serves read
    obtain ⟨m, member, here, same⟩ := watched.read good serves
    obtain ⟨live, level, tree⟩ := watched.rooted m member
    obtain ⟨lower, region, there⟩ := readEntry_next tree good.1 here (same.symm.trans read)
    have bound := good.1
    refine ⟨by omega, ?_⟩
    intro a inside
    exact ⟨m, member, at_region (by omega) there (region.symm.trans inside.symm)⟩
  · intro node va t good serves read a canonical same
    obtain ⟨m, member, here, word⟩ := watched.read good serves
    obtain ⟨live, level, tree⟩ := watched.rooted m member
    have found : walk m root va = some t := by
      rw [walk, if_pos serves.1, walkFrom_at tree good.1 here, walkFrom_read, ← word]
      rw [show readEntry cache.source node va = .answer t from read]
    have expected := watched.expected m member a canonical
    rw [walk_onPage tree canonical same found] at expected
    exact expected

/-- A walk that faults faults in a memory seen. -/
theorem Watched.faults (watched : Watched root expects seen cache) {va : BitVec 64}
    (faults : (hardware root).Sees cache va none) : expects va none := by
  obtain ⟨node, usable, read⟩ := faults
  have good := watched.sound.usable watched.remembers usable
  obtain ⟨m, member, here, word⟩ := watched.read good usable.1
  obtain ⟨live, level, tree⟩ := watched.rooted m member
  have absent : walk m root va = none := by
    rw [walk, if_pos usable.1.1, walkFrom_at tree good.1 here, walkFrom_read, ← word]
    rw [show readEntry cache.source node va = .fault from read]
  have expected := watched.expected m member va usable.1.1
  rw [absent] at expected
  exact expected

/-- Nothing is remembered yet, and the one memory seen is as expected. -/
theorem Watched.first {m : Mem} (rooted : Rooted root m)
    (expected : ∀ va, Canonical va → expects va (walk m root va)) :
    Watched root expects [m] ⟨m, [], []⟩ := by
  refine ⟨List.mem_cons_self, ?_, ?_, ?_, ?_⟩
  · intro va l t _ m' member here
    rw [List.mem_singleton.mp member] at here
    exact ⟨m, List.mem_cons_self, here, rfl⟩
  · intro m' member
    rw [List.mem_singleton.mp member]
    exact rooted
  · intro m' member
    rw [List.mem_singleton.mp member]
    exact expected
  · exact ⟨fun _ member => absurd member List.not_mem_nil,
      fun _ member => absurd member List.not_mem_nil⟩

theorem Watched.mono (watched : Watched root expects seen cache)
    (weaker : ∀ va reply, expects va reply → expects' va reply) :
    Watched root expects' seen cache := by
  refine ⟨watched.current, watched.traceable, watched.rooted, ?_, ?_⟩
  · exact fun m member va canonical => weaker va _ (watched.expected m member va canonical)
  · apply watched.remembers.mono fun _ good => good
    intro page t fine va canonical same
    exact weaker va _ (fine va canonical same)

/-- One more memory is seen. -/
theorem Watched.store {m : Mem} (watched : Watched root expects seen cache)
    (traceable : Traceable root (seen ++ [m]) m) (rooted : Rooted root m)
    (expected : ∀ va, Canonical va → expects va (walk m root va)) :
    Watched root expects (seen ++ [m]) ((hardware root).next cache (.write m)) := by
  refine ⟨List.mem_append_right seen List.mem_cons_self, traceable, ?_, ?_, ?_⟩
  · intro m' member
    obtain old | new := List.mem_append.mp member
    · exact watched.rooted m' old
    · rw [List.mem_singleton.mp new]
      exact rooted
  · intro m' member
    obtain old | new := List.mem_append.mp member
    · exact watched.expected m' old
    · rw [List.mem_singleton.mp new]
      exact expected
  · refine ⟨?_, watched.remembers.answers⟩
    intro node member
    obtain ⟨bound, reached⟩ := watched.remembers.nodes node member
    refine ⟨bound, ?_⟩
    intro va inside
    obtain ⟨m', old, here⟩ := reached va inside
    exact ⟨m', List.mem_append_left [m] old, here⟩

end

/-- The state with one doubleword of memory changed. -/
def wrote (s : MmuState) (address value : BitVec 64) : MmuState :=
  { s with mem := s.mem.store address value }

/-- A write outside the pool leaves the tables and every walk of them. -/
structure Untouched (cfg : Config) (s s' : MmuState) : Prop where
  planted : Planted cfg s → Planted cfg s'
  view : Planted cfg s → s'.view = s.view
  keeps : Planted cfg s → Keeps s.kernelRoot s.mem s'.mem
  refines : ∀ map, Planted cfg s → Refines cfg s map → Refines cfg s' map

theorem wrote_untouched {cfg : Config} {address : BitVec 64}
    (outside : ∀ i < cfg.numTables, ∀ k, address ≠ slot (cfg.table i) k) (s : MmuState)
    (value : BitVec 64) : Untouched cfg s (wrote s address value) := by
  have same : ∀ t k, HandedOut cfg s t →
      words (s.mem.store address value) t k = words s.mem t k := by
    rintro t k ⟨i, inside, -, rfl⟩
    exact Mem.store_other _ _ _ _ (outside i inside k).symm
  have view : Planted cfg s → (wrote s address value).view = s.view := by
    rintro ⟨level, tree⟩
    exact (tree.frame same).2
  refine ⟨?_, view, ?_, ?_⟩
  · rintro ⟨level, tree⟩
    exact ⟨level, (tree.frame same).1⟩
  · rintro ⟨level, tree⟩ va l t bound here
    exact tree.at_frame same bound here
  · intro map planted refines
    have leaves : ∀ va, (wrote s address value).leafAt va = s.leafAt va := by
      intro va
      rw [MmuState.leafAt_view, MmuState.leafAt_view, view planted]
    refine ⟨?_, ?_, ?_⟩
    · obtain ⟨level, shape⟩ := refines.shaped
      have tree : TableTree s.mem (HandedOut cfg s) s.kernelRoot level :=
        ⟨shape.root, shape.rootLevel, fun out => out.aligned, fun out => out.physical,
          shape.forest, shape.exact⟩
      obtain ⟨kept, -⟩ := tree.frame same
      exact ⟨level, shape.root, shape.rootLevel, shape.bounded, kept.forest, kept.exact⟩
    · intro va
      rw [leaves]
      exact refines.leaves va
    · intro va final
      rw [leaves]
      exact refines.formed va final

/-- A call on its way, with the memories that it has been through. -/
structure Busy (cfg : Config) (s : Live) (p : Pending) (early : List Mem) : Prop where
  admissible : Admissible s.tables p.call
  returns : Returns cfg s.tables p.call p.result
  stages : callStages cfg s.tables p.call = early ++ p.stages
  source : s.cache.source = early.getLastD s.tables.mem
  watched : Watched s.root (s.Expects cfg) (s.tables.mem :: early) s.cache

/-- What every run keeps. -/
structure Kept (cfg : Config) (s : Live) : Prop where
  planted : Planted cfg s.tables
  refines : Refines cfg s.tables (s.map cfg)
  root : s.root = s.tables.kernelRoot
  idle : s.pending = none → Watched s.root (s.Expects cfg) [s.tables.mem] s.cache
  busy : ∀ p, s.pending = some p → ∃ early, Busy cfg s p early

variable {cfg : Config} {s s' : Live}

/-- Whatever is done to the cache alone. -/
theorem Kept.cached (kept : Kept cfg s) {cache : Changeover.State Mem Node Nat Translation}
    (source : cache.source = s.cache.source)
    (remembers : ∀ seen, Watched s.root (s.Expects cfg) seen s.cache →
      Remembers (GoodNode s.root seen) (FineTranslation (s.Expects cfg)) cache) :
    Kept cfg { s with cache } := by
  have watched : ∀ seen, Watched s.root (s.Expects cfg) seen s.cache →
      Watched s.root (s.Expects cfg) seen cache := by
    intro seen before
    refine ⟨?_, ?_, before.rooted, before.expected, remembers seen before⟩
    · rw [source]
      exact before.current
    · rw [source]
      exact before.traceable
  refine ⟨kept.planted, kept.refines, kept.root, fun idle => watched _ (kept.idle idle), ?_⟩
  intro p pending
  obtain ⟨early, busy⟩ := kept.busy p pending
  exact ⟨early, busy.admissible, busy.returns, busy.stages, source.trans busy.source,
    watched _ busy.watched⟩

theorem Kept.call {call : Call} {result : MmuState} (kept : Kept cfg s) (idle : s.pending = none)
    (admissible : Admissible s.tables call) (returns : Returns cfg s.tables call result) :
    Kept cfg { s with pending := some ⟨call, callStages cfg s.tables call, result⟩ } := by
  refine ⟨kept.planted, kept.refines, kept.root, fun none => (by cases none), ?_⟩
  intro p pending
  obtain rfl := Option.some.inj pending
  have watched := kept.idle idle
  refine ⟨[], admissible, returns, rfl, List.mem_singleton.mp watched.current, ?_⟩
  apply watched.mono
  rintro va reply (old | ⟨p, busy, -⟩)
  · exact Or.inl old
  · rw [idle] at busy
    cases busy

/-- At each store of a call, a walk finds what the address space gives before or after. -/
theorem Kept.store {call : Call} {m : Mem} {stages : List Mem} {result : MmuState}
    (kept : Kept cfg s) (pending : s.pending = some ⟨call, m :: stages, result⟩) :
    Kept cfg { s with
      pending := some ⟨call, stages, result⟩
      cache := (hardware s.root).next s.cache (.write m) } := by
  refine ⟨kept.planted, kept.refines, kept.root, fun none => (by cases none), ?_⟩
  intro p same
  obtain rfl := Option.some.inj same
  obtain ⟨early, busy⟩ := kept.busy _ pending
  have split : callStages cfg s.tables call = (early ++ [m]) ++ stages := by
    rw [List.append_assoc]
    exact busy.stages
  have member : m ∈ callStages cfg s.tables call := by
    rw [busy.stages]
    exact List.mem_append_right early List.mem_cons_self
  obtain ⟨-, steady⟩ := callStages_steady kept.planted busy.admissible busy.returns
  have after := step_refines kept.refines busy.admissible busy.returns
  have sameRoot := (Returns.sameRoot busy.returns).1
  rw [← kept.root] at steady sameRoot
  have traceable := steady.traceable (early ++ [m]) stages split
  rw [List.getLastD_concat] at traceable
  refine ⟨early ++ [m], busy.admissible, busy.returns, split, ?_, ?_⟩
  · rw [List.getLastD_concat]
    rfl
  · let stored : Live := { s with
      pending := some ⟨call, stages, result⟩
      cache := (hardware s.root).next s.cache (.write m) }
    have watched : Watched s.root (stored.Expects cfg) (s.tables.mem :: early) s.cache := by
      apply busy.watched.mono
      rintro va reply (old | ⟨p, same, new⟩)
      · exact Or.inl old
      · obtain rfl := Option.some.inj (pending.symm.trans same)
        exact Or.inr ⟨_, rfl, new⟩
    apply watched.store traceable (steady.rooted m member)
    intro va canonical
    have before := kept.refines.walk canonical
    have later := after.walk canonical
    rw [← kept.root] at before
    rw [sameRoot] at later
    obtain old | new := steady.switches _ (List.mem_map_of_mem member) va
    · exact Or.inl (old.trans before)
    · exact Or.inr ⟨_, rfl, new.trans later⟩

/-- The fence at the end of a call leaves one memory to walk and nothing remembered. -/
theorem Kept.sfenceVma {call : Call} {result : MmuState} (kept : Kept cfg s)
    (pending : s.pending = some ⟨call, [], result⟩) :
    Kept cfg {
      tables := result
      calls := s.calls ++ [call]
      pending := none
      cache := (hardware s.root).next s.cache .flush } := by
  obtain ⟨early, busy⟩ := kept.busy _ pending
  have whole := busy.stages
  rw [List.append_nil] at whole
  obtain ⟨planted, steady⟩ := callStages_steady kept.planted busy.admissible busy.returns
  have refines := step_refines kept.refines busy.admissible busy.returns
  obtain ⟨sameRoot, sameSatp⟩ := Returns.sameRoot busy.returns
  have source : s.cache.source = result.mem := by
    rw [busy.source, ← steady.last, whole]
  let fenced : Live := ⟨result, s.calls ++ [call], none, (hardware s.root).next s.cache .flush⟩
  have mapped : fenced.map cfg = (s.map cfg).step cfg call := by
    rw [Live.map, Live.map, List.foldl_append]
    rfl
  have root : fenced.root = result.kernelRoot := by
    rw [Live.root, show fenced.tables.satp = s.tables.satp from sameSatp, sameRoot]
    exact kept.root
  have refines' : Refines cfg fenced.tables (fenced.map cfg) := by
    rw [mapped]
    exact refines
  refine ⟨planted, refines', root, ?_, fun _ same => by cases same⟩
  intro _
  have empty : fenced.cache = ⟨result.mem, [], []⟩ := by
    rw [← source]
    rfl
  show Watched fenced.root (fenced.Expects cfg) [result.mem] fenced.cache
  rw [empty, root]
  apply Watched.first planted.rooted
  intro va canonical
  exact Or.inl (refines'.walk canonical)

theorem Kept.write {address value : BitVec 64} (kept : Kept cfg s) (idle : s.pending = none)
    (outside : ∀ i < cfg.numTables, ∀ k, address ≠ slot (cfg.table i) k) :
    Kept cfg { s with
      tables := { s.tables with mem := s.tables.mem.store address value }
      cache := (hardware s.root).next s.cache (.write (s.tables.mem.store address value)) } := by
  have untouched := wrote_untouched outside s.tables value
  have watched := kept.idle idle
  have planted := untouched.planted kept.planted
  have refines := untouched.refines _ kept.planted kept.refines
  refine ⟨planted, refines, kept.root, ?_, ?_⟩
  · intro _
    have rooted := planted.rooted
    have keeps := untouched.keeps kept.planted
    have root : (wrote s.tables address value).kernelRoot = s.root := kept.root.symm
    rw [root] at rooted
    rw [← kept.root] at keeps
    have first : Watched s.root (s.Expects cfg) [(wrote s.tables address value).mem]
        ⟨(wrote s.tables address value).mem, [], []⟩ := by
      apply Watched.first rooted
      intro va canonical
      rw [← root]
      exact Or.inl (refines.walk canonical)
    refine ⟨first.current, first.traceable, first.rooted, first.expected, ?_⟩
    refine ⟨?_, watched.remembers.answers⟩
    intro node member
    obtain ⟨bound, reached⟩ := watched.remembers.nodes node member
    refine ⟨bound, ?_⟩
    intro va inside
    obtain ⟨m, old, here⟩ := reached va inside
    rw [List.mem_singleton.mp old] at here
    exact ⟨_, List.mem_cons_self, keeps va node.level node.table bound here⟩
  · intro p pending
    rw [show s.pending = some p from pending] at idle
    cases idle

theorem step_kept {action : Action} (kept : Kept cfg s) (step : Step cfg s action s') :
    Kept cfg s' := by
  cases step with
  | call idle admissible returns => exact kept.call idle admissible returns
  | store pending => exact kept.store pending
  | sfenceVma pending => exact kept.sfenceVma pending
  | write idle outside => exact kept.write idle outside
  | @walk node va usable =>
      apply kept.cached (Walker.next_source fun _ same => by cases same)
      intro seen watched
      exact watched.sound.walk watched.remembers usable
  | @forgetNode node =>
      apply kept.cached (Walker.next_source fun _ same => by cases same)
      intro seen watched
      exact watched.remembers.forgetNode node
  | @forgetTranslation entry =>
      apply kept.cached (Walker.next_source fun _ same => by cases same)
      intro seen watched
      exact watched.remembers.forgetAnswer entry

theorem start_kept (start : Start cfg s) : Kept cfg s := by
  obtain ⟨planted, -, named⟩ := start.booted.view
  have refines := boot_refines start.booted
  have map : s.map cfg = PageMap.boot cfg := by
    rw [Live.map, start.calls]
    rfl
  rw [← map] at refines
  have root : s.root = s.tables.kernelRoot := named
  refine ⟨planted, refines, root, ?_, ?_⟩
  · intro _
    rw [start.cache, root]
    apply Watched.first planted.rooted
    intro va canonical
    exact Or.inl (refines.walk canonical)
  · intro p pending
    rw [start.idle] at pending
    cases pending

theorem run_kept {labels : List Action} (run : Run (Start cfg) (Step cfg) labels s) :
    Kept cfg s :=
  run.invariant (fun _ start => start_kept start) fun _ _ _ before step => step_kept before step

/-- Every run keeps a good cache over a list of memories that walks may have read. -/
theorem run_watched {labels : List Action} (run : Run (Start cfg) (Step cfg) labels s) :
    ∃ seen, Watched s.root (s.Expects cfg) seen s.cache := by
  have kept := run_kept run
  cases pending : s.pending with
  | none => exact ⟨_, kept.idle pending⟩
  | some p =>
      obtain ⟨early, busy⟩ := kept.busy p pending
      exact ⟨_, busy.watched⟩

/-- Between calls every access is given what the address space says; during a call, what
it says before or after the call. -/
theorem replies_expected {labels : List Action}
    (run : Run (Start cfg) (Step cfg) labels s) {va : BitVec 64} (canonical : Canonical va)
    {reply : Option Translation} (replies : s.Replies va reply) : s.Expects cfg va reply := by
  obtain ⟨seen, watched⟩ := run_watched run
  cases reply with
  | none => exact watched.faults replies
  | some r =>
      obtain ⟨t, cached, rfl⟩ := replies
      exact watched.remembers.answers _ cached va canonical rfl

theorem walk_next {node onward : Node} {va : BitVec 64}
    (usable : (hardware s.root).Usable s.cache node va)
    (read : readEntry s.cache.source node va = .next onward) :
    Step cfg s (.walk node va)
      { s with cache := { s.cache with nodes := onward :: s.cache.nodes } } := by
  have step : Step cfg s (.walk node va) _ := .walk usable
  rw [show (hardware s.root).next s.cache (.walk node va) =
    { s.cache with nodes := onward :: s.cache.nodes } by
      simp only [Walker.next, show (hardware s.root).read = readEntry from rfl, read]] at step
  exact step

theorem walk_answer {node : Node} {va : BitVec 64} {t : Translation}
    (usable : (hardware s.root).Usable s.cache node va)
    (read : readEntry s.cache.source node va = .answer t) :
    Step cfg s (.walk node va)
      { s with cache := { s.cache with answers := (pageOf va, t) :: s.cache.answers } } := by
  have step : Step cfg s (.walk node va) _ := .walk usable
  rw [show (hardware s.root).next s.cache (.walk node va) =
    { s.cache with answers := (pageOf va, t) :: s.cache.answers } by
      simp only [Walker.next, show (hardware s.root).read = readEntry from rfl, read,
        show (hardware s.root).key = pageOf from rfl]] at step
  exact step

/-- The stores left to a call, without a walk between them. -/
theorem stores_end {tables result : MmuState} {calls : List Call} {call : Call}
    {stages : List Mem} {m : Mem} {labels : List Action}
    (run : Run (Start cfg) (Step cfg) labels
      ⟨tables, calls, some ⟨call, stages, result⟩, ⟨m, [], []⟩⟩) :
    ∃ more, Run (Start cfg) (Step cfg) more
      ⟨tables, calls, some ⟨call, [], result⟩, ⟨stages.getLastD m, [], []⟩⟩ := by
  induction stages generalizing m labels with
  | nil => exact ⟨labels, run⟩
  | cons m' stages ih =>
      rw [List.getLastD_cons]
      exact ih (run.snoc (.store rfl))

/-- A call made while nothing is remembered comes to its end. -/
theorem call_ends {tables result : MmuState} {calls : List Call} {call : Call}
    {labels : List Action}
    (run : Run (Start cfg) (Step cfg) labels ⟨tables, calls, none, ⟨tables.mem, [], []⟩⟩)
    (admissible : Admissible tables call) (returns : Returns cfg tables call result) :
    ∃ more, Run (Start cfg) (Step cfg) more
      ⟨result, calls ++ [call], none, ⟨result.mem, [], []⟩⟩ := by
  obtain ⟨-, steady⟩ := callStages_steady (run_kept run).planted admissible returns
  obtain ⟨more, stored⟩ := stores_end (run.snoc (.call rfl admissible returns))
  rw [show (callStages cfg tables call).getLastD tables.mem = result.mem from steady.last] at stored
  exact ⟨_, stored.snoc (.sfenceVma rfl)⟩

/-- A page is mapped, walked to and unmapped. Before the fence the old translation and a page
fault may both be met. -/
theorem replies_expected_unmapped :
    let va : BitVec 64 := 0xC0000123
    let t : Translation := ⟨0x90000123, true, true, false, false, true, true⟩
    ∃ s : Live, (s.Replies va (some t) ∧ s.Expects smallBoard va (some t)) ∧
      s.Replies va none ∧ s.Expects smallBoard va none := by
  intro va t
  let n₂ : Node := ⟨2, 0, 0x80200000⟩
  let n₁ : Node := ⟨1, 3, 0x80204000⟩
  let n₀ : Node := ⟨0, 1536, 0x80205000⟩
  let mapping : Call := .memMap 0xC0000000 0x90000000 4096 8
  let call : Call := .memUnmap 0xC0000000 4096
  have passed : afterInit (fun s => decide (Admissible s mapping) &&
      passes (fun s => decide ((s.satp &&& 0x00000FFFFFFFFFFF) <<< 12 = 0x80200000#64 ∧
        readEntry s.mem n₂ va = .next n₁ ∧ readEntry s.mem n₁ va = .next n₀ ∧
        readEntry s.mem n₀ va = .answer t ∧
        (callStages smallBoard s call).map (fun m => readEntry m n₀ va) = [.fault]) &&
        passes (fun _ => true) (call.exec smallBoard s)) (mapping.exec smallBoard s)) = true := by
    decide +kernel
  obtain ⟨first, booted, test⟩ := afterInit_booted passed
  rw [Bool.and_eq_true, decide_eq_true_eq] at test
  obtain ⟨tables, mapped, test'⟩ := passes_ok test.2
  rw [Bool.and_eq_true, decide_eq_true_eq] at test'
  obtain ⟨⟨root, read₂, read₁, read₀, stored⟩, returned⟩ := test'
  obtain ⟨result, returns, -⟩ := passes_ok returned
  obtain ⟨m, stages, fault⟩ := List.map_eq_singleton_iff.mp stored
  have admissible : Admissible tables call := by
    refine ⟨?_, trivial, trivial, trivial⟩
    unfold call Call.Addressed
    decide
  let s₀ : Live := ⟨tables, [mapping], none, ⟨tables.mem, [], []⟩⟩
  have named : s₀.root = 0x80200000 := root
  have boot : Run (Start smallBoard) (Step smallBoard) [] ⟨first, [], none, ⟨first.mem, [], []⟩⟩ :=
    .start ⟨booted, rfl, rfl, rfl⟩
  obtain ⟨labels, run₀⟩ := call_ends boot test.1 mapped
  let s₁ : Live := ⟨tables, [mapping], none, ⟨tables.mem, [n₁], []⟩⟩
  let s₂ : Live := ⟨tables, [mapping], none, ⟨tables.mem, [n₀, n₁], []⟩⟩
  let s₃ : Live := ⟨tables, [mapping], none, ⟨tables.mem, [n₀, n₁], [(pageOf va, t)]⟩⟩
  let s₄ : Live := ⟨tables, [mapping], some ⟨call, [m], result⟩, s₃.cache⟩
  have step₁ : Step smallBoard s₀ (.walk n₂ va) s₁ :=
    walk_next ⟨⟨by decide, by decide⟩, Or.inl (by rw [named]; rfl)⟩ read₂
  have step₂ : Step smallBoard s₁ (.walk n₁ va) s₂ :=
    walk_next ⟨⟨by decide, by decide⟩, Or.inr List.mem_cons_self⟩ read₁
  have step₃ : Step smallBoard s₂ (.walk n₀ va) s₃ :=
    walk_answer ⟨⟨by decide, by decide⟩, Or.inr List.mem_cons_self⟩ read₀
  have step₄ : Step smallBoard s₃ (.call call) s₄ := by
    have called := Step.call (s := s₃) rfl admissible returns
    rw [show callStages smallBoard s₃.tables call = [m] from stages] at called
    exact called
  let s₅ : Live :=
    ⟨tables, [mapping], some ⟨call, [], result⟩, ⟨m, [n₀, n₁], [(pageOf va, t)]⟩⟩
  have step₅ : Step smallBoard s₄ .store s₅ := .store rfl
  have run₅ := ((((run₀.snoc step₁).snoc step₂).snoc step₃).snoc step₄).snoc step₅
  have stale : s₅.Replies va (some t) := ⟨t, List.mem_cons_self, by decide⟩
  have gone : s₅.Replies va none :=
    ⟨n₀, ⟨⟨by decide, by decide⟩, Or.inr List.mem_cons_self⟩, fault⟩
  have canonical : Canonical va := by decide
  exact ⟨s₅, ⟨stale, replies_expected run₅ canonical stale⟩, gone,
    replies_expected run₅ canonical gone⟩

end ZephyrRiscv.LiveTranslations
