import ZephyrRiscv.MmuTables
import ZephyrRiscv.RadixForest
import ZephyrRiscv.Transition

set_option autoImplicit false

namespace ZephyrRiscv.Mmu

open Sv39 RadixForest

/-- A table of the pool whose used flag is set. -/
def HandedOut (cfg : Config) (s : MmuState) (t : BitVec 64) : Prop :=
  ∃ i, i < cfg.numTables ∧ s.mmuTableUsed i = true ∧ t = cfg.table i

/-- The table a valid entry without R, W and X points to. -/
def child (pte : BitVec 64) : Option (BitVec 64) :=
  if pte &&& PTE_V ≠ 0#64 ∧ pte &&& PTE_XWR = 0#64 then some (pteToPhys pte) else none

def present (pte : BitVec 64) : Bool := decide (pte &&& PTE_V ≠ 0#64)

def MmuState.words (s : MmuState) (t : BitVec 64) (k : BitVec 9) : BitVec 64 := s.mem (slot t k)

/-- The tables that links lead to from a root, with their levels. -/
inductive TableAt (m : Mem) (root : BitVec 64) : Nat → BitVec 64 → Prop
  | root (set : root ≠ 0#64) : TableAt m root 2 root
  | link {l : Nat} {t c : BitVec 64} {k : BitVec 9} (above : TableAt m root (l + 1) t)
      (linked : child (m (slot t k)) = some c) : TableAt m root l c

/-- Nothing is reachable before the root is set. -/
theorem TableAt.not_null {m : Mem} {l : Nat} {t : BitVec 64} (reached : TableAt m 0#64 l t) :
    False := by
  induction reached with
  | root set => exact set rfl
  | link _ _ ih => exact ih

/-- An allocated table is zero and no link leads to it yet. -/
def Grant.Fresh (grant : Grant) : Prop :=
  (∀ k, grant.mem (slot grant.table k) = 0#64) ∧
    ∀ l, ¬ TableAt grant.mem grant.kernelRoot l grant.table

/-- The indices of an address, from the root down. -/
def keys (va : BitVec 64) : List (BitVec 9) := [vpn va 2, vpn va 1, vpn va 0]

/-- The indices above the table that holds the entry of the given level. -/
def pathTo (va : BitVec 64) (level : Nat) : List (BitVec 9) := (keys va).take (2 - level)

/-- The level and value of the valid entry that a descent for an address ends in. -/
def MmuState.leafAt (s : MmuState) (va : BitVec 64) : Option (Nat × BitVec 64) :=
  leaf child present s.words s.kernelRoot (keys va)

@[simp] theorem touch_mem (s : MmuState) (a : BitVec 64) : (s.touch a).mem = s.mem := rfl
@[simp] theorem touch_kernelRoot (s : MmuState) (a : BitVec 64) :
    (s.touch a).kernelRoot = s.kernelRoot := rfl
@[simp] theorem touch_words (s : MmuState) (a : BitVec 64) : (s.touch a).words = s.words := rfl
@[simp] theorem touch_leafAt (s : MmuState) (a va : BitVec 64) :
    (s.touch a).leafAt va = s.leafAt va := rfl
@[simp] theorem touch_handedOut (cfg : Config) (s : MmuState) (a : BitVec 64) :
    HandedOut cfg (s.touch a) = HandedOut cfg s := rfl
@[simp] theorem writePte_kernelRoot (s : MmuState) (a v : BitVec 64) :
    (s.writePte a v).kernelRoot = s.kernelRoot := rfl
@[simp] theorem writePte_handedOut (cfg : Config) (s : MmuState) (a v : BitVec 64) :
    HandedOut cfg (s.writePte a v) = HandedOut cfg s := rfl
@[simp] theorem writePte_own (s : MmuState) (t v : BitVec 64) (k : BitVec 9) :
    (s.writePte (slot t k) v).words t k = v := by
  simp only [MmuState.words, MmuState.writePte, Mem.store_same]

theorem table_toNat (cfg : Config) {i : Nat} (inside : i < cfg.numTables) :
    (cfg.table i).toNat = cfg.mmuTables.toNat + 4096 * i := by
  have physical := cfg.tablesPhysical
  rw [Config.table, BitVec.toNat_add, BitVec.toNat_ofNat]
  omega

theorem table_geometry (cfg : Config) {i : Nat} (inside : i < cfg.numTables) :
    (cfg.table i).toNat % 4096 = 0 ∧ (cfg.table i).toNat + 4096 ≤ 2 ^ 56 := by
  have base := cfg.tablesAligned
  have bound := cfg.tablesPhysical
  rw [table_toNat cfg inside]
  omega

theorem HandedOut.aligned {cfg : Config} {s : MmuState} {t : BitVec 64}
    (out : HandedOut cfg s t) : t.toNat % 4096 = 0 := by
  obtain ⟨i, inside, -, rfl⟩ := out
  exact (table_geometry cfg inside).1

theorem HandedOut.physical {cfg : Config} {s : MmuState} {t : BitVec 64}
    (out : HandedOut cfg s t) : t.toNat + 4096 ≤ 2 ^ 56 := by
  obtain ⟨i, inside, -, rfl⟩ := out
  exact (table_geometry cfg inside).2

/-- No table word sits at address 0. -/
theorem HandedOut.slot_ne_null {cfg : Config} {s : MmuState} {t : BitVec 64}
    (out : HandedOut cfg s t) (k : BitVec 9) : slot t k ≠ 0 := by
  have physical := out.physical
  obtain ⟨i, inside, -, rfl⟩ := out
  have base : cfg.mmuTables.toNat ≠ 0 := fun zero => cfg.tablesNotNull (BitVec.eq_of_toNat_eq zero)
  have address := table_toNat cfg inside
  intro null
  have zero : (slot (cfg.table i) k).toNat = 0 := congrArg BitVec.toNat null
  rw [slot_toNat _ _ (by omega)] at zero
  omega

/-- Distinct table words sit at distinct addresses. -/
theorem slot_injective {cfg : Config} {s s' : MmuState} {t t' : BitVec 64} {k k' : BitVec 9}
    (out : HandedOut cfg s t) (out' : HandedOut cfg s' t') (same : slot t k = slot t' k') :
    t = t' ∧ k = k' := by
  have equal := congrArg BitVec.toNat same
  have physical := out.physical
  have physical' := out'.physical
  rw [slot_toNat t k (by omega), slot_toNat t' k' (by omega)] at equal
  have aligned := out.aligned
  have aligned' := out'.aligned
  have small := k.isLt
  have small' := k'.isLt
  exact ⟨BitVec.eq_of_toNat_eq (by omega), BitVec.eq_of_toNat_eq (by omega)⟩

theorem writePte_off {cfg : Config} {s : MmuState} {t v : BitVec 64} {k : BitVec 9}
    (out : HandedOut cfg s t) (m : BitVec 64) (j : BitVec 9) (outM : HandedOut cfg s m)
    (other : ¬ (m = t ∧ j = k)) : (s.writePte (slot t k) v).words m j = s.words m j := by
  apply Mem.store_other
  intro same
  exact other (slot_injective outM out same)

theorem child_eq_some {pte c : BitVec 64} :
    child pte = some c ↔
      pte &&& PTE_V ≠ 0#64 ∧ pte &&& PTE_XWR = 0#64 ∧ pteToPhys pte = c := by
  simp only [child]
  split <;> simp_all

theorem child_eq_none {pte : BitVec 64} :
    child pte = none ↔ (pte &&& PTE_V ≠ 0#64 → pte &&& PTE_XWR ≠ 0#64) := by
  simp only [child]
  split <;> simp_all

theorem child_invalid {pte : BitVec 64} (invalid : pte &&& PTE_V = 0#64) : child pte = none :=
  child_eq_none.mpr fun valid => absurd invalid valid

theorem present_invalid {pte : BitVec 64} (invalid : pte &&& PTE_V = 0#64) :
    present pte = false := by
  simp only [present, invalid, ne_eq, not_true_eq_false, decide_false]

theorem child_zero : child 0#64 = none ∧ present 0#64 = false :=
  ⟨child_invalid (by decide), present_invalid (by decide)⟩

/-- The entry `alloc_table`'s caller builds links to the new table. -/
theorem child_link {t : BitVec 64} (aligned : t.toNat % 4096 = 0) (physical : t.toNat < 2 ^ 56) :
    child (physToPpn t ||| PTE_V) = some t := by
  refine child_eq_some.mpr ⟨?_, ?_, pteToPhys_physToPpn_or t PTE_V physical (by decide) aligned⟩
  · rw [ne_eq, and_PTE_V, getLsbD_physToPpn_or t PTE_V 0 (by omega)]
    decide
  · rw [and_PTE_XWR, getLsbD_physToPpn_or t PTE_V 1 (by omega),
      getLsbD_physToPpn_or t PTE_V 2 (by omega), getLsbD_physToPpn_or t PTE_V 3 (by omega)]
    decide

/-- What a successful `alloc_table` changes: one fresh table, cleared. -/
structure Allocated (cfg : Config) (s : MmuState) (t : BitVec 64) (s' : MmuState) : Prop where
  fresh : ¬ HandedOut cfg s t
  handedOut : ∀ m, HandedOut cfg s' m ↔ HandedOut cfg s m ∨ m = t
  blank : ∀ k, s'.words t k = 0#64
  off : ∀ m k, HandedOut cfg s m → s'.words m k = s.words m k
  kernelRoot : s'.kernelRoot = s.kernelRoot
  satp : s'.satp = s.satp
  touched : s'.touched = s.touched
  granted : s'.granted = ⟨t, s'.kernelRoot, s'.mem⟩ :: s.granted

theorem allocTable_spec {cfg : Config} {s s' : MmuState} {t : BitVec 64}
    (allocated : allocTable cfg s = .ok (t, s')) : Allocated cfg s t s' := by
  unfold allocTable at allocated
  split at allocated
  · rename_i i found
    obtain ⟨unused, inside⟩ := List.find?_eq_some_iff_append.mp found
    have member := List.mem_of_find?_eq_some found
    rw [List.mem_range] at member
    simp only [Bool.not_eq_eq_eq_not, Bool.not_true] at unused
    simp only [Except.ok.injEq, Prod.mk.injEq] at allocated
    obtain ⟨rfl, rfl⟩ := allocated
    obtain ⟨aligned, physical⟩ := table_geometry cfg member
    have distinct : ∀ m, HandedOut cfg s m → m ≠ cfg.table i := by
      rintro m ⟨j, insideJ, used, rfl⟩ same
      have equal := congrArg BitVec.toNat same
      rw [table_toNat cfg insideJ, table_toNat cfg member] at equal
      rw [show j = i by omega, unused] at used
      cases used
    refine ⟨fun out => distinct _ out rfl, ?_, ?_, ?_, rfl, rfl, rfl, rfl⟩
    · intro m
      constructor
      · rintro ⟨j, insideJ, used, rfl⟩
        by_cases same : j = i
        · exact Or.inr (by rw [same])
        · simp only [same, ↓reduceIte] at used
          exact Or.inl ⟨j, insideJ, used, rfl⟩
      · rintro (⟨j, insideJ, used, rfl⟩ | rfl)
        · exact ⟨j, insideJ, by simp [used], rfl⟩
        · exact ⟨i, member, by simp, rfl⟩
    · intro k
      have small := k.isLt
      have inRange : (slot (cfg.table i) k - cfg.table i).toNat < 8 * PT_ENTRIES := by
        rw [BitVec.toNat_sub, slot_toNat _ k (by omega), PT_ENTRIES]
        omega
      simp only [MmuState.words, clearTable, inRange, ↓reduceIte, BitVec.ofNat_eq_ofNat]
    · intro m k out
      have physicalM := out.physical
      have alignedM := out.aligned
      have small := k.isLt
      have apart : m.toNat ≠ (cfg.table i).toNat :=
        fun same => distinct m out (BitVec.eq_of_toNat_eq same)
      have outside : ¬ (slot m k - cfg.table i).toNat < 8 * PT_ENTRIES := by
        rw [BitVec.toNat_sub, slot_toNat m k (by omega), PT_ENTRIES]
        omega
      simp only [MmuState.words, clearTable, outside, ↓reduceIte]
  · cases allocated

/-- The handed-out tables form a forest under a root of level 2, and every link is
exactly a page number with V. The forest includes tables no longer linked. -/
structure Shape (cfg : Config) (s : MmuState) (level : BitVec 64 → Nat) : Prop where
  root : HandedOut cfg s s.kernelRoot
  rootLevel : level s.kernelRoot = 2
  bounded : ∀ {t}, HandedOut cfg s t → level t ≤ 2
  forest : Forest child s.words level (HandedOut cfg s)
  exact : ∀ {t k c}, HandedOut cfg s t → 0 < level t → child (s.words t k) = some c →
    s.words t k = physToPpn c ||| PTE_V

/-- An access to a word of a table that was handed out by then. -/
def Access.Confined (cfg : Config) (access : Access) : Prop :=
  ∃ i k, i < cfg.numTables ∧ access.mmuTableUsed i = true ∧ access.address = slot (cfg.table i) k

/-- The root and the handed-out tables stay, and every new access is confined. -/
structure Extends (cfg : Config) (s s' : MmuState) : Prop where
  kernelRoot : s'.kernelRoot = s.kernelRoot
  satp : s'.satp = s.satp
  handedOut : ∀ t, HandedOut cfg s t → HandedOut cfg s' t
  touched : ∀ a ∈ s'.touched, a ∈ s.touched ∨ a.Confined cfg
  granted : ∀ g ∈ s'.granted, g ∈ s.granted ∨ g.Fresh

theorem Extends.refl (cfg : Config) (s : MmuState) : Extends cfg s s :=
  ⟨rfl, rfl, fun _ out => out, fun _ old => Or.inl old, fun _ old => Or.inl old⟩

theorem Extends.trans {cfg : Config} {s s' s'' : MmuState} (first : Extends cfg s s')
    (second : Extends cfg s' s'') : Extends cfg s s'' := by
  refine ⟨second.kernelRoot.trans first.kernelRoot, second.satp.trans first.satp,
    fun t out => second.handedOut t (first.handedOut t out), ?_, ?_⟩
  · intro a member
    rcases second.touched a member with old | new
    · exact first.touched a old
    · exact Or.inr new
  · intro g member
    rcases second.granted g member with old | new
    · exact first.granted g old
    · exact Or.inr new

theorem Extends.touch {cfg : Config} {s : MmuState} {t : BitVec 64} {k : BitVec 9}
    (out : HandedOut cfg s t) : Extends cfg s (s.touch (slot t k)) := by
  obtain ⟨i, inside, used, rfl⟩ := out
  refine ⟨rfl, rfl, fun _ out => out, ?_, fun _ old => Or.inl old⟩
  intro a member
  rcases List.mem_cons.mp member with rfl | old
  · exact Or.inr ⟨i, k, inside, used, rfl⟩
  · exact Or.inl old

theorem Extends.writePte {cfg : Config} {s : MmuState} {t v : BitVec 64} {k : BitVec 9}
    (out : HandedOut cfg s t) : Extends cfg s (s.writePte (slot t k) v) := by
  obtain ⟨i, inside, used, rfl⟩ := out
  refine ⟨rfl, rfl, fun _ out => out, ?_, fun _ old => Or.inl old⟩
  intro a member
  rcases List.mem_cons.mp member with rfl | old
  · exact Or.inr ⟨i, k, inside, used, rfl⟩
  · exact Or.inl old

/-- Links lead to handed-out tables only. -/
theorem Shape.tableAt {cfg : Config} {s : MmuState} {level : BitVec 64 → Nat}
    (shape : Shape cfg s level) {l : Nat} {t : BitVec 64}
    (reached : TableAt s.mem s.kernelRoot l t) : HandedOut cfg s t ∧ level t = l := by
  induction reached with
  | root _ => exact ⟨shape.root, shape.rootLevel⟩
  | link _ linked ih =>
      obtain ⟨out, down⟩ := shape.forest.linked ih.1 (by omega) linked
      exact ⟨out, by omega⟩

/-- Zeroing a fresh table changes no link that leads anywhere. -/
theorem Allocated.fresh_grant {cfg : Config} {s s' : MmuState} {t : BitVec 64}
    {level : BitVec 64 → Nat} (allocated : Allocated cfg s t s') (shape : Shape cfg s level) :
    Grant.Fresh ⟨t, s'.kernelRoot, s'.mem⟩ := by
  refine ⟨allocated.blank, ?_⟩
  have old : ∀ {l m}, TableAt s'.mem s'.kernelRoot l m → TableAt s.mem s.kernelRoot l m := by
    intro l m reached
    induction reached with
    | root set =>
        rw [allocated.kernelRoot] at set ⊢
        exact .root set
    | @link l t c k _ linked ih =>
        have same := allocated.off t k (shape.tableAt ih).1
        exact .link ih ((congrArg child same).symm.trans linked)
  intro l reached
  exact allocated.fresh (shape.tableAt (old reached)).1

theorem Allocated.extends {cfg : Config} {s s' : MmuState} {t : BitVec 64}
    {level : BitVec 64 → Nat} (allocated : Allocated cfg s t s') (shape : Shape cfg s level) :
    Extends cfg s s' := by
  refine ⟨allocated.kernelRoot, allocated.satp,
    fun m out => (allocated.handedOut m).mpr (Or.inl out),
    fun _ member => Or.inl (allocated.touched ▸ member), ?_⟩
  intro g member
  rw [allocated.granted] at member
  rcases List.mem_cons.mp member with rfl | old
  · exact Or.inr (allocated.fresh_grant shape)
  · exact Or.inl old

theorem pathTo_succ (va : BitVec 64) {l : Nat} (bound : l + 1 ≤ 2) :
    pathTo va l = pathTo va (l + 1) ++ [vpn va (l + 1)] := by
  rcases (by omega : l = 0 ∨ l = 1) with rfl | rfl <;> rfl

theorem keys_split (va : BitVec 64) {l : Nat} (bound : l ≤ 2) :
    ∃ rest, rest.length = l ∧ keys va = pathTo va l ++ vpn va l :: rest := by
  rcases (by omega : l = 0 ∨ l = 1 ∨ l = 2) with rfl | rfl | rfl <;> exact ⟨_, rfl, rfl⟩

theorem pathTo_length (va : BitVec 64) {l : Nat} (bound : l ≤ 2) :
    (pathTo va l).length + l = 2 := by
  rcases (by omega : l = 0 ∨ l = 1 ∨ l = 2) with rfl | rfl | rfl <;> rfl

/-- The table a descent has reached at a level. -/
def MmuState.At (s : MmuState) (va : BitVec 64) (l : Nat) (t : BitVec 64) : Prop :=
  descend child s.words s.kernelRoot (pathTo va l) = some t

theorem Shape.at_live {cfg : Config} {s : MmuState} {level : BitVec 64 → Nat}
    (shape : Shape cfg s level) {va t : BitVec 64} {l : Nat} (bound : l ≤ 2)
    (here : s.At va l t) : HandedOut cfg s t ∧ level t = l := by
  have length := pathTo_length va bound
  have total := shape.forest.descend_live shape.root (by rw [shape.rootLevel]; omega) here
  rw [shape.rootLevel] at total
  exact ⟨total.1, by omega⟩

/-- A descent that stops at an entry which is not a link. -/
theorem leafAt_stop {s : MmuState} {va t : BitVec 64} {l : Nat} (bound : l ≤ 2)
    (here : s.At va l t) (ends : 0 < l → child (s.words t (vpn va l)) = none) :
    s.leafAt va =
      if present (s.words t (vpn va l)) then some (l, s.words t (vpn va l)) else none := by
  obtain ⟨rest, length, split⟩ := keys_split va bound
  have found : find child s.words s.kernelRoot (keys va) = some (l, s.words t (vpn va l)) := by
    rw [split, find_through (by simp) here]
    cases rest with
    | nil => rw [← length]; rfl
    | cons k rest => rw [find_cons (by simp), ends (by rw [← length]; simp), length]
  simp only [MmuState.leafAt, leaf, found, Option.filter_some]

/-- Linking a newly allocated table into an invalid entry of the path. -/
theorem Shape.link {cfg : Config} {s s' : MmuState} {level : BitVec 64 → Nat}
    (shape : Shape cfg s level) {va t next : BitVec 64} {l : Nat} (bound : l + 1 ≤ 2)
    (here : s.At va (l + 1) t) (invalid : s.words t (vpn va (l + 1)) &&& PTE_V = 0#64)
    (allocated : Allocated cfg s next s') :
    let linked := s'.writePte (slot t (vpn va (l + 1))) (physToPpn next ||| PTE_V)
    Shape cfg linked (Function.update level next l) ∧ linked.At va l next ∧
      (∀ a, linked.leafAt a = s.leafAt a) ∧ Extends cfg s linked := by
  intro linked
  obtain ⟨outT, levelT⟩ := shape.at_live bound here
  have outNext : HandedOut cfg s' next := (allocated.handedOut next).mpr (Or.inr rfl)
  have outT' : HandedOut cfg s' t := (allocated.handedOut t).mpr (Or.inl outT)
  have apart : next ≠ t := fun same => allocated.fresh (same ▸ outT)
  have linkWord : child (physToPpn next ||| PTE_V) = some next :=
    child_link outNext.aligned (by have := outNext.physical; omega)
  have own : linked.words t (vpn va (l + 1)) = physToPpn next ||| PTE_V := writePte_own ..
  have off : ∀ m j, HandedOut cfg s m → ¬ (m = t ∧ j = vpn va (l + 1)) →
      linked.words m j = s.words m j := by
    intro m j outM other
    rw [← allocated.off m j outM]
    exact writePte_off outT' m j ((allocated.handedOut m).mpr (Or.inl outM)) other
  have blank : ∀ j, linked.words next j = 0#64 := by
    intro j
    rw [← allocated.blank j]
    exact writePte_off outT' next j outNext (fun same => apart same.1)
  have live : HandedOut cfg linked = fun m => HandedOut cfg s m ∨ m = next :=
    funext fun m => propext (allocated.handedOut m)
  have rootSame : linked.kernelRoot = s.kernelRoot := allocated.kernelRoot
  have rootApart : s.kernelRoot ≠ next := fun same => allocated.fresh (same ▸ shape.root)
  have pathBound : (pathTo va (l + 1)).length ≤ level s.kernelRoot := by
    have := pathTo_length va bound
    rw [shape.rootLevel]
    omega
  have grown := shape.forest.graft outT (by omega) allocated.fresh off (own ▸ linkWord)
    (fun j => by rw [blank j]; exact child_zero.1)
  rw [levelT, Nat.add_sub_cancel, ← live] at grown
  refine ⟨⟨?_, ?_, ?_, grown, ?_⟩, ?_, ?_, ?_⟩
  · rw [rootSame, live]
    exact Or.inl shape.root
  · rw [rootSame, Function.update_of_ne rootApart, shape.rootLevel]
  · intro m outM
    rw [live] at outM
    rcases outM with outM | rfl
    · have apartM : m ≠ next := fun same => allocated.fresh (same ▸ outM)
      rw [Function.update_of_ne apartM]
      exact shape.bounded outM
    · rw [Function.update_self]
      omega
  · intro m k c outM positive isLink
    rw [live] at outM
    rcases outM with outM | rfl
    · have apartM : m ≠ next := fun same => allocated.fresh (same ▸ outM)
      rw [Function.update_of_ne apartM] at positive
      by_cases same : m = t ∧ k = vpn va (l + 1)
      · obtain ⟨rfl, rfl⟩ := same
        rw [own] at isLink ⊢
        rw [Option.some.inj (linkWord.symm.trans isLink)]
      · rw [off m k outM same] at isLink ⊢
        exact shape.exact outM positive isLink
    · rw [blank k, child_zero.1] at isLink
      cases isLink
  · have kept := shape.forest.descend_own shape.root pathBound here off
    rw [MmuState.At, pathTo_succ va bound, descend_snoc, rootSame]
    exact ⟨t, kept, own ▸ linkWord⟩
  · intro a
    have same := shape.forest.leaf_graft present shape.root pathBound here
      (by omega) off ⟨child_invalid invalid, present_invalid invalid⟩ (own ▸ linkWord)
      (fun j => by rw [blank j]; exact child_zero)
      (show (keys a).length = level s.kernelRoot + 1 by rw [shape.rootLevel]; rfl)
    simpa only [MmuState.leafAt, rootSame] using same
  · exact (allocated.extends shape).trans (Extends.writePte outT')

/-- What a descent to a level leaves behind: nothing is mapped or unmapped. -/
structure Descended (cfg : Config) (s : MmuState) (va : BitVec 64) (l : Nat) (t : BitVec 64)
    (s' : MmuState) (level : BitVec 64 → Nat) : Prop where
  shape : Shape cfg s' level
  here : s'.At va l t
  leaves : ∀ a, s'.leafAt a = s.leafAt a
  grown : Extends cfg s s'

/-- The path of an address meets no valid leaf above a level. -/
def MmuState.Clear (s : MmuState) (va : BitVec 64) (level : Nat) : Prop :=
  ∀ l pte, s.leafAt va = some (l, pte) → l ≤ level

instance (s : MmuState) (va : BitVec 64) (level : Nat) : Decidable (s.Clear va level) :=
  decidable_of_iff ((s.leafAt va).all (fun found => decide (found.1 ≤ level)) = true) (by
    unfold MmuState.Clear
    cases s.leafAt va with
    | none => simp
    | some found =>
        simp only [Option.all_some, decide_eq_true_eq, Option.some.injEq]
        constructor
        · rintro low l pte rfl
          exact low
        · intro clear
          exact clear found.1 found.2 rfl)

/-- On a clear path every valid entry above the target level is a link. -/
theorem MmuState.Clear.follows {s : MmuState} {va t : BitVec 64} {level l : Nat}
    (clear : s.Clear va level) (above : level < l) (bound : l ≤ 2) (here : s.At va l t)
    (valid : ¬ s.words t (vpn va l) &&& PTE_V = 0#64) :
    child (s.words t (vpn va l)) = some (pteToPhys (s.words t (vpn va l))) := by
  by_cases links : s.words t (vpn va l) &&& PTE_XWR = 0#64
  · exact child_eq_some.mpr ⟨valid, links, rfl⟩
  · have stops := leafAt_stop bound here fun _ => child_eq_none.mpr fun _ => links
    have final : present (s.words t (vpn va l)) = true := by
      simp only [present, ne_eq, valid, not_false_eq_true, decide_true]
    rw [final] at stops
    have below := clear l _ stops
    omega

theorem walkDown_valid {cfg : Config} {va tbl : BitVec 64} {level steps : Nat} {s : MmuState}
    (valid : ¬ s.words tbl (vpn va (level + steps + 1)) &&& PTE_V = 0#64) :
    walkDown cfg va level (steps + 1) tbl s =
      walkDown cfg va level steps (pteToPhys (s.words tbl (vpn va (level + steps + 1))))
        (s.touch (slot tbl (vpn va (level + steps + 1)))) := by
  rw [walkDown]
  exact if_neg valid

theorem walkDown_invalid {cfg : Config} {va tbl : BitVec 64} {level steps : Nat} {s : MmuState}
    (invalid : s.words tbl (vpn va (level + steps + 1)) &&& PTE_V = 0#64) :
    walkDown cfg va level (steps + 1) tbl s =
      match allocTable cfg (s.touch (slot tbl (vpn va (level + steps + 1)))) with
      | .error stop => .error stop
      | .ok (next, s') =>
          walkDown cfg va level steps (pteToPhys (physToPpn next ||| PTE_V))
            (s'.writePte (slot tbl (vpn va (level + steps + 1))) (physToPpn next ||| PTE_V)) := by
  rw [walkDown]
  refine (if_pos invalid).trans ?_
  cases allocTable cfg (s.touch (slot tbl (vpn va (level + steps + 1)))) with
  | error stop => rfl
  | ok allocated => simp only [MmuState.writePte, Mem.store_same]

/-- The outcome of a call that ends: a state with a property, or a stop whose state
still extends the one before. -/
def Ends (cfg : Config) (s : MmuState) {β : Type} (good : β → Prop) : Except Stop β → Prop
  | .ok result => good result
  | .error (.panic s') => Extends cfg s s'
  | .error (.assertion s') => Extends cfg s s'
  | .error .spin => False

theorem Ends.of_extends {cfg : Config} {s s' : MmuState} {β : Type} {good good' : β → Prop}
    {outcome : Except Stop β} (grown : Extends cfg s s')
    (weaker : ∀ result, good' result → good result) (ends : Ends cfg s' good' outcome) :
    Ends cfg s good outcome := by
  match outcome, ends with
  | .ok result, ends => exact weaker result ends
  | .error (.panic _), ends => exact grown.trans ends
  | .error (.assertion _), ends => exact grown.trans ends

theorem allocTable_error {cfg : Config} {s : MmuState} {stop : Stop}
    (failed : allocTable cfg s = .error stop) : stop = .panic s := by
  unfold allocTable at failed
  split at failed
  · cases failed
  · exact (Except.error.inj failed).symm

theorem walkDown_spec {cfg : Config} {va : BitVec 64} {level : Nat} (steps : Nat)
    {tbl : BitVec 64} {s : MmuState} {lvl : BitVec 64 → Nat} (shape : Shape cfg s lvl)
    (bound : level + steps ≤ 2) (here : s.At va (level + steps) tbl) (clear : s.Clear va level) :
    Ends cfg s (fun reached => ∃ lvl', Descended cfg s va level reached.1 reached.2 lvl')
      (walkDown cfg va level steps tbl s) := by
  induction steps generalizing tbl s lvl with
  | zero => exact ⟨lvl, shape, here, fun _ => rfl, Extends.refl cfg s⟩
  | succ steps ih =>
      have outTbl := (shape.at_live bound here).1
      have touched := Extends.touch (k := vpn va (level + steps + 1)) outTbl
      have shapeT : Shape cfg (s.touch (slot tbl (vpn va (level + steps + 1)))) lvl :=
        ⟨shape.root, shape.rootLevel, shape.bounded, shape.forest, shape.exact⟩
      by_cases invalid : s.words tbl (vpn va (level + steps + 1)) &&& PTE_V = 0#64
      · rw [walkDown_invalid invalid]
        split
        · rename_i stop failed
          rw [allocTable_error failed]
          exact touched
        · rename_i next s₁ allocation
          have allocated := allocTable_spec allocation
          have outNext : HandedOut cfg s₁ next := (allocated.handedOut next).mpr (Or.inr rfl)
          rw [pteToPhys_physToPpn_or next PTE_V (by have := outNext.physical; omega) (by decide)
            outNext.aligned]
          obtain ⟨shape', here', leaves, grown⟩ :=
            shapeT.link (l := level + steps) bound here invalid allocated
          have rest := ih shape' (by omega) here'
            (fun l pte found => clear l pte ((leaves va).symm.trans found))
          refine rest.of_extends (touched.trans grown) ?_
          rintro _ ⟨lvl', descended⟩
          exact ⟨lvl', descended.shape, descended.here,
            fun a => (descended.leaves a).trans (leaves a),
            (touched.trans grown).trans descended.grown⟩
      · rw [walkDown_valid invalid]
        have here' : (s.touch (slot tbl (vpn va (level + steps + 1)))).At va (level + steps)
            (pteToPhys (s.words tbl (vpn va (level + steps + 1)))) := by
          rw [MmuState.At, pathTo_succ va (l := level + steps) bound]
          exact descend_snoc.mpr ⟨tbl, here, clear.follows (by omega) bound here invalid⟩
        refine (ih shapeT (by omega) here' clear).of_extends touched ?_
        rintro _ ⟨lvl', descended⟩
        exact ⟨lvl', descended.shape, descended.here, descended.leaves,
          touched.trans descended.grown⟩

end ZephyrRiscv.Mmu
