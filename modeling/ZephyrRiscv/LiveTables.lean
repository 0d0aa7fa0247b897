import ZephyrRiscv.KernelViews
import ZephyrRiscv.Changeover

set_option autoImplicit false

namespace ZephyrRiscv.Mmu

open Sv39 RadixForest Tables Changeover

/-- The first `n` words of a table cleared. -/
def clearWords (m : Mem) (table : BitVec 64) (n : Nat) : Mem :=
  fun a => if (a - table).toNat < 8 * n then 0 else m a

/-- The loop of `alloc_table` over the words of the table. -/
def allocStages (cfg : Config) (s : MmuState) : List Mem :=
  match (List.range cfg.numTables).find? fun i => !s.mmuTableUsed i with
  | some i => (List.range PT_ENTRIES).map fun j => clearWords s.mem (cfg.table i) (j + 1)
  | none => []

def walkDownStages (cfg : Config) (va : BitVec 64) (level : Nat) :
    Nat → BitVec 64 → MmuState → List Mem
  | 0, _, _ => []
  | steps + 1, tbl, s =>
      let pte := slot tbl (vpn va (level + steps + 1))
      let s := s.touch pte
      if s.mem pte &&& PTE_V = 0#64 then
        allocStages cfg s ++
          match allocTable cfg s with
          | .error _ => []
          | .ok (next, s) =>
              let s := s.writePte pte (physToPpn next ||| PTE_V)
              s.mem :: walkDownStages cfg va level steps (pteToPhys (s.mem pte)) s
      else
        walkDownStages cfg va level steps (pteToPhys (s.mem pte)) s

def mapPageStages (cfg : Config) (va pa perm : BitVec 64) (s : MmuState) : List Mem :=
  walkDownStages cfg va 0 (SV39_LEVELS - 1) s.kernelRoot s ++
    match walkDown cfg va 0 (SV39_LEVELS - 1) s.kernelRoot s with
    | .error _ => []
    | .ok (tbl, s) => [s.mem.store (slot tbl (vpn va 0)) (leafPte pa perm)]

/-- The one store of `unmap_page`, if it makes one. -/
def unmapFromStages (va : BitVec 64) : Nat → BitVec 64 → MmuState → List Mem
  | 0, tbl, s => [s.mem.store (slot tbl (vpn va 0)) 0#64]
  | level + 1, tbl, s =>
      let pte := slot tbl (vpn va (level + 1))
      if s.mem pte &&& PTE_V = 0#64 then []
      else if s.mem pte &&& PTE_XWR ≠ 0#64 then [s.mem.store pte 0#64]
      else unmapFromStages va level (pteToPhys (s.mem pte)) s

def unmapPageStages (va : BitVec 64) (s : MmuState) : List Mem :=
  unmapFromStages va (SV39_LEVELS - 1) s.kernelRoot s

/-- The stores of a page loop, over the indices left. -/
def pageStages (stages : MmuState → Nat → List Mem) (body : MmuState → Nat → Except Stop MmuState) :
    MmuState → List Nat → List Mem
  | _, [] => []
  | s, i :: left =>
      stages s i ++
        match body s i with
        | .error _ => []
        | .ok s => pageStages stages body s left

def zRiscvMmuMapRawStages (cfg : Config) (va pa pteBits : BitVec 64) (level : Nat) (s : MmuState) :
    List Mem :=
  walkDownStages cfg va level (SV39_LEVELS - 1 - level) s.kernelRoot s ++
    match walkDown cfg va level (SV39_LEVELS - 1 - level) s.kernelRoot s with
    | .error _ => []
    | .ok (tbl, s) => [s.mem.store (slot tbl (vpn va level)) (physToPpn pa ||| pteBits)]

def callStages (cfg : Config) (s : MmuState) : Call → List Mem
  | .memMap virt phys size flags =>
      pageStages
        (fun s i => mapPageStages cfg (pageAfter virt i) (pageAfter phys i)
          (permFromFlags cfg flags) s)
        (fun s i => mapPage cfg (pageAfter virt i) (pageAfter phys i) (permFromFlags cfg flags) s)
        s (List.range (pageCount size))
  | .memUnmap addr size =>
      pageStages (fun s i => unmapPageStages (pageAfter addr i) s)
        (fun s i => .ok (unmapPage (pageAfter addr i) s)) s (List.range (pageCount size))
  | .mapRaw va pa pteBits level => zRiscvMmuMapRawStages cfg va pa pteBits level s

/-- The walk from a root, as what an observer asks. -/
abbrev walks (root : BitVec 64) (m : Mem) : BitVec 64 → Option Translation := walk m root

/-- The tables of a memory form a tree. -/
def Rooted (root : BitVec 64) (m : Mem) : Prop := ∃ live level, TableTree m live root level

theorem Planted.rooted {cfg : Config} {s : MmuState} (planted : Planted cfg s) :
    Rooted s.kernelRoot s.mem := by
  obtain ⟨level, tree⟩ := planted
  exact ⟨HandedOut cfg s, level, tree⟩

/-- Every table that is reached before is reached after. -/
def Keeps (root : BitVec 64) (m m' : Mem) : Prop :=
  ∀ va l t, l ≤ 2 → At m root va l t → At m' root va l t

theorem Keeps.trans {root : BitVec 64} {m m' m'' : Mem} (first : Keeps root m m')
    (second : Keeps root m' m'') : Keeps root m m'' :=
  fun va l t bound here => second va l t bound (first va l t bound here)

/-- An entry that is no link may be overwritten. -/
theorem Keeps.store {m : Mem} {live : BitVec 64 → Prop} {root t : BitVec 64}
    {level : BitVec 64 → Nat} (tree : TableTree m live root level) (out : live t) (k : BitVec 9)
    (pte : BitVec 64) (ends : 0 < level t → child (words m t k) = none) :
    Keeps root m (m.store (slot t k) pte) := by
  intro va l t' bound here
  induction steps : 2 - l generalizing l t' with
  | zero =>
      obtain rfl : l = 2 := by omega
      exact here
  | succ n ih =>
      obtain ⟨above, reached, link⟩ := (at_succ (by omega)).mp here
      obtain ⟨outAbove, levelAbove⟩ := tree.at_live (by omega) reached
      refine (at_succ (by omega)).mpr ⟨above, ih (l + 1) above (by omega) reached (by omega), ?_⟩
      have other : ¬ (above = t ∧ vpn va (l + 1) = k) := by
        rintro ⟨rfl, rfl⟩
        rw [words, link] at ends
        exact absurd (ends (by omega)) (by simp)
      have kept := tree.store_off out pte above (vpn va (l + 1)) outAbove other
      rw [words, words] at kept
      rw [kept]
      exact link

/-- Memory goes from one state to another through others, each of them a tree of tables
that keeps the links of those before it. -/
inductive Unfolds (root : BitVec 64) : Mem → List Mem → Mem → Prop
  | done (m : Mem) : Unfolds root m [] m
  | store {m m' after : Mem} {stages : List Mem} (rooted : Rooted root m') (keeps : Keeps root m m')
      (rest : Unfolds root m' stages after) : Unfolds root m (m' :: stages) after

theorem Unfolds.append {root : BitVec 64} {m m' m'' : Mem} {early late : List Mem}
    (first : Unfolds root m early m') (second : Unfolds root m' late m'') :
    Unfolds root m (early ++ late) m'' := by
  induction first with
  | done m => exact second
  | store rooted keeps _ ih => exact .store rooted keeps (ih second)

theorem Unfolds.rooted {root : BitVec 64} {m after : Mem} {stages : List Mem}
    (unfolds : Unfolds root m stages after) : ∀ stage ∈ stages, Rooted root stage := by
  induction unfolds with
  | done m => exact fun _ member => absurd member List.not_mem_nil
  | store rooted _ _ ih =>
      intro stage member
      obtain rfl | later := List.mem_cons.mp member
      · exact rooted
      · exact ih stage later

theorem Unfolds.last {root : BitVec 64} {m after : Mem} {stages : List Mem}
    (unfolds : Unfolds root m stages after) : stages.getLastD m = after := by
  induction unfolds with
  | done m => rfl
  | store _ _ _ ih => rw [List.getLastD_cons, ih]

theorem Unfolds.member {root : BitVec 64} {m after : Mem} {stages : List Mem}
    (unfolds : Unfolds root m stages after) : after ∈ m :: stages := by
  induction unfolds with
  | done m => exact List.mem_cons_self
  | store _ _ _ ih => exact List.mem_cons_of_mem _ ih

/-- The links of every memory are in the last one. -/
theorem Unfolds.keeps {root : BitVec 64} {m after : Mem} {stages : List Mem}
    (unfolds : Unfolds root m stages after) : ∀ m' ∈ m :: stages, Keeps root m' after := by
  induction unfolds with
  | done m =>
      intro m' member
      rw [List.mem_singleton.mp member]
      exact fun _ _ _ _ here => here
  | store _ keeps _ ih =>
      intro m' member
      obtain rfl | later := List.mem_cons.mp member
      · exact keeps.trans (ih _ List.mem_cons_self)
      · exact ih m' later

/-- A prefix of the stores, and the rest of them. -/
theorem Unfolds.split {root : BitVec 64} {m after : Mem} {early late : List Mem}
    (unfolds : Unfolds root m (early ++ late) after) :
    Unfolds root m early (early.getLastD m) ∧ Unfolds root (early.getLastD m) late after := by
  induction early generalizing m with
  | nil => exact ⟨.done m, unfolds⟩
  | cons m' early ih =>
      cases unfolds with
      | store rooted keeps rest =>
          obtain ⟨first, second⟩ := ih rest
          rw [List.getLastD_cons]
          exact ⟨.store rooted keeps first, second⟩

/-- What a walk finds at a table that it reached in one of the memories seen, it would
have found in one of them in which it also reaches the table. -/
def Traceable (root : BitVec 64) (seen : List Mem) (m : Mem) : Prop :=
  ∀ va l t, l ≤ 2 → ∀ m' ∈ seen, At m' root va l t →
    ∃ m'' ∈ seen, At m'' root va l t ∧ m (slot t (vpn va l)) = m'' (slot t (vpn va l))

theorem Unfolds.traceable {root : BitVec 64} {m after : Mem} {stages : List Mem}
    (unfolds : Unfolds root m stages after) : Traceable root (m :: stages) after :=
  fun va l t bound m' member here =>
    ⟨after, unfolds.member, unfolds.keeps m' member va l t bound here, rfl⟩

/-- One more store, into any entry of a table that is reached. -/
theorem Unfolds.traceable_store {root va t pte : BitVec 64} {m after : Mem} {stages : List Mem}
    {l : Nat} (unfolds : Unfolds root m stages after) (rooted : Rooted root after) (bound : l ≤ 2)
    (here : At after root va l t) :
    Traceable root (m :: (stages ++ [after.store (slot t (vpn va l)) pte]))
      (after.store (slot t (vpn va l)) pte) := by
  obtain ⟨live, level, tree⟩ := rooted
  obtain ⟨out, levelT⟩ := tree.at_live bound here
  have newest : after.store (slot t (vpn va l)) pte ∈
      m :: (stages ++ [after.store (slot t (vpn va l)) pte]) :=
    List.mem_cons_of_mem m (List.mem_append_right stages List.mem_cons_self)
  intro a k t' boundK m' member reached
  obtain old | new : m' ∈ m :: stages ∨ m' = after.store (slot t (vpn va l)) pte := by
    rw [← List.cons_append] at member
    exact (List.mem_append.mp member).imp_right List.mem_singleton.mp
  · have before := unfolds.keeps m' old a k t' boundK reached
    obtain ⟨out', levelT'⟩ := tree.at_live boundK before
    by_cases same : t' = t ∧ vpn a k = vpn va l
    · -- the entry that is stored to: the path to its table does not go through it
      obtain ⟨rfl, index⟩ := same
      obtain rfl : k = l := by omega
      have kept := tree.at_write boundK before pte
      rw [index] at kept
      exact ⟨_, newest, kept, rfl⟩
    · refine ⟨after, ?_, before, tree.store_off out pte t' (vpn a k) out' same⟩
      rw [← List.cons_append]
      exact List.mem_append_left _ unfolds.member
  · rw [new] at reached
    exact ⟨_, newest, reached, rfl⟩

/-- The walk from the kernel's root ends where the links of the view end. -/
theorem Planted.walks {cfg : Config} {s : MmuState} (planted : Planted cfg s) (a : BitVec 64) :
    walks s.kernelRoot s.mem a =
      if Canonical a then finalTranslation a (s.view a) else none := by
  obtain ⟨level, tree⟩ := planted
  exact tree.walk_eq a

theorem finalTranslation_invalid {va : BitVec 64} {final : Nat × BitVec 64}
    (invalid : final.2 &&& PTE_V = 0#64) : finalTranslation va final = none := by
  rw [finalTranslation, (and_PTE_V final.2).mp invalid]
  rfl

/-- Where both states map nothing or the same, the walk is the same. -/
theorem Planted.walk_same {cfg : Config} {s s' : MmuState} {a : BitVec 64}
    (planted : Planted cfg s) (planted' : Planted cfg s') (root : s'.kernelRoot = s.kernelRoot)
    (same : s'.view a = s.view a ∨
      (s'.view a).2 &&& PTE_V = 0#64 ∧ (s.view a).2 &&& PTE_V = 0#64) :
    Mmu.walks s.kernelRoot s'.mem a = Mmu.walks s.kernelRoot s.mem a := by
  have after := planted'.walks a
  rw [root] at after
  rw [after, planted.walks a]
  obtain same | ⟨invalid', invalid⟩ := same
  · rw [same]
  · rw [finalTranslation_invalid invalid', finalTranslation_invalid invalid]

/-- Stores that no walk can see the effect of. -/
structure Silent (root : BitVec 64) (m : Mem) (stages : List Mem) (after : Mem) : Prop where
  unfolds : Unfolds root m stages after
  same : ∀ stage ∈ stages, walks root stage = walks root m

theorem Silent.after {root : BitVec 64} {m after : Mem} {stages : List Mem}
    (silent : Silent root m stages after) : walks root after = walks root m := by
  obtain rfl | later := List.mem_cons.mp silent.unfolds.member
  · rfl
  · exact silent.same after later

theorem Silent.append {root : BitVec 64} {m m' m'' : Mem} {early late : List Mem}
    (first : Silent root m early m') (second : Silent root m' late m'') :
    Silent root m (early ++ late) m'' := by
  refine ⟨first.unfolds.append second.unfolds, ?_⟩
  intro stage member
  obtain before | after := List.mem_append.mp member
  · exact first.same stage before
  · exact (second.same stage after).trans first.after

theorem clearWords_none (m : Mem) (table : BitVec 64) : clearWords m table 0 = m := by
  funext a
  exact if_neg (Nat.not_lt_zero _)

theorem clearWords_off (m : Mem) {page t : BitVec 64} {n : Nat} (inside : n ≤ PT_ENTRIES)
    (apart : t ≠ page) (aligned : page.toNat % 4096 = 0) (physical : page.toNat + 4096 ≤ 2 ^ 56)
    (alignedT : t.toNat % 4096 = 0) (physicalT : t.toNat + 4096 ≤ 2 ^ 56) (k : BitVec 9) :
    words (clearWords m page n) t k = words m t k := by
  have small := k.isLt
  have distinct : t.toNat ≠ page.toNat := fun same => apart (BitVec.eq_of_toNat_eq same)
  have outside : ¬ (slot t k - page).toNat < 8 * n := by
    rw [PT_ENTRIES] at inside
    rw [BitVec.toNat_sub, slot_toNat t k (by omega)]
    omega
  simp only [words, clearWords, outside, ↓reduceIte]

/-- A table that is not linked yet is cleared out of sight. -/
theorem clearing_silent {m : Mem} {live : BitVec 64 → Prop} {root page : BitVec 64}
    {level : BitVec 64 → Nat} (tree : TableTree m live root level) (fresh : ¬ live page)
    (aligned : page.toNat % 4096 = 0) (physical : page.toNat + 4096 ≤ 2 ^ 56) (n : Nat)
    (inside : n ≤ PT_ENTRIES) :
    Silent root m ((List.range n).map fun j => clearWords m page (j + 1))
      (clearWords m page n) := by
  have off : ∀ n, n ≤ PT_ENTRIES → ∀ t k, live t →
      words (clearWords m page n) t k = words m t k := by
    intro n inside t k out
    have apart : t ≠ page := fun same => fresh (same ▸ out)
    exact clearWords_off m inside apart aligned physical (tree.aligned out) (tree.physical out) k
  induction n with
  | zero =>
      rw [clearWords_none]
      exact ⟨.done m, fun _ member => absurd member List.not_mem_nil⟩
  | succ n ih =>
      have earlier := ih (by omega)
      have kept := tree.frame (off n (by omega))
      have cleared := tree.frame (off (n + 1) inside)
      have keeps : Keeps root (clearWords m page n) (clearWords m page (n + 1)) := by
        intro va l t bound here
        apply kept.1.at_frame _ bound here
        intro t' k out
        rw [off (n + 1) inside t' k out, off n (by omega) t' k out]
      have one : Silent root (clearWords m page n) [clearWords m page (n + 1)]
          (clearWords m page (n + 1)) := by
        refine ⟨.store ⟨live, level, cleared.1⟩ keeps (.done _), ?_⟩
        intro stage member
        rw [List.mem_singleton.mp member]
        funext a
        show walk _ root a = walk _ root a
        rw [cleared.1.walk_eq, kept.1.walk_eq, cleared.2, kept.2]
      rw [List.range_succ, List.map_append]
      exact earlier.append one

theorem allocStages_found {cfg : Config} {s : MmuState} {i : Nat}
    (found : (List.range cfg.numTables).find? (fun i => !s.mmuTableUsed i) = some i) :
    allocStages cfg s =
      (List.range PT_ENTRIES).map fun j => clearWords s.mem (cfg.table i) (j + 1) := by
  rw [allocStages, found]

theorem allocStages_silent {cfg : Config} {s s' : MmuState} {next : BitVec 64}
    (planted : Planted cfg s) (allocated : allocTable cfg s = .ok (next, s')) :
    Silent s.kernelRoot s.mem (allocStages cfg s) s'.mem := by
  have spec := allocTable_spec allocated
  have out : HandedOut cfg s' next := (spec.handedOut next).mpr (Or.inr rfl)
  obtain ⟨level, tree⟩ := planted
  have cleared := clearing_silent tree spec.fresh out.aligned out.physical PT_ENTRIES (le_refl _)
  unfold allocTable at allocated
  split at allocated
  · rename_i i found
    rw [allocStages_found found]
    simp only [Except.ok.injEq, Prod.mk.injEq] at allocated
    obtain ⟨rfl, rfl⟩ := allocated
    exact cleared
  · cases allocated

/-- The store that links a cleared table: only addresses that ended in the invalid entry
are affected, and they still end in one. -/
theorem link_silent {cfg : Config} {s s₁ : MmuState} {va t next : BitVec 64} {l : Nat}
    (planted : Planted cfg s) (bound : l + 1 ≤ 2) (here : At s.mem s.kernelRoot va (l + 1) t)
    (invalid : s.words t (vpn va (l + 1)) &&& PTE_V = 0#64)
    (allocated : allocTable cfg s = .ok (next, s₁)) :
    Silent s.kernelRoot s.mem
      (allocStages cfg s ++
        [(s₁.writePte (slot t (vpn va (l + 1))) (physToPpn next ||| PTE_V)).mem])
      (s₁.writePte (slot t (vpn va (l + 1))) (physToPpn next ||| PTE_V)).mem := by
  have spec := allocTable_spec allocated
  obtain ⟨planted', -, viewed, root⟩ := planted.link bound here invalid spec
  have clearing := allocStages_silent planted allocated
  have stops := view_stop bound here fun _ => child_invalid invalid
  have ends : s.view va = (l + 1, s.words t (vpn va (l + 1))) := by
    rw [MmuState.view, Tables.view, stops]
    rfl
  have unseen : walks s.kernelRoot
      (s₁.writePte (slot t (vpn va (l + 1))) (physToPpn next ||| PTE_V)).mem =
        walks s.kernelRoot s.mem := by
    funext a
    apply planted.walk_same planted' root
    rw [viewed, View.deepen, if_pos (by rw [ends])]
    by_cases inside : SameBlock (l + 1) va a
    · have shared := s.view_uniform va a (by rw [ends]; exact inside)
      rw [View.setBlock_same inside, shared, ends]
      exact Or.inr ⟨BitVec.zero_and, invalid⟩
    · exact Or.inl (View.setBlock_other inside)
  have keeps : Keeps s.kernelRoot s₁.mem
      (s₁.writePte (slot t (vpn va (l + 1))) (physToPpn next ||| PTE_V)).mem := by
    obtain ⟨level, tree⟩ := planted
    have off : ∀ t k, HandedOut cfg s t → words s₁.mem t k = words s.mem t k := spec.off
    obtain ⟨out, -⟩ := tree.at_live bound here
    apply Keeps.store (tree.frame off).1 out
    intro _
    rw [off t _ out]
    exact child_invalid invalid
  have rooted := planted'.rooted
  rw [root] at rooted
  refine ⟨clearing.unfolds.append (.store rooted keeps (.done _)), ?_⟩
  intro stage member
  obtain early | last := List.mem_append.mp member
  · exact clearing.same stage early
  · rw [List.mem_singleton.mp last]
    exact unseen

theorem walkDownStages_invalid {cfg : Config} {va tbl next : BitVec 64} {level steps : Nat}
    {s s₁ : MmuState} (invalid : s.words tbl (vpn va (level + steps + 1)) &&& PTE_V = 0#64)
    (allocated : allocTable cfg (s.touch (slot tbl (vpn va (level + steps + 1)))) =
      .ok (next, s₁)) :
    let linked := s₁.writePte (slot tbl (vpn va (level + steps + 1))) (physToPpn next ||| PTE_V)
    walkDownStages cfg va level (steps + 1) tbl s =
      (allocStages cfg (s.touch (slot tbl (vpn va (level + steps + 1)))) ++ [linked.mem]) ++
        walkDownStages cfg va level steps (pteToPhys (physToPpn next ||| PTE_V)) linked := by
  intro linked
  rw [walkDownStages]
  refine (if_pos invalid).trans ?_
  have own : linked.mem (slot tbl (vpn va (level + steps + 1))) = physToPpn next ||| PTE_V :=
    Mem.store_same ..
  rw [allocated, List.append_assoc, List.singleton_append, ← own]

theorem walkDownStages_valid {cfg : Config} {va tbl : BitVec 64} {level steps : Nat} {s : MmuState}
    (valid : ¬ s.words tbl (vpn va (level + steps + 1)) &&& PTE_V = 0#64) :
    walkDownStages cfg va level (steps + 1) tbl s =
      walkDownStages cfg va level steps (pteToPhys (s.words tbl (vpn va (level + steps + 1))))
        (s.touch (slot tbl (vpn va (level + steps + 1)))) := by
  rw [walkDownStages]
  exact if_neg valid

/-- A descent allocates and links tables out of sight. -/
theorem walkDown_silent {cfg : Config} {va : BitVec 64} {level : Nat} (steps : Nat)
    {tbl t : BitVec 64} {s s' : MmuState} (planted : Planted cfg s) (bound : level + steps ≤ 2)
    (here : At s.mem s.kernelRoot va (level + steps) tbl) (clear : s.view.Clear level va)
    (ran : walkDown cfg va level steps tbl s = .ok (t, s')) :
    Silent s.kernelRoot s.mem (walkDownStages cfg va level steps tbl s) s'.mem := by
  induction steps generalizing tbl s with
  | zero =>
      simp only [walkDown, Except.ok.injEq, Prod.mk.injEq] at ran
      rw [← ran.2, walkDownStages]
      exact ⟨.done s.mem, fun _ member => absurd member List.not_mem_nil⟩
  | succ steps ih =>
      have touched : Planted cfg (s.touch (slot tbl (vpn va (level + steps + 1)))) := planted
      by_cases invalid : s.words tbl (vpn va (level + steps + 1)) &&& PTE_V = 0#64
      · rw [walkDown_invalid invalid] at ran
        split at ran
        · cases ran
        · rename_i next s₁ allocation
          have allocated := allocTable_spec allocation
          have outNext : HandedOut cfg s₁ next := (allocated.handedOut next).mpr (Or.inr rfl)
          have physical := outNext.physical
          have target := pteToPhys_physToPpn_or next PTE_V (by omega) (by decide) outNext.aligned
          obtain ⟨planted₂, here₂, view₂, root₂⟩ :=
            touched.link (l := level + steps) bound here invalid allocated
          rw [target] at ran
          have first := link_silent (l := level + steps) touched bound here invalid allocation
          have rest := ih planted₂ (by omega) here₂ (by rw [view₂]; exact clear.deepen _) ran
          rw [root₂] at rest
          rw [walkDownStages_invalid invalid allocation, target]
          exact first.append rest
      · rw [walkDown_valid invalid] at ran
        have below := (at_succ (l := level + steps) bound).mpr
          ⟨tbl, here, clear_follows clear (by omega) bound here invalid⟩
        rw [walkDownStages_valid invalid]
        exact ih touched (by omega) below clear ran

theorem mapPageStages_eq {cfg : Config} {va pa perm tbl : BitVec 64} {s s₁ : MmuState}
    (descent : walkDown cfg va 0 (SV39_LEVELS - 1) s.kernelRoot s = .ok (tbl, s₁)) :
    mapPageStages cfg va pa perm s = walkDownStages cfg va 0 (SV39_LEVELS - 1) s.kernelRoot s ++
      [s₁.mem.store (slot tbl (vpn va 0)) (leafPte pa perm)] := by
  rw [mapPageStages, descent]

/-- How the walk goes from one state to another through the stores in between. -/
structure Turns (root : BitVec 64) (m : Mem) (stages : List Mem) (after : Mem) : Prop where
  unfolds : Unfolds root m stages after
  switches : Switches (walks root m) (walks root after) (stages.map (walks root))

/-- Stores out of sight, and one more after them. -/
theorem Silent.turns {root : BitVec 64} {m m' after : Mem} {stages : List Mem}
    (silent : Silent root m stages m') (rooted : Rooted root after) (keeps : Keeps root m' after) :
    Turns root m (stages ++ [after]) after := by
  refine ⟨silent.unfolds.append (.store rooted keeps (.done after)), ?_⟩
  rw [List.map_append]
  apply Switches.last
  intro f member
  obtain ⟨stage, earlier, rfl⟩ := List.mem_map.mp member
  exact silent.same stage earlier

theorem Turns.append {root : BitVec 64} {m m' m'' : Mem} {early late : List Mem}
    (first : Turns root m early m') (second : Turns root m' late m'')
    (once : ∀ a, walks root m' a = walks root m a ∨ walks root m'' a = walks root m' a) :
    Turns root m (early ++ late) m'' := by
  refine ⟨first.unfolds.append second.unfolds, ?_⟩
  rw [List.map_append]
  exact first.switches.append second.switches once

/-- A page is mapped by its last store. Every other page keeps its walk. -/
theorem mapPage_turns {cfg : Config} {va pa perm : BitVec 64} {s s' : MmuState}
    (planted : Planted cfg s) (clear : s.view.Clear 0 va)
    (ran : mapPage cfg va pa perm s = .ok s') :
    Turns s.kernelRoot s.mem (mapPageStages cfg va pa perm s) s'.mem ∧
      ∀ a, ¬ SameBlock 0 va a → walks s.kernelRoot s'.mem a = walks s.kernelRoot s.mem a := by
  obtain ⟨planted', -⟩ := mapPage_view planted clear ran
  have sameRoot := (mapPage_sameRoot ran).1
  unfold mapPage at ran
  split at ran
  · cases ran
  · rename_i tbl s₁ descent
    have atRoot := at_root s.mem s.kernelRoot va
    have reached : Reached cfg s va 0 2 tbl s₁ :=
      walkDown_reached 2 planted (le_refl 2) atRoot clear descent
    have silent := walkDown_silent 2 planted (le_refl 2) atRoot clear descent
    obtain rfl := Except.ok.inj ran
    obtain ⟨level, tree⟩ := reached.planted
    obtain ⟨out, levelT⟩ := tree.at_live (Nat.zero_le 2) reached.here
    have rooted := planted'.rooted
    rw [sameRoot] at rooted
    have keeps : Keeps s.kernelRoot s₁.mem
        (s₁.mem.store (slot tbl (vpn va 0)) (leafPte pa perm)) := by
      rw [← reached.kernelRoot]
      apply Keeps.store tree out
      intro positive
      rw [levelT] at positive
      exact absurd positive (Nat.lt_irrefl 0)
    rw [mapPageStages_eq descent]
    refine ⟨silent.turns rooted keeps, ?_⟩
    intro a other
    have wrote := tree.write (Nat.zero_le 2) reached.here (leafPte pa perm) fun positive =>
      absurd positive (Nat.lt_irrefl 0)
    have kept := reached.planted.walk_same planted' rfl (a := a) (Or.inl ?_)
    · rw [reached.kernelRoot] at kept
      exact kept.trans (congrFun silent.after a)
    · exact (congrFun wrote.2 a).trans (View.setBlock_other other)

theorem unmapFromStages_eq (va : BitVec 64) (l : Nat) (tbl : BitVec 64) (s : MmuState) :
    unmapFromStages va l tbl s =
      if 0 < (endOf s.mem va l tbl).2 ∧ s.mem (endOf s.mem va l tbl).1 &&& PTE_V = 0#64 then []
      else [s.mem.store (endOf s.mem va l tbl).1 0#64] := by
  induction l generalizing tbl with
  | zero => exact (if_neg fun invalid => absurd invalid.1 (Nat.lt_irrefl 0)).symm
  | succ l ih =>
      rw [unmapFromStages, endOf]
      by_cases invalid : s.mem (slot tbl (vpn va (l + 1))) &&& PTE_V = 0#64
      · rw [child_invalid invalid]
        simp only [invalid, Nat.zero_lt_succ, and_self, ↓reduceIte]
      · by_cases links : s.mem (slot tbl (vpn va (l + 1))) &&& PTE_XWR = 0#64
        · rw [child_eq_some.mpr ⟨invalid, links, rfl⟩]
          simp only [invalid, links, ne_eq, not_true_eq_false, ↓reduceIte]
          exact ih _
        · rw [child_eq_none.mpr fun _ => links]
          simp only [invalid, links, ne_eq, not_false_eq_true, and_false, ↓reduceIte]

/-- A page is unmapped by one store, if any, and no walk finds more than before. -/
theorem unmapPage_turns {cfg : Config} (va : BitVec 64) {s : MmuState} (planted : Planted cfg s) :
    Turns s.kernelRoot s.mem (unmapPageStages va s) (unmapPage va s).mem ∧
      ∀ a, walks s.kernelRoot (unmapPage va s).mem a = walks s.kernelRoot s.mem a ∨
        walks s.kernelRoot (unmapPage va s).mem a = none := by
  obtain ⟨planted', viewed⟩ := unmapPage_view va planted
  obtain ⟨root, -, -⟩ := unmapFrom_fixed va 2 s.kernelRoot s
  have memory := unmapFrom_mem va 2 s.kernelRoot s
  have stages := unmapFromStages_eq va 2 s.kernelRoot s
  have sameRoot : (unmapPage va s).kernelRoot = s.kernelRoot := root
  constructor
  · show Turns s.kernelRoot s.mem (unmapFromStages va 2 s.kernelRoot s)
      (unmapFrom va 2 s.kernelRoot s).mem
    rw [stages]
    split
    · rename_i nothing
      rw [if_pos nothing] at memory
      rw [memory]
      exact ⟨.done s.mem, fun _ member => absurd member List.not_mem_nil⟩
    · rename_i clears
      rw [if_neg clears] at memory
      have rooted := planted'.rooted
      rw [sameRoot, show (unmapPage va s).mem = _ from memory] at rooted
      rw [memory]
      have nothing : Silent s.kernelRoot s.mem [] s.mem :=
        ⟨.done s.mem, fun _ member => absurd member List.not_mem_nil⟩
      apply nothing.turns rooted
      obtain ⟨level, tree⟩ := planted
      obtain ⟨k, table, bound, here, final, ends⟩ :=
        endOf_spec s.mem s.kernelRoot va (le_refl 2) (at_root s.mem s.kernelRoot va)
      obtain ⟨out, levelT⟩ := tree.at_live bound here
      rw [final]
      apply Keeps.store tree out
      intro positive
      rw [levelT] at positive
      exact ends positive
  · intro a
    have after := planted'.walks a
    rw [sameRoot, viewed] at after
    by_cases clears : Unmappable (s.view va)
    · rw [if_pos clears] at after
      by_cases inside : SameBlock (s.view va).1 va a
      · rw [View.setBlock_same inside, finalTranslation_invalid BitVec.zero_and, ite_self] at after
        exact Or.inr after
      · rw [View.setBlock_other inside, ← planted.walks a] at after
        exact Or.inl after
    · rw [if_neg clears, ← planted.walks a] at after
      exact Or.inl after

theorem pageStages_cons {stages : MmuState → Nat → List Mem}
    {body : MmuState → Nat → Except Stop MmuState} {s s₁ : MmuState} {i : Nat} {left : List Nat}
    (ran : body s i = .ok s₁) :
    pageStages stages body s (i :: left) = stages s i ++ pageStages stages body s₁ left := by
  rw [pageStages, ran]

/-- The first round of a loop that returns. -/
theorem foldlM_cons_ok {body : MmuState → Nat → Except Stop MmuState} {s s' : MmuState} {i : Nat}
    {left : List Nat} (ran : (i :: left).foldlM body s = .ok s') :
    ∃ s₁, body s i = .ok s₁ ∧ left.foldlM body s₁ = .ok s' := by
  rw [List.foldlM_cons] at ran
  cases first : body s i with
  | error stop =>
      rw [first] at ran
      cases ran
  | ok s₁ =>
      rw [first] at ran
      exact ⟨s₁, rfl, ran⟩

theorem clear_of_deeper {v v' : View} {a : BitVec 64} (deeper : v.Deeper v' a)
    (clear : v.Clear 0 a) : v'.Clear 0 a := by
  obtain same | ⟨-, zero⟩ := deeper
  · rw [View.Clear, same]
    exact clear
  · intro _
    rw [zero]
    exact BitVec.zero_and

/-- Distinct pages are mapped one after another, each by its own store. -/
theorem mapPages_turns {cfg : Config} {virt phys perm : BitVec 64} {left : List Nat}
    {s s' : MmuState} (planted : Planted cfg s)
    (clear : ∀ i ∈ left, s.view.Clear 0 (pageAfter virt i))
    (distinct : left.Pairwise fun i j => ¬ SameBlock 0 (pageAfter virt i) (pageAfter virt j))
    (ran : left.foldlM
      (fun s i => mapPage cfg (pageAfter virt i) (pageAfter phys i) perm s) s = .ok s') :
    Planted cfg s' ∧
      Turns s.kernelRoot s.mem
        (pageStages (fun s i => mapPageStages cfg (pageAfter virt i) (pageAfter phys i) perm s)
          (fun s i => mapPage cfg (pageAfter virt i) (pageAfter phys i) perm s) s left) s'.mem ∧
      ∀ a, (∀ i ∈ left, ¬ SameBlock 0 (pageAfter virt i) a) →
        walks s.kernelRoot s'.mem a = walks s.kernelRoot s.mem a := by
  induction left generalizing s with
  | nil =>
      obtain rfl := Except.ok.inj ran
      exact ⟨planted, ⟨.done s.mem, fun _ member => absurd member List.not_mem_nil⟩, fun _ _ => rfl⟩
  | cons i left ih =>
      obtain ⟨s₁, first, rest⟩ := foldlM_cons_ok ran
      obtain ⟨apart, distinct⟩ := List.pairwise_cons.mp distinct
      have clearHere := clear i List.mem_cons_self
      obtain ⟨planted₁, viewed⟩ := mapPage_view planted clearHere first
      have root₁ := (mapPage_sameRoot first).1
      obtain ⟨turns, others⟩ := mapPage_turns planted clearHere first
      have clear₁ : ∀ j ∈ left, s₁.view.Clear 0 (pageAfter virt j) := by
        intro j member
        rw [viewed]
        have deeper := s.view_uniform.map_other (leafPte (pageAfter phys i) perm) (apart j member)
        exact clear_of_deeper deeper (clear j (List.mem_cons_of_mem i member))
      obtain ⟨planted', later, outside⟩ := ih planted₁ clear₁ distinct rest
      rw [root₁] at later outside
      refine ⟨planted', ?_, ?_⟩
      · rw [pageStages_cons first]
        apply turns.append later
        intro a
        -- a page is mapped by its own round, and no other round touches it
        by_cases here : SameBlock 0 (pageAfter virt i) a
        · apply Or.inr
          apply outside
          intro j member there
          exact apart j member (here.trans there.symm)
        · exact Or.inl (others a here)
      · intro a elsewhere
        rw [outside a fun j member => elsewhere j (List.mem_cons_of_mem i member)]
        exact others a (elsewhere i List.mem_cons_self)

/-- What one round has unmapped, no later round changes. -/
theorem unmapPages_turns {cfg : Config} {addr : BitVec 64} {left : List Nat} {s s' : MmuState}
    (planted : Planted cfg s)
    (ran : left.foldlM
      (fun s i => (.ok (unmapPage (pageAfter addr i) s) : Except Stop MmuState)) s = .ok s') :
    Planted cfg s' ∧
      Turns s.kernelRoot s.mem
        (pageStages (fun s i => unmapPageStages (pageAfter addr i) s)
          (fun s i => .ok (unmapPage (pageAfter addr i) s)) s left) s'.mem ∧
      ∀ a, walks s.kernelRoot s'.mem a = walks s.kernelRoot s.mem a ∨
        walks s.kernelRoot s'.mem a = none := by
  induction left generalizing s with
  | nil =>
      obtain rfl := Except.ok.inj ran
      exact ⟨planted, ⟨.done s.mem, fun _ member => absurd member List.not_mem_nil⟩,
        fun _ => Or.inl rfl⟩
  | cons i left ih =>
      obtain ⟨s₁, first, rest⟩ := foldlM_cons_ok ran
      obtain rfl := Except.ok.inj first
      have planted₁ := (unmapPage_view (pageAfter addr i) planted).1
      have root₁ := (unmapFrom_fixed (pageAfter addr i) 2 s.kernelRoot s).1
      obtain ⟨turns, fewer⟩ := unmapPage_turns (pageAfter addr i) planted
      obtain ⟨planted', later, fewer'⟩ := ih planted₁ rest
      rw [show (unmapPage (pageAfter addr i) s).kernelRoot = s.kernelRoot from root₁]
        at later fewer'
      refine ⟨planted', ?_, ?_⟩
      · rw [pageStages_cons first]
        apply turns.append later
        intro a
        obtain same | gone := fewer a
        · exact Or.inl same
        · apply Or.inr
          obtain same | gone' := fewer' a
          · exact same
          · rw [gone', gone]
      · intro a
        obtain same | gone := fewer' a
        · rw [same]
          exact fewer a
        · exact Or.inr gone

/-- What holds of the stores of a call: a walk at any moment finds what it found before
the call or what it finds after it, and so does one that goes on from where it got to at
an earlier moment. -/
structure Steady (root : BitVec 64) (before : Mem) (stages : List Mem) (after : Mem) : Prop where
  last : stages.getLastD before = after
  rooted : ∀ stage ∈ stages, Rooted root stage
  switches : Switches (walks root before) (walks root after) (stages.map (walks root))
  traceable : ∀ early late, stages = early ++ late →
    Traceable root (before :: early) (early.getLastD before)

theorem Turns.steady {root : BitVec 64} {m after : Mem} {stages : List Mem}
    (turns : Turns root m stages after) : Steady root m stages after := by
  refine ⟨turns.unfolds.last, turns.unfolds.rooted, turns.switches, ?_⟩
  rintro early late rfl
  exact turns.unfolds.split.1.traceable

/-- A raw mapping may overwrite a link, but only with its last store. -/
theorem zRiscvMmuMapRaw_steady {cfg : Config} {va pa pteBits : BitVec 64} {level : Nat}
    {s s' : MmuState} (planted : Planted cfg s) (clear : s.view.Clear level va)
    (ends : 0 < level → child (physToPpn pa ||| pteBits) = none)
    (ran : zRiscvMmuMapRaw cfg va pa pteBits level s = .ok s') :
    Steady s.kernelRoot s.mem (zRiscvMmuMapRawStages cfg va pa pteBits level s) s'.mem := by
  have rooted := (zRiscvMmuMapRaw_view planted clear ends ran).1.rooted
  rw [(zRiscvMmuMapRaw_view planted clear ends ran).2.2.1] at rooted
  unfold zRiscvMmuMapRaw at ran
  split at ran
  · rename_i asserted
    have inside : level ≤ 2 := Nat.le_of_lt_succ asserted.1
    have top : level + (SV39_LEVELS - 1 - level) = 2 := by
      rw [SV39_LEVELS]
      omega
    have atRoot : At s.mem s.kernelRoot va (level + (SV39_LEVELS - 1 - level)) s.kernelRoot := by
      rw [top]
      exact at_root s.mem s.kernelRoot va
    split at ran
    · cases ran
    · rename_i tbl s₁ descent
      have reached := walkDown_reached _ planted (Nat.le_of_eq top) atRoot clear descent
      have silent := walkDown_silent _ planted (Nat.le_of_eq top) atRoot clear descent
      obtain rfl := Except.ok.inj ran
      have rooted₁ := reached.planted.rooted
      have here := reached.here
      rw [reached.kernelRoot] at rooted₁ here
      rw [zRiscvMmuMapRawStages, descent]
      refine ⟨?_, ?_, ?_, ?_⟩
      · rw [List.getLastD_concat]
        rfl
      · intro stage member
        obtain early | final := List.mem_append.mp member
        · exact silent.unfolds.rooted stage early
        · rw [List.mem_singleton.mp final]
          exact rooted
      · rw [List.map_append]
        apply Switches.last
        intro f member
        obtain ⟨stage, earlier, rfl⟩ := List.mem_map.mp member
        exact silent.same stage earlier
      · intro early late whole
        cases late using List.reverseRecOn with
        | nil =>
            rw [List.append_nil] at whole
            rw [← whole, List.getLastD_concat]
            exact silent.unfolds.traceable_store rooted₁ inside here
        | append_singleton late final _ =>
            rw [← List.append_assoc] at whole
            obtain ⟨shorter, -⟩ := List.append_inj' whole rfl
            have prefixed := silent.unfolds
            rw [shorter] at prefixed
            exact prefixed.split.1.traceable
  · cases ran

/-- The pages of a canonical range are distinct. -/
theorem pages_distinct {virt size : BitVec 64} (aligned : virt.toNat % 4096 = 0)
    (range : CanonicalRange virt size) :
    (List.range (pageCount size)).Pairwise fun i j =>
      ¬ SameBlock 0 (pageAfter virt i) (pageAfter virt j) := by
  apply List.pairwise_iff_forall_sublist.mpr
  intro i j sub
  have order := List.pairwise_iff_forall_sublist.mp
    (List.pairwise_lt_range (n := pageCount size)) sub
  have insideJ : j < pageCount size :=
    List.mem_range.mp (sub.subset (List.mem_cons_of_mem i List.mem_cons_self))
  rw [sameBlock_page, page_pageAfter aligned range (by omega), page_pageAfter aligned range insideJ]
  omega

/-- The stores of a call that returns. -/
theorem callStages_steady {cfg : Config} {s s' : MmuState} {call : Call}
    (planted : Planted cfg s) (admissible : Admissible s call)
    (returns : Returns cfg s call s') :
    Planted cfg s' ∧ Steady s.kernelRoot s.mem (callStages cfg s call) s'.mem := by
  have bounded := returns.bounded
  obtain ⟨addressed, -, clear, raw⟩ := admissible
  cases call with
  | memMap virt phys size flags =>
      have ran : forPages size _ s = .ok s' := returns
      rw [forPages, if_neg (Nat.not_lt.mpr bounded)] at ran
      have clearView : ∀ i ∈ List.range (pageCount size), s.view.Clear 0 (pageAfter virt i) := by
        intro i member
        exact (s.clear_view _ 0).mp (clear i (List.mem_range.mp member))
      obtain ⟨planted', turns, -⟩ :=
        mapPages_turns planted clearView (pages_distinct addressed.1 addressed.2) ran
      exact ⟨planted', turns.steady⟩
  | memUnmap addr size =>
      have ran : forPages size _ s = .ok s' := returns
      rw [forPages, if_neg (Nat.not_lt.mpr bounded)] at ran
      obtain ⟨planted', turns, -⟩ := unmapPages_turns planted ran
      exact ⟨planted', turns.steady⟩
  | mapRaw va pa pteBits level =>
      have clearView := (s.clear_view va level).mp clear
      have ends : 0 < level → child (physToPpn pa ||| pteBits) = none := fun positive =>
        RawLeaf.ends raw positive
      have viewed := zRiscvMmuMapRaw_view planted clearView ends returns
      exact ⟨viewed.1, zRiscvMmuMapRaw_steady planted clearView ends returns⟩

end ZephyrRiscv.Mmu
