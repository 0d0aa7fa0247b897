import ZephyrRiscv.MmuCalls
import Mathlib.Data.Finset.Card
import Mathlib.Data.Finset.Sum
import Mathlib.Combinatorics.Enumerative.DoubleCounting

set_option autoImplicit false

namespace ZephyrRiscv.TableBudget

open Sv39 RadixForest Mmu Transition

/-- The tables marked used. -/
def tablesUsed (cfg : Config) (s : MmuState) : Nat :=
  ((Finset.range cfg.numTables).filter fun i => s.mmuTableUsed i = true).card

/-- The region of an address: 2 MB at level 1, 1 GB at level 2. -/
def region (level : Nat) (va : BitVec 64) : Nat := page va / 512 ^ level

/-- The regions that the page loop of a mapping goes through. -/
def pageRegions (level : Nat) (virt size : BitVec 64) : List Nat :=
  (List.range (pageCount size)).map fun i => region level (pageAfter virt i)

/-- The regions of a level that a call maps below that level. -/
def callRegions (level : Nat) : Call → List Nat
  | .memMap virt _ size _ => pageRegions level virt size
  | .memUnmap _ _ => []
  | .mapRaw va _ _ below => if below < level then [region level va] else []

/-- The distinct regions touched by the boot mapping and by a list of calls. -/
def regions (cfg : Config) (calls : List Call) (level : Nat) : Finset Nat :=
  (pageRegions level cfg.zMappedStart (cfg.zMappedEnd - cfg.zMappedStart) ++
    calls.flatMap (callRegions level)).toFinset

/-- The root, a table for each 1 GB region and one for each 2 MB region. -/
def budget (cfg : Config) (calls : List Call) : Nat :=
  1 + (regions cfg calls 2).card + (regions cfg calls 1).card

def tableKeys : List (BitVec 9) := (List.range PT_ENTRIES).map (BitVec.ofNat 9)

/-- The tables below the entry that a raw mapping overwrites. -/
def cutOff (cfg : Config) (s : MmuState) : Call → List (BitVec 64)
  | .mapRaw va _ _ level =>
      match walkDown cfg va level (SV39_LEVELS - 1 - level) s.kernelRoot s with
      | .ok (tbl, s) => below child tableKeys s.words level (s.words tbl (vpn va level))
      | .error _ => []
  | _ => []

/-- The tables, and a ghost list of those that raw mappings have cut off. -/
structure Metered where
  tables : MmuState
  cut : List (BitVec 64)

def Metered.Start (cfg : Config) (m : Metered) : Prop := Booted cfg m.tables ∧ m.cut = []

/-- A call that returns. -/
def Metered.Step (cfg : Config) (m : Metered) (call : Call) (m' : Metered) : Prop :=
  Returns cfg m.tables call m'.tables ∧ m'.cut = m.cut ++ cutOff cfg m.tables call

theorem mem_tableKeys (k : BitVec 9) : k ∈ tableKeys := by
  apply List.mem_map.mpr
  refine ⟨k.toNat, List.mem_range.mpr k.isLt, ?_⟩
  apply BitVec.eq_of_toNat_eq
  rw [BitVec.toNat_ofNat, Nat.mod_eq_of_lt k.isLt]

/-- Every handed-out table is cut off, or is reached at a place: a level, and a region
of the level above. -/
def Accounted (cfg : Config) (places : Finset (Nat × Nat)) (cut : List (BitVec 64))
    (s : MmuState) : Prop :=
  ∀ t, HandedOut cfg s t →
    t ∈ cut ∨ ∃ va l, l ≤ 2 ∧ (l, region (l + 1) va) ∈ places ∧ s.At va l t

variable {cfg : Config} {places places' : Finset (Nat × Nat)} {cut cut' : List (BitVec 64)}
  {s s' : MmuState} {va t : BitVec 64} {level : BitVec 64 → Nat} {l : Nat}

theorem Accounted.mono (accounted : Accounted cfg places cut s) (more : places ⊆ places') :
    Accounted cfg places' cut s := by
  intro t out
  obtain lost | ⟨va, l, bound, place, here⟩ := accounted t out
  · exact Or.inl lost
  · exact Or.inr ⟨va, l, bound, more place, here⟩

/-- The region above a table decides the path to it. -/
theorem pathTo_region {va va' : BitVec 64} (bound : l ≤ 2)
    (same : region (l + 1) va = region (l + 1) va') : pathTo va l = pathTo va' l := by
  have agree : ∀ i, l < i → i ≤ 2 → vpn va i = vpn va' i := by
    intro i above top
    apply BitVec.eq_of_toNat_eq
    rw [vpn_toNat, vpn_toNat]
    simp only [region, page] at same
    have levels : (l = 0 ∨ l = 1 ∨ l = 2) ∧ (i = 1 ∨ i = 2) := by omega
    rcases levels with ⟨rfl | rfl | rfl, rfl | rfl⟩ <;> omega
  rcases (by omega : l = 0 ∨ l = 1 ∨ l = 2) with rfl | rfl | rfl
  · simp only [pathTo, keys, agree 2 (by omega) (by omega), agree 1 (by omega) (by omega),
      List.take_succ_cons, List.take_zero]
  · simp only [pathTo, keys, agree 2 (by omega) (by omega), List.take_succ_cons, List.take_zero]
  · rfl

/-- A place holds one table, so the tables are no more than the places and the cut. -/
theorem Accounted.tablesUsed_le (accounted : Accounted cfg places cut s) :
    tablesUsed cfg s ≤ places.card + cut.length := by
  let holds : Nat → (Nat × Nat) ⊕ BitVec 64 → Prop := fun i account =>
    match account with
    | .inl place => ∃ va, place.1 ≤ 2 ∧ region (place.1 + 1) va = place.2 ∧
        s.At va place.1 (cfg.table i)
    | .inr lost => cfg.table i = lost
  have counted : tablesUsed cfg s ≤ (places.disjSum cut.toFinset).card := by
    apply Finset.card_le_card_of_forall_subsingleton holds
    · intro i used
      obtain ⟨inside, marked⟩ := Finset.mem_filter.mp used
      have out : HandedOut cfg s (cfg.table i) := ⟨i, Finset.mem_range.mp inside, marked, rfl⟩
      obtain lost | ⟨va, l, bound, place, here⟩ := accounted _ out
      · exact ⟨.inr (cfg.table i), by simpa using lost, rfl⟩
      · exact ⟨.inl (l, region (l + 1) va), by simpa using place, va, bound, rfl, here⟩
    · rintro account - i ⟨used, first⟩ j ⟨used', second⟩
      have inside := Finset.mem_range.mp (Finset.mem_filter.mp used).1
      have inside' := Finset.mem_range.mp (Finset.mem_filter.mp used').1
      have same : cfg.table i = cfg.table j := by
        cases account with
        | inl place =>
            obtain ⟨va, bound, here, found⟩ := first
            obtain ⟨va', -, here', found'⟩ := second
            rw [MmuState.At, pathTo_region bound (here.trans here'.symm)] at found
            exact Option.some.inj (found.symm.trans found')
        | inr lost => exact Eq.trans first (Eq.symm second)
      have numbers := congrArg BitVec.toNat same
      rw [table_toNat cfg inside, table_toNat cfg inside'] at numbers
      omega
  have lists := cut.toFinset_card_le
  rw [Finset.card_disjSum] at counted
  omega

/-- A table handed out before a write keeps its place, or hangs below the old entry. -/
theorem Accounted.kept (accounted : Accounted cfg places cut s) (shape : Shape cfg s level)
    (bound : l ≤ 2) (here : s.At va l t) (s' : MmuState) (rootSame : s'.kernelRoot = s.kernelRoot)
    (off : ∀ m j, HandedOut cfg s m → ¬ (m = t ∧ j = vpn va l) → s'.words m j = s.words m j)
    {m : BitVec 64} (out : HandedOut cfg s m) :
    m ∈ cut ++ below child tableKeys s.words l (s.words t (vpn va l)) ∨
      ∃ va l, l ≤ 2 ∧ (l, region (l + 1) va) ∈ places ∧ s'.At va l m := by
  have levelT := (shape.at_live bound here).2
  have pathBound : ∀ (a : BitVec 64) {i : Nat}, i ≤ 2 →
      (pathTo a i).length ≤ level s.kernelRoot := by
    intro a i small
    have := pathTo_length a small
    rw [shape.rootLevel]
    omega
  obtain lost | ⟨va', l', bound', place, here'⟩ := accounted m out
  · exact Or.inl (List.mem_append_left _ lost)
  · have found := shape.forest.descend_lost mem_tableKeys shape.root (pathBound va bound) here
      (pathBound va' bound') here' off
    rw [levelT] at found
    obtain still | lost := found
    · apply Or.inr
      refine ⟨va', l', bound', place, ?_⟩
      rw [MmuState.At, rootSame]
      exact still
    · exact Or.inl (List.mem_append_right _ lost)

theorem Accounted.write (accounted : Accounted cfg places cut s) (shape : Shape cfg s level)
    (bound : l ≤ 2) (here : s.At va l t) (pte : BitVec 64) :
    Accounted cfg places (cut ++ below child tableKeys s.words l (s.words t (vpn va l)))
      (s.writePte (slot t (vpn va l)) pte) := by
  have outT := (shape.at_live bound here).1
  intro m out
  exact accounted.kept shape bound here (s.writePte (slot t (vpn va l)) pte) rfl
    (fun _ _ outM other => writePte_off outT _ _ outM other) out

/-- Overwriting an entry that is no link cuts nothing off. -/
theorem Accounted.write_end (accounted : Accounted cfg places cut s) (shape : Shape cfg s level)
    (bound : l ≤ 2) (here : s.At va l t) (ends : 0 < l → child (s.words t (vpn va l)) = none)
    (pte : BitVec 64) : Accounted cfg places cut (s.writePte (slot t (vpn va l)) pte) := by
  have none : below child tableKeys s.words l (s.words t (vpn va l)) = [] := by
    by_cases positive : 0 < l
    · exact below_none (ends positive)
    · rw [Nat.eq_zero_of_not_pos positive]
      rfl
  have wrote := accounted.write shape bound here pte
  rw [none, List.append_nil] at wrote
  exact wrote

theorem Accounted.link {next : BitVec 64} (accounted : Accounted cfg places cut s)
    (shape : Shape cfg s level) (bound : l + 1 ≤ 2) (here : s.At va (l + 1) t)
    (invalid : s.words t (vpn va (l + 1)) &&& PTE_V = 0#64)
    (place : (l, region (l + 1) va) ∈ places) (allocated : Allocated cfg s next s') :
    Accounted cfg places cut
      (s'.writePte (slot t (vpn va (l + 1))) (physToPpn next ||| PTE_V)) := by
  have outT := (shape.at_live bound here).1
  have outT' : HandedOut cfg s' t := (allocated.handedOut t).mpr (Or.inl outT)
  let linked := s'.writePte (slot t (vpn va (l + 1))) (physToPpn next ||| PTE_V)
  have off : ∀ m j, HandedOut cfg s m → ¬ (m = t ∧ j = vpn va (l + 1)) →
      linked.words m j = s.words m j := by
    intro m j outM other
    rw [← allocated.off m j outM]
    exact writePte_off outT' m j ((allocated.handedOut m).mpr (Or.inl outM)) other
  intro m out
  obtain old | rfl := (allocated.handedOut m).mp out
  · have kept := accounted.kept shape bound here linked allocated.kernelRoot off old
    rw [below_none (child_invalid invalid), List.append_nil] at kept
    exact kept
  · have reached := (shape.link bound here invalid allocated).2.1
    exact Or.inr ⟨va, l, by omega, place, reached⟩

theorem tablesUsed_exhausted {stop : Stop} (failed : allocTable cfg s = .error stop) :
    tablesUsed cfg s = cfg.numTables := by
  unfold allocTable at failed
  split at failed
  · cases failed
  · rename_i missing
    have used : ∀ i ∈ Finset.range cfg.numTables, s.mmuTableUsed i = true := by
      intro i inside
      have listed := List.mem_range.mpr (Finset.mem_range.mp inside)
      have taken := List.find?_eq_none.mp missing i listed
      simpa using taken
    rw [tablesUsed, Finset.filter_true_of_mem used, Finset.card_range]

/-- A walk finds no table to allocate only when one place stays empty. -/
theorem Accounted.exhausted {stop : Stop} (accounted : Accounted cfg places cut s)
    (bound : l + 1 ≤ 2) (here : s.At va (l + 1) t)
    (invalid : s.words t (vpn va (l + 1)) &&& PTE_V = 0#64)
    (place : (l, region (l + 1) va) ∈ places) (failed : allocTable cfg s = .error stop) :
    cfg.numTables < places.card + cut.length := by
  have all := tablesUsed_exhausted failed
  have vacant : ∀ va' m, region (l + 1) va' = region (l + 1) va → ¬ s.At va' l m := by
    intro va' m same reached
    rw [MmuState.At, pathTo_region (by omega) same, pathTo_succ va bound] at reached
    obtain ⟨t', here', link⟩ := descend_snoc.mp reached
    rw [MmuState.At] at here
    rw [Option.some.inj (here'.symm.trans here), child_invalid invalid] at link
    cases link
  have elsewhere : Accounted cfg (places.erase (l, region (l + 1) va)) cut s := by
    intro m out
    obtain lost | ⟨va', l', bound', place', here'⟩ := accounted m out
    · exact Or.inl lost
    · apply Or.inr
      refine ⟨va', l', bound', Finset.mem_erase.mpr ⟨?_, place'⟩, here'⟩
      intro same
      obtain ⟨rfl, sameRegion⟩ := Prod.mk.inj same
      exact vacant va' m sameRegion here'
  have counted := elsewhere.tablesUsed_le
  have smaller := Finset.card_erase_lt_of_mem place
  omega

/-- A good result, or a panic for want of a table that not every place has. -/
structure Affords (cfg : Config) (places : Finset (Nat × Nat)) (cut : List (BitVec 64)) {β : Type}
    (good : β → Prop) (outcome : Except Stop β) : Prop where
  ok : ∀ result, outcome = .ok result → good result
  panic : ∀ stopped, outcome = .error (.panic stopped) →
    cfg.numTables < places.card + cut.length

theorem Affords.of_ok {β : Type} {good : β → Prop} {result : β} (holds : good result) :
    Affords cfg places cut good (.ok result) := by
  constructor
  · intro other same
    rw [← Except.ok.inj same]
    exact holds
  · intro stopped same
    cases same

theorem Affords.of_error {β γ : Type} {good : β → Prop} {good' : γ → Prop} {stop : Stop}
    (affords : Affords cfg places cut good (.error stop)) :
    Affords cfg places cut good' (.error stop) := by
  constructor
  · intro result same
    cases same
  · intro stopped same
    rw [Except.error.inj same] at affords
    exact affords.panic stopped rfl

theorem walkDown_affords {target : Nat} (steps : Nat) {tbl : BitVec 64}
    (shape : Shape cfg s level) (accounted : Accounted cfg places cut s)
    (bound : target + steps ≤ 2) (here : s.At va (target + steps) tbl) (clear : s.Clear va target)
    (served : ∀ l, target ≤ l → l < target + steps → (l, region (l + 1) va) ∈ places) :
    Affords cfg places cut (fun reached => Accounted cfg places cut reached.2)
      (walkDown cfg va target steps tbl s) := by
  induction steps generalizing tbl s level with
  | zero => exact .of_ok accounted
  | succ steps ih =>
      let pte := slot tbl (vpn va (target + steps + 1))
      have shapeT : Shape cfg (s.touch pte) level :=
        ⟨shape.root, shape.rootLevel, shape.bounded, shape.forest, shape.exact⟩
      have place := served (target + steps) (by omega) (by omega)
      have later : ∀ l, target ≤ l → l < target + steps → (l, region (l + 1) va) ∈ places := by
        intro l low high
        exact served l low (by omega)
      by_cases invalid : s.words tbl (vpn va (target + steps + 1)) &&& PTE_V = 0#64
      · rw [walkDown_invalid invalid]
        have counted : Accounted cfg places cut (s.touch pte) := accounted
        split
        · rename_i stop failed
          have short := counted.exhausted (l := target + steps) bound here invalid place failed
          exact ⟨fun _ same => (by cases same), fun _ _ => short⟩
        · rename_i next s₁ allocation
          have allocated := allocTable_spec allocation
          have outNext : HandedOut cfg s₁ next := (allocated.handedOut next).mpr (Or.inr rfl)
          have physical := outNext.physical
          rw [pteToPhys_physToPpn_or next PTE_V (by omega) (by decide) outNext.aligned]
          obtain ⟨shape', here', leaves, -⟩ :=
            shapeT.link (l := target + steps) bound here invalid allocated
          have linked :=
            counted.link (l := target + steps) shapeT bound here invalid place allocated
          have clear' : MmuState.Clear _ va target :=
            fun l pte found => clear l pte ((leaves va).symm.trans found)
          exact ih shape' linked (by omega) here' clear' later
      · rw [walkDown_valid invalid]
        have below : (s.touch pte).At va (target + steps)
            (pteToPhys (s.words tbl (vpn va (target + steps + 1)))) := by
          rw [MmuState.At, pathTo_succ va (l := target + steps) bound]
          have link := clear.follows (l := target + steps + 1) (by omega) bound here invalid
          exact descend_snoc.mpr ⟨tbl, here, link⟩
        exact ih shapeT accounted (by omega) below clear later

theorem unmapFrom_accounted (l : Nat) {tbl : BitVec 64} (shape : Shape cfg s level)
    (accounted : Accounted cfg places cut s) (bound : l ≤ 2) (here : s.At va l tbl) :
    Accounted cfg places cut (unmapFrom va l tbl s) := by
  induction l generalizing tbl s with
  | zero =>
      rw [unmapFrom]
      exact accounted.write_end shape bound here (fun positive => absurd positive (by omega)) 0#64
  | succ l ih =>
      have shapeT : Shape cfg (s.touch (slot tbl (vpn va (l + 1)))) level :=
        ⟨shape.root, shape.rootLevel, shape.bounded, shape.forest, shape.exact⟩
      have touched : Accounted cfg places cut (s.touch (slot tbl (vpn va (l + 1)))) := accounted
      by_cases invalid : s.words tbl (vpn va (l + 1)) &&& PTE_V = 0#64
      · rw [unmapFrom_invalid invalid]
        exact touched
      · by_cases links : s.words tbl (vpn va (l + 1)) &&& PTE_XWR = 0#64
        · rw [unmapFrom_link invalid links]
          apply ih shapeT touched (by omega)
          rw [MmuState.At, pathTo_succ va bound]
          exact descend_snoc.mpr ⟨tbl, here, child_eq_some.mpr ⟨invalid, links, rfl⟩⟩
        · rw [unmapFrom_leaf invalid links]
          exact touched.write_end (l := l + 1) shapeT bound here
            (fun _ => child_eq_none.mpr fun _ => links) 0#64

/-- The tables between two calls. -/
structure Budgeted (cfg : Config) (places : Finset (Nat × Nat)) (cut : List (BitVec 64))
    (s : MmuState) : Prop where
  shaped : WellShaped cfg s
  accounted : Accounted cfg places cut s

/-- The page loops keep an invariant of the page index. -/
theorem Affords.forPages {size : BitVec 64} {body : MmuState → Nat → Except Stop MmuState}
    {I : Nat → MmuState → Prop} (first : I 0 s)
    (step : ∀ i s', i < pageCount size → I i s' →
      Affords cfg places cut (I (i + 1)) (body s' i)) :
    Affords cfg places cut (I (pageCount size)) (forPages size body s) := by
  have onward : ∀ i s₁ s₂, i < pageCount size → I i s₁ → body s₁ i = .ok s₂ → I (i + 1) s₂ :=
    fun i s₁ s₂ below holds next => (step i s₁ below holds).ok s₂ next
  obtain ⟨s', returned, holds⟩ | ⟨i, s', stop, below, holds, stops, outcome⟩ | ⟨-, spins⟩ :=
    forPages_cases first onward
  · rw [returned]
    exact .of_ok holds
  · have affords := step i s' below holds
    rw [stops] at affords
    rw [outcome]
    exact affords.of_error
  · rw [spins]
    exact ⟨fun _ same => (by cases same), fun _ same => (by cases same)⟩

theorem mapPage_affords (pa perm : BitVec 64) (budgeted : Budgeted cfg places cut s)
    (clear : s.Clear va 0)
    (served : (0, region 1 va) ∈ places ∧ (1, region 2 va) ∈ places) :
    Affords cfg places cut
      (fun s' => Budgeted cfg places cut s' ∧ ∀ a, s.Clear a 0 → s'.Clear a 0)
      (mapPage cfg va pa perm s) := by
  obtain ⟨lvl, shape⟩ := budgeted.shaped
  have atRoot : s.At va (0 + (SV39_LEVELS - 1)) s.kernelRoot := rfl
  have walked := walkDown_affords (SV39_LEVELS - 1) shape budgeted.accounted (by decide) atRoot
    clear (by
      intro l _ high
      rw [SV39_LEVELS] at high
      obtain rfl | rfl : l = 0 ∨ l = 1 := by omega
      · exact served.1
      · exact served.2)
  have descended := walkDown_spec (SV39_LEVELS - 1) shape (by decide) atRoot clear
  have spec := mapPage_spec pa perm budgeted.shaped clear
  unfold mapPage at spec ⊢
  cases outcome : walkDown cfg va 0 (SV39_LEVELS - 1) s.kernelRoot s with
  | error stop =>
      rw [outcome] at walked
      exact walked.of_error
  | ok result =>
      rw [outcome] at descended spec
      obtain ⟨lvl', reached⟩ := descended
      have wrote : Wrote cfg s 0 va _ _ := spec
      have accounted := (walked.ok _ outcome).write_end reached.shape (by decide) reached.here
        (fun positive => absurd positive (by omega)) (leafPte pa perm)
      refine .of_ok ⟨⟨wrote.shaped, accounted⟩, ?_⟩
      intro a clearA l pte final
      rw [wrote.leaves a] at final
      by_cases same : SameBlock 0 va a
      · rw [if_pos same, entry] at final
        split at final
        · cases final
          exact le_refl 0
        · cases final
      · rw [if_neg same] at final
        exact clearA l pte final

/-- Pages mapped one after another, each at places of its own. -/
theorem mapPages_affords {virt size : BitVec 64} (phys perm : BitVec 64)
    (budgeted : Budgeted cfg places cut s)
    (clear : ∀ i, i < pageCount size → s.Clear (pageAfter virt i) 0)
    (served : ∀ i, i < pageCount size → (0, region 1 (pageAfter virt i)) ∈ places ∧
      (1, region 2 (pageAfter virt i)) ∈ places) :
    Affords cfg places cut (Budgeted cfg places cut)
      (forPages size
        (fun s i => mapPage cfg (pageAfter virt i) (pageAfter phys i) perm s) s) := by
  let I : Nat → MmuState → Prop := fun _ s' => Budgeted cfg places cut s' ∧
    ∀ i, i < pageCount size → s'.Clear (pageAfter virt i) 0
  have loop : Affords cfg places cut (I (pageCount size)) (forPages size
      (fun s i => mapPage cfg (pageAfter virt i) (pageAfter phys i) perm s) s) := by
    apply Affords.forPages
    · exact ⟨budgeted, clear⟩
    · intro i s' inside before
      have page := mapPage_affords (pageAfter phys i) perm before.1 (before.2 i inside)
        (served i inside)
      refine ⟨fun s'' done => ?_, page.panic⟩
      obtain ⟨after, stays⟩ := page.ok s'' done
      exact ⟨after, fun j below => stays _ (before.2 j below)⟩
  exact ⟨fun s' done => (loop.ok s' done).1, loop.panic⟩

theorem archMemUnmap_affords {addr size : BitVec 64} (budgeted : Budgeted cfg places cut s) :
    Affords cfg places cut (Budgeted cfg places cut) (archMemUnmap addr size s) := by
  have step : ∀ i s', i < pageCount size → Budgeted cfg places cut s' →
      Affords cfg places cut (Budgeted cfg places cut)
        (.ok (unmapPage (pageAfter addr i) s')) := by
    intro i s' _ before
    have spec := unmapPage_spec (pageAfter addr i) before.shaped
    obtain ⟨lvl, shape⟩ := before.shaped
    have accounted := unmapFrom_accounted (SV39_LEVELS - 1) shape before.accounted (by decide)
      (show s'.At (pageAfter addr i) 2 s'.kernelRoot from rfl)
    exact .of_ok ⟨spec.shaped, accounted⟩
  let I : Nat → MmuState → Prop := fun _ => Budgeted cfg places cut
  have loop : Affords cfg places cut (I (pageCount size)) (archMemUnmap addr size s) :=
    Affords.forPages budgeted step
  exact loop

theorem zRiscvMmuMapRaw_affords {pa pteBits : BitVec 64} {target : Nat}
    (budgeted : Budgeted cfg places cut s) (clear : s.Clear va target)
    (raw : RawLeaf pteBits target)
    (served : ∀ l, target ≤ l → l < 2 → (l, region (l + 1) va) ∈ places) :
    Affords cfg places cut
      (Budgeted cfg places (cut ++ cutOff cfg s (.mapRaw va pa pteBits target)))
      (zRiscvMmuMapRaw cfg va pa pteBits target s) := by
  have spec : Ends cfg s (Wrote cfg s target va (physToPpn pa ||| pteBits))
      (zRiscvMmuMapRaw cfg va pa pteBits target s) :=
    zRiscvMmuMapRaw_spec budgeted.shaped clear raw
  unfold zRiscvMmuMapRaw at spec ⊢
  split
  · rename_i asserted
    rw [if_pos asserted] at spec
    have inside : target < 3 := asserted.1
    have top : target + (SV39_LEVELS - 1 - target) = 2 := by
      rw [SV39_LEVELS]
      omega
    obtain ⟨lvl, shape⟩ := budgeted.shaped
    have atRoot : s.At va (target + (SV39_LEVELS - 1 - target)) s.kernelRoot := by
      rw [top]
      rfl
    have walked := walkDown_affords (SV39_LEVELS - 1 - target) shape budgeted.accounted
      (Nat.le_of_eq top) atRoot clear (fun l low high => served l low (by omega))
    have descended := walkDown_spec (SV39_LEVELS - 1 - target) shape (Nat.le_of_eq top) atRoot clear
    cases outcome : walkDown cfg va target (SV39_LEVELS - 1 - target) s.kernelRoot s with
    | error stop =>
        rw [outcome] at walked
        exact walked.of_error
    | ok result =>
        rw [outcome] at descended spec
        obtain ⟨lvl', reached⟩ := descended
        have wrote : Wrote cfg s target va _ _ := spec
        have accounted := (walked.ok _ outcome).write reached.shape (by omega) reached.here
          (physToPpn pa ||| pteBits)
        have lost : cutOff cfg s (.mapRaw va pa pteBits target) = below child tableKeys
            result.2.words target (result.2.words result.1 (vpn va target)) := by
          simp only [cutOff, outcome]
        rw [lost]
        exact .of_ok ⟨wrote.shaped, accounted⟩
  · exact ⟨fun _ same => (by cases same), fun _ same => (by cases same)⟩

theorem exec_affords {call : Call} (budgeted : Budgeted cfg places cut s) (clear : call.Clear s)
    (raw : call.RawLeaf)
    (served : ∀ l, l < 2 → ∀ r ∈ callRegions (l + 1) call, (l, r) ∈ places) :
    Affords cfg places cut (Budgeted cfg places (cut ++ cutOff cfg s call)) (call.exec cfg s) := by
  cases call with
  | memMap virt phys size flags =>
      rw [show cutOff cfg s (.memMap virt phys size flags) = [] from rfl, List.append_nil]
      apply mapPages_affords phys (permFromFlags cfg flags) budgeted clear
      intro i inside
      have touched : ∀ l, region l (pageAfter virt i) ∈ pageRegions l virt size := fun l =>
        List.mem_map.mpr ⟨i, List.mem_range.mpr inside, rfl⟩
      exact ⟨served 0 (by omega) _ (touched 1), served 1 (by omega) _ (touched 2)⟩
  | memUnmap addr size =>
      rw [show cutOff cfg s (.memUnmap addr size) = [] from rfl, List.append_nil]
      exact archMemUnmap_affords budgeted
  | mapRaw va pa pteBits target =>
      apply zRiscvMmuMapRaw_affords budgeted clear raw
      intro l low high
      apply served l high
      rw [callRegions, if_pos (by omega)]
      exact List.mem_singleton_self _

theorem zRiscvMmuInit_affords {reset : MmuState} (atReset : AtReset reset)
    (rootPlace : (2, 0) ∈ places)
    (served : ∀ l, l < 2 → ∀ r ∈ pageRegions (l + 1) cfg.zMappedStart
      (cfg.zMappedEnd - cfg.zMappedStart), (l, r) ∈ places) :
    Affords cfg places [] (Budgeted cfg places []) (zRiscvMmuInit cfg reset) := by
  unfold zRiscvMmuInit
  cases allocation : allocTable cfg reset with
  | error stop =>
      have none : tablesUsed cfg reset = 0 := by
        apply Finset.card_eq_zero.mpr
        apply Finset.filter_false_of_mem
        intro i _
        rw [atReset.unused i]
        decide
      have all := tablesUsed_exhausted allocation
      have positive := Finset.card_pos.mpr ⟨_, rootPlace⟩
      refine ⟨fun _ same => (by cases same), fun _ _ => ?_⟩
      rw [List.length_nil]
      omega
  | ok result =>
      obtain ⟨root, s₁⟩ := result
      have allocated := allocTable_spec allocation
      have unused : ∀ m, ¬ HandedOut cfg reset m := by
        rintro m ⟨i, -, used, -⟩
        rw [atReset.unused i] at used
        cases used
      have device := mapGigapage_spec 0#64 0#64 (PTE_R ||| PTE_W) (allocated.root unused).1
        (by decide)
      obtain ⟨lvl, shape⟩ := (allocated.root unused).1
      have first : Accounted cfg places [] { s₁ with kernelRoot := root } := by
        intro t out
        obtain old | rfl := (allocated.handedOut t).mp out
        · exact absurd old (unused t)
        · exact Or.inr ⟨0#64, 2, le_refl 2, rootPlace, rfl⟩
      have blank : child (s₁.words root (vpn 0#64 2)) = none := by
        rw [allocated.blank, child_zero.1]
      have atRoot : ({ s₁ with kernelRoot := root } : MmuState).At 0#64 2 root := rfl
      have gigapage := first.write_end shape (le_refl 2) atRoot (fun _ => blank)
        (leafPte 0#64 (PTE_R ||| PTE_W))
      have image := mapPages_affords cfg.zMappedStart (PTE_R ||| PTE_W ||| PTE_X)
        ⟨device.shaped, gigapage⟩ (fun _ inside => allocated.imagePage_clear unused inside) (by
          intro i inside
          have touched : ∀ l, region l (pageAfter cfg.zMappedStart i) ∈
              pageRegions l cfg.zMappedStart (cfg.zMappedEnd - cfg.zMappedStart) := fun l =>
            List.mem_map.mpr ⟨i, List.mem_range.mpr inside, rfl⟩
          exact ⟨served 0 (by omega) _ (touched 1), served 1 (by omega) _ (touched 2)⟩)
      dsimp only
      split
      · rename_i stop failed
        rw [failed] at image
        exact image.of_error
      · rename_i s₂ mapped
        obtain ⟨⟨lvl', shape'⟩, accounted⟩ := image.ok s₂ mapped
        exact .of_ok ⟨⟨lvl', shape'.root, shape'.rootLevel, shape'.bounded, shape'.forest,
          shape'.exact⟩, accounted⟩

/-- The places of the tables that a run asks for. -/
def runPlaces (cfg : Config) (calls : List Call) : Finset (Nat × Nat) :=
  insert (2, 0) ((regions cfg calls 2).image (Prod.mk 1) ∪ (regions cfg calls 1).image (Prod.mk 0))

theorem runPlaces_card (cfg : Config) (calls : List Call) :
    (runPlaces cfg calls).card ≤ budget cfg calls := by
  have all := Finset.card_insert_le (2, 0)
    ((regions cfg calls 2).image (Prod.mk 1) ∪ (regions cfg calls 1).image (Prod.mk 0))
  have both := Finset.card_union_le ((regions cfg calls 2).image (Prod.mk 1))
    ((regions cfg calls 1).image (Prod.mk 0))
  have gigs := Finset.card_image_le (s := regions cfg calls 2) (f := Prod.mk 1)
  have megs := Finset.card_image_le (s := regions cfg calls 1) (f := Prod.mk 0)
  rw [runPlaces, budget]
  omega

theorem mem_runPlaces {cfg : Config} {calls : List Call} {l r : Nat} (low : l < 2)
    (touched : r ∈ regions cfg calls (l + 1)) : (l, r) ∈ runPlaces cfg calls := by
  apply Finset.mem_insert_of_mem
  obtain rfl | rfl : l = 0 ∨ l = 1 := by omega
  · exact Finset.mem_union_right _ (Finset.mem_image_of_mem _ touched)
  · exact Finset.mem_union_left _ (Finset.mem_image_of_mem _ touched)

theorem root_place (cfg : Config) (calls : List Call) : (2, 0) ∈ runPlaces cfg calls :=
  Finset.mem_insert_self _ _

theorem boot_places (cfg : Config) (calls : List Call) :
    ∀ l, l < 2 → ∀ r ∈ pageRegions (l + 1) cfg.zMappedStart (cfg.zMappedEnd - cfg.zMappedStart),
      (l, r) ∈ runPlaces cfg calls := by
  intro l low r touched
  apply mem_runPlaces low
  exact List.mem_toFinset.mpr (List.mem_append_left _ touched)

theorem call_places (cfg : Config) {calls : List Call} {call : Call} (member : call ∈ calls) :
    ∀ l, l < 2 → ∀ r ∈ callRegions (l + 1) call, (l, r) ∈ runPlaces cfg calls := by
  intro l low r touched
  apply mem_runPlaces low
  apply List.mem_toFinset.mpr
  exact List.mem_append_right _ (List.mem_flatMap.mpr ⟨call, member, touched⟩)

theorem runPlaces_mono (cfg : Config) (calls : List Call) (call : Call) :
    runPlaces cfg calls ⊆ runPlaces cfg (calls ++ [call]) := by
  have more : ∀ level, regions cfg calls level ⊆ regions cfg (calls ++ [call]) level := by
    intro level r touched
    simp only [regions, List.flatMap_append, List.mem_toFinset, List.mem_append] at touched ⊢
    obtain boot | earlier := touched
    · exact Or.inl boot
    · exact Or.inr (Or.inl earlier)
  apply Finset.insert_subset_insert
  exact Finset.union_subset_union (Finset.image_subset_image (more 2))
    (Finset.image_subset_image (more 1))

/-- No valid leaf lies above the target entry, and a raw superpage entry is no link. -/
def Unobstructed (m : Metered) (call : Call) : Prop := call.Clear m.tables ∧ call.RawLeaf

theorem run_budgeted {calls : List Call} {m : Metered}
    (run : Run (Metered.Start cfg) (Guarded Unobstructed (Metered.Step cfg)) calls m) :
    Budgeted cfg (runPlaces cfg calls) m.cut m.tables := by
  induction run with
  | start initial =>
      obtain ⟨⟨reset, atReset, booted⟩, empty⟩ := initial
      have boot := zRiscvMmuInit_affords atReset (root_place cfg []) (boot_places cfg [])
      rw [empty]
      exact boot.ok _ booted
  | @snoc calls m m' call _ next ih =>
      obtain ⟨⟨clear, raw⟩, returns, grown⟩ := next
      have budgeted : Budgeted cfg (runPlaces cfg (calls ++ [call])) m.cut m.tables :=
        ⟨ih.shaped, ih.accounted.mono (runPlaces_mono cfg calls call)⟩
      have done := exec_affords budgeted clear raw
        (call_places cfg (List.mem_append_right calls (List.mem_singleton_self call)))
      rw [grown]
      exact done.ok _ returns

/-- The tables used stay within the budget of the regions and the tables cut off, and
no call panics while these fit the pool. -/
theorem tables_within_budget (cfg : Config) :
    (∀ reset, AtReset reset → budget cfg [] ≤ cfg.numTables →
      ∀ stopped, zRiscvMmuInit cfg reset ≠ .error (.panic stopped)) ∧
    ∀ calls m, Run (Metered.Start cfg) (Guarded Unobstructed (Metered.Step cfg)) calls m →
      tablesUsed cfg m.tables ≤ budget cfg calls + m.cut.length ∧
      ∀ call, Unobstructed m call →
        budget cfg (calls ++ [call]) + m.cut.length ≤ cfg.numTables →
        ∀ stopped, call.exec cfg m.tables ≠ .error (.panic stopped) := by
  constructor
  · intro reset atReset fits stopped panicked
    have boot := zRiscvMmuInit_affords atReset (root_place cfg []) (boot_places cfg [])
    have short := boot.panic stopped panicked
    have card := runPlaces_card cfg []
    rw [List.length_nil] at short
    omega
  · intro calls m run
    have budgeted := run_budgeted run
    constructor
    · have used := budgeted.accounted.tablesUsed_le
      have card := runPlaces_card cfg calls
      omega
    · intro call unobstructed fits stopped panicked
      have later : Budgeted cfg (runPlaces cfg (calls ++ [call])) m.cut m.tables :=
        ⟨budgeted.shaped, budgeted.accounted.mono (runPlaces_mono cfg calls call)⟩
      have affords := exec_affords later unobstructed.1 unobstructed.2
        (call_places cfg (List.mem_append_right calls (List.mem_singleton_self call)))
      have short := affords.panic stopped panicked
      have card := runPlaces_card cfg (calls ++ [call])
      omega

/-- The executable step. -/
def Metered.next (cfg : Config) (m : Metered) (call : Call) : Option Metered :=
  (call.exec cfg m.tables).toOption.map fun tables =>
    ⟨tables, m.cut ++ cutOff cfg m.tables call⟩

theorem Metered.next_step {m m' : Metered} {call : Call} (fired : m.next cfg call = some m') :
    m.Step cfg call m' := by
  unfold Metered.next at fired
  cases outcome : call.exec cfg m.tables with
  | error stop =>
      rw [outcome] at fired
      cases fired
  | ok tables =>
      rw [outcome] at fired
      rw [← Option.some.inj fired]
      exact ⟨outcome, rfl⟩

instance (m : Metered) (call : Call) : Decidable (Unobstructed m call) :=
  inferInstanceAs (Decidable (_ ∧ _))

/-- A test after a list of unobstructed calls from boot on the small board. -/
def afterMetered (calls : List Call) (test : Metered → Bool) : Bool :=
  afterInit fun tables =>
    (replay (checked Unobstructed (Metered.next smallBoard)) ⟨tables, []⟩ calls).any test

theorem afterMetered_run {calls : List Call} {test : Metered → Bool}
    (passed : afterMetered calls test = true) :
    ∃ m, Run (Metered.Start smallBoard) (Guarded Unobstructed (Metered.Step smallBoard)) calls m ∧
      test m = true := by
  obtain ⟨tables, booted, rest⟩ := afterInit_booted passed
  cases replayed : replay (checked Unobstructed (Metered.next smallBoard)) ⟨tables, []⟩ calls with
  | none =>
      rw [replayed] at rest
      cases rest
  | some m =>
      rw [replayed] at rest
      have start : Metered.Start smallBoard ⟨tables, []⟩ := ⟨booted, rfl⟩
      have run := (Run.start start).replay replayed
      refine ⟨m, run.of_checked.mono ?_, rest⟩
      rintro m call m' ⟨unobstructed, fired⟩
      exact ⟨unobstructed, Metered.next_step fired⟩

/-- A megapage written over the link of a mapped page, and another page after it. -/
theorem tables_within_budget_page :
    let calls : List Call := [.memMap 0xC0000000 0x90000000 4096 8,
      .mapRaw 0xC0000000 0x90000000 0xcf 1]
    ∃ m : Metered, m.cut.length = 1 ∧
      tablesUsed smallBoard m.tables ≤ budget smallBoard calls + m.cut.length ∧
      ∀ stopped, (Call.memMap 0xC0400000 0x90001000 4096 8).exec smallBoard m.tables ≠
        .error (.panic stopped) := by
  intro calls
  have passed : afterMetered calls (fun m => decide (m.cut.length = 1 ∧
      Unobstructed m (.memMap 0xC0400000 0x90001000 4096 8))) = true := by
    decide +kernel
  obtain ⟨m, run, test⟩ := afterMetered_run passed
  obtain ⟨cut, unobstructed⟩ := of_decide_eq_true test
  obtain ⟨used, fits⟩ := (tables_within_budget smallBoard).2 calls m run
  refine ⟨m, cut, used, fits _ unobstructed ?_⟩
  rw [cut]
  decide +kernel

/-- A megapage written over the link of a mapped page, unmapped, and the page mapped again. -/
theorem megapage_leaks_table :
    ¬ ∀ (cfg : Config) (calls : List Call) (m : Metered),
      Run (Metered.Start cfg) (Guarded Unobstructed (Metered.Step cfg)) calls m →
      tablesUsed cfg m.tables ≤ budget cfg calls := by
  intro claim
  let calls : List Call := [.memMap 0xC0000000 0x90000000 4096 8,
    .mapRaw 0xC0000000 0x90000000 0xcf 1, .memUnmap 0xC0000000 4096,
    .memMap 0xC0000000 0x90000000 4096 8]
  have passed : afterMetered calls (fun m =>
      decide (budget smallBoard calls < tablesUsed smallBoard m.tables)) = true := by
    decide +kernel
  obtain ⟨m, run, leaked⟩ := afterMetered_run passed
  exact absurd (claim smallBoard calls m run) (Nat.not_le.mpr (of_decide_eq_true leaked))

end ZephyrRiscv.TableBudget
