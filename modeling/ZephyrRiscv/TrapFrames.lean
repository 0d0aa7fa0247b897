import ZephyrRiscv.NestedTraps

set_option autoImplicit false

namespace ZephyrRiscv

open Sv39 Verdict Preemption

def setRegOf (regs : Reg → BitVec 64) (r : Reg) (value : BitVec 64) : Reg → BitVec 64 :=
  fun q => if q = r then value else regs q

theorem setRegOf_same (regs : Reg → BitVec 64) (r : Reg) (value : BitVec 64) :
    setRegOf regs r value r = value := if_pos rfl

theorem setRegOf_other (regs : Reg → BitVec 64) {r q : Reg} (value : BitVec 64) (apart : q ≠ r) :
    setRegOf regs r value q = regs q := if_neg apart

/-- An instruction that only changes the user state, given the CSRs that it reads. -/
def UserState.exec (read : Csr → BitVec 64) (k : UserState) : Instr → UserState
  | .sd r offset => { k with mem := k.mem.store (k.regs .sp + BitVec.ofNat 64 offset) (k.regs r) }
  | .ld r offset =>
      { k with regs := setRegOf k.regs r (k.mem (k.regs .sp + BitVec.ofNat 64 offset)) }
  | .csrr r csr => { k with regs := setRegOf k.regs r (read csr) }
  | .mv rd rs => { k with regs := setRegOf k.regs rd (k.regs rs) }
  | _ => k

/-- Code inside a frame: it reads some CSRs and leaves the stack pointer alone. -/
def Instr.inside (size : Nat) (csrs : List Csr) : Instr → Bool
  | .sd _ offset => offset < size
  | .ld r offset => r != .sp && offset < size
  | .csrr r csr => r != .sp && csrs.contains csr
  | .mv rd _ => rd != .sp
  | _ => false

theorem UserState.exec_sp (read : Csr → BitVec 64) (k : UserState) {size : Nat} {csrs : List Csr}
    {i : Instr} (inside : i.inside size csrs = true) :
    (k.exec read i).regs .sp = k.regs .sp := by
  cases i with
  | sd r offset => rfl
  | ld r offset =>
    simp only [Instr.inside, Bool.and_eq_true, bne_iff_ne] at inside
    exact setRegOf_other _ _ (Ne.symm inside.1)
  | csrr r csr =>
    simp only [Instr.inside, Bool.and_eq_true, bne_iff_ne] at inside
    exact setRegOf_other _ _ (Ne.symm inside.1)
  | mv rd rs =>
    simp only [Instr.inside, bne_iff_ne] at inside
    exact setRegOf_other _ _ (Ne.symm inside)
  | _ => rfl

/-- The address of a word of a frame. -/
theorem toNat_offset {base : BitVec 64} {size offset : Nat} (fits : base.toNat + size ≤ 2 ^ 64)
    (inside : offset < size) : (base + BitVec.ofNat 64 offset).toNat = base.toNat + offset := by
  rw [BitVec.toNat_add, BitVec.toNat_ofNat]
  omega

/-- Code inside a frame does not see the memory below its stack pointer. -/
theorem UserState.Agrees.exec {k k' : UserState} (agrees : k.Agrees k') {size : Nat}
    {csrs : List Csr} {i : Instr} (inside : i.inside size csrs = true)
    (fits : (k.regs .sp).toNat + size ≤ 2 ^ 64) {read read' : Csr → BitVec 64}
    (reads : ∀ csr ∈ csrs, read' csr = read csr) : (k.exec read i).Agrees (k'.exec read' i) := by
  have sp : ((k.exec read i).regs .sp).toNat = (k.regs .sp).toNat := by
    rw [UserState.exec_sp read k inside]
  have regs := agrees.regs
  cases i with
  | sd r offset =>
    refine ⟨regs, ?_⟩
    intro a above
    simp only [UserState.exec, Mem.store, regs]
    split
    · rfl
    · exact agrees.mem a above
  | ld r offset =>
    simp only [Instr.inside, Bool.and_eq_true, decide_eq_true_eq] at inside
    have address := toNat_offset fits inside.2
    have value := agrees.mem (k.regs .sp + BitVec.ofNat 64 offset) (by omega)
    constructor
    · simp only [UserState.exec, regs, value]
    · intro a above
      exact agrees.mem a (by omega)
  | csrr r csr =>
    simp only [Instr.inside, Bool.and_eq_true, List.contains_iff_mem] at inside
    constructor
    · simp only [UserState.exec, regs, reads csr inside.2]
    · intro a above
      exact agrees.mem a (by omega)
  | mv rd rs =>
    constructor
    · simp only [UserState.exec, regs]
    · intro a above
      exact agrees.mem a (by omega)
  | _ => cases inside

/-- An instruction inside a frame changes only the user state of a hart. -/
theorem exec_user (sink : Sink) (env : Surroundings) (h : Hart) {size : Nat} {csrs : List Csr}
    {i : Instr} (inside : i.inside size csrs = true) :
    exec sink env h i = some (h.setUser (h.user.exec h.csrs.read i)) := by
  cases i with
  | sd r offset => rfl
  | ld r offset => rfl
  | csrr r csr => rfl
  | mv rd rs => rfl
  | _ => cases inside

/-- A hart in a state `I` whose user state agrees with `k`. -/
structure Held (I : Hart → Prop) (k : UserState) (g : Hart) : Prop where
  kept : I g
  agrees : k.Agrees g.user

/-- A state that says nothing about the user state. -/
def UserFree (I : Hart → Prop) : Prop := ∀ g k, I g → I (g.setUser k)

/-- A triple of vector code. -/
abbrev CodeTriple (c : Compiled) (sink : Sink) (traps : Trap → Hart → Hart → Prop)
    (P : Hart → Prop) (code : List Instr) (Q : Hart → Prop) : Prop :=
  Triple (Interrupted traps) (Executes c sink traps) P code Q

/-- Interruptions of a state with enough stack keep it, and all but dead stack. -/
def Rely (traps : Trap → Hart → Hart → Prop) (I : Hart → Prop) (low : Nat) : Prop :=
  ∀ g g', I g → low ≤ (g.regs .sp).toNat → Interrupted traps g g' →
    I g' ∧ g.user.Resumes g'.user

section Straight

variable {c : Compiled} {sink : Sink} {traps : Trap → Hart → Hart → Prop} {I : Hart → Prop}
  {low : Nat}

theorem Held.stable (rely : Rely traps I low) {k : UserState} (room : low ≤ (k.regs .sp).toNat) :
    Stable (Interrupted traps) (Held I k) := by
  intro g g' held taken
  have regs : g.regs = k.regs := held.agrees.regs
  obtain ⟨kept, resumes⟩ := rely g g' held.kept (by rw [regs]; exact room) taken
  exact ⟨kept, held.agrees.trans resumes.toAgrees⟩

theorem Executes.plain_inv {i : Instr} (simple : i.plain = true) {h h' : Hart}
    (executed : Executes c sink traps i h h') :
    ∃ env pc h₁, exec sink env h i = some h₁ ∧ h' = { h₁ with pc } := by
  cases executed with
  | plain env pc _ done => exact ⟨env, pc, _, done, rfl⟩
  | _ => cases simple

theorem Instr.plain_of_inside {size : Nat} {csrs : List Csr} {i : Instr}
    (inside : i.inside size csrs = true) : i.plain = true := by
  cases i with
  | callM => cases inside
  | callS => cases inside
  | mret => cases inside
  | sret => cases inside
  | _ => rfl

/-- A stretch of code inside a frame. -/
theorem held_straight (size : Nat) (csrs : List Csr) {code : List Instr}
    (inside : ∀ i ∈ code, i.inside size csrs = true) (userFree : UserFree I)
    (rely : Rely traps I low) {read : Csr → BitVec 64}
    (reads : ∀ g, I g → ∀ csr ∈ csrs, g.csrs.read csr = read csr) {k : UserState}
    (room : low ≤ (k.regs .sp).toNat) (fits : (k.regs .sp).toNat + size ≤ 2 ^ 64) :
    CodeTriple c sink traps (Held I k) code
      (Held I (code.foldl (UserState.exec read) k)) := by
  refine Triple.foldl (A := Held I) (J := fun k' => k'.regs .sp = k.regs .sp) ?_ ?_ rfl
  · intro i member k' sp
    rw [UserState.exec_sp read k' (inside i member), sp]
  · intro i member k' sp
    have stable : Stable (Interrupted traps) (Held I k') :=
      Held.stable rely (by rw [sp]; exact room)
    refine stable.single ?_
    intro g g' held executed
    obtain ⟨env, pc, g₁, done, rfl⟩ :=
      executed.plain_inv (Instr.plain_of_inside (inside i member))
    rw [exec_user sink env g (inside i member)] at done
    cases done
    have agrees := held.agrees.exec (inside i member) (by rw [sp]; exact fits)
      (reads g held.kept)
    exact ⟨userFree g { g.user.exec g.csrs.read i with pc } held.kept, agrees.regs, agrees.mem⟩

/-- A CSR is written from a register. -/
theorem held_csrw {I' : Hart → Prop} {csr : Csr} {r : Reg} {k : UserState} (userFree : UserFree I')
    (rely : Rely traps I low) (room : low ≤ (k.regs .sp).toNat)
    (write : ∀ g, I g → I' { g with csrs := g.csrs.write (k.regs r) csr }) :
    CodeTriple c sink traps (Held I k) [.csrw csr r] (Held I' k) := by
  have stable : Stable (Interrupted traps) (Held I k) := Held.stable rely room
  refine stable.single ?_
  intro g g' held executed
  obtain ⟨env, pc, g₁, done, rfl⟩ := executed.plain_inv rfl
  cases done
  have value : g.regs r = k.regs r := congrFun held.agrees.regs r
  have written := userFree _ ⟨pc, g.regs, g.mem⟩ (write g held.kept)
  rw [← value] at written
  exact ⟨written, held.agrees.regs, held.agrees.mem⟩

/-- The stack pointer below a frame. -/
def lowered (sp : BitVec 64) (size : Nat) : BitVec 64 := sp + BitVec.ofInt 64 (-size)

theorem lowered_toNat (sp : BitVec 64) {size : Nat} (room : size ≤ sp.toNat) :
    (lowered sp size).toNat = sp.toNat - size := by
  have := sp.isLt
  rw [lowered, BitVec.toNat_add, BitVec.toNat_ofInt]
  omega

theorem lowered_offset (sp : BitVec 64) {size offset : Nat} (room : size ≤ sp.toNat)
    (inside : offset < size) :
    (lowered sp size + BitVec.ofNat 64 offset).toNat = sp.toNat - size + offset := by
  have lower := lowered_toNat sp room
  have top := sp.isLt
  rw [← lower]
  exact toNat_offset (by omega) inside

theorem lowered_raised (sp : BitVec 64) (size : Nat) :
    lowered sp size + BitVec.ofInt 64 size = sp := by
  rw [lowered, BitVec.add_assoc, ← BitVec.ofInt_add, Int.add_left_neg]
  simp

/-- A frame is pushed: what is in it is unknown. -/
theorem held_push {size : Nat} (userFree : UserFree I) (rely : Rely traps I low) {k₀ : UserState}
    (room : low + size ≤ (k₀.regs .sp).toNat) :
    CodeTriple c sink traps (Held I k₀) [.addiSp (-size)]
      fun g => ∃ k : UserState, (k.regs = setRegOf k₀.regs .sp (lowered (k₀.regs .sp) size) ∧
        ∀ a : BitVec 64, (k₀.regs .sp).toNat ≤ a.toNat → k.mem a = k₀.mem a) ∧ Held I k g := by
  have stable : Stable (Interrupted traps) (Held I k₀) := Held.stable rely (by omega)
  refine stable.single ?_
  intro g g' held executed
  obtain ⟨env, pc, g₁, done, rfl⟩ := executed.plain_inv rfl
  cases done
  have regs : g.regs = k₀.regs := held.agrees.regs
  let k : UserState := ⟨pc, setRegOf k₀.regs .sp (lowered (k₀.regs .sp) size), g.mem⟩
  have after : ({ g.setReg .sp (g.regs .sp + BitVec.ofInt 64 (-size)) with pc } : Hart) =
      g.setUser k := by
    rw [Hart.setReg, regs]
    rfl
  refine ⟨k, ⟨rfl, held.agrees.mem⟩, ?_⟩
  rw [after]
  exact ⟨userFree g k held.kept, .refl k⟩

/-- A frame is popped: its words are dead. -/
theorem held_pop {size : Nat} (userFree : UserFree I) (rely : Rely traps I low) {k : UserState}
    {sp : BitVec 64} (base : k.regs .sp = lowered sp size) (room : low + size ≤ sp.toNat) :
    CodeTriple c sink traps (Held I k) [.addiSp size]
      (Held I { k with regs := setRegOf k.regs .sp sp }) := by
  have fits : size ≤ sp.toNat := by omega
  have lower := lowered_toNat sp fits
  have stable : Stable (Interrupted traps) (Held I k) :=
    Held.stable rely (by rw [base]; omega)
  refine stable.single ?_
  intro g g' held executed
  obtain ⟨env, pc, g₁, done, rfl⟩ := executed.plain_inv rfl
  cases done
  have regs : g.regs = k.regs := held.agrees.regs
  have after : ({ g.setReg .sp (g.regs .sp + BitVec.ofInt 64 size) with pc } : Hart) =
      g.setUser ⟨pc, setRegOf k.regs .sp sp, g.mem⟩ := by
    rw [Hart.setReg, regs, base, lowered_raised]
    rfl
  rw [after]
  refine ⟨userFree g _ held.kept, rfl, ?_⟩
  intro a above
  change (setRegOf k.regs .sp sp .sp).toNat ≤ a.toNat at above
  rw [setRegOf_same] at above
  exact held.agrees.mem a (by rw [base]; omega)

end Straight

theorem stores_foldl (read : Csr → BitVec 64) {saves : List (Reg × Nat)}
    (inside : ∀ s ∈ saves, s.2 < 256) (apart : (saves.map Prod.snd).Nodup) (k : UserState) :
    let k' := (stores saves).foldl (UserState.exec read) k
    k'.regs = k.regs ∧
      (∀ s ∈ saves, k'.mem (k.regs .sp + BitVec.ofNat 64 s.2) = k.regs s.1) ∧
      ∀ a, (∀ s ∈ saves, a ≠ k.regs .sp + BitVec.ofNat 64 s.2) → k'.mem a = k.mem a := by
  induction saves generalizing k with
  | nil => exact ⟨rfl, by simp, fun _ _ => rfl⟩
  | cons s saves ih =>
    simp only [List.map_cons, List.nodup_cons] at apart
    let k₁ := k.exec read (.sd s.1 s.2)
    obtain ⟨regs, saved, others⟩ :=
      ih (fun s' member => inside s' (List.mem_cons_of_mem s member)) apart.2 k₁
    have here := inside s List.mem_cons_self
    refine ⟨regs, ?_, ?_⟩
    · intro s' member
      rcases List.mem_cons.mp member with rfl | later
      · have untouched : ∀ s ∈ saves, k₁.regs .sp + BitVec.ofNat 64 s'.2 ≠
            k₁.regs .sp + BitVec.ofNat 64 s.2 := by
          intro s later same
          have offset := offset_injective _ here (inside s (List.mem_cons_of_mem s' later)) same
          exact apart.1 (offset ▸ List.mem_map_of_mem later)
        exact (others _ untouched).trans (Mem.store_same ..)
      · exact saved s' later
    · intro a other
      have untouched := others a fun s' later => other s' (List.mem_cons_of_mem s later)
      exact untouched.trans (Mem.store_other _ _ _ _ (other s List.mem_cons_self))

theorem loads_foldl (read : Csr → BitVec 64) {saves : List (Reg × Nat)}
    (apart : (saves.map Prod.fst).Nodup) (stack : Reg.sp ∉ saves.map Prod.fst) (k : UserState) :
    let k' := (loads saves).foldl (UserState.exec read) k
    k'.mem = k.mem ∧
      (∀ s ∈ saves, k'.regs s.1 = k.mem (k.regs .sp + BitVec.ofNat 64 s.2)) ∧
      ∀ r, r ∉ saves.map Prod.fst → k'.regs r = k.regs r := by
  induction saves generalizing k with
  | nil => exact ⟨rfl, by simp, fun _ _ => rfl⟩
  | cons s saves ih =>
    simp only [List.map_cons, List.nodup_cons] at apart
    simp only [List.map_cons, List.mem_cons, not_or] at stack
    let k₁ := k.exec read (.ld s.1 s.2)
    have sp : k₁.regs .sp = k.regs .sp := setRegOf_other _ _ stack.1
    obtain ⟨mem, restored, others⟩ := ih apart.2 stack.2 k₁
    rw [sp] at restored
    refine ⟨mem, ?_, ?_⟩
    · intro s' member
      rcases List.mem_cons.mp member with rfl | later
      · exact (others s'.1 apart.1).trans (setRegOf_same ..)
      · exact restored s' later
    · intro r absent
      simp only [List.map_cons, List.mem_cons, not_or] at absent
      exact (others r absent.2).trans (setRegOf_other _ _ absent.1)

/-- A user state inside a frame that was pushed at `k₀`: the frame still holds the saved registers,
and nothing else of the interrupted program is gone. -/
structure Framed (size : Nat) (saves : List (Reg × Nat)) (k₀ k : UserState) : Prop where
  sp : k.regs .sp = lowered (k₀.regs .sp) size
  unsaved : ∀ r, r ≠ .sp → r ∉ saves.map Prod.fst → k.regs r = k₀.regs r
  slots : ∀ s ∈ saves, k.mem (lowered (k₀.regs .sp) size + BitVec.ofNat 64 s.2) = k₀.regs s.1
  above : ∀ a : BitVec 64, (k₀.regs .sp).toNat ≤ a.toNat → k.mem a = k₀.mem a

section Frame

variable {c : Compiled} {sink : Sink} {traps : Trap → Hart → Hart → Prop} {I I' : Hart → Prop}
  {low size : Nat} {saves : List (Reg × Nat)} {k₀ : UserState}

/-- The words of a frame lie below the interrupted program's stack pointer. -/
theorem frame_below (room : size ≤ (k₀.regs .sp).toNat) {offset : Nat} (inside : offset < size)
    {a : BitVec 64} (above : (k₀.regs .sp).toNat ≤ a.toNat) :
    a ≠ lowered (k₀.regs .sp) size + BitVec.ofNat 64 offset := by
  intro same
  have address := lowered_offset (k₀.regs .sp) room inside
  rw [← same] at address
  omega

/-- A call keeps the frame that leaves the stack pointer, the unsaved registers and the
memory from the stack pointer on. -/
theorem Framed.call {k k' : UserState} (framed : Framed size saves k₀ k)
    (room : size ≤ (k₀.regs .sp).toNat) (fits : ∀ s ∈ saves, s.2 < size)
    (sp : k'.regs .sp = k.regs .sp)
    (unsaved : ∀ r, r ≠ .sp → r ∉ saves.map Prod.fst → k'.regs r = k.regs r)
    (mem : ∀ a : BitVec 64, (k.regs .sp).toNat ≤ a.toNat → k'.mem a = k.mem a) :
    Framed size saves k₀ k' := by
  have lower := lowered_toNat (k₀.regs .sp) room
  rw [framed.sp, lower] at mem
  constructor
  · exact sp.trans framed.sp
  · intro r notStack absent
    rw [unsaved r notStack absent, framed.unsaved r notStack absent]
  · intro s member
    have address := lowered_offset (k₀.regs .sp) room (fits s member)
    rw [mem _ (by omega), framed.slots s member]
  · intro a above
    rw [mem a (by omega), framed.above a above]

/-- The first half of a vector. -/
theorem held_save (saveList : SaveList saves) (fits : ∀ s ∈ saves, s.2 < size)
    (userFree : UserFree I) (rely : Rely traps I low) (room : low + size ≤ (k₀.regs .sp).toNat) :
    CodeTriple c sink traps (Held I k₀)
      ([.addiSp (-size)] ++ stores saves) fun g => ∃ k, Framed size saves k₀ k ∧ Held I k g := by
  refine (held_push userFree rely room).append (Triple.unknown ?_)
  rintro k ⟨regs, above⟩
  have deep : size ≤ (k₀.regs .sp).toNat := by omega
  have lower := lowered_toNat (k₀.regs .sp) deep
  have top := (k₀.regs .sp).isLt
  have sp : k.regs .sp = lowered (k₀.regs .sp) size := by rw [regs, setRegOf_same]
  have inside : ∀ i ∈ stores saves, i.inside size [] = true := by
    intro i member
    obtain ⟨s, saved, rfl⟩ := List.mem_map.mp member
    exact decide_eq_true (fits s saved)
  let read : Csr → BitVec 64 := fun _ => 0
  have straight : CodeTriple c sink traps (Held I k) (stores saves)
      (Held I ((stores saves).foldl (UserState.exec read) k)) :=
    held_straight size [] inside userFree rely (fun _ _ _ none => by cases none)
      (by rw [sp]; omega) (by rw [sp]; omega)
  obtain ⟨regs', saved, others⟩ := stores_foldl read saveList.inside saveList.offsets k
  apply straight.forget
  constructor
  · rw [regs', sp]
  · intro r notStack _
    rw [regs', regs, setRegOf_other _ _ notStack]
  · intro s member
    have notStack : s.1 ≠ .sp := by
      intro same
      exact saveList.stack (same ▸ List.mem_map_of_mem member)
    rw [← sp, saved s member, regs, setRegOf_other _ _ notStack]
  · intro a inProgram
    rw [others a, above a inProgram]
    intro s member
    rw [sp]
    exact frame_below (by omega) (fits s member) inProgram

/-- The second half of a vector, up to its return. -/
theorem held_restore (saveList : SaveList saves) (fits : ∀ s ∈ saves, s.2 < size)
    (userFree : UserFree I) (rely : Rely traps I low) (room : low + size ≤ (k₀.regs .sp).toNat)
    {k : UserState} (framed : Framed size saves k₀ k) :
    CodeTriple c sink traps (Held I k)
      (loads saves ++ [.addiSp size]) (Held I k₀) := by
  have deep : size ≤ (k₀.regs .sp).toNat := by omega
  have lower := lowered_toNat (k₀.regs .sp) deep
  have top := (k₀.regs .sp).isLt
  have inside : ∀ i ∈ loads saves, i.inside size [] = true := by
    intro i member
    obtain ⟨s, saved, rfl⟩ := List.mem_map.mp member
    have notStack : s.1 ≠ .sp := by
      intro same
      exact saveList.stack (same ▸ List.mem_map_of_mem saved)
    simp only [Instr.inside, Bool.and_eq_true, bne_iff_ne, decide_eq_true_eq]
    exact ⟨notStack, fits s saved⟩
  let read : Csr → BitVec 64 := fun _ => 0
  have straight : CodeTriple c sink traps (Held I k) (loads saves)
      (Held I ((loads saves).foldl (UserState.exec read) k)) :=
    held_straight size [] inside userFree rely (fun _ _ _ none => by cases none)
      (by rw [framed.sp]; omega) (by rw [framed.sp]; omega)
  obtain ⟨mem, restored, others⟩ := loads_foldl read saveList.registers saveList.stack k
  generalize loaded : (loads saves).foldl (UserState.exec read) k = k' at *
  have sp : k'.regs .sp = lowered (k₀.regs .sp) size :=
    (others .sp saveList.stack).trans framed.sp
  refine straight.append ((held_pop userFree rely sp room).weaken ?_)
  intro g held
  have regs : setRegOf k'.regs .sp (k₀.regs .sp) = k₀.regs := by
    funext r
    by_cases isStack : r = .sp
    · rw [isStack, setRegOf_same]
    · rw [setRegOf_other _ _ isStack]
      by_cases isSaved : r ∈ saves.map Prod.fst
      · obtain ⟨s, member, rfl⟩ := List.mem_map.mp isSaved
        rw [restored s member, framed.sp, framed.slots s member]
      · rw [others r isSaved, framed.unsaved r isStack isSaved]
  refine ⟨held.kept, held.agrees.regs.trans regs, ?_⟩
  intro a inProgram
  have same : g.mem a = k'.mem a := by
    apply held.agrees.mem a
    change (setRegOf k'.regs .sp (k₀.regs .sp) .sp).toNat ≤ a.toNat
    rw [setRegOf_same]
    exact inProgram
  rw [mem, framed.above a inProgram] at same
  exact same

end Frame

end ZephyrRiscv
