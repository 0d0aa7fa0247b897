import ZephyrRiscv.SuiteMapper
import ZephyrRiscv.StaleCache

set_option autoImplicit false

/- The suite's page tables under a TLB that may keep a walk result until a fence names its
page (tests/p1d_tlb_ptw.c). A leaf is re-pointed between two fences. -/
namespace ZephyrRiscv.Tlb

open Sv39 Mmu Tables Pt PageFaults StaleCache Transition

/-- The 4 KB page of an address, virtual or physical. -/
def pageOf (address : BitVec 64) : Nat := address.toNat / 4096

/-- Memory, and the walk results that the TLB holds for pages. -/
abbrev TlbState := StaleCache.State Mem Nat Translation

/-- A translation used for another address of its page. -/
def onPage (t : Translation) (va : BitVec 64) : Translation :=
  { t with pa := t.pa / 4096 * 4096 + va.toNat % 4096 }

def load (status : Status) (m : Mem) (t : Translation) : Option (BitVec 64) :=
  if permits status .load t then some (m (BitVec.ofNat 64 t.pa)) else none

/-- Two pages mapped among the calls that build the tables, and where the leaf of the
first is to point instead. -/
structure Repointing where
  pool : Pool
  start : PtState
  calls : List PtCall
  a : Request
  b : Request
  newPa : BitVec 64
  newPerm : BitVec 64
  status : Status

inductive Action where
  | fill (va : BitVec 64)
  | drop (page : Nat) (t : Translation)
  | read (va : BitVec 64) (value : Option (BitVec 64))
  | store (address value : BitVec 64)
  | repoint
  | sfenceVmaAll
  | sfenceVmaAddr (va : BitVec 64)
deriving DecidableEq

namespace Repointing

variable (r : Repointing)

def root : BitVec 64 := (build r.pool r.start r.calls).1

/-- Memory when the tables are built. -/
def tables : Mem := (build r.pool r.start r.calls).2.mem

/-- The pages that hold the tables. -/
def TablePage : BitVec 64 → Prop :=
  Live r.pool r.start.ptPoolNextPage (build r.pool r.start r.calls).2.ptPoolNextPage

/-- The old and the new frame of the first page, and the frame of the second. -/
def frames : List Nat := [pageOf r.a.pa, pageOf r.newPa, pageOf r.b.pa]

/-- The current walk. -/
def answer (m : Mem) (va : BitVec 64) : Option Translation := walk m r.root va

/-- A load goes through a cached translation or through the current walk. It returns no
value when it faults. -/
def Reads (s : TlbState) (va : BitVec 64) (value : Option (BitVec 64)) : Prop :=
  (∃ t, Answers pageOf r.answer s va t ∧ value = load r.status s.source (onPage t va)) ∨
    (r.answer s.source va = none ∧ value = none)

/-- Other stores go neither to the tables nor to the frames. -/
def Allowed (s : TlbState) : Action → Prop
  | .read va value => r.Reads s va value
  | .store address _ =>
      (∀ t, r.TablePage t → pageOf t ≠ pageOf address) ∧ pageOf address ∉ r.frames
  | _ => True

/-- `*pt_walk(root, a) = leaf`. -/
def repointed (m : Mem) : Mem :=
  m.store (ptWalk m r.root r.a.va).1 (pteLeaf r.newPa r.newPerm)

def next (s : TlbState) : Action → TlbState
  | .fill va => StaleCache.next pageOf r.answer s (.fill va)
  | .drop page t => StaleCache.next pageOf r.answer s (.drop (page, t))
  | .read _ _ => s
  | .store address value =>
      StaleCache.next pageOf r.answer s (.write (s.source.store address value))
  | .repoint => StaleCache.next pageOf r.answer s (.write (r.repointed s.source))
  | .sfenceVmaAll => StaleCache.next pageOf r.answer s .flushAll
  | .sfenceVmaAddr va => StaleCache.next pageOf r.answer s (.flush (pageOf va))

def Step (s : TlbState) (action : Action) (s' : TlbState) : Prop :=
  r.Allowed s action ∧ s' = r.next s action

/-- The word at the offset of an address in a frame. -/
def word (pa va : BitVec 64) : BitVec 64 :=
  r.tables (BitVec.ofNat 64 (pageOf pa * 4096 + va.toNat % 4096))

end Repointing

/-- The calls under which an entry of a page changes. -/
def Covers (va : BitVec 64) : PtCall → Prop
  | .mapPage va' _ _ _ => SameBlock 0 va' va
  | .megapage va' _ _ => SameBlock 1 va' va

instance (va : BitVec 64) : (call : PtCall) → Decidable (Covers va call)
  | .mapPage _ _ _ _ => inferInstanceAs (Decidable (SameBlock 0 _ _))
  | .megapage _ _ _ => inferInstanceAs (Decidable (SameBlock 1 _ _))

/-- The request is the last call for its page. -/
def LastMapped (calls : List PtCall) (r : Request) : Prop :=
  ∃ before after, calls = before ++ r.call :: after ∧ ∀ call ∈ after, ¬ Covers r.va call

/-- A valid leaf made of these lets a load through. -/
structure Readable (status : Status) (pa perm : BitVec 64) : Prop where
  physical : pa.toNat < 2 ^ 56
  flags : perm.toNat < 2 ^ 10
  allowed : allows status .load (0, pteLeaf pa perm) = true

/-- A page that a request maps readable. -/
structure Mapped (calls : List PtCall) (status : Status) (request : Request) : Prop where
  last : LastMapped calls request
  valid : request.valid = true
  canonical : Canonical request.va
  readable : Readable status request.pa request.perm

/-- Two distinct pages, mapped readable with no superpage over them, and frames that do
not hold the entry to be overwritten. No page that is not a table does. -/
structure Repointing.Sound (r : Repointing) : Prop where
  clears : Clears identityView r.calls
  room : (build r.pool r.start r.calls).2.ptPoolNextPage ≤ r.pool.pages
  mappedA : Mapped r.calls r.status r.a
  mappedB : Mapped r.calls r.status r.b
  distinct : pageOf r.a.va ≠ pageOf r.b.va
  readable : Readable r.status r.newPa r.newPerm
  apart : pageOf (ptWalk r.tables r.root r.a.va).1 ∉ r.frames

theorem call_other {v : View} (regular : v.Regular) {call : PtCall} (clear : call.Clear v)
    {va : BitVec 64} (apart : ¬ Covers va call) (bottom : (v va).1 = 0) :
    call.view v va = v va := by
  cases call with
  | mapPage va' pa perm valid =>
      exact (regular.map_other _ (by omega) clear apart).2 (Nat.le_of_eq bottom)
  | megapage va' ppn perm =>
      exact (regular.map_other _ (by omega) clear.1 apart).2 (by omega)

theorem calls_other {calls : List PtCall} {v : View} (regular : v.Regular)
    (clears : Clears v calls) {va : BitVec 64} (apart : ∀ call ∈ calls, ¬ Covers va call)
    (bottom : (v va).1 = 0) : calls.foldl PtCall.view v va = v va := by
  induction calls generalizing v with
  | nil => rfl
  | cons call calls ih =>
      have here := call_other regular clears.1 (apart call List.mem_cons_self) bottom
      have rest := ih (call_regular regular call) clears.2
        (fun other member => apart other (List.mem_cons_of_mem call member)) (by rw [here, bottom])
      exact rest.trans here

/-- The last request for a page decides how the page ends. -/
theorem LastMapped.view {calls : List PtCall} {request : Request}
    (mapped : LastMapped calls request) {v : View} (regular : v.Regular) (clears : Clears v calls)
    {va : BitVec 64} (same : SameBlock 0 request.va va) :
    calls.foldl PtCall.view v va = (0, pageEntry request.pa request.perm request.valid) := by
  obtain ⟨before, after, rfl, later⟩ := mapped
  have rest := clears_append clears
  have here : request.call.view (before.foldl PtCall.view v) request.va =
      (0, pageEntry request.pa request.perm request.valid) := View.map_same rfl
  have kept := calls_other (call_regular (calls_regular regular) request.call) rest.2 later
    (by rw [here])
  have regular' : (after.foldl PtCall.view
      (request.call.view (before.foldl PtCall.view v))).Regular :=
    calls_regular (call_regular (calls_regular regular) request.call)
  have final := kept.trans here
  have uniform := regular'.uniform request.va va
  rw [final] at uniform
  rw [List.foldl_append, List.foldl_cons]
  exact uniform same

/-- A translation into a frame that lets loads through. -/
def Through (status : Status) (frame : Nat) (t : Translation) : Prop :=
  t.pa / 4096 = frame ∧ permits status .load t = true

/-- A translation into the frame of one of the addresses. -/
def ThroughAny (status : Status) (pas : List (BitVec 64)) (t : Translation) : Prop :=
  ∃ pa ∈ pas, Through status (pageOf pa) t

theorem Readable.through {status : Status} {pa perm : BitVec 64}
    (readable : Readable status pa perm) (va : BitVec 64) :
    ∃ t, finalTranslation va (0, pteLeaf pa perm) = some t ∧ Through status (pageOf pa) t := by
  have low : (perm ||| (PTE_V ||| PTE_A ||| PTE_D)).toNat < 2 ^ 10 := by
    rw [BitVec.toNat_or]
    exact Nat.or_lt_two_pow readable.flags (by decide)
  have whole : pteLeaf pa perm = physToPpn pa ||| (perm ||| (PTE_V ||| PTE_A ||| PTE_D)) := by
    simp only [pteLeaf, BitVec.or_assoc]
  have number : ppn (pteLeaf pa perm) = pa.toNat / 4096 := by
    rw [whole]
    exact ppn_physToPpn_or pa _ readable.physical low
  have reached := final_access va status .load (0, pteLeaf pa perm)
  rw [if_pos readable.allowed] at reached
  obtain ⟨t, filtered, frame⟩ := Option.map_eq_some_iff.mp reached
  obtain ⟨final, permitted⟩ := Option.filter_eq_some_iff.mp filtered
  refine ⟨t, final, ?_, permitted⟩
  rw [frame, number, pageOf, Nat.pow_zero, Nat.mul_one]
  omega

/-- A load through a translation into a frame returns a word of the frame. -/
theorem Through.load {status : Status} {m : Mem} {frame : Nat} {t : Translation}
    (through : Through status frame t) (va : BitVec 64) :
    load status m (onPage t va) = some (m (BitVec.ofNat 64 (frame * 4096 + va.toNat % 4096))) := by
  have permitted : permits status .load (onPage t va) = true := through.2
  rw [Tlb.load, if_pos permitted, onPage, through.1]

theorem sameBlock_of_page {va va' : BitVec 64} (same : pageOf va' = pageOf va) :
    SameBlock 0 va va' := by
  have pages : va'.toNat / 4096 = va.toNat / 4096 := same
  simp only [SameBlock, page, pages]

variable {r : Repointing}

/-- The leaf of the first page, and the frames that the TLB may still give for it. The
second page, the frames and the path to the leaf are as they were built. -/
structure Phase (r : Repointing) (table pa perm : BitVec 64) (pas : List (BitVec 64))
    (s : TlbState) : Prop where
  tree : ∃ level, TableTree s.source r.TablePage r.root level
  entry : At s.source r.root r.a.va 0 table
  own : ∀ va, SameBlock 0 r.a.va va → view s.source r.root va = (0, pteLeaf pa perm)
  other : ∀ va, SameBlock 0 r.b.va va →
    view s.source r.root va = (0, pteLeaf r.b.pa r.b.perm)
  data : ∀ x, pageOf x ∈ r.frames → s.source x = r.tables x
  readable : Readable r.status pa perm
  current : pa ∈ pas
  framed : ∀ pa ∈ pas, pageOf pa ∈ r.frames
  cachedOwn : Confined pageOf r.answer (pageOf r.a.va) (ThroughAny r.status pas) s
  cachedOther : Confined pageOf r.answer (pageOf r.b.va) (Through r.status (pageOf r.b.pa)) s

/-- The walk of a page that ends in a readable leaf. -/
theorem current_through {m : Mem} {level : BitVec 64 → Nat} {base pa perm : BitVec 64}
    (tree : TableTree m r.TablePage r.root level) (readable : Readable r.status pa perm)
    (ends : ∀ va, SameBlock 0 base va → view m r.root va = (0, pteLeaf pa perm)) :
    Current pageOf r.answer (pageOf base) (Through r.status (pageOf pa)) m := by
  intro va t same walked
  rw [Repointing.answer, tree.walk_eq, ends va (sameBlock_of_page same)] at walked
  obtain ⟨t', final, through⟩ := readable.through va
  split at walked
  · rw [final] at walked
    rw [← Option.some.inj walked]
    exact through
  · cases walked

/-- Loads of a page never fault while its current walk ends in a readable leaf. -/
theorem reads_confined {s : TlbState} {level : BitVec 64 → Nat} {fine : Translation → Prop}
    {base pa perm va : BitVec 64} {value : Option (BitVec 64)}
    (tree : TableTree s.source r.TablePage r.root level) (readable : Readable r.status pa perm)
    (ends : ∀ va, SameBlock 0 base va → view s.source r.root va = (0, pteLeaf pa perm))
    (confined : Confined pageOf r.answer (pageOf base) fine s) (canonical : Canonical base)
    (same : pageOf va = pageOf base) (reads : r.Reads s va value) :
    ∃ t, fine t ∧ value = load r.status s.source (onPage t va) := by
  obtain ⟨t, answers, loaded⟩ | ⟨faults, -⟩ := reads
  · exact ⟨t, confined.answers same answers, loaded⟩
  · have canonical' : Canonical va := by
      unfold Canonical at canonical ⊢
      unfold pageOf at same
      omega
    obtain ⟨t, final, -⟩ := readable.through va
    rw [Repointing.answer, tree.walk_eq, if_pos canonical', ends va (sameBlock_of_page same),
      final] at faults
    cases faults

/-- The TLB alone changes no phase. -/
theorem Phase.cache {table pa perm : BitVec 64} {pas : List (BitVec 64)} {s : TlbState}
    (phase : Phase r table pa perm pas s)
    (action : StaleCache.Action Mem (BitVec 64) Nat Translation)
    (quiet : ∀ source, action ≠ .write source) :
    Phase r table pa perm pas (StaleCache.next pageOf r.answer s action) := by
  have source : (StaleCache.next pageOf r.answer s action).source = s.source := next_source quiet
  have own := phase.cachedOwn.quiet quiet
  have other := phase.cachedOther.quiet quiet
  constructor
  · rw [source]
    exact phase.tree
  · rw [source]
    exact phase.entry
  · rw [source]
    exact phase.own
  · rw [source]
    exact phase.other
  · rw [source]
    exact phase.data
  · exact phase.readable
  · exact phase.current
  · exact phase.framed
  · exact own
  · exact other

/-- Everything but the re-pointing keeps a phase. -/
theorem Phase.quiet {table pa perm : BitVec 64} {pas : List (BitVec 64)} {s s' : TlbState}
    {action : Action} (sound : r.Sound) (phase : Phase r table pa perm pas s)
    (quiet : action ≠ .repoint) (step : r.Step s action s') : Phase r table pa perm pas s' := by
  obtain ⟨allowed, rfl⟩ := step
  cases action with
  | fill va => exact phase.cache (.fill va) fun _ same => by cases same
  | drop page t => exact phase.cache (.drop (page, t)) fun _ same => by cases same
  | read va value => exact phase
  | sfenceVmaAll => exact phase.cache .flushAll fun _ same => by cases same
  | sfenceVmaAddr va => exact phase.cache (.flush (pageOf va)) fun _ same => by cases same
  | repoint => exact absurd rfl quiet
  | store address value =>
      obtain ⟨level, tree⟩ := phase.tree
      obtain ⟨offTables, offFrames⟩ := allowed
      have same : ∀ t k, r.TablePage t →
          words (s.source.store address value) t k = words s.source t k := by
        intro t k out
        apply Mem.store_other
        intro hit
        apply offTables t out
        have aligned := tree.aligned out
        have physical := tree.physical out
        have small := k.isLt
        rw [← hit, pageOf, pageOf, slot_toNat t k (by omega)]
        omega
      obtain ⟨tree', viewed⟩ := tree.frame same
      have own' : ∀ va, SameBlock 0 r.a.va va →
          view (s.source.store address value) r.root va = (0, pteLeaf pa perm) := by
        rw [viewed]
        exact phase.own
      have other' : ∀ va, SameBlock 0 r.b.va va →
          view (s.source.store address value) r.root va = (0, pteLeaf r.b.pa r.b.perm) := by
        rw [viewed]
        exact phase.other
      have currentOwn := current_through tree' phase.readable own'
      refine ⟨⟨level, tree'⟩, tree.at_frame same (by omega) phase.entry, own', other', ?_,
        phase.readable, phase.current, phase.framed, ?_, ?_⟩
      · intro x inside
        have apart : x ≠ address := by
          rintro rfl
          exact offFrames inside
        exact (Mem.store_other _ _ _ _ apart).trans (phase.data x inside)
      · apply phase.cachedOwn.write
        exact fun va t same walked => ⟨pa, phase.current, currentOwn va t same walked⟩
      · exact phase.cachedOther.write (current_through tree' sound.mappedB.readable other')

/-- The entry that `pt_walk` returns for the first page. -/
theorem Phase.walked {table pa perm : BitVec 64} {pas : List (BitVec 64)} {s : TlbState}
    (phase : Phase r table pa perm pas s) :
    ptWalk s.source r.root r.a.va = (slot table (vpn r.a.va 0), 0) := by
  rw [ptWalk_eq]
  exact view_stop (by omega) phase.entry fun positive => absurd positive (by omega)

theorem Repointing.Sound.tree (sound : r.Sound) :
    (∃ level, TableTree r.tables r.TablePage r.root level) ∧
      view r.tables r.root = r.calls.foldl PtCall.view identityView :=
  build_spec sound.clears sound.room

theorem Repointing.Sound.views (sound : r.Sound) {request : Request}
    (mapped : Mapped r.calls r.status request) (va : BitVec 64) (same : SameBlock 0 request.va va) :
    view r.tables r.root va = (0, pteLeaf request.pa request.perm) := by
  have final := mapped.last.view identityView_regular sound.clears same
  rw [← sound.tree.2, mapped.valid] at final
  exact final

/-- After a fence of everything, over the tables as they were built. -/
theorem Phase.start (sound : r.Sound) {s : TlbState} (built : s.source = r.tables) :
    ∃ table, pageOf (slot table (vpn r.a.va 0)) ∉ r.frames ∧
      Phase r table r.a.pa r.a.perm [r.a.pa] (r.next s .sfenceVmaAll) := by
  obtain ⟨level, tree⟩ := sound.tree.1
  obtain ⟨table, -, entry, final⟩ := tree.endOf_live r.a.va
  have bottom : (view r.tables r.root r.a.va).1 = 0 := by rw [sound.views sound.mappedA r.a.va rfl]
  rw [bottom] at entry final
  have apart := sound.apart
  rw [ptWalk_eq, final] at apart
  have source : (r.next s .sfenceVmaAll).source = r.tables := built
  refine ⟨table, apart, ?_⟩
  constructor
  · rw [source]
    exact ⟨level, tree⟩
  · rw [source]
    exact entry
  · rw [source]
    exact sound.views sound.mappedA
  · rw [source]
    exact sound.views sound.mappedB
  · intro x _
    rw [source]
  · exact sound.mappedA.readable
  · exact List.mem_cons_self
  · intro pa member
    rw [List.mem_singleton.mp member]
    exact List.mem_cons_self
  · apply Confined.flushedAll
    rw [built]
    intro va t same walked
    exact ⟨r.a.pa, List.mem_cons_self,
      current_through tree sound.mappedA.readable (sound.views sound.mappedA) va t same walked⟩
  · apply Confined.flushedAll
    rw [built]
    exact current_through tree sound.mappedB.readable (sound.views sound.mappedB)

/-- The re-pointing allows the new frame beside the old one. -/
theorem Phase.repoint {table pa perm : BitVec 64} {pas : List (BitVec 64)} {s : TlbState}
    (sound : r.Sound) (phase : Phase r table pa perm pas s)
    (apart : pageOf (slot table (vpn r.a.va 0)) ∉ r.frames) :
    Phase r table r.newPa r.newPerm (r.newPa :: pas) (r.next s .repoint) := by
  obtain ⟨level, tree⟩ := phase.tree
  have written : (r.next s .repoint).source =
      s.source.store (slot table (vpn r.a.va 0)) (pteLeaf r.newPa r.newPerm) := by
    show r.repointed s.source = _
    rw [Repointing.repointed, phase.walked]
  obtain ⟨tree', viewed⟩ := tree.write (by omega) phase.entry (pteLeaf r.newPa r.newPerm)
    fun positive => absurd positive (by omega)
  have own : ∀ va, SameBlock 0 r.a.va va → view (s.source.store (slot table (vpn r.a.va 0))
      (pteLeaf r.newPa r.newPerm)) r.root va = (0, pteLeaf r.newPa r.newPerm) := by
    intro va same
    rw [viewed, View.setBlock_same same]
  have other : ∀ va, SameBlock 0 r.b.va va → view (s.source.store (slot table (vpn r.a.va 0))
      (pteLeaf r.newPa r.newPerm)) r.root va = (0, pteLeaf r.b.pa r.b.perm) := by
    intro va same
    have elsewhere : ¬ SameBlock 0 r.a.va va := fun first =>
      sound.distinct ((page_canonical sound.mappedA.canonical sound.mappedB.canonical).mp
        (first.trans same.symm))
    rw [viewed, View.setBlock_other elsewhere]
    exact phase.other va same
  have cachedOwn := phase.cachedOwn.mono (Q := ThroughAny r.status (r.newPa :: pas)) (by
    rintro t ⟨pa, member, through⟩
    exact ⟨pa, List.mem_cons_of_mem _ member, through⟩)
  constructor
  · rw [written]
    exact ⟨level, tree'⟩
  · rw [written]
    exact tree.at_write (by omega) phase.entry _
  · rw [written]
    exact own
  · rw [written]
    exact other
  · intro x inside
    rw [written, Mem.store_other]
    · exact phase.data x inside
    · rintro rfl
      exact apart inside
  · exact sound.readable
  · exact List.mem_cons_self
  · intro pa member
    cases List.mem_cons.mp member with
    | inl same =>
        rw [same]
        exact List.mem_cons_of_mem _ List.mem_cons_self
    | inr old => exact phase.framed pa old
  · apply cachedOwn.write
    rw [← written] at tree' own
    intro va t same walked
    exact ⟨r.newPa, List.mem_cons_self, current_through tree' sound.readable own va t same walked⟩
  · apply phase.cachedOther.write
    rw [← written] at tree' other
    exact current_through tree' sound.mappedB.readable other

/-- After a fence of the first page the new frame alone is left. -/
theorem Phase.fenced {table pa perm : BitVec 64} {pas : List (BitVec 64)} {s : TlbState}
    (phase : Phase r table pa perm pas s) :
    Phase r table pa perm [pa] (r.next s (.sfenceVmaAddr r.a.va)) := by
  obtain ⟨level, tree⟩ := phase.tree
  have cached := phase.cache (.flush (pageOf r.a.va)) fun _ same => by cases same
  refine ⟨cached.tree, cached.entry, cached.own, cached.other, cached.data, cached.readable,
    List.mem_cons_self, ?_, ?_, cached.cachedOther⟩
  · intro pa' member
    rw [List.mem_singleton.mp member]
    exact phase.framed pa phase.current
  · apply Confined.flushed
    intro va t same walked
    exact ⟨pa, List.mem_cons_self, current_through tree phase.readable phase.own va t same walked⟩

/-- Reads of the first page return a word of one of the frames, reads of the second the
word of its frame. -/
def Repointing.Returns (r : Repointing) (pas : List (BitVec 64)) : Action → Prop
  | .read va value =>
      (pageOf va = pageOf r.a.va → value ∈ pas.map fun pa => some (r.word pa va)) ∧
        (pageOf va = pageOf r.b.va → value = some (r.word r.b.pa va))
  | _ => True

/-- The frames keep their words. -/
theorem Phase.frame_word {table pa perm frame va : BitVec 64} {pas : List (BitVec 64)}
    {s : TlbState} (phase : Phase r table pa perm pas s) (inside : pageOf frame ∈ r.frames) :
    s.source (BitVec.ofNat 64 (pageOf frame * 4096 + va.toNat % 4096)) = r.word frame va := by
  apply phase.data
  have small := frame.isLt
  have same : pageOf (BitVec.ofNat 64 (pageOf frame * 4096 + va.toNat % 4096)) = pageOf frame := by
    rw [pageOf, pageOf, BitVec.toNat_ofNat]
    omega
  rw [same]
  exact inside

theorem Phase.returns {table pa perm : BitVec 64} {pas : List (BitVec 64)} {s s' : TlbState}
    {action : Action} (sound : r.Sound) (phase : Phase r table pa perm pas s)
    (step : r.Step s action s') : r.Returns pas action := by
  obtain ⟨level, tree⟩ := phase.tree
  cases action with
  | read va value =>
      have reads : r.Reads s va value := step.1
      constructor
      · intro same
        obtain ⟨t, ⟨frame, member, through⟩, rfl⟩ := reads_confined tree phase.readable phase.own
          phase.cachedOwn sound.mappedA.canonical same reads
        rw [through.load, phase.frame_word (phase.framed frame member)]
        exact List.mem_map_of_mem member
      · intro same
        obtain ⟨t, through, rfl⟩ := reads_confined tree sound.mappedB.readable phase.other
          phase.cachedOther sound.mappedB.canonical same reads
        have inside : pageOf r.b.pa ∈ r.frames :=
          List.mem_cons_of_mem _ (List.mem_cons_of_mem _ List.mem_cons_self)
        rw [through.load, phase.frame_word inside]
  | _ => trivial

/-- A stretch of a run without the re-pointing. -/
theorem Phase.stretch {table pa perm : BitVec 64} {pas : List (BitVec 64)} {s s' : TlbState}
    {actions : List Action} (sound : r.Sound) (phase : Phase r table pa perm pas s)
    (run : Run (· = s) r.Step actions s') (quiet : .repoint ∉ actions) :
    Phase r table pa perm pas s' ∧ ∀ action ∈ actions, r.Returns pas action := by
  have labelled := run.labelled (P := (· ≠ .repoint)) fun action member same =>
    quiet (by rw [← same]; exact member)
  have kept : ∀ s action s', Phase r table pa perm pas s →
      Guarded (fun _ action => action ≠ .repoint) r.Step s action s' →
      Phase r table pa perm pas s' :=
    fun _ _ _ before step => before.quiet sound step.1 step.2
  have first : ∀ s₀, s₀ = s → Phase r table pa perm pas s₀ := by
    rintro s₀ rfl
    exact phase
  exact ⟨labelled.invariant first kept,
    labelled.forall_labels first kept fun _ _ _ before step => before.returns sound step.2⟩

/-- Between a fence of everything and a fence of the page, a re-pointed page reads as its
old or its new frame, and after that as the new one. The other page never changes. -/
theorem repointing_safe (r : Repointing) (sound : r.Sound) (first second third : List Action)
    (s : TlbState) (once : .repoint ∉ first ++ (second ++ third))
    (run : Run (fun s => s.source = r.tables) r.Step (Action.sfenceVmaAll :: (first ++
      .repoint :: (second ++ .sfenceVmaAddr r.a.va :: third))) s) :
    (∀ action ∈ first, r.Returns [r.a.pa] action) ∧
      (∀ action ∈ second, r.Returns [r.newPa, r.a.pa] action) ∧
      ∀ action ∈ third, r.Returns [r.newPa] action := by
  simp only [List.mem_append, not_or] at once
  obtain ⟨once₁, once₂, once₃⟩ := once
  obtain ⟨s₀, s₁, built, ⟨-, rfl⟩, run⟩ := run.head
  obtain ⟨s₂, early, run⟩ := run.split
  obtain ⟨s₃, s₄, rfl, ⟨-, rfl⟩, run⟩ := run.head
  obtain ⟨s₅, middle, run⟩ := run.split
  obtain ⟨s₆, s₇, rfl, ⟨-, rfl⟩, late⟩ := run.head
  obtain ⟨table, apart, built⟩ := Phase.start sound built
  obtain ⟨old, earlyReads⟩ := built.stretch sound early once₁
  obtain ⟨both, middleReads⟩ := (old.repoint sound apart).stretch sound middle once₂
  obtain ⟨-, lateReads⟩ := both.fenced.stretch sound late once₃
  exact ⟨earlyReads, middleReads, lateReads⟩

/-- The pages of P1D.1, on the linker script's pool. -/
def targetedFlush : Repointing where
  pool := linkerPool
  start := {
    mem := fun x =>
      if x = 0x801E0000 then 0xAAAAAAAA00000001
      else if x = 0x801E1000 then 0xBBBBBBBB00000002
      else if x = 0x801E2000 then 0xAAAAAAAA00000003
      else 0
    ptPoolNextPage := 0 }
  calls := [.mapPage 0xD1000000 0x801E0000 (PTE_R ||| PTE_W) true,
    .mapPage 0xD1010000 0x801E1000 (PTE_R ||| PTE_W) true]
  a := ⟨0xD1000000, 0x801E0000, PTE_R ||| PTE_W, true⟩
  b := ⟨0xD1010000, 0x801E1000, PTE_R ||| PTE_W, true⟩
  newPa := 0x801E2000
  newPerm := PTE_R ||| PTE_W
  status := plain

theorem targetedFlush_sound : targetedFlush.Sound where
  clears := by decide
  room := by decide +kernel
  mappedA := ⟨⟨[], [targetedFlush.b.call], rfl, by decide⟩, rfl, by decide,
    ⟨by decide, by decide, by decide⟩⟩
  mappedB := ⟨⟨[targetedFlush.a.call], [], rfl, by decide⟩, rfl, by decide,
    ⟨by decide, by decide, by decide⟩⟩
  distinct := by decide
  readable := ⟨by decide, by decide, by decide⟩
  apart := by decide +kernel

/-- The TLB is filled, the leaf re-pointed, the old word read, and after the fence the new
one. -/
theorem repointing_safe_targeted :
    let stale : Action := .read 0xD1000000 (some 0xAAAAAAAA00000001)
    let last : Action := .read 0xD1000000 (some 0xAAAAAAAA00000003)
    (∃ s, Run (fun s => s.source = targetedFlush.tables) targetedFlush.Step
      (.sfenceVmaAll :: ([.fill 0xD1000000] ++ .repoint ::
        ([stale] ++ .sfenceVmaAddr targetedFlush.a.va :: [last]))) s) ∧
      targetedFlush.Returns [0x801E2000, 0x801E0000] stale ∧
      targetedFlush.Returns [0x801E2000] last := by
  intro stale last
  let t : Translation := ⟨0x801E0000, true, true, false, false, true, true⟩
  let t' : Translation := ⟨0x801E2000, true, true, false, false, true, true⟩
  have run₀ : Run (fun s : TlbState => s.source = targetedFlush.tables) targetedFlush.Step []
      ⟨targetedFlush.tables, []⟩ := .start rfl
  have run₁ := run₀.snoc (a := Action.sfenceVmaAll) ⟨trivial, rfl⟩
  have run₂ := run₁.snoc (a := Action.fill 0xD1000000) ⟨trivial, rfl⟩
  have run₃ := run₂.snoc (a := Action.repoint) ⟨trivial, rfl⟩
  have run₄ := run₃.snoc (a := stale)
    ⟨Or.inl ⟨t, Or.inl (by decide +kernel), by decide +kernel⟩, rfl⟩
  have run₅ := run₄.snoc (a := Action.sfenceVmaAddr targetedFlush.a.va) ⟨trivial, rfl⟩
  have run₆ := run₅.snoc (a := last)
    ⟨Or.inl ⟨t', Or.inr (by decide +kernel), by decide +kernel⟩, rfl⟩
  have safe := repointing_safe targetedFlush targetedFlush_sound [.fill 0xD1000000] [stale] [last] _
    (by decide) run₆
  exact ⟨⟨_, run₆⟩, safe.2.1 stale List.mem_cons_self, safe.2.2 last List.mem_cons_self⟩

end ZephyrRiscv.Tlb
