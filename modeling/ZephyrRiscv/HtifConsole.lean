import ZephyrRiscv.Interleaving
import ZephyrRiscv.Verdict

set_option autoImplicit false

namespace ZephyrRiscv.Htif

open Transition Interleaving Verdict

/-- The accesses of `uart_putc`, `htif_write` and the panic of `m_trap_handler` to the channel. -/
inductive Stmt where
  | await
  | awaitClearing
  | store (word : BitVec 64)
  | clearFromhost
  | wfi
deriving DecidableEq, Repr

/-- A hart in M-mode never returns to its program. -/
inductive Mode where
  | S
  | M
deriving DecidableEq, Repr

/-- Device 1, command 1. -/
def putcWord (c : Char) : BitVec 64 :=
  1 <<< 56 ||| 1 <<< 48 ||| (BitVec.ofNat 8 c.toNat).setWidth 64

/-- The fail word of a panic: `500 + (int)cause_code`, shifted as an `int`. -/
def panicWord (mcause : BitVec 64) : BitVec 64 :=
  ((500#32 + (mcause &&& 0x7FFFFFFFFFFFFFFF).setWidth 32) <<< 1 ||| 1#32).signExtend 64

def uartPutcCode (c : Char) : List Stmt :=
  [.await, .store (putcWord c), .await, .clearFromhost]

def htifWriteCode (val : BitVec 64) : List Stmt :=
  [.awaitClearing, .store val]

def panicCode (mcause : BitVec 64) : List Stmt :=
  [.await, .store (panicWord mcause), .wfi]

/-- This build has no finisher. -/
def eventCode : Event → List Stmt
  | .putc c => uartPutcCode c
  | .tohost word => htifWriteCode word
  | .finisher _ => []

def eventWord : Event → BitVec 64
  | .putc c => putcWord c
  | .tohost word => word
  | .finisher _ => 0

/-- The code of a program that makes this output, and of the loop after the verdict. -/
def program (out : List Event) : List Stmt :=
  out.flatMap eventCode ++ [.wfi]

/-- The channel. As a record: the hart that stored the word in `tohost`, and the words that
the host took with the hart each came from, oldest first. -/
structure Shared (ι : Type) where
  tohost : BitVec 64
  fromhost : BitVec 64
  writer : Option ι
  received : List (ι × BitVec 64)

abbrev State (ι : Type) := Conf ι (Shared ι) Stmt Mode

def exec {ι : Type} : Exec ι (Shared ι) Stmt Mode := fun i stmt rest mode m =>
  match stmt with
  | .await => (m, ⟨if m.tohost = 0 then rest else stmt :: rest, mode⟩)
  | .awaitClearing =>
      if m.tohost = 0 then (m, ⟨rest, mode⟩) else ({ m with fromhost := 0 }, ⟨stmt :: rest, mode⟩)
  | .store word => ({ m with tohost := word, writer := some i }, ⟨rest, mode⟩)
  | .clearFromhost => ({ m with fromhost := 0 }, ⟨rest, mode⟩)
  | .wfi => (m, ⟨stmt :: rest, mode⟩)

/-- What the host makes of a word. -/
def decode (word : BitVec 64) : Event :=
  if word >>> 48 = 0x101 then .putc (Char.ofNat (word.toNat % 256)) else .tohost word

section Channel

variable {ι : Type} (s : State ι)

def inFlight : List (ι × BitVec 64) :=
  if s.shared.tohost = 0 then [] else s.shared.writer.toList.map fun i => (i, s.shared.tohost)

/-- The output as the host has seen it. -/
def hostLog : List Event :=
  s.shared.received.map fun entry => decode entry.2

end Channel

inductive Action (ι : Type) where
  | hart (i : ι)
  | host
  | panic (i : ι) (mcause : BitVec 64)

section Steps

variable {ι : Type} [DecidableEq ι]

/-- The host takes the word in flight, and may answer in `fromhost`. -/
def took (reply : BitVec 64 → BitVec 64) (s : State ι) : State ι :=
  { s with
    shared := { s.shared with
      tohost := 0
      fromhost := reply s.shared.tohost
      received := s.shared.received ++ inFlight s } }

def panicked (s : State ι) (i : ι) (mcause : BitVec 64) : State ι :=
  { s with thread := Function.update s.thread i ⟨panicCode mcause, .M⟩ }

/-- The host takes words until a verdict. A trap that M-mode does not handle may come before
any access. -/
def step (reply : BitVec 64 → BitVec 64) (s : State ι) : Action ι → Option (State ι)
  | .hart i => some (Interleaving.step exec s i)
  | .host =>
      if s.shared.tohost = 0 ∨ (exitStatus (hostLog s)).isSome then none
      else some (took reply s)
  | .panic i mcause => if (s.thread i).vars = .S then some (panicked s i mcause) else none

structure AtBoot (out : ι → List Event) (s : State ι) : Prop where
  thread : ∀ i, s.thread i = ⟨program (out i), .S⟩
  tohost : s.shared.tohost = 0
  received : s.shared.received = []

/-- A hart stores its word only into the empty cell. -/
def Free (s : State ι) (a : Action ι) : Prop :=
  ∀ i word rest, a = .hart i → (s.thread i).code = .store word :: rest → s.shared.tohost = 0

def stores (code : List Stmt) : List (BitVec 64) :=
  code.filterMap fun
    | .store word => some word
    | _ => none

def sentBy (i : ι) (entries : List (ι × BitVec 64)) : List (BitVec 64) :=
  entries.filterMap fun entry => if entry.1 = i then some entry.2 else none

def account (s : State ι) (i : ι) : List (BitVec 64) :=
  sentBy i s.shared.received ++ sentBy i (inFlight s) ++ stores (s.thread i).code

/-- The output of a hart: its program's, or the start of it and the fail word of a panic. -/
def Planned (out : List Event) : Mode → List Event → Prop
  | .S, events => events = out
  | .M, events => ∃ n mcause, events = out.take n ++ [.tohost (panicWord mcause)]

/-- A word that the channel can carry: not the empty cell, and a verdict not a character. -/
def Wire : Event → Prop
  | .putc c => c.toNat < 256
  | .tohost word => word ≠ 0 ∧ word >>> 48 ≠ 0x101
  | .finisher _ => False

theorem putcWord_bits (c : BitVec 8) :
    let word : BitVec 64 := 1 <<< 56 ||| 1 <<< 48 ||| c.setWidth 64
    word >>> 48 = 0x101 ∧ word.toNat % 256 = c.toNat := by
  revert c
  decide +kernel

theorem decode_eventWord {e : Event} (wire : Wire e) : decode (eventWord e) = e := by
  cases e with
  | putc c =>
    obtain ⟨device, low⟩ := putcWord_bits (BitVec.ofNat 8 c.toNat)
    have byte : (BitVec.ofNat 8 c.toNat).toNat = c.toNat := by
      rw [BitVec.toNat_ofNat]
      exact Nat.mod_eq_of_lt wire
    rw [eventWord, decode, if_pos (by exact device)]
    rw [byte] at low
    rw [putcWord, low, Char.ofNat_toNat]
  | tohost word => exact if_neg wire.2
  | finisher word => exact wire.elim

theorem eventWord_ne_zero {e : Event} (wire : Wire e) : eventWord e ≠ 0 := by
  intro zero
  have decoded := decode_eventWord wire
  rw [zero] at decoded
  subst decoded
  exact wire.1 rfl

theorem stores_append (front rest : List Stmt) :
    stores (front ++ rest) = stores front ++ stores rest :=
  List.filterMap_append

theorem stores_eventCode {e : Event} (wire : Wire e) :
    stores (eventCode e) = [eventWord e] := by
  cases e with
  | putc c => rfl
  | tohost word => rfl
  | finisher word => exact wire.elim

theorem stores_program {out : List Event} (wires : ∀ e ∈ out, Wire e) :
    stores (program out) = out.map eventWord := by
  rw [program, stores_append]
  induction out with
  | nil => rfl
  | cons e out ih =>
    rw [List.flatMap_cons, stores_append, List.append_assoc,
      ih fun e member => wires e (List.mem_cons_of_mem _ member),
      stores_eventCode (wires e List.mem_cons_self)]
    rfl

/-- A step of a hart that stores no word into `tohost`. -/
structure Quiet (s s' : State ι) : Prop where
  tohost : s'.shared.tohost = s.shared.tohost
  writer : s'.shared.writer = s.shared.writer
  received : s'.shared.received = s.shared.received
  stores : ∀ j, stores (s'.thread j).code = stores (s.thread j).code
  vars : ∀ j, (s'.thread j).vars = (s.thread j).vars

/-- The state after a hart's store. -/
def stored (s : State ι) (i : ι) (word : BitVec 64) (rest : List Stmt) : State ι where
  shared := { s.shared with tohost := word, writer := some i }
  thread := Function.update s.thread i ⟨rest, (s.thread i).vars⟩

theorem step_quiet {s : State ι} {i : ι} {stmt : Stmt} {rest : List Stmt}
    (here : (s.thread i).code = stmt :: rest) (silent : ∀ word, stmt ≠ .store word) :
    Quiet s (Interleaving.step exec s i) := by
  have kept (next : Shared ι × Thread Stmt Mode)
      (same : exec i stmt rest (s.thread i).vars s.shared = next)
      (tohost : next.1.tohost = s.shared.tohost) (writer : next.1.writer = s.shared.writer)
      (received : next.1.received = s.shared.received) (vars : next.2.vars = (s.thread i).vars)
      (code : stores next.2.code = stores (stmt :: rest)) :
      Quiet s (Interleaving.step exec s i) := by
    subst same
    rw [step_cons here]
    refine ⟨tohost, writer, received, fun j => ?_, fun j => ?_⟩
    · by_cases this : j = i
      · subst this
        simp only [Function.update_self, code, here]
      · simp only [Function.update_of_ne this]
    · by_cases this : j = i
      · subst this
        simp only [Function.update_self, vars]
      · simp only [Function.update_of_ne this]
  cases stmt with
  | store word => exact absurd rfl (silent word)
  | wfi => exact kept _ rfl rfl rfl rfl rfl rfl
  | clearFromhost => exact kept _ rfl rfl rfl rfl rfl rfl
  | await =>
    refine kept _ rfl rfl rfl rfl rfl ?_
    by_cases empty : s.shared.tohost = 0
    · simp only [exec, if_pos empty]
      rfl
    · simp only [exec, if_neg empty]
  | awaitClearing =>
    by_cases empty : s.shared.tohost = 0
    · exact kept _ (if_pos empty) rfl rfl rfl rfl rfl
    · exact kept _ (if_neg empty) rfl rfl rfl rfl rfl

/-- Every way that a step can go. -/
inductive Stepped (reply : BitVec 64 → BitVec 64) (s : State ι) : Action ι → State ι → Prop
  | quiet {i : ι} {s' : State ι} (quiet : Quiet s s') : Stepped reply s (.hart i) s'
  | store {i : ι} {word : BitVec 64} {rest : List Stmt}
      (here : (s.thread i).code = .store word :: rest) :
      Stepped reply s (.hart i) (stored s i word rest)
  | host (full : s.shared.tohost ≠ 0) (running : exitStatus (hostLog s) = none) :
      Stepped reply s .host (took reply s)
  | panic {i : ι} {mcause : BitVec 64} (mode : (s.thread i).vars = .S) :
      Stepped reply s (.panic i mcause) (panicked s i mcause)

theorem stepped_of_step {reply : BitVec 64 → BitVec 64} {s s' : State ι} {a : Action ι}
    (fired : step reply s a = some s') : Stepped reply s a s' := by
  cases a with
  | hart i =>
    cases fired
    cases here : (s.thread i).code with
    | nil =>
      rw [step_nil here]
      exact .quiet ⟨rfl, rfl, rfl, fun _ => rfl, fun _ => rfl⟩
    | cons stmt rest =>
      by_cases stores : ∃ word, stmt = .store word
      · obtain ⟨word, rfl⟩ := stores
        rw [step_cons here]
        exact .store here
      · exact .quiet (step_quiet here (not_exists.mp stores))
  | host =>
    simp only [step, Option.ite_none_left_eq_some, not_or, Option.not_isSome_iff_eq_none] at fired
    obtain ⟨⟨full, running⟩, same⟩ := fired
    cases same
    exact .host full running
  | panic i mcause =>
    simp only [step, Option.ite_none_right_eq_some] at fired
    obtain ⟨mode, same⟩ := fired
    cases same
    exact .panic mode

/-- A fail word is odd, and its upper half repeats its sign. -/
theorem verdict_wire (code : BitVec 32) : Wire (.tohost ((code ||| 1#32).signExtend 64)) := by
  constructor
  · intro zero
    have low := congrArg (·.getLsbD 0) zero
    simp at low
  · intro device
    have bit48 := congrArg (·.getLsbD 0) device
    have bit49 := congrArg (·.getLsbD 1) device
    simp only [BitVec.getLsbD_ushiftRight, BitVec.getLsbD_signExtend] at bit48 bit49
    simp at bit48 bit49
    rw [bit48] at bit49
    cases bit49

theorem panicWord_ne_zero (mcause : BitVec 64) : panicWord mcause ≠ 0 :=
  (verdict_wire _).1

omit [DecidableEq ι] in
theorem inFlight_empty {s : State ι} (empty : s.shared.tohost = 0) : inFlight s = [] :=
  if_pos empty

omit [DecidableEq ι] in
theorem Quiet.inFlight {s s' : State ι} (quiet : Quiet s s') : inFlight s' = inFlight s := by
  rw [Htif.inFlight, Htif.inFlight, quiet.tohost, quiet.writer]

theorem Quiet.account {s s' : State ι} (quiet : Quiet s s') (j : ι) :
    account s' j = account s j := by
  rw [Htif.account, Htif.account, quiet.inFlight, quiet.received, quiet.stores j]

theorem sentBy_append (i : ι) (front rest : List (ι × BitVec 64)) :
    sentBy i (front ++ rest) = sentBy i front ++ sentBy i rest :=
  List.filterMap_append

/-- A store replaces the word in flight. -/
theorem account_stored {s : State ι} {i : ι} {word : BitVec 64} {rest : List Stmt}
    (here : (s.thread i).code = .store word :: rest) (word_ne : word ≠ 0) (j : ι) :
    List.Sublist (account (stored s i word rest) j) (account s j) ∧
      (s.shared.tohost = 0 → account (stored s i word rest) j = account s j) := by
  have flight : inFlight (stored s i word rest) = [(i, word)] := if_neg word_ne
  have split : account (stored s i word rest) j =
      sentBy j s.shared.received ++ stores (s.thread j).code := by
    rw [account, flight]
    by_cases own : j = i
    · subst own
      simp [stored, sentBy, here, stores]
    · have away : (stored s i word rest).thread j = s.thread j := Function.update_of_ne own _ _
      have other : sentBy j [(i, word)] = [] := by simp [sentBy, Ne.symm own]
      rw [away, other, List.append_nil]
      rfl
  rw [split]
  constructor
  · rw [account, List.append_assoc]
    exact (List.Sublist.refl _).append (List.sublist_append_right _ _)
  · intro empty
    rw [account, inFlight_empty empty]
    simp [sentBy]

/-- `free` says that no store so far found the cell full. -/
structure Accounted (free : Prop) (out : ι → List Event) (s : State ι) : Prop where
  words : ∀ i, ∀ word ∈ stores (s.thread i).code, word ≠ 0
  planned : ∀ i, ∃ events, Planned (out i) (s.thread i).vars events ∧
    List.Sublist (account s i) (events.map eventWord) ∧
    (free → account s i = events.map eventWord)

variable {reply : BitVec 64 → BitVec 64} {out : ι → List Event} {free : Prop}

theorem AtBoot.accounted (wires : ∀ i, ∀ e ∈ out i, Wire e) {s : State ι} (boot : AtBoot out s) :
    Accounted free out s := by
  constructor
  · intro i word member
    rw [boot.thread i, stores_program (wires i), List.mem_map] at member
    obtain ⟨e, member, rfl⟩ := member
    exact eventWord_ne_zero (wires i e member)
  · intro i
    have whole : account s i = (out i).map eventWord := by
      rw [account, inFlight_empty boot.tohost, boot.received, boot.thread i,
        stores_program (wires i)]
      rfl
    refine ⟨out i, ?_, whole ▸ List.Sublist.refl _, fun _ => whole⟩
    rw [boot.thread i]
    rfl

/-- A panic cuts the output short and adds its fail word. -/
theorem Accounted.panicked {s : State ι} {i : ι} (inv : Accounted free out s)
    (mode : (s.thread i).vars = .S) (mcause : BitVec 64) :
    Accounted free out (panicked s i mcause) := by
  have other {j : ι} (own : j ≠ i) : (Htif.panicked s i mcause).thread j = s.thread j :=
    Function.update_of_ne own _ _
  have here : (Htif.panicked s i mcause).thread i = ⟨panicCode mcause, .M⟩ :=
    Function.update_self _ _ _
  have flight : inFlight (Htif.panicked s i mcause) = inFlight s := rfl
  have received : (Htif.panicked s i mcause).shared.received = s.shared.received := rfl
  constructor
  · intro j word member
    by_cases own : j = i
    · subst own
      rw [here] at member
      cases List.mem_singleton.mp member
      exact panicWord_ne_zero mcause
    · rw [other own] at member
      exact inv.words j word member
  · intro j
    obtain ⟨events, whole, sub, same⟩ := inv.planned j
    by_cases own : j = i
    · subst own
      rw [mode] at whole
      cases whole
      rw [account] at sub same
      rw [account, flight, received, here]
      generalize given : sentBy j s.shared.received ++ sentBy j (inFlight s) = sent at sub same ⊢
      have cut : free → ((out j).take sent.length).map eventWord = sent := by
        intro held
        rw [List.map_take, ← same held, List.take_left]
      by_cases held : free
      · refine ⟨_, ⟨sent.length, mcause, rfl⟩, ?_⟩
        rw [List.map_append, cut held]
        exact ⟨List.Sublist.refl _, fun _ => rfl⟩
      · refine ⟨_, ⟨(out j).length, mcause, rfl⟩, ?_, fun now => absurd now held⟩
        rw [List.take_length, List.map_append]
        exact ((List.sublist_append_left _ _).trans sub).append (List.Sublist.refl _)
    · rw [account, flight, received, other own]
      exact ⟨events, whole, sub, same⟩

theorem Accounted.step {s s' : State ι} {a : Action ι} (inv : Accounted free out s)
    (fired : step reply s a = some s') (kept : free → Free s a) : Accounted free out s' := by
  cases stepped_of_step fired with
  | quiet quiet =>
    constructor
    · intro j
      rw [quiet.stores j]
      exact inv.words j
    · intro j
      rw [quiet.account j, quiet.vars j]
      exact inv.planned j
  | @store i word rest here =>
    have member : word ∈ stores (s.thread i).code := by
      rw [here]
      exact List.mem_cons_self
    have vars (j : ι) : ((stored s i word rest).thread j).vars = (s.thread j).vars := by
      by_cases own : j = i
      · subst own
        simp [stored]
      · simp [stored, own]
    constructor
    · intro j other left
      apply inv.words j other
      by_cases own : j = i
      · subst own
        rw [here]
        simp only [stored, Function.update_self] at left
        exact List.mem_cons_of_mem _ left
      · simpa [stored, own] using left
    · intro j
      obtain ⟨events, whole, sub, same⟩ := inv.planned j
      obtain ⟨less, equal⟩ := account_stored here (inv.words i word member) j
      refine ⟨events, (vars j).symm ▸ whole, less.trans sub, fun held => ?_⟩
      rw [equal (kept held i word rest rfl here), same held]
  | host full running =>
    refine ⟨inv.words, fun j => ?_⟩
    obtain ⟨events, whole, sub, same⟩ := inv.planned j
    have moved : account (took reply s) j = account s j := by
      have empty : inFlight (took reply s) = [] := inFlight_empty rfl
      have log : (took reply s).shared.received = s.shared.received ++ inFlight s := rfl
      rw [account, empty, log, sentBy_append, account]
      simp [sentBy, took]
    rw [moved]
    exact ⟨events, whole, sub, same⟩
  | panic mode => exact inv.panicked mode _

/-- Every store follows a wait, from a point where the hart has seen the cell empty or not. -/
def Polled : Bool → List Stmt → Prop
  | _, [] => False
  | _, .await :: rest => Polled true rest
  | _, .awaitClearing :: rest => Polled true rest
  | idle, .store _ :: rest => idle = true ∧ Polled false rest
  | idle, .clearFromhost :: rest => Polled idle rest
  | _, .wfi :: rest => rest = []

theorem Polled.mono {code : List Stmt} (polled : Polled false code) : Polled true code := by
  induction code with
  | nil => exact polled
  | cons stmt rest ih =>
    cases stmt with
    | store word => exact absurd polled.1 Bool.false_ne_true
    | clearFromhost => exact ih polled
    | _ => exact polled

theorem polled_program (out : List Event) : Polled false (program out) := by
  induction out with
  | nil => exact rfl
  | cons e out ih =>
    have more : program (e :: out) = eventCode e ++ program out := by
      rw [program, List.flatMap_cons, List.append_assoc]
      rfl
    rw [more]
    cases e with
    | putc c => exact ⟨rfl, ih.mono⟩
    | tohost word => exact ⟨rfl, ih⟩
    | finisher word => exact ih

/-- Where a hart is in its program agrees with the cell. -/
def Polite (s : State ι) : Prop :=
  ∀ i, ∃ idle, (idle = true → s.shared.tohost = 0) ∧ Polled idle (s.thread i).code

omit [DecidableEq ι] in
theorem AtBoot.polite {s : State ι} (boot : AtBoot out s) : Polite s := by
  intro i
  refine ⟨false, fun seen => absurd seen Bool.false_ne_true, ?_⟩
  rw [boot.thread i]
  exact polled_program (out i)

omit [DecidableEq ι] in
theorem Polite.allFree {s : State ι} (polite : Polite s) (a : Action ι) : Free s a := by
  intro i word rest _ here
  obtain ⟨idle, empty, polled⟩ := polite i
  rw [here] at polled
  exact empty polled.1

theorem Polite.hart [Subsingleton ι] {s : State ι} (polite : Polite s) (i : ι) :
    Polite (Interleaving.step exec s i) := by
  intro j
  cases Subsingleton.elim i j
  obtain ⟨idle, empty, polled⟩ := polite i
  cases here : (s.thread i).code with
  | nil =>
    rw [step_nil here]
    exact ⟨idle, empty, polled⟩
  | cons stmt rest =>
    rw [step_cons here]
    simp only [Function.update_self]
    rw [here] at polled
    cases stmt with
    | await =>
      by_cases taken : s.shared.tohost = 0
      · exact ⟨true, fun _ => taken, by simpa only [exec, if_pos taken, Polled] using polled⟩
      · exact ⟨idle, empty, by simpa only [exec, if_neg taken] using polled⟩
    | awaitClearing =>
      by_cases taken : s.shared.tohost = 0
      · exact ⟨true, fun _ => by simpa only [exec, if_pos taken] using taken,
          by simpa only [exec, if_pos taken, Polled] using polled⟩
      · exact ⟨idle, by simpa only [exec, if_neg taken] using empty,
          by simpa only [exec, if_neg taken] using polled⟩
    | store word => exact ⟨false, fun seen => absurd seen Bool.false_ne_true, polled.2⟩
    | clearFromhost => exact ⟨idle, empty, polled⟩
    | wfi => exact ⟨idle, empty, polled⟩

theorem Polite.step [Subsingleton ι] {s s' : State ι} {a : Action ι} (polite : Polite s)
    (fired : step reply s a = some s') : Polite s' := by
  cases a with
  | hart i =>
    cases fired
    exact polite.hart i
  | host =>
    cases stepped_of_step fired with
    | host full running =>
      intro i
      obtain ⟨idle, empty, polled⟩ := polite i
      exact ⟨idle, fun _ => rfl, polled⟩
  | panic i mcause =>
    cases stepped_of_step fired with
    | panic mode =>
      intro j
      cases Subsingleton.elim i j
      refine ⟨false, fun seen => absurd seen Bool.false_ne_true, ?_⟩
      simp only [panicked, Function.update_self]
      exact ⟨rfl, rfl⟩

theorem reachable_polite [Subsingleton ι] {s : State ι}
    (reached : Reachable (AtBoot out) (Fires (step reply)) s) : Polite s :=
  reached.invariant (fun _ boot => boot.polite) fun _ _ _ polite fired => polite.step fired

theorem reachable_accounted [Subsingleton ι] (wires : ∀ i, ∀ e ∈ out i, Wire e) {s : State ι}
    (reached : Reachable (AtBoot out) (Fires (step reply)) s) : Accounted True out s := by
  have both : Polite s ∧ Accounted True out s := by
    apply reached.invariant (I := fun s => Polite s ∧ Accounted True out s)
    · exact fun s boot => ⟨boot.polite, boot.accounted wires⟩
    · exact fun s a s' inv fired => ⟨inv.1.step fired, inv.2.step fired fun _ => inv.1.allFree a⟩
  exact both.2

/-- What the host has received from a hart, what is in flight and what is left to store are, in
this order, the output of that hart: without the words that were lost in general, and all of it
where every store found the cell empty, as with one hart it always does. -/
theorem console_exact (reply : BitVec 64 → BitVec 64) (out : ι → List Event)
    (wires : ∀ i, ∀ e ∈ out i, Wire e) :
    (∀ s, Reachable (AtBoot out) (Fires (step reply)) s → ∀ i, ∃ events,
      Planned (out i) (s.thread i).vars events ∧
      List.Sublist (account s i) (events.map eventWord)) ∧
    (∀ s, Reachable (AtBoot out) (Guarded Free (Fires (step reply))) s → ∀ i, ∃ events,
      Planned (out i) (s.thread i).vars events ∧ account s i = events.map eventWord) ∧
    (Subsingleton ι → ∀ s, Reachable (AtBoot out) (Fires (step reply)) s → ∀ a, Free s a) := by
  refine ⟨fun s reached i => ?_, fun s reached i => ?_, fun _ s reached a => ?_⟩
  · have inv : Accounted False out s := reached.invariant
      (fun s boot => boot.accounted wires) fun s a s' inv fired => inv.step fired False.elim
    obtain ⟨events, whole, sub, -⟩ := inv.planned i
    exact ⟨events, whole, sub⟩
  · have inv : Accounted True out s := reached.invariant
      (fun s boot => boot.accounted wires) fun s a s' inv fired => inv.step fired.2 fun _ => fired.1
    obtain ⟨events, whole, -, same⟩ := inv.planned i
    exact ⟨events, whole, same trivial⟩
  · exact (reachable_polite reached).allFree a

end Steps

def bootState {ι : Type} (out : ι → List Event) : State ι where
  shared := { tohost := 0, fromhost := 0, writer := none, received := [] }
  thread i := ⟨program (out i), .S⟩

theorem bootState_atBoot {ι : Type} (out : ι → List Event) : AtBoot out (bootState out) :=
  ⟨fun _ => rfl, rfl, rfl⟩

def oneVerdictEach : Bool → List Event
  | false => [.putc 'A', .tohost 1]
  | true => [.tohost 3]

/-- Both harts see the empty cell; the second stores its fail word, the first its character. -/
def racing : List (Action Bool) :=
  [.hart false, .hart true, .hart true, .hart false, .host, .hart false, .hart false,
    .hart false, .hart false, .host]

theorem oneVerdictEach_wires : ∀ i, ∀ e ∈ oneVerdictEach i, Wire e := by
  have small : ∀ i, ∀ e ∈ oneVerdictEach i, e = .putc 'A' ∨ e = .tohost 1 ∨ e = .tohost 3 := by
    decide
  intro i e member
  rcases small i e member with rfl | rfl | rfl
  · exact (by decide : 'A'.toNat < 256)
  · exact ⟨by decide, by decide⟩
  · exact ⟨by decide, by decide⟩

/-- The fail word is gone and the host reports a pass. -/
theorem console_exact_racing : ∃ s : State Bool,
    Reachable (AtBoot oneVerdictEach) (Fires (step id)) s ∧
      exitStatus (hostLog s) = some 0 ∧ account s true = [] ∧
      ∃ events, Planned (oneVerdictEach true) (s.thread true).vars events ∧
        List.Sublist (account s true) (events.map eventWord) := by
  have replayed : (replay (step id) (bootState oneVerdictEach) racing).map
      (fun s => (exitStatus (hostLog s), account s true)) = some (some 0, []) := by
    decide +kernel
  obtain ⟨s, run, seen⟩ := Option.map_eq_some_iff.mp replayed
  simp only [Prod.mk.injEq] at seen
  have reached := (Reachable.start (bootState_atBoot oneVerdictEach)).replay run
  exact ⟨s, reached, seen.1, seen.2,
    (console_exact id oneVerdictEach oneVerdictEach_wires).1 s reached true⟩

end ZephyrRiscv.Htif
