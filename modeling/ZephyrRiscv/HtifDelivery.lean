import ZephyrRiscv.HtifConsole

set_option autoImplicit false

namespace ZephyrRiscv.Htif

open Transition Interleaving Verdict

inductive Party where
  | hart
  | host
deriving DecidableEq, Repr

/-- A host that has nothing to take, or has its verdict, leaves everything as it is. -/
def next (reply : BitVec 64 → BitVec 64) (s : State Unit) : Party → State Unit
  | .hart => Interleaving.step exec s ()
  | .host => (step reply s .host).getD s

def weight (s : State Unit) : Nat :=
  3 * (s.thread ()).code.length + (if s.shared.tohost = 0 then 0 else 2) +
    (if s.shared.fromhost = 0 then 0 else 1)

variable {reply : BitVec 64 → BitVec 64} {out : Unit → List Event}

theorem hart_shrinks (s : State Unit) :
    next reply s .hart = s ∨ weight (next reply s .hart) < weight s := by
  cases here : (s.thread ()).code with
  | nil => exact .inl (step_nil here)
  | cons stmt rest =>
    have shorter (m : Shared Unit) (runs : exec () stmt rest (s.thread ()).vars s.shared =
        (m, ⟨rest, (s.thread ()).vars⟩)) (tohost : m.tohost = 0 → s.shared.tohost = 0)
        (fromhost : s.shared.fromhost = 0 → m.fromhost = 0) :
        weight (next reply s .hart) < weight s := by
      simp only [next, step_cons here, runs, weight, Function.update_self, here,
        List.length_cons]
      grind
    cases stmt with
    | await =>
      by_cases taken : s.shared.tohost = 0
      · exact .inr (shorter s.shared (by simp only [exec, if_pos taken]) id id)
      · exact .inl (step_waits here (by simp only [exec, if_neg taken]))
    | awaitClearing =>
      by_cases taken : s.shared.tohost = 0
      · exact .inr (shorter s.shared (by simp only [exec, if_pos taken]) id id)
      · by_cases clear : s.shared.fromhost = 0
        · refine .inl (step_waits here ?_)
          simp only [exec, if_neg taken]
          rw [← clear]
        · refine .inr ?_
          simp only [next, step_cons here, exec, if_neg taken, weight, Function.update_self, here,
            if_neg clear]
          simp
    | store word =>
      refine .inr ?_
      simp only [next, step_cons here, exec, weight, Function.update_self, here, List.length_cons]
      grind
    | clearFromhost => exact .inr (shorter _ rfl id fun _ => rfl)
    | wfi => exact .inl (step_waits here rfl)

theorem host_shrinks (s : State Unit) :
    next reply s .host = s ∨ weight (next reply s .host) < weight s := by
  cases fired : step reply s .host with
  | none => exact .inl (by simp only [next, fired, Option.getD_none])
  | some s' =>
    refine .inr ?_
    simp only [next, fired, Option.getD_some]
    cases stepped_of_step fired with
    | host full running =>
      simp only [weight, took, if_neg full]
      grind

theorem next_fires (s : State Unit) (p : Party) :
    next reply s p = s ∨ ∃ a, step reply s a = some (next reply s p) := by
  cases p with
  | hart => exact .inr ⟨.hart (), rfl⟩
  | host =>
    cases fired : step reply s .host with
    | none => exact .inl (by simp only [next, fired, Option.getD_none])
    | some s' => exact .inr ⟨.host, by simp only [next, fired, Option.getD_some]⟩

theorem next_vars (s : State Unit) (p : Party) :
    ((next reply s p).thread ()).vars = (s.thread ()).vars := by
  cases p with
  | hart =>
    have fired : step reply s (.hart ()) = some (next reply s .hart) := rfl
    generalize next reply s .hart = s' at fired ⊢
    cases stepped_of_step fired with
    | quiet quiet => exact quiet.vars ()
    | @store i word rest here =>
      have kept : ((stored s i word rest).thread i).vars = (s.thread i).vars := by
        simp only [stored, Function.update_self]
      exact kept
  | host =>
    cases fired : step reply s .host with
    | none => simp only [next, fired, Option.getD_none]
    | some s' =>
      simp only [next, fired, Option.getD_some]
      cases stepped_of_step fired with
      | host full running => rfl

/-- With one hart everything received came from it. -/
theorem sentBy_unit (entries : List (Unit × BitVec 64)) :
    sentBy () entries = entries.map Prod.snd := by
  induction entries with
  | nil => rfl
  | cons entry entries ih =>
    rw [List.map_cons, ← ih]
    rfl

theorem Planned.wire {out events : List Event} {mode : Mode} (planned : Planned out mode events)
    (wires : ∀ e ∈ out, Wire e) : ∀ e ∈ events, Wire e := by
  cases mode with
  | S =>
    cases planned
    exact wires
  | M =>
    obtain ⟨n, mcause, rfl⟩ := planned
    intro e member
    rcases List.mem_append.mp member with early | last
    · exact wires e (List.mem_of_mem_take early)
    · rw [List.mem_singleton.mp last]
      exact verdict_wire _

theorem decode_words {events : List Event} (wires : ∀ e ∈ events, Wire e) :
    (events.map eventWord).map decode = events := by
  rw [List.map_map]
  conv_rhs => rw [← List.map_id events]
  exact List.map_congr_left fun e member => decode_eventWord (wires e member)

/-- The host's view is the start of a planned output, and all of it once nothing is left. -/
theorem Accounted.hostLog (wires : ∀ i, ∀ e ∈ out i, Wire e) {s : State Unit}
    (inv : Accounted True out s) :
    ∃ events, Planned (out ()) (s.thread ()).vars events ∧ Htif.hostLog s <+: events ∧
      (s.shared.tohost = 0 → stores (s.thread ()).code = [] → Htif.hostLog s = events) := by
  obtain ⟨events, planned, -, same⟩ := inv.planned ()
  have words := same trivial
  have decoded := decode_words (planned.wire (wires ()))
  rw [← words, account, List.append_assoc, sentBy_unit, List.map_append, List.map_map] at decoded
  refine ⟨events, planned, ⟨_, decoded⟩, fun empty done => ?_⟩
  rw [inFlight_empty empty, done, sentBy_unit, List.map_nil, List.append_nil, List.map_nil,
    List.append_nil] at decoded
  exact decoded

/-- The output ends with its only verdict. -/
def Concludes (out : List Event) : Prop :=
  ∃ console word, out = console ++ [.tohost word] ∧ ∀ e ∈ console, hostStatus e = none

/-- The start of an output that holds the verdict is the whole output. -/
theorem Concludes.whole {out log : List Event} (concludes : Concludes out) (start : log <+: out)
    (verdict : (exitStatus log).isSome) : log = out := by
  obtain ⟨console, word, rfl, silent⟩ := concludes
  rcases List.prefix_concat_iff.mp start with whole | early
  · exact whole
  · have none : exitStatus log = none :=
      List.findSome?_eq_none_iff.mpr fun e member => silent e (early.subset member)
    rw [none] at verdict
    cases verdict

theorem Polled.wfi_last {idle : Bool} {code : List Stmt}
    (polled : Polled idle (.wfi :: code)) : code = [] := by
  cases idle <;> exact polled

/-- As long as the host has no verdict, the hart or the host can go on. -/
theorem moves (wires : ∀ i, ∀ e ∈ out i, Wire e) (concludes : Concludes (out ())) {s : State Unit}
    (reached : Reachable (AtBoot out) (Fires (step reply)) s)
    (waiting : ¬ (exitStatus (hostLog s)).isSome) : ∃ p, next reply s p ≠ s := by
  by_cases empty : s.shared.tohost = 0
  · refine ⟨.hart, fun same => ?_⟩
    obtain ⟨idle, seen, polled⟩ := reachable_polite reached ()
    cases here : (s.thread ()).code with
    | nil =>
      rw [here] at polled
      cases idle <;> exact polled
    | cons stmt rest =>
      have length := congrArg (fun s => (s.thread ()).code.length) same
      simp only [next, step_cons here, Function.update_self, here, List.length_cons] at length
      cases stmt with
      | await => simp [exec, empty] at length
      | awaitClearing => simp [exec, empty] at length
      | store word => simp [exec] at length
      | clearFromhost => simp [exec] at length
      | wfi =>
        rw [here] at polled
        cases polled.wfi_last
        obtain ⟨events, planned, -, whole⟩ := (reachable_accounted wires reached).hostLog wires
        rw [whole empty (by rw [here]; rfl)] at waiting
        apply waiting
        cases mode : (s.thread ()).vars with
        | S =>
          rw [mode] at planned
          obtain ⟨console, word, last, silent⟩ := concludes
          rw [show events = _ from planned, last, exitStatus_append _ _ silent]
          rfl
        | M =>
          rw [mode] at planned
          obtain ⟨n, mcause, rfl⟩ := planned
          simp [exitStatus, hostStatus]
  · refine ⟨.host, fun same => empty ?_⟩
    have taken : next reply s .host = took reply s := by
      simp only [next, step]
      rw [if_neg (not_or.mpr ⟨empty, waiting⟩), Option.getD_some]
    rw [← same, taken]
    rfl

/-- With one hart and a host that both go on the host gets the whole output and its verdict, or,
when the hart has panicked, it may get the start of the output and the verdict of the panic. -/
theorem verdict_delivered (reply : BitVec 64 → BitVec 64) (out : Unit → List Event)
    (wires : ∀ i, ∀ e ∈ out i, Wire e) (concludes : Concludes (out ()))
    (run : Nat → State Unit) (label : Nat → Party)
    (reached : Reachable (AtBoot out) (Fires (step reply)) (run 0))
    (steps : ∀ t, run (t + 1) = next reply (run t) (label t)) (fair : Fair label) :
    ∃ t, hostLog (run t) = out () ∨ ((run 0).thread ()).vars = .M ∧
      ∃ n mcause, hostLog (run t) = (out ()).take n ++ [.tohost (panicWord mcause)] := by
  have reachable (t : Nat) : Reachable (AtBoot out) (Fires (step reply)) (run t) := by
    induction t with
    | zero => exact reached
    | succ t ih =>
      rw [steps t]
      have fires : next reply (run t) (label t) = run t ∨
          ∃ a, step reply (run t) a = some (next reply (run t) (label t)) := next_fires _ _
      rcases fires with same | ⟨a, fired⟩
      · rwa [same]
      · exact ih.next fired
  have mode (t : Nat) : ((run t).thread ()).vars = ((run 0).thread ()).vars := by
    induction t with
    | zero => rfl
    | succ t ih => rw [steps t, next_vars, ih]
  have shrinks (t : Nat) : run (t + 1) = run t ∨ weight (run (t + 1)) < weight (run t) := by
    rw [steps t]
    cases label t with
    | hart => exact hart_shrinks _
    | host => exact host_shrinks _
  obtain ⟨t, -, verdict⟩ := fair.eventually (P := fun s => (exitStatus (hostLog s)).isSome) steps
    shrinks (fun t waiting => moves wires concludes (reachable t) waiting) 0
  obtain ⟨events, planned, start, -⟩ :=
    (reachable_accounted wires (reachable t)).hostLog wires
  rw [mode t] at planned
  refine ⟨t, ?_⟩
  cases trapped : ((run 0).thread ()).vars with
  | S =>
    rw [trapped] at planned
    cases planned
    exact .inl (concludes.whole start verdict)
  | M =>
    rw [trapped] at planned
    obtain ⟨n, mcause, rfl⟩ := planned
    rcases List.prefix_concat_iff.mp start with whole | early
    · exact .inr ⟨rfl, n, mcause, whole⟩
    · exact .inl (concludes.whole (early.trans (List.take_prefix n _)) verdict)

theorem chars_small {s : String} {c : Char} (member : c ∈ chars s) : c.toNat < 256 := by
  obtain ⟨point, -, member⟩ := List.mem_flatMap.mp member
  obtain ⟨byte, -, rfl⟩ := List.mem_map.mp member
  have small : byte.toNat < 256 := byte.toNat_lt
  have valid : byte.toNat.isValidChar := .inl (by omega)
  rwa [Char.ofNat, dif_pos valid]

theorem uartPuts_wires (s : String) : ∀ e ∈ uartPuts s, Wire e := by
  intro e member
  obtain ⟨c, present, member⟩ := List.mem_flatMap.mp member
  have byte : Wire (.putc c) := chars_small present
  split at member
  · rcases List.mem_append.mp member with first | second
    · rw [List.mem_singleton.mp first]
      exact (by decide : '\r'.toNat < 256)
    · rwa [List.mem_singleton.mp second]
  · rwa [List.mem_singleton.mp member]

theorem decDigits_bytes (cells : Nat) (val : Int) : ∀ c ∈ decDigits cells val, c.toNat < 256 := by
  induction cells generalizing val with
  | zero => simp [decDigits]
  | succ cells ih =>
    intro c member
    rw [decDigits, List.mem_cons] at member
    rcases member with rfl | later
    · have low := Int.tmod_lt_of_pos val (by decide : (0 : Int) < 10)
      have small : (48 + val.tmod 10).toNat < 256 := by omega
      have valid : (48 + val.tmod 10).toNat.isValidChar := .inl (by omega)
      rwa [Char.ofNat, dif_pos valid]
    · split at later
      · exact ih _ c later
      · cases later

theorem uartPutDec_wires (val : BitVec 32) : ∀ e ∈ uartPutDec val, Wire e := by
  intro e member
  rcases List.mem_append.mp member with sign | digits
  · split at sign
    · rw [List.mem_singleton.mp sign]
      exact (by decide : '-'.toNat < 256)
    · cases sign
  · obtain ⟨c, present, member⟩ := List.mem_flatMap.mp digits
    rw [List.mem_singleton.mp member]
    exact decDigits_bytes 20 _ c (List.mem_reverse.mp present)

theorem sModeEntry_wires {output : List Event} (wires : ∀ e ∈ output, Wire e)
    (result : BitVec 32) : ∀ e ∈ sModeEntry .htif output result, Wire e := by
  intro e member
  rcases List.mem_append.mp member with front | verdict
  · rcases List.mem_append.mp front with banner | inner
    · exact uartPuts_wires _ e banner
    · exact wires e inner
  · split at verdict
    · rcases List.mem_append.mp verdict with text | word
      · exact uartPuts_wires _ e text
      · rw [List.mem_singleton.mp word]
        exact ⟨by decide, by decide⟩
    · rcases List.mem_append.mp verdict with text | word
      · rcases List.mem_append.mp text with text | newline
        · rcases List.mem_append.mp text with text | code
          · exact uartPuts_wires _ e text
          · exact uartPutDec_wires result e code
        · rw [List.mem_singleton.mp newline]
          exact (by decide : '\n'.toNat < 256)
      · rw [List.mem_singleton.mp word]
        exact verdict_wire _

theorem sModeEntry_concludes {output : List Event} (silent : ∀ e ∈ output, hostStatus e = none)
    (result : BitVec 32) : Concludes (sModeEntry .htif output result) := by
  have front : ∀ e ∈ uartPuts "\n=== S-mode entry, stvec set ===\n" ++ output,
      hostStatus e = none := by
    intro e member
    rcases List.mem_append.mp member with banner | inner
    · exact uartPuts_console _ e banner
    · exact silent e inner
  have ends {text : List Event} (word : BitVec 64) (console : ∀ e ∈ text, hostStatus e = none) :
      Concludes (uartPuts "\n=== S-mode entry, stvec set ===\n" ++ output ++
        (text ++ [.tohost word])) := by
    refine ⟨_, word, (List.append_assoc _ _ _).symm, fun e member => ?_⟩
    rcases List.mem_append.mp member with early | late
    · exact front e early
    · exact console e late
  rw [sModeEntry]
  split
  · exact ends 1 (uartPuts_console _)
  · refine ends _ fun e member => ?_
    rcases List.mem_append.mp member with text | newline
    · rcases List.mem_append.mp text with text | code
      · exact uartPuts_console _ e text
      · exact uartPutDec_console result e code
    · exact uartPutc_console _ e newline

def passing : Unit → List Event :=
  fun _ => sModeEntry .htif [] 0

def inTurn (t : Nat) : Party :=
  if t % 2 = 0 then .hart else .host

def passingRun : Nat → State Unit
  | 0 => bootState passing
  | t + 1 => next id (passingRun t) (inTurn t)

theorem inTurn_fair : Fair inTurn := by
  intro p t
  cases p with
  | hart => exact ⟨2 * t, by omega, by simp [inTurn]⟩
  | host => exact ⟨2 * t + 1, by omega, by simp [inTurn]⟩

theorem verdict_delivered_passing : ∃ t, hostLog (passingRun t) = passing () ∨
    ((passingRun 0).thread ()).vars = .M ∧
      ∃ n mcause, hostLog (passingRun t) =
        (passing ()).take n ++ [.tohost (panicWord mcause)] :=
  verdict_delivered id passing (fun _ => sModeEntry_wires (by simp) 0)
    (sModeEntry_concludes (by simp) 0) passingRun inTurn
    (Reachable.start (bootState_atBoot passing)) (fun _ => rfl) inTurn_fair

end ZephyrRiscv.Htif
