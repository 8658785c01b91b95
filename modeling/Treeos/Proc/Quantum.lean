import Treeos.Proc.Turns

/-!
# Time slices

`scheduler_tick` counts a process's quantum down and asks for a switch at zero, but
no code ever sets a quantum again. Where switches leave the pointers of the scheduler alone, the
time slices of a run are respected exactly as long as no process receives more than
`DEFAULT_QUANTUM` ticks over the whole run.
-/
namespace Treeos

open Sched

inductive SliceKind where
  | clock
  | yield
  | switch
deriving DecidableEq

/-- An event and the process that was current when it came. -/
structure SliceEvent where
  kind : SliceKind
  current : ProcRef
deriving DecidableEq

/-- Clock interrupts, yields and further switches in any order. -/
inductive SliceStep (places : FlagPlaces) : Sched → SliceEvent → Sched → Prop
  | clock {s s' : Sched} {p : ProcRef} {other : Nat → BitVec 8} {context : BitVec 32}
      (current : s.currentProcess = some p)
      (returned : timerInterrupt places other context s = .ok s') :
      SliceStep places s ⟨.clock, p⟩ s'
  | yield {s s' : Sched} {p : ProcRef} (current : s.currentProcess = some p)
      (returned : processYield s = .ok s') : SliceStep places s ⟨.yield, p⟩ s'
  | switch {s s' : Sched} {p : ProcRef} {context : BitVec 32} (current : s.currentProcess = some p)
      (returned : contextSwitch places context s = .ok s') : SliceStep places s ⟨.switch, p⟩ s'

/-- A queue of at least two processes, one of them current, all with a full quantum. -/
structure SliceStart (s : Sched) (xs : List ProcRef) : Prop where
  queue : s.IsQueue xs
  two : 2 ≤ xs.length
  current : ∃ p ∈ xs, s.currentProcess = some p
  full : ∀ p ∈ xs, (s.proc p).quantum = defaultQuantum

/-- The clock ticks that came while `p` was current. -/
def ticks (p : ProcRef) (events : List SliceEvent) : Nat := events.count ⟨.clock, p⟩

/-- Along the history `events` no process stays current for more than
`DEFAULT_QUANTUM` consecutive ticks, and no tick finds the current quantum at zero. -/
def WithinQuantum (places : FlagPlaces) (init : Sched) (events : List SliceEvent) : Prop :=
  (∀ before stay after p, events = before ++ stay ++ after → (∀ e ∈ stay, e.current = p) →
    stay.countP (fun e => e.kind = .clock) ≤ defaultQuantum.toNat) ∧
  (∀ before after p t, events = before ++ ⟨.clock, p⟩ :: after →
    Run.From (SliceStep places) init before t → (t.proc p).quantum ≠ 0)

variable {places : FlagPlaces}

/-! ### Quanta along a run -/

/-- Every quantum is the default one less the ticks received, modulo `2 ^ 32`. -/
structure Sliced (s : Sched) (xs : List ProcRef) (events : List SliceEvent) : Prop where
  queue : s.IsQueue xs
  current : ∃ p ∈ xs, s.currentProcess = some p
  quantum : ∀ p ∈ xs, (s.proc p).quantum = defaultQuantum - BitVec.ofNat 32 (ticks p events)
  receivers : ∀ e ∈ events, e.current ∈ xs

theorem contextSwitch_quantum {s s' : Sched} {context : BitVec 32}
    (returned : contextSwitch places context s = .ok s') (q : ProcRef) :
    (s'.proc q).quantum = (s.proc q).quantum := by
  obtain ⟨p, _, rfl⟩ := contextSwitch_cases returned
  rw [schedulerAdvanceStage2_proc]
  by_cases same : q = p <;> simp [setFlags, setProc, setContext, setCurrentProcess, same]

theorem processYield_quantum {s s' : Sched} (returned : processYield s = .ok s') (q : ProcRef) :
    (s'.proc q).quantum = (s.proc q).quantum := by
  obtain ⟨p, _, rfl⟩ := processYield_cases returned
  by_cases same : q = p <;> simp [setFlags, setProc, same]

theorem schedulerTick_quantum {s s' : Sched} {p : ProcRef} (current : s.currentProcess = some p)
    (returned : schedulerTick s = .ok s') (q : ProcRef) :
    (s'.proc q).quantum = (s.proc q).quantum - if q = p then 1 else 0 := by
  obtain ⟨p', flag, current', rfl⟩ := schedulerTick_cases returned
  obtain rfl : p = p' := Option.some.inj (current.symm.trans current')
  by_cases same : q = p <;> simp [setQuantum, setProc, setSwitchProcesses, same]

/-- A clock interrupt is a tick, with a switch after it or not. -/
theorem timerInterrupt_cases {s s' : Sched} {other : Nat → BitVec 8} {context : BitVec 32}
    (returned : timerInterrupt places other context s = .ok s') :
    ∃ t, schedulerTick s = .ok t ∧ (s' = t ∨ contextSwitch places context t = .ok s') := by
  obtain ⟨t, ticked, rest⟩ := bind_ok_iff.mp returned
  refine ⟨t, ticked, ?_⟩
  split at rest
  · exact .inr rest
  · exact .inl (Except.ok.inj rest).symm

theorem contextSwitch_kept {s s' : Sched} {xs : List ProcRef} {context : BitVec 32}
    (keeps : places.KeepsQueue ∧ places.KeepsCurrent) (queue : s.IsQueue xs)
    (current : ∃ p ∈ xs, s.currentProcess = some p)
    (returned : contextSwitch places context s = .ok s') :
    s'.IsQueue xs ∧ ∃ p ∈ xs, s'.currentProcess = some p := by
  obtain ⟨p, member, here⟩ := current
  obtain ⟨p', here', rfl⟩ := contextSwitch_cases returned
  obtain rfl : p = p' := Option.some.inj (here.symm.trans here')
  refine ⟨queue.congr (by simp) (by simp [keeps.1.stored]), xs.next p member,
    List.next_mem _ _ member, ?_⟩
  rw [schedulerAdvanceStage2_currentProcess, keeps.2.stored]
  exact queue.following member

theorem ticks_snoc (p : ProcRef) (events : List SliceEvent) (e : SliceEvent) :
    ticks p (events ++ [e]) = ticks p events + if e = ⟨.clock, p⟩ then 1 else 0 := by
  unfold ticks
  rw [List.count_append, List.count_singleton]
  simp only [beq_iff_eq]

theorem SliceStep.sliced {s s' : Sched} {xs : List ProcRef} {events : List SliceEvent}
    {e : SliceEvent} (keeps : places.KeepsQueue ∧ places.KeepsCurrent) (inv : Sliced s xs events)
    (step : SliceStep places s e s') :
    Sliced s' xs (events ++ [e]) := by
  have receivers : s.currentProcess = some e.current → ∀ e' ∈ events ++ [e], e'.current ∈ xs := by
    intro current e' member
    obtain ⟨p, queued, here⟩ := inv.current
    rcases List.mem_append.mp member with old | new
    · exact inv.receivers e' old
    · rw [List.mem_singleton.mp new, ← Option.some.inj (here.symm.trans current)]
      exact queued
  cases step with
  | @clock _ p other context current returned =>
    obtain ⟨t, ticked, rest⟩ := timerInterrupt_cases returned
    have kept : t.IsQueue xs ∧ ∃ p ∈ xs, t.currentProcess = some p := by
      obtain ⟨p', flag, _, rfl⟩ := schedulerTick_cases ticked
      exact ⟨inv.queue.congr (by simp) rfl, inv.current⟩
    have counted : ∀ q ∈ xs, (t.proc q).quantum =
        defaultQuantum - BitVec.ofNat 32 (ticks q (events ++ [⟨.clock, p⟩])) := by
      intro q member
      rw [schedulerTick_quantum current ticked q, inv.quantum q member, ticks_snoc]
      by_cases same : q = p
      · simp [same, BitVec.ofNat_add, BitVec.sub_sub]
      · simp [same, Ne.symm same]
    -- the switch at the end of the interrupt leaves the quanta alone
    rcases rest with rfl | switched
    · exact ⟨kept.1, kept.2, counted, receivers current⟩
    · have ⟨queue, current'⟩ := contextSwitch_kept keeps kept.1 kept.2 switched
      refine ⟨queue, current', fun q member => ?_, receivers current⟩
      rw [contextSwitch_quantum switched q, counted q member]
  | yield current returned =>
    refine ⟨?_, ?_, fun q member => ?_, receivers current⟩
    · obtain ⟨p, _, rfl⟩ := processYield_cases returned
      exact inv.queue.congr (by simp) rfl
    · obtain ⟨p, _, rfl⟩ := processYield_cases returned
      exact inv.current
    · rw [processYield_quantum returned q, inv.quantum q member, ticks_snoc]
      simp
  | switch current returned =>
    have ⟨queue, current'⟩ := contextSwitch_kept keeps inv.queue inv.current returned
    refine ⟨queue, current', fun q member => ?_, receivers current⟩
    rw [contextSwitch_quantum returned q, inv.quantum q member, ticks_snoc]
    simp

theorem run_sliced {init s : Sched} {xs : List ProcRef}
    (keeps : places.KeepsQueue ∧ places.KeepsCurrent) (start : SliceStart init xs)
    {events : List SliceEvent} (run : Run.From (SliceStep places) init events s) :
    Sliced s xs events := by
  refine run.invariant (fun events s => Sliced s xs events)
    ⟨start.queue, start.current, fun p member => ?_, by simp⟩ fun _ _ _ _ _ inv step =>
      step.sliced keeps inv
  simpa [ticks] using start.full p member

/-- The quantum is used up exactly when the ticks are, as long as they were few. -/
theorem Sliced.quantum_ne_zero {s : Sched} {xs : List ProcRef} {events : List SliceEvent}
    (inv : Sliced s xs events) {p : ProcRef} (member : p ∈ xs)
    (few : ticks p events ≤ defaultQuantum.toNat) :
    (s.proc p).quantum ≠ 0 ↔ ticks p events < defaultQuantum.toNat := by
  rw [inv.quantum p member]
  have size : defaultQuantum.toNat = 100 := rfl
  constructor
  · intro left
    by_contra used
    have all : ticks p events = 100 := by omega
    exact left (by rw [all]; rfl)
  · intro less zero
    have same := congrArg BitVec.toNat zero
    rw [BitVec.toNat_sub, BitVec.toNat_ofNat, size] at same
    have none : (0 : BitVec 32).toNat = 0 := rfl
    omega

/-- No tick of the run finds the quantum at zero exactly when no process receives
more than `DEFAULT_QUANTUM` ticks. -/
theorem few_ticks {init s : Sched} {xs : List ProcRef}
    (keeps : places.KeepsQueue ∧ places.KeepsCurrent) (start : SliceStart init xs)
    {events : List SliceEvent} (run : Run.From (SliceStep places) init events s)
    (nonzero : ∀ before after p t, events = before ++ ⟨.clock, p⟩ :: after →
      Run.From (SliceStep places) init before t → (t.proc p).quantum ≠ 0) :
    ∀ p ∈ xs, ticks p events ≤ defaultQuantum.toNat := by
  induction run with
  | nil => simp [ticks]
  | @snoc events t t' e before last ih =>
    intro p member
    have earlier := ih fun front after p t split =>
      nonzero front (after ++ [e]) p t (by rw [split, List.append_assoc, List.cons_append])
    have inv := run_sliced keeps start before
    rw [ticks_snoc]
    split
    next same =>
      -- the last tick finds a quantum that the ones before have not used up
      have left := nonzero events [] p t (by rw [same]) before
      have less := (inv.quantum_ne_zero member (earlier p member)).mp left
      omega
    · exact earlier p member

theorem countP_stay {stay : List SliceEvent} {p : ProcRef} (same : ∀ e ∈ stay, e.current = p) :
    stay.countP (fun e => e.kind = .clock) = ticks p stay := by
  unfold ticks List.count
  refine List.countP_congr fun e member => ?_
  obtain ⟨kind, current⟩ := e
  obtain rfl := same _ member
  simp

theorem ticks_le_of_split (p : ProcRef) (before stay after : List SliceEvent) :
    ticks p stay ≤ ticks p (before ++ stay ++ after) := by
  simp only [ticks, List.count_append]
  omega

/-- A run respects the time slices exactly when no process receives more than
`DEFAULT_QUANTUM` clock ticks in it, since no quantum is ever filled up again. -/
theorem withinQuantum_iff (places : FlagPlaces) (keeps : places.KeepsQueue ∧ places.KeepsCurrent)
    (init : Sched) (xs : List ProcRef) (start : SliceStart init xs) (events : List SliceEvent)
    (s : Sched) (run : Run.From (SliceStep places) init events s) :
    WithinQuantum places init events ↔ ∀ p ∈ xs, ticks p events ≤ defaultQuantum.toNat := by
  constructor
  · exact fun within => few_ticks keeps start run within.2
  · intro few
    constructor
    · rintro before stay after p rfl same
      rw [countP_stay same]
      cases stay with
      | nil => simp [ticks]
      | cons e stay =>
        have member := (run_sliced keeps start run).receivers e (by simp)
        rw [same e (by simp)] at member
        exact Nat.le_trans (ticks_le_of_split p before (e :: stay) after) (few p member)
    · rintro before after p t rfl run'
      have inv := run_sliced keeps start run'
      have member : p ∈ xs := (run_sliced keeps start run).receivers ⟨.clock, p⟩ (by simp)
      have total := few p member
      rw [ticks, List.count_append, List.count_cons_self] at total
      exact (inv.quantum_ne_zero member (by unfold ticks; omega)).mpr (by unfold ticks; omega)

/-! ### A run that overruns its slices -/

/-- The clock can always tick, and the tick goes to a queued process. -/
theorem timerInterrupt_returns {s : Sched} {xs : List ProcRef} (queue : s.IsQueue xs)
    {p : ProcRef} (member : p ∈ xs) (current : s.currentProcess = some p)
    (other : Nat → BitVec 8) (context : BitVec 32) :
    ∃ s', timerInterrupt places other context s = .ok s' := by
  obtain ⟨t, ticked⟩ := schedulerTick_returns queue member current
  have current' : t.currentProcess = some p := by
    obtain ⟨p', flag, _, rfl⟩ := schedulerTick_cases ticked
    exact current
  unfold timerInterrupt
  simp only [ticked, bind, Except.bind]
  split
  · exact ⟨_, contextSwitch_eq context current'⟩
  · exact ⟨_, rfl⟩

/-- Two processes queued in the order 0, 1. -/
def twoProcesses : Sched where
  proc p := ⟨p, 0#32, 0#8, defaultQuantum, if p = 0 then some 1 else none⟩
  thread p := ⟨0#32, some p, none⟩
  processQueue := some 0
  currentProcess := some 0
  preemptionEnabled := true
  switchProcesses := false

theorem twoProcesses_start : SliceStart twoProcesses [0, 1] where
  queue := ⟨rfl, rfl, rfl⟩
  two := by decide
  current := ⟨0, by simp, rfl⟩
  full := fun _ _ => rfl

/-- The run of `n` clock ticks. -/
theorem twoProcesses_clock (n : Nat) :
    ∃ events s, Run.From (SliceStep .padded) twoProcesses events s ∧
      ticks 0 events + ticks 1 events = n := by
  induction n with
  | zero => exact ⟨[], twoProcesses, .nil, rfl⟩
  | succ n ih =>
    obtain ⟨events, s, run, total⟩ := ih
    have inv := run_sliced FlagPlaces.padded_keeps twoProcesses_start run
    obtain ⟨p, member, current⟩ := inv.current
    obtain ⟨s', returned⟩ := timerInterrupt_returns inv.queue member current (fun _ => 0) 0#32
    refine ⟨_, s', run.snoc _ (.clock current returned), ?_⟩
    rw [ticks_snoc, ticks_snoc]
    rcases List.mem_cons.mp member with rfl | last
    · simp
      omega
    · obtain rfl := List.mem_singleton.mp last
      simp
      omega

/-- Within 201 clock ticks two processes leave their slices. -/
theorem twoProcesses_overrun :
    ∃ events s, SliceStart twoProcesses [0, 1] ∧
      Run.From (SliceStep .padded) twoProcesses events s ∧
      ¬WithinQuantum .padded twoProcesses events := by
  obtain ⟨events, s, run, total⟩ := twoProcesses_clock 201
  refine ⟨events, s, twoProcesses_start, run, fun within => ?_⟩
  have few := few_ticks FlagPlaces.padded_keeps twoProcesses_start run within.2
  have first := few 0 (by simp)
  have second := few 1 (by simp)
  have size : defaultQuantum.toNat = 100 := rfl
  omega

/-- A single tick stays within the slices. -/
theorem twoProcesses_within :
    ∃ s, Run.From (SliceStep .padded) twoProcesses [⟨.clock, 0⟩] s ∧
      WithinQuantum .padded twoProcesses [⟨.clock, 0⟩] := by
  obtain ⟨s, returned⟩ := timerInterrupt_returns twoProcesses_start.queue
    (List.mem_cons_self) (rfl : twoProcesses.currentProcess = some 0) (fun _ => 0) 0#32
  have run : Run.From (SliceStep .padded) twoProcesses [⟨.clock, 0⟩] s :=
    .single (.clock rfl returned)
  exact ⟨s, run, (withinQuantum_iff .padded FlagPlaces.padded_keeps twoProcesses [0, 1]
    twoProcesses_start _ s run).mpr (by decide)⟩

end Treeos
