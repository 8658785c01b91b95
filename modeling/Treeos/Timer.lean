import Mathlib.Algebra.Group.Nat.Defs
import Mathlib.Tactic.Common
import Treeos.Lib.Run

/-!
# The system timer

`timer_sleep` of `kernel/timer.c`, which waits for the tick counter to reach a deadline. The
timer interrupt may come between any two of its steps.
-/
namespace Treeos

/-- Where a process is in `timer_sleep`. -/
inductive SleepPc where
  | called
  -- the value of the first `timer_getticks`
  | started (now : BitVec 32)
  | polling (endTicks : BitVec 32)
  -- the value that the condition of the loop compares
  | polled (endTicks now : BitVec 32)
  | returned
deriving DecidableEq

/-- `calls` counts the runs of `timer_callback` since the call. -/
structure SleepState where
  systemTicks : BitVec 32
  pc : SleepPc
  calls : Nat

inductive SleepEvent where
  | timerCallback
  | own
deriving DecidableEq

/-- Any interleaving of `timer_sleep(ticks)` with the callback. -/
inductive SleepStep (ticks : BitVec 32) : SleepState → SleepEvent → SleepState → Prop
  | timerCallback {s : SleepState} :
      SleepStep ticks s .timerCallback
        { s with systemTicks := s.systemTicks + 1, calls := s.calls + 1 }
  | start {s : SleepState} (here : s.pc = .called) :
      SleepStep ticks s .own { s with pc := .started s.systemTicks }
  | deadline {s : SleepState} {now : BitVec 32} (here : s.pc = .started now) :
      SleepStep ticks s .own { s with pc := .polling (now + ticks) }
  | poll {s : SleepState} {endTicks : BitVec 32} (here : s.pc = .polling endTicks) :
      SleepStep ticks s .own { s with pc := .polled endTicks s.systemTicks }
  | test {s : SleepState} {endTicks now : BitVec 32} (here : s.pc = .polled endTicks now) :
      SleepStep ticks s .own { s with pc := if now < endTicks then .polling endTicks else .returned }

/-- `timer_sleep` has just been called. -/
def sleepStart (systemTicks : BitVec 32) : SleepState := ⟨systemTicks, .called, 0⟩

/-- The function has not returned too early. -/
def SleepState.Waited (s : SleepState) (ticks : BitVec 32) : Prop :=
  s.pc = .returned → ticks.toNat ≤ s.calls

/-! ### Without a wrap -/

/-- What the local variables are while too few ticks have passed. -/
def SleepPc.Counts (pc : SleepPc) (start ticks calls : Nat) : Prop :=
  match pc with
  | .called => True
  | .started now => ∃ c ≤ calls, now.toNat = start + c
  | .polling endTicks => ∃ c ≤ calls, endTicks.toNat = start + c + ticks
  | .polled endTicks now => ∃ c ≤ calls, ∃ d ≤ calls, endTicks.toNat = start + c + ticks ∧
      now.toNat = start + d
  | .returned => False

theorem SleepPc.Counts.callback {pc : SleepPc} {start ticks calls : Nat}
    (counts : pc.Counts start ticks calls) : pc.Counts start ticks (calls + 1) := by
  cases pc with
  | called => trivial
  | started now =>
    obtain ⟨c, le, value⟩ := counts
    exact ⟨c, by omega, value⟩
  | polling endTicks =>
    obtain ⟨c, le, value⟩ := counts
    exact ⟨c, by omega, value⟩
  | polled endTicks now =>
    obtain ⟨c, le, d, le', values⟩ := counts
    exact ⟨c, by omega, d, by omega, values⟩
  | returned => exact counts

/-- Until there have been enough ticks, the counter has not wrapped around. -/
def SleepInv (start ticks : BitVec 32) (s : SleepState) : Prop :=
  s.calls < ticks.toNat → s.systemTicks.toNat = start.toNat + s.calls ∧
    s.pc.Counts start.toNat ticks.toNat s.calls

theorem SleepStep.inv {start ticks : BitVec 32} (fits : start.toNat + 2 * ticks.toNat ≤ 2 ^ 32)
    {s s' : SleepState} {e : SleepEvent} (inv : SleepInv start ticks s)
    (step : SleepStep ticks s e s') : SleepInv start ticks s' := by
  intro early
  cases step with
  | timerCallback =>
    have few : s.calls + 1 < ticks.toNat := early
    obtain ⟨counter, counts⟩ := inv (by omega)
    refine ⟨?_, counts.callback⟩
    show (s.systemTicks + 1#32).toNat = _
    rw [BitVec.toNat_add, counter]
    exact Nat.mod_eq_of_lt (by show start.toNat + s.calls + 1 < _; omega)
  | start here =>
    obtain ⟨counter, -⟩ := inv early
    exact ⟨counter, s.calls, Nat.le_refl _, counter⟩
  | @deadline now here =>
    obtain ⟨counter, counts⟩ := inv early
    rw [here] at counts
    obtain ⟨c, le, value⟩ := counts
    refine ⟨counter, c, le, ?_⟩
    have few : s.calls < ticks.toNat := early
    rw [BitVec.toNat_add, value]
    exact Nat.mod_eq_of_lt (by omega)
  | @poll endTicks here =>
    obtain ⟨counter, counts⟩ := inv early
    rw [here] at counts
    obtain ⟨c, le, value⟩ := counts
    exact ⟨counter, c, le, s.calls, Nat.le_refl _, value, counter⟩
  | @test endTicks now here =>
    obtain ⟨counter, counts⟩ := inv early
    rw [here] at counts
    obtain ⟨c, le, d, le', deadline, value⟩ := counts
    have few : s.calls < ticks.toNat := early
    -- the deadline is ahead of any value that was read so far
    have before : now < endTicks := by
      rw [BitVec.lt_def]
      omega
    rw [if_pos before]
    exact ⟨counter, c, le, deadline⟩

/-! ### With a wrap -/

/-- A number of ticks before the function gets to run. -/
theorem run_callbacks (ticks start : BitVec 32) (n : Nat) :
    Run.From (SleepStep ticks) (sleepStart start) (List.replicate n .timerCallback)
      ⟨start + BitVec.ofNat 32 n, .called, n⟩ := by
  induction n with
  | zero =>
    have same : start + BitVec.ofNat 32 0 = start := BitVec.add_zero start
    rw [same]
    exact .nil
  | succ n ih =>
    have step : SleepStep ticks ⟨start + BitVec.ofNat 32 n, .called, n⟩ .timerCallback
        ⟨start + BitVec.ofNat 32 n + 1, .called, n + 1⟩ := .timerCallback
    rw [List.replicate_succ', BitVec.ofNat_add, ← BitVec.add_assoc]
    exact ih.snoc _ step

/-- A deadline that has wrapped around is past at once. -/
theorem run_returns {ticks start : BitVec 32} {n : Nat}
    (past : start + BitVec.ofNat 32 n + ticks ≤ start + BitVec.ofNat 32 n) :
    ∃ events, Run.From (SleepStep ticks) (sleepStart start) events
      ⟨start + BitVec.ofNat 32 n, .returned, n⟩ := by
  have run := run_callbacks ticks start n
  generalize start + BitVec.ofNat 32 n = now at past run
  have last := ((run.snoc _ (.start rfl)).snoc _ (.deadline rfl)).snoc _ (.poll rfl)
  have tested := last.snoc _ (.test rfl)
  rw [if_neg (BitVec.not_lt.mpr past)] at tested
  exact ⟨_, tested⟩

/-- `timer_sleep` waits in every interleaving exactly when neither the deadline nor the counter
can wrap around on the way: up to `ticks - 1` ticks may pass before the counter is read first. -/
theorem timerSleep_waits_iff (start ticks : BitVec 32) :
    (∀ events s, Run.From (SleepStep ticks) (sleepStart start) events s → s.Waited ticks) ↔
      ticks = 0 ∨ start.toNat + 2 * ticks.toNat ≤ 2 ^ 32 := by
  constructor
  · intro waits
    by_contra wraps
    obtain ⟨some, large⟩ := not_or.mp wraps
    have pos : ticks.toNat ≠ 0 := fun zero => some (BitVec.eq_of_toNat_eq zero)
    have bound := start.isLt
    -- the fewest ticks after which the deadline wraps around
    obtain ⟨n, least⟩ : ∃ n, n = 2 ^ 32 - ticks.toNat - start.toNat := ⟨_, rfl⟩
    have small := ticks.isLt
    have past : start + BitVec.ofNat 32 n + ticks ≤ start + BitVec.ofNat 32 n := by
      have now : (start + BitVec.ofNat 32 n).toNat = start.toNat + n := by
        rw [BitVec.toNat_add, BitVec.toNat_ofNat]
        omega
      rw [BitVec.le_def, BitVec.toNat_add, now]
      omega
    obtain ⟨events, run⟩ := run_returns past
    have enough : ticks.toNat ≤ n := waits events _ run rfl
    omega
  · intro condition events s run returned
    by_contra early
    rcases condition with rfl | fits
    · exact early (Nat.zero_le _)
    · have start : SleepInv start ticks (sleepStart start) := fun _ => ⟨rfl, trivial⟩
      have inv := run.invariant (fun _ s => SleepInv _ ticks s) start
        fun _ _ _ _ _ inv step => step.inv fits inv
      have counts := (inv (Nat.not_le.mp early)).2
      rw [returned] at counts
      exact counts

/-- One tick before the counter wraps around, a sleep of two ticks returns at once. -/
theorem timerSleep_returns_early : ¬∀ (start ticks : BitVec 32) events s,
    Run.From (SleepStep ticks) (sleepStart start) events s → s.Waited ticks := by
  intro all
  have past : 0xFFFFFFFF#32 + BitVec.ofNat 32 0 + 2#32 ≤ 0xFFFFFFFF#32 + BitVec.ofNat 32 0 := by
    decide
  obtain ⟨events, run⟩ := run_returns past
  exact absurd (all _ _ events _ run rfl) (by decide)

end Treeos
