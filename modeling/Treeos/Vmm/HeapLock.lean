import Treeos.Lib.Run
import Mathlib.Tactic.Common

/-!
# The lock of the heap

`liballoc_lock` and `liballoc_unlock` of `vmm/kernel_heap.c` in small steps. Interrupts come
whenever the interrupt flag is set, and their handlers take and release the lock themselves.
-/
namespace Treeos

/-- Where a flow of control is in the two functions. -/
inductive LockPc where
  | idle
  -- `liballoc_lock`: `int_enabled()` has returned, `enable_int` is set, the assertion of
  -- `int_disable` holds
  | tested (enabled : Bool)
  | stored
  | asserted
  | locked
  -- `liballoc_unlock`: `enable_int` was set, the assertion of `int_enable` holds
  | enabling
  | enableAsserted
  | unlocked
deriving DecidableEq

/-- A flow of control. `before` is the interrupt flag as its last call of `liballoc_lock` has
found it; the code keeps no such value. -/
structure LockFrame where
  pc : LockPc
  before : Bool
deriving DecidableEq

/-- The interrupt flag, `enable_int`, and the flows of control: the one that runs, and those
that an interrupt has stopped, the latest first. -/
structure LockState where
  interruptFlag : Bool
  enableInt : Bool
  current : LockFrame
  interrupted : List LockFrame
deriving DecidableEq

namespace LockFrame

/-- Not inside of the functions, nor between them. -/
def Outside (f : LockFrame) : Prop := f.pc = .idle ∨ f.pc = .unlocked

/-- Between the store to `enable_int` and `cli`. -/
def InWindow (f : LockFrame) : Prop := f.pc = .stored ∨ f.pc = .asserted

instance (f : LockFrame) : Decidable f.Outside := inferInstanceAs (Decidable (_ ∨ _))
instance (f : LockFrame) : Decidable f.InWindow := inferInstanceAs (Decidable (_ ∨ _))

def goto (f : LockFrame) (pc : LockPc) : LockFrame := { f with pc := pc }

end LockFrame

def LockState.goto (s : LockState) (pc : LockPc) : LockState :=
  { s with current := s.current.goto pc }

inductive LockEvent where
  | test
  | store
  | assert
  | cli
  | unlock
  | sti
  -- the code outside of the functions
  | flag (value : Bool)
  | interrupt
  | iret
deriving DecidableEq

/-- Any interleaving. A failed assertion panics, so it has no step. -/
inductive LockStep : LockState → LockEvent → LockState → Prop
  | test {s : LockState} (outside : s.current.Outside) :
      LockStep s .test { s with current := ⟨.tested s.interruptFlag, s.interruptFlag⟩ }
  | store {s : LockState} {enabled : Bool} (here : s.current.pc = .tested enabled) :
      LockStep s .store { s with enableInt := enabled,
                                 current := s.current.goto (if enabled then .stored else .locked) }
  | assertEnabled {s : LockState} (here : s.current.pc = .stored) (holds : s.interruptFlag = true) :
      LockStep s .assert (s.goto .asserted)
  | cli {s : LockState} (here : s.current.pc = .asserted) :
      LockStep s .cli { s.goto .locked with interruptFlag := false }
  | unlock {s : LockState} (here : s.current.pc = .locked) :
      LockStep s .unlock (s.goto (if s.enableInt then .enabling else .unlocked))
  | assertDisabled {s : LockState} (here : s.current.pc = .enabling)
      (holds : s.interruptFlag = false) : LockStep s .assert (s.goto .enableAsserted)
  | sti {s : LockState} (here : s.current.pc = .enableAsserted) :
      LockStep s .sti { s.goto .unlocked with interruptFlag := true }
  | flag {s : LockState} (outside : s.current.Outside) (value : Bool) :
      LockStep s (.flag value) { s.goto .idle with interruptFlag := value }
  -- Through an interrupt gate: the flag is saved and cleared.
  | interrupt {s : LockState} (enabled : s.interruptFlag = true) :
      LockStep s .interrupt { s with interruptFlag := false, current := ⟨.idle, false⟩,
                                     interrupted := s.current :: s.interrupted }
  -- The saved flag was set.
  | iret {s : LockState} {f : LockFrame} {rest : List LockFrame} (outside : s.current.Outside)
      (below : s.interrupted = f :: rest) :
      LockStep s .iret { s with interruptFlag := true, current := f, interrupted := rest }

/-- After `liballoc_unlock` the interrupt flag is as `liballoc_lock` has found it. -/
def LockState.Restored (s : LockState) : Prop :=
  s.current.pc = .unlocked → s.interruptFlag = s.current.before

/-- No handler stores to `enable_int` when it has interrupted a flow of control between its own
store and `cli`. -/
def Undisturbed (s : LockState) (e : LockEvent) : Prop :=
  e = .store → ∀ f ∈ s.interrupted, ¬f.InWindow

def UndisturbedStep (s : LockState) (e : LockEvent) (s' : LockState) : Prop :=
  LockStep s e s' ∧ Undisturbed s e

/-- Nothing of the functions has been called. -/
def lockStart (interruptFlag enableInt : Bool) : LockState :=
  ⟨interruptFlag, enableInt, ⟨.idle, false⟩, []⟩

/-! ### The invariant -/

/-- A flow of control that runs with this interrupt flag and this `enable_int`. -/
def LockFrame.Fits (f : LockFrame) (flag enable : Bool) : Prop :=
  match f.pc with
  | .idle => True
  | .tested enabled => enabled = f.before ∧ flag = f.before
  | .stored | .asserted => f.before = true ∧ flag = true ∧ enable = true
  | .locked => flag = false ∧ enable = f.before
  | .enabling | .enableAsserted => f.before = true ∧ flag = false
  | .unlocked => flag = f.before

/-- Interrupted flows of control go on with the flag set. -/
structure LockInv (s : LockState) : Prop where
  current : s.current.Fits s.interruptFlag s.enableInt
  interrupted : ∀ f ∈ s.interrupted, f.Fits true s.enableInt

/-- Outside of the window a flow of control that can be interrupted does not depend on
`enable_int`. -/
theorem LockFrame.Fits.store {f : LockFrame} {enable : Bool} (fits : f.Fits true enable)
    (window : ¬f.InWindow) (enable' : Bool) : f.Fits true enable' := by
  obtain ⟨pc, before⟩ := f
  cases pc with
  | stored => exact absurd (.inl rfl) window
  | asserted => exact absurd (.inr rfl) window
  | locked => exact absurd fits.1 (by decide)
  | idle => exact fits
  | tested enabled => exact fits
  | enabling => exact fits
  | enableAsserted => exact fits
  | unlocked => exact fits

/-- One case a step. -/
theorem LockStep.inv {s s' : LockState} {e : LockEvent} (inv : LockInv s)
    (undisturbed : Undisturbed s e) (step : LockStep s e s') : LockInv s' := by
  obtain ⟨current, interrupted⟩ := inv
  unfold LockFrame.Fits at current
  cases step with
  | test outside => exact ⟨⟨rfl, rfl⟩, interrupted⟩
  | @store enabled here =>
    rw [here] at current
    obtain ⟨same, flag⟩ := current
    refine ⟨?_, fun f member => (interrupted f member).store (undisturbed rfl f member) _⟩
    cases enabled with
    | true => exact ⟨same.symm, flag.trans same.symm, rfl⟩
    | false => exact ⟨flag.trans same.symm, same⟩
  | assertEnabled here holds =>
    rw [here] at current
    exact ⟨current, interrupted⟩
  | cli here =>
    rw [here] at current
    obtain ⟨before, -, enable⟩ := current
    exact ⟨⟨rfl, enable.trans before.symm⟩, interrupted⟩
  | unlock here =>
    rw [here] at current
    obtain ⟨flag, enable⟩ := current
    refine ⟨?_, interrupted⟩
    cases set : s.enableInt with
    | true => exact ⟨enable.symm.trans set, flag⟩
    | false => exact flag.trans (set.symm.trans enable)
  | assertDisabled here holds =>
    rw [here] at current
    exact ⟨current, interrupted⟩
  | sti here =>
    rw [here] at current
    exact ⟨current.1.symm, interrupted⟩
  -- outside of the functions nothing is claimed of the flow of control that runs
  | flag outside value => exact ⟨trivial, interrupted⟩
  | interrupt enabled =>
    -- what held of the running flow is what has to hold when it goes on
    refine ⟨trivial, fun f member => ?_⟩
    rcases List.mem_cons.mp member with rfl | older
    · exact enabled ▸ current
    · exact interrupted f older
  | iret outside below =>
    rw [below] at interrupted
    obtain ⟨top, rest⟩ := List.forall_mem_cons.mp interrupted
    exact ⟨top, rest⟩

/-- When no handler stores to `enable_int` in the window of another flow of control, the
interrupt flag is restored after every `liballoc_unlock`. -/
theorem heapLock_restores (interruptFlag enableInt : Bool) (events : List LockEvent) (s : LockState)
    (run : Run.From UndisturbedStep (lockStart interruptFlag enableInt) events s) : s.Restored := by
  have start : LockInv (lockStart interruptFlag enableInt) := ⟨trivial, fun f none => nomatch none⟩
  have inv : LockInv s := by
    refine run.invariant (fun _ s => LockInv s) start ?_
    intro _ s e s' _ inv ⟨step, undisturbed⟩
    exact step.inv inv undisturbed
  intro here
  have current := inv.current
  unfold LockFrame.Fits at current
  rwa [here] at current

/-- The interrupt comes right behind the store, and the flag stays clear. -/
theorem heapLock_disturbed : ∃ s, Run.From LockStep (lockStart true false)
    [.test, .store, .interrupt, .test, .store, .unlock, .iret, .assert, .cli, .unlock] s ∧
    ¬s.Restored := by
  have tested := Run.From.single (LockStep.test (s := lockStart true false) (.inl rfl))
  have stored := tested.snoc _ (@LockStep.store _ true rfl)
  have inside := stored.snoc _ (.interrupt rfl)
  -- the handler finds the flag clear and stores that to `enable_int`
  have handler := ((inside.snoc _ (.test (.inl rfl))).snoc _ (@LockStep.store _ false rfl)).snoc _
    (.unlock rfl)
  have back := handler.snoc _ (.iret (.inr rfl) rfl)
  have locked := (back.snoc _ (.assertEnabled rfl rfl)).snoc _ (.cli rfl)
  have unlocked := locked.snoc _ (.unlock rfl)
  exact ⟨_, unlocked, fun restored => absurd (restored rfl) (by decide)⟩

/-- A pair of calls with the flag set, and one in a handler behind it. -/
theorem heapLock_pairs : ∃ s : LockState, s.current.pc = .unlocked ∧ s.interrupted ≠ [] ∧
    s.Restored := by
  have tested : Run.From UndisturbedStep (lockStart true false) [.test] _ :=
    .single ⟨.test (.inl rfl), nofun⟩
  have stored := tested.snoc _ ⟨@LockStep.store _ true rfl, fun _ f none => nomatch none⟩
  have locked := (stored.snoc _ ⟨.assertEnabled rfl rfl, nofun⟩).snoc _ ⟨.cli rfl, nofun⟩
  have unlocked := ((locked.snoc _ ⟨.unlock rfl, nofun⟩).snoc _ ⟨.assertDisabled rfl rfl, nofun⟩).snoc
    _ ⟨.sti rfl, nofun⟩
  have handler := (unlocked.snoc _ ⟨.interrupt rfl, nofun⟩).snoc _ ⟨.test (.inl rfl), nofun⟩
  have inner := handler.snoc _ ⟨@LockStep.store _ false rfl, fun _ => by decide⟩
  have done := inner.snoc _ ⟨.unlock rfl, nofun⟩
  exact ⟨_, rfl, by decide, heapLock_restores true false _ _ done⟩

end Treeos
