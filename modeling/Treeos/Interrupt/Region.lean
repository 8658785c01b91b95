import Treeos.Interrupt.Mask
import Treeos.Lib.Run
import Treeos.Proc.Scheduler
import Mathlib.Logic.Relation

/-!
# Critical regions

Processes that lock regions against the timer, in small steps: the test of
`irq_mask`, the port writes and the store are separate, and a timer interrupt may
come between any two of them.
-/
namespace Treeos

/-- Where a process is inside `set_raw_mask`. -/
inductive RawMaskPc where
  | start
  | master
  | slave
  | store
deriving DecidableEq

/-- Where a process is in the region functions. `setRawMask` remembers whether
`int_mask_irq` or `int_unmask_irq` called it. -/
inductive RegionPc where
  | run
  | lockDecided (lock : Bool)
  | maskChecked
  | unlockCalled (lock : Bool)
  | unmaskChecked
  | setRawMask (pc : RawMaskPc) (mask : BitVec 16) (masking : Bool)
deriving DecidableEq

/-- A process with the `lock` values of its open regions, the innermost first. -/
structure RegionProc where
  pc : RegionPc
  locks : List Bool
  interruptFlag : Bool
deriving DecidableEq

namespace RegionProc

def goto (p : RegionProc) (pc : RegionPc) : RegionProc := { p with pc := pc }

/-- The return of `int_lock_region`. -/
def enter (p : RegionProc) (lock : Bool) : RegionProc :=
  { p with pc := .run, locks := lock :: p.locks }

/-- The return of `set_raw_mask` and of its callers. -/
def afterRawMask (p : RegionProc) (masking : Bool) : RegionProc :=
  if masking then p.enter true else p.goto .run

end RegionProc

/-- The next step of a process inside the region functions. -/
def regionAdvance (m : Masks) (p : RegionProc) : Masks × RegionProc :=
  match p.pc with
  | .run => (m, p)
  | .lockDecided false => (m, p.enter false)
  | .lockDecided true =>
    if m.irqMask &&& irqBit irqPit ≠ 0 then (m, p.enter true) else (m, p.goto .maskChecked)
  | .maskChecked => (m, p.goto (.setRawMask .start (m.irqMask ||| irqBit irqPit) true))
  | .unlockCalled false => (m, p.goto .run)
  | .unlockCalled true =>
    if m.irqMask &&& irqBit irqPit = 0 then (m, p.goto .run) else (m, p.goto .unmaskChecked)
  | .unmaskChecked => (m, p.goto (.setRawMask .start (m.irqMask &&& ~~~irqBit irqPit) false))
  | .setRawMask .start mask masking =>
    if m.irqMask = mask then (m, p.afterRawMask masking)
    else (m, p.goto (.setRawMask .master mask masking))
  | .setRawMask .master mask masking =>
    (m.writeMaster mask, p.goto (.setRawMask .slave mask masking))
  | .setRawMask .slave mask masking =>
    (m.writeSlave mask, p.goto (.setRawMask .store mask masking))
  | .setRawMask .store mask masking => (m.store mask, p.afterRawMask masking)

/-- The steps of a process on its own: outside the region functions it may call one of
them or change its interrupt flag. -/
inductive OwnStep : Masks × RegionProc → Masks × RegionProc → Prop
  | flag {m : Masks} {locks : List Bool} {flag : Bool} (flag' : Bool) :
      OwnStep (m, ⟨.run, locks, flag⟩) (m, ⟨.run, locks, flag'⟩)
  | lock {m : Masks} {locks : List Bool} {flag lock : Bool}
      (enabled : intIrqEnabled m irqPit = .ok lock) :
      OwnStep (m, ⟨.run, locks, flag⟩) (m, ⟨.lockDecided lock, locks, flag⟩)
  | unlock {m : Masks} {locks : List Bool} {flag lock : Bool} :
      OwnStep (m, ⟨.run, lock :: locks, flag⟩) (m, ⟨.unlockCalled lock, locks, flag⟩)
  | advance {m : Masks} {p : RegionProc} (inside : p.pc ≠ .run) :
      OwnStep (m, p) (regionAdvance m p)

/-- All processes, one of them running. -/
structure RegionState where
  masks : Masks
  proc : ProcRef → RegionProc
  current : ProcRef

/-- The masks in the timer interrupt: `scheduler_tick` brackets itself, and a switch runs
`scheduler_advance_stage1` with `scheduler_find_next_best` inside. -/
def timerHandler (m : Masks) (switching : Bool) : Except Panic Masks := do
  let (lock, m) ← intLockRegion m
  let m ← intUnlockRegion m lock
  if switching then
    let (lock, m) ← intLockRegion m
    let (inner, m) ← intLockRegion m
    let m ← intUnlockRegion m inner
    intUnlockRegion m lock
  else .ok m

inductive RegionEvent where
  | own
  | tick (target : ProcRef)

/-- A store of the running process and of the masks. -/
def RegionState.moved (s : RegionState) (next : Masks × RegionProc) : RegionState :=
  { s with masks := next.1, proc := Function.update s.proc s.current next.2 }

/-- Any interleaving. The timer interrupt comes when the controller lets IRQ 0 through and
interrupts are enabled; its handler runs to the end and may switch to any process. -/
inductive RegionStep : RegionState → RegionEvent → RegionState → Prop
  | own {s : RegionState} {next : Masks × RegionProc}
      (move : OwnStep (s.masks, s.proc s.current) next) : RegionStep s .own (s.moved next)
  | tick {s : RegionState} {masks : Masks} {target : ProcRef} (unmasked : s.masks.pitMasked = false)
      (enabled : (s.proc s.current).interruptFlag = true)
      (handled : timerHandler s.masks (target ≠ s.current) = .ok masks) :
      RegionStep s (.tick target) { s with masks := masks, current := target }

/-- After start-up every process is outside the region functions. -/
def regionStart (current : ProcRef) : RegionState :=
  ⟨startUpMasks, fun _ => ⟨.run, [], true⟩, current⟩

/-- Whoever is in a region has IRQ 0 masked in the controller. -/
def RegionState.RegionsMasked (s : RegionState) : Prop :=
  ∀ p, (s.proc p).locks ≠ [] → s.masks.pitMasked = true

/-- The kernel's copy of the mask and the controller agree on IRQ 0. -/
def RegionState.Agrees (s : RegionState) : Prop := s.masks.pitMasked = s.masks.pitMarked

/-- Steps in which no process is switched away from while the two disagree. -/
def CarefulStep (s : RegionState) (e : RegionEvent) (s' : RegionState) : Prop :=
  RegionStep s e s' ∧ ∀ target, e = .tick target → target ≠ s.current → s.Agrees

/-! ### The region functions -/

namespace Masks

theorem intIrqEnabled_pit (m : Masks) : intIrqEnabled m irqPit = .ok (!m.pitMarked) := by
  have valid : kassert (decide (irqPit.toNat < 16)) "VALID_IRQ(irq)" = .ok () := rfl
  have test := m.and_pit_eq_zero
  cases marked : m.pitMarked <;>
    simp [intIrqEnabled, valid, test, marked, bind, Except.bind]

theorem checkIrq_pit : checkIrq irqPit = .ok () := rfl

/-- A marked IRQ 0 makes `int_lock_region` answer false and change nothing. -/
theorem intLockRegion_marked {m : Masks} (marked : m.pitMarked = true) :
    intLockRegion m = .ok (false, m) := by
  simp [intLockRegion, intIrqEnabled_pit, marked, bind, Except.bind]

theorem intLockRegion_unmarked {m : Masks} (unmarked : m.pitMarked = false) :
    intLockRegion m = .ok (true, Treeos.setRawMask m (m.irqMask ||| irqBit irqPit)) := by
  have test := m.and_pit_eq_zero.mpr unmarked
  simp [intLockRegion, intIrqEnabled_pit, unmarked, intMaskIrq, checkIrq_pit, test, bind,
    Except.bind]

theorem intUnlockRegion_marked {m : Masks} (marked : m.pitMarked = true) :
    intUnlockRegion m true =
      .ok (Treeos.setRawMask m (m.irqMask &&& ~~~irqBit irqPit)) := by
  have test : m.irqMask &&& irqBit irqPit ≠ 0#16 := by simp [and_pit_eq_zero, marked]
  simp [intUnlockRegion, intUnmaskIrq, checkIrq_pit, test, bind, Except.bind]

/-- A mask that changes IRQ 0 reaches the controller and the copy. -/
theorem setRawMask_of_ne (m : Masks) (mask : BitVec 16) (ready : m.master.icws = 0)
    (changes : mask.getLsbD 0 ≠ m.irqMask.getLsbD 0) :
    (Treeos.setRawMask m mask).irqMask = mask ∧
      (Treeos.setRawMask m mask).master = ⟨irqMaskMaster mask, 0⟩ := by
  have differs : m.irqMask ≠ mask := fun same => changes (by rw [same])
  simp [Treeos.setRawMask, differs, store, writeMaster_of_ne m mask ready changes]

theorem or_and_not_pit {mask : BitVec 16} (clear : mask.getLsbD 0 = false) :
    (mask ||| irqBit irqPit) &&& ~~~irqBit irqPit = mask := by
  apply BitVec.eq_of_getLsbD_eq
  intro i _
  rw [irqBit, Bits.getLsbD_and_not_bit _ _ _ (by decide), Bits.getLsbD_or_bit _ _ _ (by decide)]
  by_cases pit : irqPit.toNat = i
  · simp [← pit, show mask.getLsbD irqPit.toNat = false from clear]
  · simp [pit]

theorem intUnlockRegion_false (m : Masks) : intUnlockRegion m false = .ok m := rfl

/-- A lock that masks IRQ 0 and its unlock. -/
theorem lock_unlock {m : Masks} (ready : m.master.icws = 0) (unmarked : m.pitMarked = false) :
    ∃ t u, intLockRegion m = .ok (true, t) ∧ t.pitMarked = true ∧
      intUnlockRegion t true = .ok u ∧ u.irqMask = m.irqMask ∧ u.pitMasked = false ∧
      u.master.icws = 0 := by
  have set := getLsbD_or_pit m.irqMask
  have clear : m.irqMask.getLsbD 0 = false := unmarked
  obtain ⟨tMask, tMaster⟩ := setRawMask_of_ne m (m.irqMask ||| irqBit irqPit) ready
    (by rw [set, clear]; decide)
  generalize located : Treeos.setRawMask m (m.irqMask ||| irqBit irqPit) = t at tMask tMaster
  have marked : t.pitMarked = true := by rw [pitMarked, tMask, set]
  obtain ⟨uMask, uMaster⟩ := setRawMask_of_ne t m.irqMask (by rw [tMaster])
    (by rw [tMask, set, clear]; decide)
  refine ⟨t, Treeos.setRawMask t m.irqMask, ?_, marked, ?_, uMask, ?_, by rw [uMaster]⟩
  · rw [intLockRegion_unmarked unmarked, located]
  · rw [intUnlockRegion_marked marked, tMask, or_and_not_pit clear]
  · rw [pitMasked, uMaster, irqMaskMaster_pit, clear]

end Masks

open Masks

/-- The handler leaves the masks as they are. -/
theorem timerHandler_spec {m : Masks} (ready : m.master.icws = 0) (unmasked : m.pitMasked = false)
    (switching : Bool) :
    ∃ m', timerHandler m switching = .ok m' ∧ m'.irqMask = m.irqMask ∧
      m'.pitMasked = false ∧ m'.master.icws = 0 := by
  cases marked : m.pitMarked with
  | true =>
    refine ⟨m, ?_, rfl, unmasked, ready⟩
    cases switching <;>
      simp [timerHandler, intLockRegion_marked marked, intUnlockRegion_false]
  | false =>
    obtain ⟨t, u, locked, tMarked, unlocked, uMask, uMasked, uReady⟩ := lock_unlock ready marked
    cases switching with
    | false => exact ⟨u, by simp [timerHandler, locked, unlocked], uMask, uMasked, uReady⟩
    | true =>
      have uMarked : u.pitMarked = false := by rw [pitMarked, uMask]; exact marked
      obtain ⟨t', v, locked', tMarked', unlocked', vMask, vMasked, vReady⟩ :=
        lock_unlock uReady uMarked
      refine ⟨v, ?_, vMask.trans uMask, vMasked, vReady⟩
      simp [timerHandler, locked, unlocked, locked', intLockRegion_marked tMarked',
        intUnlockRegion_false, unlocked']

/-! ### What careful runs keep -/

/-- Open regions of the running process: the outermost lock masked IRQ 0, the inner ones
found it masked. -/
def Nested : List Bool → Bool → Prop
  | [], marked => marked = false
  | false :: locks, marked => marked = true ∧ Nested locks true
  | true :: locks, marked => marked = true ∧ locks = []

/-- Whether `set_raw_mask` has not written to the controller yet. -/
def RawMaskPc.early (pc : RawMaskPc) : Bool := pc = .start || pc = .master

/-- What holds of the running process at each of its steps. -/
def Running (m : Masks) (p : RegionProc) : Prop :=
  match p.pc with
  | .run => m.pitMasked = m.pitMarked ∧ Nested p.locks m.pitMarked
  | .lockDecided lock =>
    m.pitMasked = m.pitMarked ∧ Nested p.locks m.pitMarked ∧ lock = !m.pitMarked
  | .maskChecked => p.locks = [] ∧ m.pitMarked = false ∧ m.pitMasked = false
  | .unlockCalled lock =>
    m.pitMarked = true ∧ m.pitMasked = true ∧ if lock then p.locks = [] else Nested p.locks true
  | .unmaskChecked => p.locks = [] ∧ m.pitMarked = true ∧ m.pitMasked = true
  | .setRawMask pc mask true =>
    p.locks = [] ∧ mask = m.irqMask ||| irqBit irqPit ∧ m.pitMarked = false ∧
      m.pitMasked = !pc.early
  | .setRawMask pc mask false =>
    p.locks = [] ∧ mask = m.irqMask &&& ~~~irqBit irqPit ∧ m.pitMarked = true ∧
      m.pitMasked = pc.early

/-- What holds of a process that is not running: it holds no region, and at most it is
about to mask IRQ 0. -/
def Parked (m : Masks) (p : RegionProc) : Prop :=
  p.locks = [] ∧
  match p.pc with
  | .run => True
  | .lockDecided lock => lock = true
  | .maskChecked => True
  | .setRawMask pc mask true => mask = m.irqMask ||| irqBit irqPit ∧ pc.early = true
  | _ => False

structure RegionInv (s : RegionState) : Prop where
  ready : s.masks.master.icws = 0
  running : Running s.masks (s.proc s.current)
  parked : ∀ p ≠ s.current, Parked s.masks (s.proc p)

theorem Nested.cons_false {locks : List Bool} (nested : Nested locks true) :
    Nested (false :: locks) true := ⟨rfl, nested⟩

theorem Nested.marked {locks : List Bool} {marked : Bool} (nested : Nested locks marked)
    (inside : locks ≠ []) : marked = true := by
  match locks, nested with
  | false :: _, nested => exact nested.1
  | true :: _, nested => exact nested.1

theorem Nested.nil_of_unmarked {locks : List Bool} (nested : Nested locks false) : locks = [] := by
  by_contra inside
  exact absurd (nested.marked inside) (by decide)

/-- Only IRQ 0 and the mask with IRQ 0 added matter for a parked process. -/
theorem Parked.congr {m m' : Masks} {p : RegionProc} (parked : Parked m p)
    (same : m'.irqMask ||| irqBit irqPit = m.irqMask ||| irqBit irqPit) : Parked m' p := by
  unfold Parked at *
  rw [same]
  exact parked

/-- Only IRQ 0 and the copy of the masks matter for the running process. -/
theorem Running.congr {m m' : Masks} {p : RegionProc} (running : Running m p)
    (sameMask : m'.irqMask = m.irqMask) (samePit : m'.pitMasked = m.pitMasked) :
    Running m' p := by
  unfold Running pitMarked at *
  rw [sameMask, samePit]
  exact running

/-- In an open controller that agrees with the copy, the running process may be parked. -/
theorem Running.park {m : Masks} {p : RegionProc} (running : Running m p)
    (marked : m.pitMarked = false) (masked : m.pitMasked = false) : Parked m p := by
  obtain ⟨pc, locks, flag⟩ := p
  unfold Running at running
  unfold Parked
  cases pc with
  | run => exact ⟨(marked ▸ running.2).nil_of_unmarked, trivial⟩
  | lockDecided lock =>
    obtain ⟨-, nested, rfl⟩ := running
    exact ⟨(marked ▸ nested).nil_of_unmarked, by simp [marked]⟩
  | maskChecked => exact ⟨running.1, trivial⟩
  | unlockCalled lock => simp [marked] at running
  | unmaskChecked => simp [marked] at running
  | setRawMask pc mask masking =>
    cases masking with
    | true =>
      obtain ⟨none, rfl, -, early⟩ := running
      exact ⟨none, rfl, by simpa [masked] using early⟩
    | false => simp [marked] at running

/-- A parked process runs on from where it was. -/
theorem Parked.resume {m : Masks} {p : RegionProc} (parked : Parked m p)
    (marked : m.pitMarked = false) (masked : m.pitMasked = false) : Running m p := by
  obtain ⟨pc, locks, flag⟩ := p
  obtain ⟨none, place⟩ := parked
  obtain rfl : locks = [] := none
  unfold Running
  cases pc with
  | run => exact ⟨masked.trans marked.symm, marked⟩
  | lockDecided lock => exact ⟨masked.trans marked.symm, marked, by simpa [marked] using place⟩
  | maskChecked => exact ⟨rfl, marked, masked⟩
  | unlockCalled lock => cases place
  | unmaskChecked => cases place
  | setRawMask pc mask masking =>
    cases masking with
    | true => exact ⟨rfl, place.1, marked, by rw [masked, place.2]; rfl⟩
    | false => cases place

theorem or_pit_or_pit (mask : BitVec 16) :
    (mask ||| irqBit irqPit) ||| irqBit irqPit = mask ||| irqBit irqPit := by
  rw [BitVec.or_assoc, BitVec.or_self]

theorem and_not_pit_or_pit (mask : BitVec 16) :
    (mask &&& ~~~irqBit irqPit) ||| irqBit irqPit = mask ||| irqBit irqPit := by
  apply BitVec.eq_of_getLsbD_eq
  intro i _
  rw [irqBit, Bits.getLsbD_or_bit _ _ _ (by decide), Bits.getLsbD_or_bit _ _ _ (by decide),
    Bits.getLsbD_and_not_bit _ _ _ (by decide)]
  by_cases pit : irqPit.toNat = i <;> simp [pit]

/-- What a step of the running process keeps. -/
structure StepKept (m m' : Masks) (p' : RegionProc) : Prop where
  running : Running m' p'
  ready : m'.master.icws = 0
  others : m'.irqMask ||| irqBit irqPit = m.irqMask ||| irqBit irqPit

/-- The steps of `set_raw_mask` while it masks IRQ 0, and while it unmasks it. -/
theorem rawMask_kept {m : Masks} {pc : RawMaskPc} {mask : BitVec 16} {masking : Bool}
    {locks : List Bool} {flag : Bool} (ready : m.master.icws = 0)
    (running : Running m ⟨.setRawMask pc mask masking, locks, flag⟩) :
    StepKept m (regionAdvance m ⟨.setRawMask pc mask masking, locks, flag⟩).1
      (regionAdvance m ⟨.setRawMask pc mask masking, locks, flag⟩).2 := by
  -- `mask` changes IRQ 0 and nothing else, in both directions.
  obtain ⟨rfl, bit, marked, sameOthers⟩ : locks = [] ∧ mask.getLsbD 0 = masking ∧
      m.pitMarked = !masking ∧ mask ||| irqBit irqPit = m.irqMask ||| irqBit irqPit := by
    cases masking with
    | true =>
      obtain ⟨none, rfl, marked, -⟩ := running
      exact ⟨none, getLsbD_or_pit _, marked, or_pit_or_pit _⟩
    | false =>
      obtain ⟨none, rfl, marked, -⟩ := running
      exact ⟨none, getLsbD_and_not_pit _, marked, and_not_pit_or_pit _⟩
  have changes : mask.getLsbD 0 ≠ m.irqMask.getLsbD 0 := by
    rw [bit, show m.irqMask.getLsbD 0 = !masking from marked]
    cases masking <;> decide
  cases pc with
  | start =>
    have step : regionAdvance m ⟨.setRawMask .start mask masking, [], flag⟩ =
        (m, ⟨.setRawMask .master mask masking, [], flag⟩) := by
      have differs : m.irqMask ≠ mask := fun same => changes (by rw [same])
      simp [regionAdvance, differs, RegionProc.goto]
    rw [step]
    exact ⟨by cases masking <;> exact running, ready, rfl⟩
  | master =>
    have step : regionAdvance m ⟨.setRawMask .master mask masking, [], flag⟩ =
        ({ m with master := ⟨irqMaskMaster mask, 0⟩ },
          ⟨.setRawMask .slave mask masking, [], flag⟩) := by
      simp only [regionAdvance, writeMaster_of_ne m mask ready changes, RegionProc.goto]
    have written : (irqMaskMaster mask).getLsbD 0 = masking := (irqMaskMaster_pit mask).trans bit
    rw [step]
    refine ⟨?_, rfl, rfl⟩
    cases masking <;> exact ⟨running.1, running.2.1, running.2.2.1, written⟩
  | slave =>
    refine ⟨?_, by simpa [regionAdvance] using ready, by simp [regionAdvance]⟩
    cases masking <;>
      simpa [regionAdvance, Running, RegionProc.goto, pitMarked, pitMasked, RawMaskPc.early] using
        running
  | store =>
    have stored : (m.store mask).pitMarked = masking := bit
    refine ⟨?_, ready, sameOthers⟩
    cases masking with
    | true => exact ⟨running.2.2.2.trans stored.symm, stored, rfl⟩
    | false => exact ⟨running.2.2.2.trans stored.symm, stored⟩

theorem regionAdvance_kept {m : Masks} {p : RegionProc} (ready : m.master.icws = 0)
    (running : Running m p) : StepKept m (regionAdvance m p).1 (regionAdvance m p).2 := by
  obtain ⟨pc, locks, flag⟩ := p
  have test := m.and_pit_eq_zero
  cases pc with
  | run => exact ⟨running, ready, rfl⟩
  | lockDecided lock =>
    -- a marked copy means a region around this one, and nothing is masked again
    obtain ⟨agrees, nested, rfl⟩ := running
    cases marked : m.pitMarked with
    | true =>
      rw [marked] at agrees nested
      refine ⟨⟨agrees.trans marked.symm, ?_⟩, ready, rfl⟩
      rw [show (regionAdvance m ⟨.lockDecided (!true), locks, flag⟩).1 = m from rfl, marked]
      exact nested.cons_false
    | false =>
      rw [marked] at agrees nested
      have step : regionAdvance m ⟨.lockDecided (!false), locks, flag⟩ =
          (m, ⟨.maskChecked, locks, flag⟩) := by
        simp [regionAdvance, test, marked, RegionProc.goto]
      rw [step]
      exact ⟨⟨nested.nil_of_unmarked, marked, agrees⟩, ready, rfl⟩
  | maskChecked =>
    obtain ⟨none, marked, masked⟩ := running
    exact ⟨⟨none, rfl, marked, masked⟩, ready, rfl⟩
  | unlockCalled lock =>
    obtain ⟨marked, masked, rest⟩ := running
    cases lock with
    | false => exact ⟨⟨masked.trans marked.symm, marked.symm ▸ rest⟩, ready, rfl⟩
    | true =>
      have step : regionAdvance m ⟨.unlockCalled true, locks, flag⟩ =
          (m, ⟨.unmaskChecked, locks, flag⟩) := by
        simp [regionAdvance, test, marked, RegionProc.goto]
      rw [step]
      exact ⟨⟨rest, marked, masked⟩, ready, rfl⟩
  | unmaskChecked =>
    obtain ⟨none, marked, masked⟩ := running
    exact ⟨⟨none, rfl, marked, masked⟩, ready, rfl⟩
  | setRawMask pc mask masking => exact rawMask_kept ready running

theorem OwnStep.kept {m : Masks} {p : RegionProc} {next : Masks × RegionProc}
    (ready : m.master.icws = 0) (running : Running m p) (move : OwnStep (m, p) next) :
    StepKept m next.1 next.2 := by
  cases move with
  | flag flag' => exact ⟨running, ready, rfl⟩
  | lock enabled =>
    rw [intIrqEnabled_pit] at enabled
    cases enabled
    exact ⟨⟨running.1, running.2, rfl⟩, ready, rfl⟩
  | @unlock _ locks flag lock =>
    obtain ⟨agrees, nested⟩ := running
    have marked := nested.marked (by simp)
    refine ⟨⟨marked, agrees.trans marked, ?_⟩, ready, rfl⟩
    cases lock with
    | true => exact nested.2
    | false => exact nested.2
  | advance => exact regionAdvance_kept ready running

theorem CarefulStep.inv {s s' : RegionState} {e : RegionEvent} (inv : RegionInv s)
    (step : CarefulStep s e s') : RegionInv s' := by
  obtain ⟨move, careful⟩ := step
  cases move with
  | @own next move =>
    have kept := move.kept inv.ready inv.running
    refine ⟨kept.ready, ?_, fun p other => ?_⟩
    · simpa [RegionState.moved] using kept.running
    · change Parked next.1 (Function.update s.proc s.current next.2 p)
      rw [Function.update_of_ne (show p ≠ s.current from other)]
      exact (inv.parked p other).congr kept.others
  | @tick masks target unmasked enabled handled =>
    obtain ⟨m', returned, sameMask, masked', ready'⟩ :=
      timerHandler_spec inv.ready unmasked (target ≠ s.current)
    obtain rfl : m' = masks := Except.ok.inj (returned.symm.trans handled)
    have parked : ∀ p ≠ s.current, Parked m' (s.proc p) := fun p other =>
      (inv.parked p other).congr (by rw [sameMask])
    by_cases stays : target = s.current
    · subst stays
      exact ⟨ready', inv.running.congr sameMask (masked'.trans unmasked.symm), parked⟩
    · have marked : s.masks.pitMarked = false := (careful target rfl stays).symm.trans unmasked
      have marked' : m'.pitMarked = false := by rw [pitMarked, sameMask]; exact marked
      have left : Parked m' (s.proc s.current) :=
        (inv.running.park marked unmasked).congr (by rw [sameMask])
      refine ⟨ready', (parked target stays).resume marked' masked', fun p _ => ?_⟩
      by_cases same : p = s.current
      · exact same ▸ left
      · exact parked p same

theorem RegionInv.regionsMasked {s : RegionState} (inv : RegionInv s) : s.RegionsMasked := by
  intro p inside
  by_cases same : p = s.current
  · subst same
    have running := inv.running
    generalize s.proc s.current = q at running inside
    obtain ⟨pc, locks, flag⟩ := q
    unfold Running at running
    cases pc with
    | run => exact running.1.trans (running.2.marked inside)
    | lockDecided lock => exact running.1.trans (running.2.1.marked inside)
    | maskChecked => exact absurd running.1 inside
    | unlockCalled lock => exact running.2.1
    | unmaskChecked => exact running.2.2
    | setRawMask pc mask masking => cases masking <;> exact absurd running.1 inside
  · exact absurd (inv.parked p same).1 inside

theorem regionStart_inv (current : ProcRef) : RegionInv (regionStart current) :=
  ⟨rfl, show Running startUpMasks ⟨.run, [], true⟩ from ⟨by decide, show _ = _ by decide⟩,
    fun _ _ => ⟨rfl, trivial⟩⟩

/-! ### Uninterrupted steps -/

open Relation (ReflTransGen)

def advance (x : Masks × RegionProc) : Masks × RegionProc := regionAdvance x.1 x.2

theorem advance_steps (n : Nat) (x : Masks × RegionProc) :
    ReflTransGen OwnStep x (advance^[n] x) := by
  induction n with
  | zero => exact .refl
  | succ n ih =>
    rw [Function.iterate_succ_apply']
    generalize advance^[n] x = y at ih
    by_cases outside : y.2.pc = .run
    · have stays : advance y = y := by rw [advance, regionAdvance, outside]
      rwa [stays]
    · exact ih.tail (.advance outside)

/-- Undisturbed small steps are `set_raw_mask`. -/
theorem setRawMask_steps (m : Masks) (mask : BitVec 16) (masking : Bool) (locks : List Bool)
    (flag : Bool) :
    ReflTransGen OwnStep (m, ⟨.setRawMask .start mask masking, locks, flag⟩)
      (setRawMask m mask, RegionProc.afterRawMask ⟨.run, locks, flag⟩ masking) := by
  by_cases same : m.irqMask = mask
  · have steps := advance_steps 1 (m, ⟨.setRawMask .start mask masking, locks, flag⟩)
    cases masking <;>
      simpa [advance, regionAdvance, same, setRawMask, RegionProc.afterRawMask, RegionProc.enter,
        RegionProc.goto] using steps
  · have steps := advance_steps 4 (m, ⟨.setRawMask .start mask masking, locks, flag⟩)
    cases masking <;>
      simpa [advance, regionAdvance, same, setRawMask, RegionProc.afterRawMask, RegionProc.enter,
        RegionProc.goto] using steps

/-- Undisturbed small steps are `int_lock_region`. -/
theorem intLockRegion_steps {m m' : Masks} {lock : Bool}
    (returned : intLockRegion m = .ok (lock, m')) (locks : List Bool) (flag : Bool) :
    ReflTransGen OwnStep (m, ⟨.run, locks, flag⟩) (m', ⟨.run, lock :: locks, flag⟩) := by
  have enabled := intIrqEnabled_pit m
  have called : OwnStep (m, ⟨.run, locks, flag⟩) (m, ⟨.lockDecided (!m.pitMarked), locks, flag⟩) :=
    .lock enabled
  cases marked : m.pitMarked with
  | true =>
    rw [intLockRegion_marked marked] at returned
    cases returned
    rw [marked] at called
    exact .head called (advance_steps 1 _)
  | false =>
    rw [intLockRegion_unmarked marked] at returned
    cases returned
    rw [marked] at called
    have test := m.and_pit_eq_zero.mpr marked
    have masking : advance^[2] (m, ⟨.lockDecided (!false), locks, flag⟩) =
        (m, ⟨.setRawMask .start (m.irqMask ||| irqBit irqPit) true, locks, flag⟩) := by
      simp [advance, regionAdvance, test, RegionProc.goto]
    exact .head called ((masking ▸ advance_steps 2 _).trans (setRawMask_steps m _ true locks flag))

/-- Undisturbed small steps are `int_unlock_region`. -/
theorem intUnlockRegion_steps {m m' : Masks} {lock : Bool}
    (returned : intUnlockRegion m lock = .ok m') (locks : List Bool) (flag : Bool) :
    ReflTransGen OwnStep (m, ⟨.run, lock :: locks, flag⟩) (m', ⟨.run, locks, flag⟩) := by
  refine .head .unlock ?_
  cases lock with
  | false =>
    cases returned
    exact advance_steps 1 _
  | true =>
    cases marked : m.pitMarked with
    | true =>
      rw [intUnlockRegion_marked marked] at returned
      cases returned
      have test : m.irqMask &&& irqBit irqPit ≠ 0#16 := by simp [and_pit_eq_zero, marked]
      have unmasking : advance^[2] (m, ⟨.unlockCalled true, locks, flag⟩) =
          (m, ⟨.setRawMask .start (m.irqMask &&& ~~~irqBit irqPit) false, locks, flag⟩) := by
        simp [advance, regionAdvance, test, RegionProc.goto]
      exact (unmasking ▸ advance_steps 2 _).trans (setRawMask_steps m _ false locks flag)
    | false =>
      have test := m.and_pit_eq_zero.mpr marked
      have same : m' = m := by
        simp only [intUnlockRegion, intUnmaskIrq, checkIrq_pit, ok_bind] at returned
        simpa [test] using returned.symm
      have steps := advance_steps 1 (m, ⟨.unlockCalled true, locks, flag⟩)
      simpa [advance, regionAdvance, test, RegionProc.goto, same] using steps

/-! ### Careful runs and careless switches -/

/-- Steps of the running process are steps of the system. -/
theorem RegionState.run_own {s : RegionState} {next : Masks × RegionProc}
    (steps : ReflTransGen OwnStep (s.masks, s.proc s.current) next) :
    ∃ n, Run.From CarefulStep s (List.replicate n .own) (s.moved next) := by
  induction steps with
  | refl => exact ⟨0, by simpa [RegionState.moved] using Run.From.nil⟩
  | @tail before after _ last ih =>
    obtain ⟨n, run⟩ := ih
    refine ⟨n + 1, ?_⟩
    have here : OwnStep ((s.moved before).masks, (s.moved before).proc (s.moved before).current)
        after := by simpa [RegionState.moved] using last
    have twice : (s.moved before).moved after = s.moved after := by simp [RegionState.moved]
    rw [List.replicate_succ', ← twice]
    exact run.snoc .own ⟨.own here, fun _ same => by cases same⟩

/-- A parked process that resumes while the copy says masked and the controller does not
gets into a region without masking IRQ 0. -/
theorem Parked.intrudes {m : Masks} {p : RegionProc} (parked : Parked m p)
    (marked : m.pitMarked = true) :
    ∃ lock, ReflTransGen OwnStep (m, p) (m, ⟨.run, [lock], p.interruptFlag⟩) := by
  obtain ⟨pc, locks, flag⟩ := p
  obtain ⟨none, place⟩ := parked
  obtain rfl : locks = [] := none
  have test : m.irqMask &&& irqBit irqPit ≠ 0#16 := by simp [and_pit_eq_zero, marked]
  have full : m.irqMask ||| irqBit irqPit = m.irqMask := by
    apply BitVec.eq_of_getLsbD_eq
    intro i _
    rw [irqBit, Bits.getLsbD_or_bit _ _ _ (by decide)]
    by_cases pit : irqPit.toNat = i
    · simp [← pit, show m.irqMask.getLsbD irqPit.toNat = true from marked]
    · simp [pit]
  cases pc with
  | run => exact ⟨false, intLockRegion_steps (intLockRegion_marked marked) [] flag⟩
  | lockDecided lock =>
    obtain rfl : lock = true := place
    have entered : advance^[1] (m, ⟨.lockDecided true, [], flag⟩) = (m, ⟨.run, [true], flag⟩) := by
      simp [advance, regionAdvance, test, RegionProc.enter]
    exact ⟨true, entered ▸ advance_steps 1 _⟩
  | maskChecked =>
    have entered : advance^[2] (m, ⟨.maskChecked, [], flag⟩) = (m, ⟨.run, [true], flag⟩) := by
      simp [advance, regionAdvance, full, RegionProc.enter, RegionProc.goto,
        RegionProc.afterRawMask]
    exact ⟨true, entered ▸ advance_steps 2 _⟩
  | unlockCalled lock => cases place
  | unmaskChecked => cases place
  | setRawMask pc mask masking =>
    cases masking with
    | false => cases place
    | true =>
      obtain ⟨rfl, early⟩ := place
      have entered : advance^[3] (m, ⟨.setRawMask pc (m.irqMask ||| irqBit irqPit) true, [], flag⟩) =
          (m, ⟨.run, [true], flag⟩) := by
        cases pc <;> simp [RawMaskPc.early] at early
        · simp [advance, regionAdvance, full, RegionProc.enter, RegionProc.afterRawMask]
        · simp [advance, regionAdvance, full, RegionProc.enter, RegionProc.goto,
            RegionProc.afterRawMask, writeMaster, writeSlave, store]
      exact ⟨true, entered ▸ advance_steps 3 _⟩

theorem run_regionInv {current : ProcRef} {events : List RegionEvent} {s : RegionState}
    (run : Run.From CarefulStep (regionStart current) events s) : RegionInv s :=
  run.invariant (fun _ s => RegionInv s) (regionStart_inv current) fun _ _ _ _ _ inv step =>
    step.inv inv

/-- A switch while the copy and the controller disagree can be continued to a region
that does not mask IRQ 0. -/
theorem RegionInv.careless {s s' : RegionState} (inv : RegionInv s) {target : ProcRef}
    (step : RegionStep s (.tick target) s') (leaves : target ≠ s.current)
    (disagrees : ¬s.Agrees) :
    ∃ later t, Run.From RegionStep s' later t ∧ ¬t.RegionsMasked := by
  cases step with
  | @tick masks _ unmasked enabled handled =>
    obtain ⟨m', returned, sameMask, masked', -⟩ :=
      timerHandler_spec inv.ready unmasked (target ≠ s.current)
    obtain rfl : m' = masks := Except.ok.inj (returned.symm.trans handled)
    have marked : m'.pitMarked = true := by
      rw [pitMarked, sameMask]
      cases marked : s.masks.pitMarked with
      | true => exact marked
      | false => exact absurd (unmasked.trans marked.symm) disagrees
    have parked : Parked m' (s.proc target) :=
      (inv.parked target leaves).congr (by rw [sameMask])
    obtain ⟨lock, steps⟩ := parked.intrudes marked
    obtain ⟨n, run⟩ := RegionState.run_own (s := ⟨m', s.proc, target⟩) steps
    refine ⟨_, _, run.mono fun _ _ _ careful => careful.1, fun masked => ?_⟩
    have closed := masked target (by simp [RegionState.moved])
    rw [show (RegionState.moved _ _).masks.pitMasked = m'.pitMasked from rfl, masked'] at closed
    cases closed

/-- In every run that switches processes only while `irq_mask` and the controller agree
on IRQ 0, whoever is in a region has IRQ 0 masked and no timer interrupt comes to a
region. A switch while they disagree can be continued to a state where this fails. -/
theorem regions_masked (current : ProcRef) (events : List RegionEvent) (s : RegionState)
    (run : Run.From CarefulStep (regionStart current) events s) :
    s.RegionsMasked ∧
    (∀ target s', RegionStep s (.tick target) s' → ∀ p, (s.proc p).locks = []) ∧
    ∀ target s', RegionStep s (.tick target) s' → target ≠ s.current → ¬s.Agrees →
      ∃ later t, Run.From RegionStep s' later t ∧ ¬t.RegionsMasked := by
  have inv := run_regionInv run
  refine ⟨inv.regionsMasked, fun target s' step p => ?_, fun _ _ => inv.careless⟩
  cases step with
  | tick unmasked =>
    by_contra inside
    exact absurd (unmasked.symm.trans (inv.regionsMasked p inside)) (by decide)

/-- The masks inside a region, and between the port write and the store of its unlock. -/
def lockedMasks : Masks := ⟨0xFFFB, ⟨0xFB, 0⟩, ⟨0xFF, 0⟩⟩
def openedMasks : Masks := ⟨0xFFFB, ⟨0xFA, 0⟩, ⟨0xFF, 0⟩⟩

theorem regionStart_lock :
    ReflTransGen OwnStep (startUpMasks, ⟨.run, [], true⟩) (lockedMasks, ⟨.run, [true], true⟩) :=
  intLockRegion_steps rfl [] true

/-- Process 0 goes through a region, the timer switches to process 1, and in a region of process 1
IRQ 0 is masked again. -/
theorem regionStart_locked : ∃ events s, Run.From CarefulStep (regionStart 0) events s ∧
    .tick 1 ∈ events ∧ s.current = 1 ∧ (s.proc 1).locks = [true] ∧ s.RegionsMasked := by
  have through : ReflTransGen OwnStep (startUpMasks, ⟨.run, [], true⟩)
      (startUpMasks, ⟨.run, [], true⟩) :=
    regionStart_lock.trans (intUnlockRegion_steps (by decide) [] true)
  obtain ⟨n, first⟩ := RegionState.run_own (s := regionStart 0) through
  have same : (regionStart 0).moved (startUpMasks, ⟨.run, [], true⟩) = regionStart 0 := by
    simp [RegionState.moved, regionStart]
  rw [same] at first
  have handled : timerHandler startUpMasks true = .ok startUpMasks := by decide
  have tick : CarefulStep (regionStart 0) (.tick 1) (regionStart 1) :=
    ⟨.tick rfl rfl handled, fun _ _ _ => rfl⟩
  obtain ⟨k, second⟩ := RegionState.run_own (s := regionStart 1) regionStart_lock
  have run := (first.snoc _ tick).trans second
  refine ⟨_, _, run, by simp, rfl, ?_, (regions_masked 0 _ _ run).1⟩
  simp [RegionState.moved, regionStart]

/-- Process 0 locks a region and is in the unlock, between the port write and the store,
when a timer interrupt switches to process 1; process 1 then gets into a region while
IRQ 0 is not masked. -/
theorem regionStart_intruder :
    ∃ events t, Run.From RegionStep (regionStart 0) events t ∧ ¬t.RegionsMasked := by
  let inside : RegionProc := ⟨.setRawMask .slave 0xFFFA false, [], true⟩
  have opened : advance^[4] (lockedMasks, ⟨.unlockCalled true, [], true⟩) =
      (openedMasks, inside) := by decide
  have unlock : ReflTransGen OwnStep (lockedMasks, ⟨.run, [true], true⟩) (openedMasks, inside) :=
    .head .unlock (opened ▸ advance_steps 4 _)
  obtain ⟨n, run⟩ := RegionState.run_own (s := regionStart 0) (regionStart_lock.trans unlock)
  obtain ⟨m, handled, -⟩ := timerHandler_spec (m := openedMasks) rfl (by decide) true
  let s := (regionStart 0).moved (openedMasks, inside)
  have tick : RegionStep s (.tick 1) { s with masks := m, current := 1 } := .tick
    (show openedMasks.pitMasked = false by decide) rfl handled
  have disagrees : ¬s.Agrees := show ¬(openedMasks.pitMasked = openedMasks.pitMarked) by decide
  obtain ⟨later, t, rest, fails⟩ := (run_regionInv run).careless tick (by decide) disagrees
  have front := run.mono fun _ _ _ careful => careful.1
  exact ⟨_, t, (front.snoc _ tick).trans rest, fails⟩

end Treeos
