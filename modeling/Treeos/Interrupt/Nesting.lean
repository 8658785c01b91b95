import Treeos.Interrupt.Region

/-!
# Nested regions

Calls of the mask functions of `interrupt.c` one after the other, with no interrupt in
between: what a region that is entered and left does to the masks.
-/
namespace Treeos

/-- The calls that change the masks. `int_unlock_region` gets the value that the
`int_lock_region` it belongs to has returned. -/
inductive MaskCall where
  | mask (irq : BitVec 8)
  | unmask (irq : BitVec 8)
  | lock
  | unlock
deriving DecidableEq

/-- The masks and the `lock` values of the open regions, the innermost first. -/
structure Nesting where
  masks : Masks
  locks : List Bool
deriving DecidableEq

/-- A call that returns. Only the regions mask and unmask the timer. -/
inductive CallStep : Nesting → MaskCall → Nesting → Prop
  | mask {m m' : Masks} {locks : List Bool} {irq : BitVec 8} {changed : Bool} (other : irq ≠ irqPit)
      (returned : intMaskIrq m irq = .ok (changed, m')) :
      CallStep ⟨m, locks⟩ (.mask irq) ⟨m', locks⟩
  | unmask {m m' : Masks} {locks : List Bool} {irq : BitVec 8} {changed : Bool}
      (other : irq ≠ irqPit) (returned : intUnmaskIrq m irq = .ok (changed, m')) :
      CallStep ⟨m, locks⟩ (.unmask irq) ⟨m', locks⟩
  | lock {m m' : Masks} {locks : List Bool} {lock : Bool}
      (returned : intLockRegion m = .ok (lock, m')) :
      CallStep ⟨m, locks⟩ .lock ⟨m', lock :: locks⟩
  | unlock {m m' : Masks} {locks : List Bool} {lock : Bool}
      (returned : intUnlockRegion m lock = .ok m') :
      CallStep ⟨m, lock :: locks⟩ .unlock ⟨m', locks⟩

/-- The calls that a caller may make: with an IRQ that is neither the timer nor the cascade,
and an unlock for an open region only. -/
def MaskCall.Allowed (locks : List Bool) : MaskCall → Prop
  | .mask irq => irq.toNat < 16 ∧ irq ≠ irqPit ∧ irq ≠ 2
  | .unmask irq => irq.toNat < 16 ∧ irq ≠ irqPit ∧ irq ≠ 2
  | .lock => True
  | .unlock => locks ≠ []

/-- Whether IRQ `i` is masked after a call that says so, or else as before. -/
def MaskCall.marks (i : Nat) (masked : Bool) : MaskCall → Bool
  | .mask irq => if irq.toNat = i then true else masked
  | .unmask irq => if irq.toNat = i then false else masked
  | .lock => masked
  | .unlock => masked

/-- What the explicit calls say about IRQ `i`. -/
def markedBy (i : Nat) (masked : Bool) (calls : List MaskCall) : Bool :=
  calls.foldl (MaskCall.marks i) masked

namespace Masks

/-- Both controllers have the masks of the kernel's copy: with no initialization word due, a
byte to the data port is the mask. -/
def InStep (m : Masks) : Prop :=
  m.master = ⟨irqMaskMaster m.irqMask, 0⟩ ∧ m.slave = ⟨irqMaskSlave m.irqMask, 0⟩

variable {m m' : Masks} {mask : BitVec 16} {irq : BitVec 8} {changed lock : Bool}

/-! ### `set_raw_mask` -/

theorem InStep.writeMaster (inStep : m.InStep) :
    (m.writeMaster mask).master = ⟨irqMaskMaster mask, 0⟩ := by
  unfold Masks.writeMaster
  split
  next differs => simp [masterData, Pic.data, inStep.1]
  next same => rw [inStep.1, Decidable.not_not.mp same]

theorem InStep.writeSlave (inStep : m.InStep) :
    ((m.writeMaster mask).writeSlave mask).slave = ⟨irqMaskSlave mask, 0⟩ := by
  have kept : (m.writeMaster mask).slave = m.slave := by
    unfold Masks.writeMaster
    split <;> rfl
  unfold Masks.writeSlave
  split
  next differs => simp [slaveData, Pic.data, kept, inStep.2]
  next same =>
    rw [writeMaster_irqMask] at same
    rw [kept, inStep.2, Decidable.not_not.mp same]

/-- A skipped port write leaves a byte that is the right one already. -/
theorem InStep.setRawMask (inStep : m.InStep) (mask : BitVec 16) :
    (setRawMask m mask).InStep ∧ (setRawMask m mask).irqMask = mask := by
  by_cases same : m.irqMask = mask
  · rw [Treeos.setRawMask, if_pos same]
    exact ⟨inStep, same⟩
  · rw [Treeos.setRawMask, if_neg same]
    refine ⟨⟨?_, inStep.writeSlave⟩, rfl⟩
    simp [store, inStep.writeMaster]

/-! ### The four calls -/

theorem checkIrq_ok : checkIrq irq = .ok () ↔ irq.toNat < 16 ∧ irq ≠ 2 := by
  simp [checkIrq, kassert_bind_ok_iff]

theorem and_irqBit_eq_zero (small : irq.toNat < 16) :
    m.irqMask &&& irqBit irq = 0 ↔ m.irqMask.getLsbD irq.toNat = false :=
  Bits.and_one_shiftLeft_eq_zero m.irqMask irq.toNat small

/-- A call that gives the bit of an IRQ a value, unless it has it already. -/
theorem InStep.assigned (inStep : m.InStep) {already : Prop} [Decidable already] {bit : Bool}
    (has : already → m.irqMask.getLsbD irq.toNat = bit)
    (bits : ∀ i, mask.getLsbD i = if irq.toNat = i then bit else m.irqMask.getLsbD i)
    (returned : (if already then .ok (false, m) else .ok (true, Treeos.setRawMask m mask) :
      Except Panic (Bool × Masks)) = .ok (changed, m')) :
    m'.InStep ∧ ∀ i, m'.irqMask.getLsbD i = if irq.toNat = i then bit else m.irqMask.getLsbD i := by
  split at returned
  next same =>
    cases returned
    refine ⟨inStep, fun i => ?_⟩
    by_cases here : irq.toNat = i
    · rw [if_pos here, ← here, has same]
    · rw [if_neg here]
  next differs =>
    cases returned
    obtain ⟨inStep', masked⟩ := inStep.setRawMask mask
    refine ⟨inStep', fun i => ?_⟩
    rw [masked, bits]

theorem InStep.intMaskIrq (inStep : m.InStep) (returned : intMaskIrq m irq = .ok (changed, m')) :
    irq ≠ 2 ∧ m'.InStep ∧
      ∀ i, m'.irqMask.getLsbD i = if irq.toNat = i then true else m.irqMask.getLsbD i := by
  obtain ⟨⟨⟩, valid, returned⟩ := bind_ok_iff.mp returned
  obtain ⟨small, other⟩ := checkIrq_ok.mp valid
  refine ⟨other, inStep.assigned (fun set => ?_) (fun i => ?_) returned⟩
  · rw [Ne, and_irqBit_eq_zero small] at set
    simpa using set
  · rw [irqBit, Bits.getLsbD_or_bit _ _ _ small]
    by_cases here : irq.toNat = i <;> simp [here]

theorem InStep.intUnmaskIrq (inStep : m.InStep)
    (returned : intUnmaskIrq m irq = .ok (changed, m')) :
    irq ≠ 2 ∧ m'.InStep ∧
      ∀ i, m'.irqMask.getLsbD i = if irq.toNat = i then false else m.irqMask.getLsbD i := by
  obtain ⟨⟨⟩, valid, returned⟩ := bind_ok_iff.mp returned
  obtain ⟨small, other⟩ := checkIrq_ok.mp valid
  refine ⟨other, inStep.assigned (and_irqBit_eq_zero small).mp (fun i => ?_) returned⟩
  rw [irqBit, Bits.getLsbD_and_not_bit _ _ _ small]
  by_cases here : irq.toNat = i <;> simp [here]

/-- `int_lock_region` returns whether IRQ 0 was open, and masks it. -/
theorem InStep.intLockRegion (inStep : m.InStep)
    (returned : intLockRegion m = .ok (lock, m')) :
    lock = !m.irqMask.getLsbD 0 ∧ m'.InStep ∧
      ∀ i, m'.irqMask.getLsbD i = if 0 = i then true else m.irqMask.getLsbD i := by
  obtain ⟨enabled, test, returned⟩ := bind_ok_iff.mp returned
  rw [intIrqEnabled_pit] at test
  obtain rfl := Except.ok.inj test
  cases marked : m.pitMarked with
  | true =>
    have bit : m.irqMask.getLsbD 0 = true := marked
    rw [marked] at returned
    cases returned
    refine ⟨by rw [bit], inStep, fun i => ?_⟩
    by_cases here : 0 = i
    · rw [if_pos here, ← here, bit]
    · rw [if_neg here]
  | false =>
    have bit : m.irqMask.getLsbD 0 = false := marked
    rw [marked] at returned
    obtain ⟨⟨changed, u⟩, masked, done⟩ := bind_ok_iff.mp returned
    cases done
    obtain ⟨-, inStep', bits⟩ := inStep.intMaskIrq masked
    exact ⟨by rw [bit], inStep', bits⟩

/-- `int_unlock_region` opens IRQ 0 where the lock has masked it. -/
theorem InStep.intUnlockRegion (inStep : m.InStep)
    (returned : intUnlockRegion m lock = .ok m') : m'.InStep ∧
      ∀ i, m'.irqMask.getLsbD i = if 0 = i then !lock && m.irqMask.getLsbD 0
        else m.irqMask.getLsbD i := by
  cases lock with
  | false =>
    cases returned
    refine ⟨inStep, fun i => ?_⟩
    by_cases here : 0 = i
    · rw [if_pos here, ← here, Bool.not_false, Bool.true_and]
    · rw [if_neg here]
  | true =>
    obtain ⟨⟨changed, u⟩, unmasked, done⟩ := bind_ok_iff.mp returned
    cases done
    obtain ⟨-, inStep', bits⟩ := inStep.intUnmaskIrq unmasked
    exact ⟨inStep', bits⟩

end Masks

/-! ### Sequences of calls -/

/-- Each region returns whether IRQ 0 was open when it was entered: outside of all regions the
bit is `pit`, inside of one it is set. -/
def LocksNested (pit : Bool) : List Bool → Prop
  | [] => True
  | lock :: outer => lock = !(pit || !outer.isEmpty) ∧ LocksNested pit outer

/-- `start` is the copy of the mask before the first call. -/
structure NestingInv (start : BitVec 16) (calls : List MaskCall) (s : Nesting) : Prop where
  inStep : s.masks.InStep
  cascade : s.masks.irqMask.getLsbD 2 = false
  pit : s.masks.irqMask.getLsbD 0 = (start.getLsbD 0 || !s.locks.isEmpty)
  others : ∀ i ≠ 0, s.masks.irqMask.getLsbD i = markedBy i (start.getLsbD i) calls
  nested : LocksNested (start.getLsbD 0) s.locks

variable {start : BitVec 16} {calls : List MaskCall} {s s' : Nesting} {call : MaskCall}
  {irq : BitVec 8}

theorem markedBy_snoc (i : Nat) (masked : Bool) (calls : List MaskCall) (call : MaskCall) :
    markedBy i masked (calls ++ [call]) = call.marks i (markedBy i masked calls) := by
  simp [markedBy]

theorem toNat_ne {k : BitVec 8} (other : irq ≠ k) : irq.toNat ≠ k.toNat := by
  intro same
  exact other (BitVec.eq_of_toNat_eq same)

/-- An explicit call for IRQ `irq` -/
theorem NestingInv.assigned {m' : Masks} {bit : Bool} (inv : NestingInv start calls s)
    (notPit : irq ≠ irqPit) (notCascade : irq ≠ 2) (inStep : m'.InStep)
    (bits : ∀ i, m'.irqMask.getLsbD i = if irq.toNat = i then bit else s.masks.irqMask.getLsbD i)
    (marks : ∀ i masked, call.marks i masked = if irq.toNat = i then bit else masked) :
    NestingInv start (calls ++ [call]) ⟨m', s.locks⟩ := by
  have notZero : irq.toNat ≠ 0 := toNat_ne notPit
  have notTwo : irq.toNat ≠ 2 := toNat_ne notCascade
  refine ⟨inStep, ?_, ?_, fun i inner => ?_, inv.nested⟩
  · rw [bits, if_neg notTwo, inv.cascade]
  · rw [bits, if_neg notZero, inv.pit]
  · rw [markedBy_snoc, ← inv.others i inner, bits, marks]

theorem CallStep.inv (inv : NestingInv start calls s) (step : CallStep s call s') :
    NestingInv start (calls ++ [call]) s' := by
  cases step with
  | mask other returned =>
    obtain ⟨notCascade, inStep, bits⟩ := inv.inStep.intMaskIrq returned
    exact inv.assigned other notCascade inStep bits fun _ _ => rfl
  | unmask other returned =>
    obtain ⟨notCascade, inStep, bits⟩ := inv.inStep.intUnmaskIrq returned
    exact inv.assigned other notCascade inStep bits fun _ _ => rfl
  | lock returned =>
    obtain ⟨returns, inStep, bits⟩ := inv.inStep.intLockRegion returned
    refine ⟨inStep, ?_, ?_, fun i inner => ?_, ?_, inv.nested⟩
    · rw [bits, if_neg (by decide), inv.cascade]
    · rw [bits, if_pos rfl]
      simp
    · rw [markedBy_snoc, ← inv.others i inner, bits, if_neg inner.symm]
      rfl
    · rw [returns, inv.pit]
  | @unlock _ _ locks lock returned =>
    obtain ⟨inStep, bits⟩ := inv.inStep.intUnlockRegion returned
    obtain ⟨value, nested⟩ := inv.nested
    refine ⟨inStep, ?_, ?_, fun i inner => ?_, nested⟩
    · rw [bits, if_neg (by decide), inv.cascade]
    · -- inside a region the bit was set; its lock tells what it was outside
      rw [bits, if_pos rfl, inv.pit, value]
      simp
    · rw [markedBy_snoc, ← inv.others i inner, bits, if_neg inner.symm]
      rfl

/-- Every call that a caller may make returns. -/
theorem CallStep.progress (s : Nesting) (allowed : call.Allowed s.locks) :
    ∃ s', CallStep s call s' := by
  obtain ⟨m, locks⟩ := s
  cases call with
  | mask irq =>
    obtain ⟨small, other, notCascade⟩ := allowed
    have valid := Masks.checkIrq_ok.mpr ⟨small, notCascade⟩
    obtain ⟨⟨changed, m'⟩, returned⟩ : ∃ r, intMaskIrq m irq = .ok r := by
      simp only [intMaskIrq, valid, ok_bind]
      split <;> exact ⟨_, rfl⟩
    exact ⟨_, .mask other returned⟩
  | unmask irq =>
    obtain ⟨small, other, notCascade⟩ := allowed
    have valid := Masks.checkIrq_ok.mpr ⟨small, notCascade⟩
    obtain ⟨⟨changed, m'⟩, returned⟩ : ∃ r, intUnmaskIrq m irq = .ok r := by
      simp only [intUnmaskIrq, valid, ok_bind]
      split <;> exact ⟨_, rfl⟩
    exact ⟨_, .unmask other returned⟩
  | lock =>
    obtain ⟨⟨lock, m'⟩, returned⟩ : ∃ r, intLockRegion m = .ok r := by
      cases marked : m.pitMarked with
      | true => exact ⟨_, Masks.intLockRegion_marked marked⟩
      | false => exact ⟨_, Masks.intLockRegion_unmarked marked⟩
    exact ⟨_, .lock returned⟩
  | unlock =>
    cases locks with
    | nil => exact absurd rfl allowed
    | cons lock locks =>
      obtain ⟨m', returned⟩ : ∃ m', intUnlockRegion m lock = .ok m' := by
        cases lock with
        | false => exact ⟨_, Masks.intUnlockRegion_false m⟩
        | true =>
          simp only [intUnlockRegion, intUnmaskIrq, Masks.checkIrq_pit, ok_bind]
          simp only [if_true]
          split <;> exact ⟨_, rfl⟩
      exact ⟨_, .unlock returned⟩

/-- After `int_init`, and also after `timer_init` has unmasked IRQ 0, calls of the mask functions
keep the controllers in step with `irq_mask`: IRQ 2 stays open, IRQ 0 is masked inside regions
and outside as it was, and the other bits are what the explicit calls say. All allowed calls
return. -/
theorem masks_nested {m start : Masks} (init : start = remapPic m ∨
      intUnmaskIrq (remapPic m) irqPit = .ok (true, start))
    {calls : List MaskCall} {s : Nesting} (run : Run.From CallStep ⟨start, []⟩ calls s) :
    (s.masks.master = ⟨irqMaskMaster s.masks.irqMask, 0⟩ ∧
      s.masks.slave = ⟨irqMaskSlave s.masks.irqMask, 0⟩) ∧
    s.masks.irqMask.getLsbD 2 = false ∧
    (s.locks ≠ [] → s.masks.irqMask.getLsbD 0 = true) ∧
    (s.locks = [] → s.masks.irqMask.getLsbD 0 = start.irqMask.getLsbD 0) ∧
    (∀ i ≠ 0, s.masks.irqMask.getLsbD i = markedBy i (start.irqMask.getLsbD i) calls) ∧
    ∀ call : MaskCall, call.Allowed s.locks → ∃ s', CallStep s call s' := by
  have begins : start.InStep ∧ start.irqMask.getLsbD 2 = false := by
    rw [remapPic_eq] at init
    rcases init with rfl | unmasked
    · exact ⟨⟨rfl, rfl⟩, rfl⟩
    · rw [← remapPic_eq m, intUnmaskIrq_startUp] at unmasked
      cases unmasked
      exact ⟨⟨rfl, rfl⟩, rfl⟩
  have first : NestingInv start.irqMask [] ⟨start, []⟩ :=
    ⟨begins.1, begins.2, by simp, fun _ _ => rfl, trivial⟩
  have inv := run.invariant (NestingInv start.irqMask) first fun _ _ _ _ _ inv step =>
    step.inv inv
  refine ⟨inv.inStep, inv.cascade, fun inside => ?_, fun outside => ?_, inv.others, fun _ =>
    CallStep.progress s⟩
  · rw [inv.pit]
    simp [inside]
  · rw [inv.pit]
    simp [outside]

/-- IRQ 5 is unmasked inside a region and stays so, while IRQ 0 is open again after it. -/
theorem masks_nested_unmask :
    (0xFFDA#16).getLsbD 0 = startUpMasks.irqMask.getLsbD 0 ∧ ∀ i ≠ 0, (0xFFDA#16).getLsbD i =
      markedBy i (startUpMasks.irqMask.getLsbD i) [.lock, .unmask 5, .unlock] := by
  have locked : CallStep ⟨startUpMasks, []⟩ .lock ⟨lockedMasks, [true]⟩ := .lock rfl
  have unmasked : CallStep ⟨lockedMasks, [true]⟩ (.unmask 5)
      ⟨⟨0xFFDB, ⟨0xDB, 0⟩, ⟨0xFF, 0⟩⟩, [true]⟩ := .unmask (by decide) rfl
  have unlocked : CallStep ⟨⟨0xFFDB, ⟨0xDB, 0⟩, ⟨0xFF, 0⟩⟩, [true]⟩ .unlock
      ⟨⟨0xFFDA, ⟨0xDA, 0⟩, ⟨0xFF, 0⟩⟩, []⟩ := .unlock rfl
  obtain ⟨-, -, -, outside, others, -⟩ :=
    masks_nested (.inr (intUnmaskIrq_startUp startUpMasks))
      (((Run.From.single locked).snoc _ unmasked).snoc _ unlocked)
  exact ⟨outside rfl, others⟩

end Treeos
