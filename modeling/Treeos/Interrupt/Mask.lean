import Treeos.Lib.Bits
import Treeos.Panic

/-!
# IRQ masks

The mask registers of the two interrupt controllers, the copy `irq_mask` that the
kernel keeps of them, and the functions of `interrupt.c` that change both.
-/
namespace Treeos

/-- An 8259 controller as far as its mask goes: `icws` counts the initialization words
that it still expects on its data port. -/
structure Pic where
  mask : BitVec 8
  icws : Nat
deriving DecidableEq

/-- A write to the command port. ICW1 clears the mask and announces three more words. -/
def Pic.command (pic : Pic) (value : BitVec 8) : Pic :=
  if value.getLsbD 4 then ⟨0, 3⟩ else pic

/-- A write to the data port. -/
def Pic.data (pic : Pic) (value : BitVec 8) : Pic :=
  match pic.icws with
  | 0 => { pic with mask := value }
  | n + 1 => { pic with icws := n }

structure Masks where
  irqMask : BitVec 16
  master : Pic
  slave : Pic
deriving DecidableEq

def irqPit : BitVec 8 := 0
def irqBit (irq : BitVec 8) : BitVec 16 := 1#16 <<< irq.toNat

/-- `IRQ_MASK_MASTER` and `IRQ_MASK_SLAVE` -/
def irqMaskMaster (mask : BitVec 16) : BitVec 8 := mask.setWidth 8
def irqMaskSlave (mask : BitVec 16) : BitVec 8 := (mask >>> 8).setWidth 8

namespace Masks

def masterCommand (m : Masks) (value : BitVec 8) : Masks :=
  { m with master := m.master.command value }
def slaveCommand (m : Masks) (value : BitVec 8) : Masks :=
  { m with slave := m.slave.command value }
def masterData (m : Masks) (value : BitVec 8) : Masks :=
  { m with master := m.master.data value }
def slaveData (m : Masks) (value : BitVec 8) : Masks :=
  { m with slave := m.slave.data value }

/-- The port writes of `set_raw_mask`, each made only when its byte changes. -/
def writeMaster (m : Masks) (mask : BitVec 16) : Masks :=
  if irqMaskMaster mask ≠ irqMaskMaster m.irqMask then m.masterData (irqMaskMaster mask) else m
def writeSlave (m : Masks) (mask : BitVec 16) : Masks :=
  if irqMaskSlave mask ≠ irqMaskSlave m.irqMask then m.slaveData (irqMaskSlave mask) else m

/-- The store that ends `set_raw_mask`. -/
def store (m : Masks) (mask : BitVec 16) : Masks := { m with irqMask := mask }

end Masks

/-- `remap_pic` -/
def remapPic (m : Masks) : Masks :=
  let m := (m.masterCommand 0x11).slaveCommand 0x11
  let m := (m.masterData 0x20).slaveData 0x28
  let m := (m.masterData 0x04).slaveData 0x02
  let m := (m.masterData 0x01).slaveData 0x01
  ((m.masterData 0xFB).slaveData 0xFF).store 0xFFFB

/-- `set_raw_mask` -/
def setRawMask (m : Masks) (mask : BitVec 16) : Masks :=
  if m.irqMask = mask then m else ((m.writeMaster mask).writeSlave mask).store mask

/-- The assertions at the head of `int_mask_irq` and `int_unmask_irq`. -/
def checkIrq (irq : BitVec 8) : Except Panic Unit := do
  kassert (irq.toNat < 16) "VALID_IRQ(irq)"
  kassert (irq ≠ 2) "irq != 2"

/-- `int_mask_irq` -/
def intMaskIrq (m : Masks) (irq : BitVec 8) : Except Panic (Bool × Masks) := do
  checkIrq irq
  if m.irqMask &&& irqBit irq ≠ 0 then .ok (false, m)
  else .ok (true, setRawMask m (m.irqMask ||| irqBit irq))

/-- `int_unmask_irq` -/
def intUnmaskIrq (m : Masks) (irq : BitVec 8) : Except Panic (Bool × Masks) := do
  checkIrq irq
  if m.irqMask &&& irqBit irq = 0 then .ok (false, m)
  else .ok (true, setRawMask m (m.irqMask &&& ~~~irqBit irq))

/-- `int_irq_enabled` -/
def intIrqEnabled (m : Masks) (irq : BitVec 8) : Except Panic Bool := do
  kassert (irq.toNat < 16) "VALID_IRQ(irq)"
  .ok (m.irqMask &&& irqBit irq = 0)

/-- `int_lock_region` -/
def intLockRegion (m : Masks) : Except Panic (Bool × Masks) := do
  let lock ← intIrqEnabled m irqPit
  if lock then
    let (_, m) ← intMaskIrq m irqPit
    .ok (lock, m)
  else .ok (lock, m)

/-- `int_unlock_region` -/
def intUnlockRegion (m : Masks) (lock : Bool) : Except Panic Masks := do
  if lock then
    let (_, m) ← intUnmaskIrq m irqPit
    .ok m
  else .ok m

namespace Masks

/-- IRQ 0 is masked in the kernel's copy. -/
def pitMarked (m : Masks) : Bool := m.irqMask.getLsbD 0

/-- IRQ 0 is masked in the controller. -/
def pitMasked (m : Masks) : Bool := m.master.mask.getLsbD 0

variable (m : Masks) (mask : BitVec 16)

theorem and_pit_eq_zero : m.irqMask &&& irqBit irqPit = 0#16 ↔ m.pitMarked = false :=
  Bits.and_one_shiftLeft_eq_zero m.irqMask 0 (by decide)

theorem getLsbD_or_pit : (mask ||| irqBit irqPit).getLsbD 0 = true := by
  rw [irqBit, Bits.getLsbD_or_bit _ _ _ (by decide)]
  rfl

theorem getLsbD_and_not_pit : (mask &&& ~~~irqBit irqPit).getLsbD 0 = false := by
  rw [irqBit, Bits.getLsbD_and_not_bit _ _ _ (by decide)]
  rfl

theorem irqMaskMaster_pit : (irqMaskMaster mask).getLsbD 0 = mask.getLsbD 0 := by
  simp [irqMaskMaster]

@[simp] theorem store_pitMarked : (m.store mask).pitMarked = mask.getLsbD 0 := rfl
@[simp] theorem store_pitMasked : (m.store mask).pitMasked = m.pitMasked := rfl

@[simp] theorem writeSlave_irqMask : (m.writeSlave mask).irqMask = m.irqMask := by
  unfold writeSlave
  split <;> rfl

@[simp] theorem writeSlave_master : (m.writeSlave mask).master = m.master := by
  unfold writeSlave
  split <;> rfl

@[simp] theorem writeMaster_irqMask : (m.writeMaster mask).irqMask = m.irqMask := by
  unfold writeMaster
  split <;> rfl

/-- A mask that changes bit 0 of the copy reaches the initialized controller. -/
theorem writeMaster_of_ne (ready : m.master.icws = 0)
    (changes : mask.getLsbD 0 ≠ m.irqMask.getLsbD 0) :
    m.writeMaster mask = { m with master := ⟨irqMaskMaster mask, 0⟩ } := by
  have bytes : irqMaskMaster mask ≠ irqMaskMaster m.irqMask := fun same =>
    changes (by rw [← irqMaskMaster_pit, same, irqMaskMaster_pit])
  rw [writeMaster, if_pos bytes, masterData, Pic.data, ready]

end Masks

/-- The masks once the timer has been started: only IRQ 0 and the cascade are open. -/
def startUpMasks : Masks := ⟨0xFFFA, ⟨0xFA, 0⟩, ⟨0xFF, 0⟩⟩

theorem remapPic_eq (m : Masks) : remapPic m = ⟨0xFFFB, ⟨0xFB, 0⟩, ⟨0xFF, 0⟩⟩ := by
  simp [remapPic, Masks.masterCommand, Masks.slaveCommand, Masks.masterData, Masks.slaveData,
    Masks.store, Pic.command, Pic.data]

/-- `int_init` and the unmasking of the timer lead to these masks. -/
theorem intUnmaskIrq_startUp (m : Masks) :
    intUnmaskIrq (remapPic m) irqPit = .ok (true, startUpMasks) := by
  rw [remapPic_eq]
  rfl

end Treeos
