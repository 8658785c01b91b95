import Mathlib.Tactic.Common

/-!
# Paging entries

`struct page_dir_entry` and `struct page_table_entry` share the fields that the
kernel uses: three flags in the low bits and the frame number in the top 20.
-/
namespace Treeos

/-- A number of a 4 KiB frame or page. -/
abbrev Frame := BitVec 20

/-- One 32-bit entry of a page directory or a page table. -/
abbrev Entry := BitVec 32

namespace Entry

def present (e : Entry) : Bool := e.getLsbD 0
def rw (e : Entry) : Bool := e.getLsbD 1
def user (e : Entry) : Bool := e.getLsbD 2
def address (e : Entry) : Frame := e.extractLsb' 12 20

/-- Store into the one-bit field at position `i`. -/
def setFlag (e : Entry) (i : Nat) (value : Bool) : Entry :=
  if value then e ||| BitVec.twoPow 32 i else e &&& ~~~BitVec.twoPow 32 i

def setPresent (e : Entry) (value : Bool) : Entry := setFlag e 0 value
def setRw (e : Entry) (value : Bool) : Entry := setFlag e 1 value
def setUser (e : Entry) (value : Bool) : Entry := setFlag e 2 value
def setAddress (e : Entry) (frame : Frame) : Entry := frame ++ e.extractLsb' 0 12

theorem getLsbD_setFlag (e : Entry) (i j : Nat) (bound : i < 32) (value : Bool) :
    (setFlag e i value).getLsbD j = if i = j then value else e.getLsbD j := by
  cases value <;> by_cases same : i = j <;> by_cases inside : j < 32 <;>
    simp_all [setFlag]
  · omega
  · omega

theorem getLsbD_setAddress (e : Entry) (frame : Frame) (j : Nat) :
    (setAddress e frame).getLsbD j = if j < 12 then e.getLsbD j else frame.getLsbD (j - 12) := by
  unfold setAddress
  rw [BitVec.getLsbD_append]
  by_cases low : j < 12 <;> simp [low]

@[simp] theorem address_setFlag (e : Entry) (i : Nat) (low : i < 12) (value : Bool) :
    address (setFlag e i value) = address e := by
  ext j bound
  simp only [address, BitVec.getElem_extractLsb', getLsbD_setFlag e i _ (by omega)]
  rw [if_neg (by omega)]

@[simp] theorem address_setAddress (e : Entry) (frame : Frame) :
    address (setAddress e frame) = frame := by
  ext j bound
  simp only [address, BitVec.getElem_extractLsb', getLsbD_setAddress]
  rw [if_neg (by omega), Nat.add_sub_cancel_left, BitVec.getLsbD_eq_getElem]

variable (e : Entry) (value : Bool) (frame : Frame)

@[simp] theorem present_setPresent : present (setPresent e value) = value :=
  getLsbD_setFlag e 0 0 (by decide) value
@[simp] theorem present_setRw : present (setRw e value) = present e :=
  getLsbD_setFlag e 1 0 (by decide) value
@[simp] theorem present_setUser : present (setUser e value) = present e :=
  getLsbD_setFlag e 2 0 (by decide) value
@[simp] theorem present_setAddress : present (setAddress e frame) = present e :=
  getLsbD_setAddress e frame 0
@[simp] theorem rw_setRw : rw (setRw e value) = value :=
  getLsbD_setFlag e 1 1 (by decide) value
@[simp] theorem rw_setUser : rw (setUser e value) = rw e :=
  getLsbD_setFlag e 2 1 (by decide) value
@[simp] theorem rw_setAddress : rw (setAddress e frame) = rw e :=
  getLsbD_setAddress e frame 1
@[simp] theorem user_setUser : user (setUser e value) = value :=
  getLsbD_setFlag e 2 2 (by decide) value
@[simp] theorem user_setAddress : user (setAddress e frame) = user e :=
  getLsbD_setAddress e frame 2
@[simp] theorem address_setPresent : address (setPresent e value) = address e :=
  address_setFlag e 0 (by decide) value
@[simp] theorem address_setRw : address (setRw e value) = address e :=
  address_setFlag e 1 (by decide) value
@[simp] theorem address_setUser : address (setUser e value) = address e :=
  address_setFlag e 2 (by decide) value

theorem present_zero : present 0#32 = false := rfl

end Entry

end Treeos
