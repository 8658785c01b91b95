import Treeos.Lib.PageTable
import Treeos.Panic
import Treeos.Pmm.Entry
import Treeos.Util.Bitmap

/-!
# The paging unit

Physical memory in words, translation through the directory that cr3 points to, and the
two windows through which the kernel sees the directory and its tables. Every access
walks the tables anew, and ring 0 may write to read-only pages.
-/
namespace Treeos

open PageTable

/-- Physical memory: the words of each frame. -/
abbrev PhysMem := Mem Frame (BitVec 10) Entry

/-- Which entries the paging unit follows, and where to. -/
def pagingFormat : Format Frame Entry := ⟨Entry.present, Entry.address⟩

def dirIndex (v : BitVec 32) : BitVec 10 := (v >>> 22).setWidth 10
def tableIndex (v : BitVec 32) : BitVec 10 := (v >>> 12).setWidth 10
def wordIndex (v : BitVec 32) : BitVec 10 := (v >>> 2).setWidth 10

/-- A page, by the indices it has in the directory and in its table. -/
abbrev Page := BitVec 10 × BitVec 10

def pageOf (v : BitVec 32) : Page := (dirIndex v, tableIndex v)

/-- What the functions of the memory manager share. -/
structure PagingState where
  mem : PhysMem
  -- cr3
  dir : Frame
  bitmap : Bitmap
  placementHeap : BitVec 32
  -- what `paging_structure_alloc` has returned so far; the code keeps no such list
  structures : List (BitVec 32)

namespace PagingState

variable (s : PagingState)

def setMem (mem : PhysMem) : PagingState := { s with mem := mem }

@[simp] theorem setMem_mem (mem : PhysMem) : (s.setMem mem).mem = mem := rfl
@[simp] theorem setMem_dir (mem : PhysMem) : (s.setMem mem).dir = s.dir := rfl
@[simp] theorem setMem_bitmap (mem : PhysMem) : (s.setMem mem).bitmap = s.bitmap := rfl
@[simp] theorem setMem_placementHeap (mem : PhysMem) :
    (s.setMem mem).placementHeap = s.placementHeap := rfl
@[simp] theorem setMem_structures (mem : PhysMem) :
    (s.setMem mem).structures = s.structures := rfl
@[simp] theorem setMem_setMem (mem mem' : PhysMem) :
    (s.setMem mem).setMem mem' = s.setMem mem' := rfl

/-- The entry that a page is translated with. -/
def lookup (page : Page) : Option Entry := PageTable.lookup pagingFormat s.mem s.dir page

/-- Where the word at `v` is. -/
def translate (v : BitVec 32) : Except Panic (Frame × BitVec 10) :=
  match s.lookup (pageOf v) with
  | none => .error (.pageFault v)
  | some e => .ok (e.address, wordIndex v)

def loadWord (v : BitVec 32) : Except Panic Entry := do
  let (f, i) ← s.translate v
  .ok (s.mem f i)

def storeWord (v : BitVec 32) (w : Entry) : Except Panic PagingState := do
  let (f, i) ← s.translate v
  .ok (s.setMem (write s.mem f i w))

-- a store to a bit field
def updateWord (v : BitVec 32) (change : Entry → Entry) : Except Panic PagingState := do
  let w ← s.loadWord v
  s.storeWord v (change w)

/-- The last directory entry refers to the directory. -/
def SelfMapped : Prop := Uses pagingFormat s.mem s.dir 1023 s.dir

end PagingState

-- `&pde[pgdir_index]`
def pdeAddr (v : BitVec 32) : BitVec 32 := 0xFFFFF000#32 + 4#32 * (v >>> 22)

-- `&pte[pgtbl_index]`
def pteAddr (v : BitVec 32) : BitVec 32 :=
  0xFFC00000#32 + 0x1000#32 * (v >>> 22) + 4#32 * ((v >>> 12) &&& 0x3FF#32)

/-! ### The windows -/

theorem toNat_dirIndex (v : BitVec 32) : (dirIndex v).toNat = v.toNat / 2 ^ 22 := by
  have bound := v.isLt
  rw [dirIndex, BitVec.toNat_setWidth, BitVec.toNat_ushiftRight, Nat.shiftRight_eq_div_pow]
  omega

theorem toNat_tableIndex (v : BitVec 32) : (tableIndex v).toNat = v.toNat / 2 ^ 12 % 1024 := by
  rw [tableIndex, BitVec.toNat_setWidth, BitVec.toNat_ushiftRight, Nat.shiftRight_eq_div_pow]

theorem toNat_wordIndex (v : BitVec 32) : (wordIndex v).toNat = v.toNat / 4 % 1024 := by
  rw [wordIndex, BitVec.toNat_setWidth, BitVec.toNat_ushiftRight, Nat.shiftRight_eq_div_pow]

theorem toNat_pdeAddr (v : BitVec 32) : (pdeAddr v).toNat = 0xFFFFF000 + 4 * (v.toNat / 2 ^ 22) := by
  have bound := v.isLt
  have shift : (v >>> 22).toNat = v.toNat / 2 ^ 22 := by
    rw [BitVec.toNat_ushiftRight, Nat.shiftRight_eq_div_pow]
  unfold pdeAddr
  generalize v >>> 22 = i at *
  bv_omega

theorem toNat_pteAddr (v : BitVec 32) : (pteAddr v).toNat =
    0xFFC00000 + 4096 * (v.toNat / 2 ^ 22) + 4 * (v.toNat / 2 ^ 12 % 1024) := by
  have bound := v.isLt
  have dir : (v >>> 22).toNat = v.toNat / 2 ^ 22 := by
    rw [BitVec.toNat_ushiftRight, Nat.shiftRight_eq_div_pow]
  have table : ((v >>> 12) &&& 0x3FF#32).toNat = v.toNat / 2 ^ 12 % 1024 := by
    rw [BitVec.toNat_and, BitVec.toNat_ushiftRight, Nat.shiftRight_eq_div_pow]
    exact Nat.and_two_pow_sub_one_eq_mod _ 10
  unfold pteAddr
  generalize v >>> 22 = i at *
  generalize (v >>> 12) &&& 0x3FF#32 = j at *
  bv_omega

theorem pdeAddr_page (v : BitVec 32) : pageOf (pdeAddr v) = (1023, 1023) ∧
    wordIndex (pdeAddr v) = dirIndex v := by
  have bound := v.isLt
  refine ⟨Prod.ext ?_ ?_, ?_⟩ <;> apply BitVec.eq_of_toNat_eq
  · show (dirIndex (pdeAddr v)).toNat = 1023
    rw [toNat_dirIndex, toNat_pdeAddr]
    omega
  · show (tableIndex (pdeAddr v)).toNat = 1023
    rw [toNat_tableIndex, toNat_pdeAddr]
    omega
  · rw [toNat_wordIndex, toNat_pdeAddr, toNat_dirIndex]
    omega

theorem pteAddr_page (v : BitVec 32) : pageOf (pteAddr v) = (1023, dirIndex v) ∧
    wordIndex (pteAddr v) = tableIndex v := by
  have bound := v.isLt
  refine ⟨Prod.ext ?_ ?_, ?_⟩ <;> apply BitVec.eq_of_toNat_eq
  · show (dirIndex (pteAddr v)).toNat = 1023
    rw [toNat_dirIndex, toNat_pteAddr]
    omega
  · show (tableIndex (pteAddr v)).toNat = (dirIndex v).toNat
    rw [toNat_tableIndex, toNat_pteAddr, toNat_dirIndex]
    omega
  · rw [toNat_wordIndex, toNat_pteAddr, toNat_tableIndex]
    omega

namespace PagingState

variable {s : PagingState} {v : BitVec 32} {f : Frame} {w : Entry}

theorem loadWord_of_lookup {e : Entry} (found : s.lookup (pageOf v) = some e) :
    s.loadWord v = .ok (s.mem e.address (wordIndex v)) := by
  unfold loadWord translate
  rw [found]
  rfl

theorem storeWord_of_lookup {e : Entry} (found : s.lookup (pageOf v) = some e) :
    s.storeWord v w = .ok (s.setMem (write s.mem e.address (wordIndex v) w)) := by
  unfold storeWord translate
  rw [found]
  rfl

theorem loadWord_of_none (absent : s.lookup (pageOf v) = none) :
    s.loadWord v = .error (.pageFault v) := by
  unfold loadWord translate
  rw [absent]
  rfl

theorem storeWord_of_none (absent : s.lookup (pageOf v) = none) :
    s.storeWord v w = .error (.pageFault v) := by
  unfold storeWord translate
  rw [absent]
  rfl

/-- The window at 0xFFFFF000 is the directory. -/
theorem SelfMapped.lookup_pde (selfMap : s.SelfMapped) :
    s.lookup (pageOf (pdeAddr v)) = some (s.mem s.dir 1023) := by
  have uses : Uses pagingFormat s.mem s.dir (pageOf (pdeAddr v)).1 s.dir := by
    rw [(pdeAddr_page v).1]
    exact selfMap
  refine (lookup_eq_some uses).mpr ⟨selfMap.1, ?_⟩
  rw [(pdeAddr_page v).1]

theorem SelfMapped.loadWord_pde (selfMap : s.SelfMapped) :
    s.loadWord (pdeAddr v) = .ok (s.mem s.dir (dirIndex v)) := by
  rw [loadWord_of_lookup selfMap.lookup_pde, (pdeAddr_page v).2]
  exact congrArg (fun g => Except.ok (s.mem g (dirIndex v))) selfMap.2

theorem SelfMapped.storeWord_pde (selfMap : s.SelfMapped) :
    s.storeWord (pdeAddr v) w = .ok (s.setMem (write s.mem s.dir (dirIndex v) w)) := by
  rw [storeWord_of_lookup selfMap.lookup_pde, (pdeAddr_page v).2]
  exact congrArg (fun g => Except.ok (s.setMem (write s.mem g (dirIndex v) w))) selfMap.2

/-- The window of a directory entry is the table it refers to. -/
theorem SelfMapped.lookup_pte (selfMap : s.SelfMapped)
    (uses : Uses pagingFormat s.mem s.dir (dirIndex v) f) :
    s.lookup (pageOf (pteAddr v)) = some (s.mem s.dir (dirIndex v)) := by
  have window : Uses pagingFormat s.mem s.dir (pageOf (pteAddr v)).1 s.dir := by
    rw [(pteAddr_page v).1]
    exact selfMap
  refine (lookup_eq_some window).mpr ⟨uses.1, ?_⟩
  rw [(pteAddr_page v).1]

theorem SelfMapped.loadWord_pte (selfMap : s.SelfMapped)
    (uses : Uses pagingFormat s.mem s.dir (dirIndex v) f) :
    s.loadWord (pteAddr v) = .ok (s.mem f (tableIndex v)) := by
  rw [loadWord_of_lookup (selfMap.lookup_pte uses), (pteAddr_page v).2]
  exact congrArg (fun g => Except.ok (s.mem g (tableIndex v))) uses.2

theorem SelfMapped.storeWord_pte (selfMap : s.SelfMapped)
    (uses : Uses pagingFormat s.mem s.dir (dirIndex v) f) :
    s.storeWord (pteAddr v) w = .ok (s.setMem (write s.mem f (tableIndex v) w)) := by
  rw [storeWord_of_lookup (selfMap.lookup_pte uses), (pteAddr_page v).2]
  exact congrArg (fun g => Except.ok (s.setMem (write s.mem g (tableIndex v) w))) uses.2

theorem SelfMapped.updateWord_pde (selfMap : s.SelfMapped) (change : Entry → Entry) :
    s.updateWord (pdeAddr v) change =
      .ok (s.setMem (write s.mem s.dir (dirIndex v) (change (s.mem s.dir (dirIndex v))))) := by
  unfold updateWord
  rw [selfMap.loadWord_pde, ok_bind, selfMap.storeWord_pde]

theorem SelfMapped.updateWord_pte (selfMap : s.SelfMapped)
    (uses : Uses pagingFormat s.mem s.dir (dirIndex v) f) (change : Entry → Entry) :
    s.updateWord (pteAddr v) change =
      .ok (s.setMem (write s.mem f (tableIndex v) (change (s.mem f (tableIndex v))))) := by
  unfold updateWord
  rw [selfMap.loadWord_pte uses, ok_bind, selfMap.storeWord_pte uses]

end PagingState

end Treeos
