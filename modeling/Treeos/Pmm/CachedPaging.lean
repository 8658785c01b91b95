import Treeos.Lib.Tlb
import Treeos.Pmm.Setup

/-!
# Paging with a translation cache

`page_map`, `page_unmap`, `paging_structure_alloc` and `virt_to_phys` as programs with the
`flush_tlb` of `pmm/tlb.S`, on a processor that caches translations, and that they compute there
what they do when every access walks the tables.
-/
namespace Treeos

open PageTable PagingState Tlb

/-- The variables of the memory manager, and those of its caller. -/
structure KernelVars (H : Type) where
  bitmap : Bitmap
  placementHeap : BitVec 32
  structures : List (BitVec 32)
  heap : H

abbrev KernelProg (H α : Type) := Prog (BitVec 32) Entry (KernelVars H) Panic α

/-- The paging unit of the processor. -/
def kernelMmu : Mmu (BitVec 32) Frame (BitVec 10) Entry Panic :=
  ⟨pagingFormat, pageOf, wordIndex, .pageFault⟩

variable {H α β : Type}

/-- The state of the memory manager, as that of a program. -/
def PagingState.cached (s : PagingState) (heap : H) :
    State Frame (BitVec 10) Entry (KernelVars H) :=
  ⟨s.mem, s.dir, ⟨s.bitmap, s.placementHeap, s.structures, heap⟩⟩

@[simp] theorem cached_lookup (s : PagingState) (heap : H) (page : Page) :
    (s.cached heap).lookup kernelMmu page = s.lookup page := rfl

namespace Cached

def ofExcept : Except Panic α → KernelProg H α
  | .ok a => .done a
  | .error e => .stop e

def readVars : KernelProg H (KernelVars H) := .read .done

def assignVars (x : KernelVars H) : KernelProg H Unit := .assign x (.done ())

def loadWord (v : BitVec 32) : KernelProg H Entry := .load v .done

def storeWord (v : BitVec 32) (w : Entry) : KernelProg H Unit := .store v w (.done ())

-- a store to a bit field
def updateWord (v : BitVec 32) (change : Entry → Entry) : KernelProg H Unit := do
  let w ← loadWord v
  storeWord v (change w)

/-- `flush_tlb` -/
def flushTlb (v : BitVec 32) : KernelProg H Unit := .flush v (.done ())

/-- `virt_to_phys` -/
def virtToPhys (vaddr : BitVec 32) : KernelProg H (BitVec 32) := do
  let pde ← loadWord (pdeAddr vaddr)
  if pde.present then
    let pte ← loadWord (pteAddr vaddr)
    if pte.present then .done ((pte &&& ~~~0xFFF#32) + (vaddr &&& 0xFFF#32))
    else .stop (.fmt
      "virtual address %x references invalid page table entry %u in page directory %u"
      [vaddr, (vaddr >>> 12) &&& 0x3FF#32, vaddr >>> 22])
  else .stop (.fmt "virtual address %x references invalid page directory entry %u"
    [vaddr, vaddr >>> 22])

/-- The first stores of `page_map` to an absent directory entry. -/
def markDirEntry (virtualaddr : BitVec 32) : KernelProg H Unit := do
  updateWord (pdeAddr virtualaddr) (·.setPresent true)
  updateWord (pdeAddr virtualaddr) (·.setRw true)
  updateWord (pdeAddr virtualaddr) (·.setUser true)

/-- What `page_map` does to an absent directory entry; `alloc` is `paging_structure_alloc`. -/
def newDirEntry (alloc : KernelProg H (BitVec 32)) (virtualaddr : BitVec 32) :
    KernelProg H Unit := do
  markDirEntry virtualaddr
  let table ← alloc
  let physaddr ← virtToPhys table
  updateWord (pdeAddr virtualaddr) (·.setAddress (frameOf physaddr))

/-- What `page_map` does to the entry of the page itself. -/
def setTableEntry (physaddr virtualaddr : BitVec 32) (rw user : Bool) : KernelProg H Unit := do
  let pte ← loadWord (pteAddr virtualaddr)
  if pte.present then
    .stop (.fmt ("page table entry already present for virtual address %x " ++
      "(mapped to physical address %x)") [virtualaddr, frameAddr pte.address])
  else
    updateWord (pteAddr virtualaddr) (·.setPresent true)
    updateWord (pteAddr virtualaddr) (·.setRw rw)
    updateWord (pteAddr virtualaddr) (·.setUser user)
    updateWord (pteAddr virtualaddr) (·.setAddress (frameOf physaddr))

/-- The checks of `page_map` -/
def checkArguments (physaddr virtualaddr : BitVec 32) : KernelProg H Unit := do
  ofExcept (panicIf (!isPageAligned physaddr) "physical address is not page-aligned")
  ofExcept (panicIf (!isPageAligned virtualaddr) "virtual address is not page-aligned")
  let x ← readVars
  ofExcept (panicIf (!x.bitmap.testBit (physaddr >>> 12).toNat)
    "mapping page that is not allocated in page_bitmap")

/-- The directory entry that `page_map` finds or makes. -/
def findTable (alloc : KernelProg H (BitVec 32)) (virtualaddr : BitVec 32) :
    KernelProg H Unit := do
  let pde ← loadWord (pdeAddr virtualaddr)
  if pde.present then .done () else newDirEntry alloc virtualaddr

/-- `page_map`, given `paging_structure_alloc` -/
def pageMapWith (alloc : KernelProg H (BitVec 32)) (physaddr virtualaddr : BitVec 32)
    (rw user : Bool) : KernelProg H Unit := do
  checkArguments physaddr virtualaddr
  findTable alloc virtualaddr
  setTableEntry physaddr virtualaddr rw user
  flushTlb virtualaddr

/-- `memset(p, 0, PAGE_SIZE)`, a word at a time -/
def zeroWords (p : BitVec 32) : List Nat → KernelProg H Unit
  | [] => .done ()
  | i :: rest => do
    storeWord (p + BitVec.ofNat 32 (4 * i)) 0
    zeroWords p rest

/-- `paging_structure_alloc` once it has the frame `f` -/
def placeStructure (map : BitVec 32 → BitVec 32 → Bool → Bool → KernelProg H Unit) (f : Frame) :
    KernelProg H (BitVec 32) := do
  let x ← readVars
  map (frameAddr f) x.placementHeap true false
  let x ← readVars
  zeroWords x.placementHeap (List.range 1024)
  let x ← readVars
  assignVars { x with placementHeap := x.placementHeap + 0x1000,
                      structures := x.placementHeap :: x.structures }
  .done x.placementHeap

/-- `page_alloc` on the bitmap of the kernel -/
def takeFrame : KernelProg H (Option Entry) := do
  let x ← readVars
  let taken ← ofExcept (pageAlloc x.bitmap (some 0))
  assignVars { x with bitmap := taken.2 }
  .done taken.1

/-- `paging_structure_alloc`, given `page_map` -/
def pagingStructureAllocWith (map : BitVec 32 → BitVec 32 → Bool → Bool → KernelProg H Unit) :
    KernelProg H (BitVec 32) := do
  let x ← readVars
  ofExcept (kassert (isPageAligned x.placementHeap) "IS_PAGE_ALIGNED(placement_heap)")
  -- First, allocate a free page
  let pte ← takeFrame
  match pte with
  | none => .stop (.msg "out of memory")
  | some pte => placeStructure map pte.address

/-- `page_map`, which may call `paging_structure_alloc` down to the given depth. -/
def pageMap : Nat → BitVec 32 → BitVec 32 → Bool → Bool → KernelProg H Unit
  | 0 => pageMapWith (.stop .fuel)
  | depth + 1 => pageMapWith (pagingStructureAllocWith (pageMap depth))

/-- `paging_structure_alloc` -/
def pagingStructureAlloc (depth : Nat) : KernelProg H (BitVec 32) :=
  pagingStructureAllocWith (pageMap depth)

/-- What `page_unmap` does before the flush. -/
def clearEntry (virtualaddr : BitVec 32) : KernelProg H Unit := do
  ofExcept (panicIf (!isPageAligned virtualaddr) "virtual address is not page-aligned")
  let pde ← loadWord (pdeAddr virtualaddr)
  if pde.present then
    let pte ← loadWord (pteAddr virtualaddr)
    if pte.present then
      -- It's like it was never there...
      storeWord (pteAddr virtualaddr) 0
    else .stop (.fmt "page table entry not present for virtual address %x\n" [virtualaddr])
  else .stop (.fmt "page directory entry not present for virtual address %x\n" [virtualaddr])

/-- `page_unmap` -/
def pageUnmap (virtualaddr : BitVec 32) : KernelProg H Unit := do
  clearEntry virtualaddr
  flushTlb virtualaddr

/-! ### Without a cache -/

variable {s s' : PagingState} {heap : H} {v physaddr : BitVec 32} {rw user : Bool}

/-- The variables that a program finds. -/
def varsOf (s : PagingState) (heap : H) : KernelVars H :=
  ⟨s.bitmap, s.placementHeap, s.structures, heap⟩

@[simp] theorem run_done (a : α) :
    (.done a : KernelProg H α).run kernelMmu (s.cached heap) = .ok (a, s.cached heap) := rfl

@[simp] theorem run_stop (e : Panic) :
    (.stop e : KernelProg H α).run kernelMmu (s.cached heap) = .error e := rfl

@[simp] theorem run_ofExcept (x : Except Panic α) :
    (ofExcept x).run kernelMmu (s.cached heap) = x >>= fun a => .ok (a, s.cached heap) := by
  cases x <;> rfl

@[simp] theorem run_readVars : (readVars : KernelProg H _).run kernelMmu (s.cached heap) =
    .ok (varsOf s heap, s.cached heap) := rfl

@[simp] theorem run_flushTlb : (flushTlb v : KernelProg H Unit).run kernelMmu (s.cached heap) =
    .ok ((), s.cached heap) := rfl

@[simp] theorem run_loadWord : (loadWord v).run kernelMmu (s.cached heap) =
    s.loadWord v >>= fun w => .ok (w, s.cached heap) := by
  unfold loadWord PagingState.loadWord PagingState.translate Prog.run
  rw [cached_lookup, show kernelMmu.page v = pageOf v from rfl]
  cases s.lookup (pageOf v) <;> rfl

@[simp] theorem run_storeWord (w : Entry) : (storeWord v w).run kernelMmu (s.cached heap) =
    s.storeWord v w >>= fun s' => .ok ((), s'.cached heap) := by
  unfold storeWord PagingState.storeWord PagingState.translate Prog.run
  rw [cached_lookup, show kernelMmu.page v = pageOf v from rfl]
  cases s.lookup (pageOf v) <;> rfl

@[simp] theorem run_updateWord (change : Entry → Entry) :
    (updateWord v change).run kernelMmu (s.cached heap) =
      s.updateWord v change >>= fun s' => .ok ((), s'.cached heap) := by
  unfold updateWord PagingState.updateWord
  simp only [Prog.run_bind, run_loadWord, run_storeWord, bind_assoc, ok_bind]

@[simp] theorem run_virtToPhys : (virtToPhys v).run kernelMmu (s.cached heap) =
    s.virtToPhys v >>= fun a => .ok (a, s.cached heap) := by
  unfold virtToPhys PagingState.virtToPhys
  simp only [Prog.run_bind, run_loadWord, bind_assoc, ok_bind]
  refine bind_congr fun pde => ?_
  split
  · simp only [Prog.run_bind, run_loadWord, bind_assoc, ok_bind]
    refine bind_congr fun pte => ?_
    split <;> rfl
  · rfl

@[simp] theorem run_markDirEntry : (markDirEntry v).run kernelMmu (s.cached heap) =
    s.markDirEntry v >>= fun s' => .ok ((), s'.cached heap) := by
  unfold markDirEntry PagingState.markDirEntry
  simp only [Prog.run_bind, run_updateWord, bind_assoc, ok_bind]

@[simp] theorem run_setTableEntry :
    (setTableEntry physaddr v rw user).run kernelMmu (s.cached heap) =
      s.setTableEntry physaddr v rw user >>= fun s' => .ok ((), s'.cached heap) := by
  unfold setTableEntry PagingState.setTableEntry
  simp only [Prog.run_bind, run_loadWord, bind_assoc, ok_bind]
  refine bind_congr fun pte => ?_
  split
  · rfl
  · simp only [Prog.run_bind, run_updateWord, bind_assoc, ok_bind]

theorem run_zeroWords (p : BitVec 32) (rest : List Nat) :
    (zeroWords p rest).run kernelMmu (s.cached heap) =
      rest.foldlM (fun s i => s.storeWord (p + BitVec.ofNat 32 (4 * i)) 0) s >>=
        fun s' => .ok ((), s'.cached heap) := by
  induction rest generalizing s with
  | nil => rfl
  | cons i rest ih =>
    rw [zeroWords, Prog.run_bind, run_storeWord, List.foldlM_cons]
    simp only [bind_assoc, ok_bind, ih]

@[simp] theorem run_takeFrame : (takeFrame : KernelProg H _).run kernelMmu (s.cached heap) =
    pageAlloc s.bitmap (some 0) >>= fun taken =>
      .ok (taken.1, PagingState.cached { s with bitmap := taken.2 } heap) := by
  unfold takeFrame
  simp only [Prog.run_bind, run_readVars, run_ofExcept, bind_assoc, ok_bind]
  rfl

/-- What a program that stands for `paging_structure_alloc` does without a cache. -/
def Allocates (p : KernelProg H (BitVec 32))
    (alloc : PagingState → Except Panic (BitVec 32 × PagingState)) : Prop :=
  ∀ s heap, p.run kernelMmu (s.cached heap) = alloc s >>= fun r => .ok (r.1, r.2.cached heap)

/-- What a program that stands for `page_map` does without a cache. -/
def Maps (p : BitVec 32 → BitVec 32 → Bool → Bool → KernelProg H Unit)
    (map : PagingState → BitVec 32 → BitVec 32 → Bool → Bool → Except Panic PagingState) : Prop :=
  ∀ physaddr v rw user s heap, (p physaddr v rw user).run kernelMmu (s.cached heap) =
    map s physaddr v rw user >>= fun s' => .ok ((), s'.cached heap)

theorem Allocates.newDirEntry {p : KernelProg H (BitVec 32)}
    {alloc : PagingState → Except Panic (BitVec 32 × PagingState)} (allocates : Allocates p alloc) :
    (newDirEntry p v).run kernelMmu (s.cached heap) =
      PagingState.newDirEntry alloc s v >>= fun s' => .ok ((), s'.cached heap) := by
  unfold Cached.newDirEntry PagingState.newDirEntry
  simp only [Prog.run_bind, run_markDirEntry, bind_assoc, ok_bind, allocates _ heap,
    run_virtToPhys, run_updateWord]

theorem Allocates.pageMapWith {p : KernelProg H (BitVec 32)}
    {alloc : PagingState → Except Panic (BitVec 32 × PagingState)} (allocates : Allocates p alloc) :
    Maps (pageMapWith p) (PagingState.pageMapWith alloc) := by
  intro physaddr v rw user s heap
  unfold Cached.pageMapWith PagingState.pageMapWith checkArguments findTable
  simp only [Prog.run_bind, run_ofExcept, run_readVars, run_loadWord, bind_assoc, ok_bind]
  refine bind_congr fun _ => ?_
  refine bind_congr fun _ => ?_
  refine bind_congr fun _ => ?_
  refine bind_congr fun pde => ?_
  split
  · simp only [run_done, run_setTableEntry, run_flushTlb, bind_assoc, ok_bind]
  · simp only [allocates.newDirEntry, run_setTableEntry, run_flushTlb, bind_assoc, ok_bind]

theorem Maps.pagingStructureAlloc {p : BitVec 32 → BitVec 32 → Bool → Bool → KernelProg H Unit}
    {map : PagingState → BitVec 32 → BitVec 32 → Bool → Bool → Except Panic PagingState}
    (maps : Maps p map) :
    Allocates (pagingStructureAllocWith p) (PagingState.pagingStructureAllocWith map) := by
  intro s heap
  unfold Cached.pagingStructureAllocWith PagingState.pagingStructureAllocWith
  simp only [Prog.run_bind, run_readVars, run_ofExcept, run_takeFrame, bind_assoc, ok_bind]
  refine bind_congr fun _ => ?_
  refine bind_congr fun taken => ?_
  obtain ⟨pte, bitmap⟩ := taken
  cases pte with
  | none => rfl
  | some pte =>
    unfold Cached.placeStructure PagingState.placeStructure
    simp only [Prog.run_bind, run_readVars, bind_assoc, ok_bind, maps _ _ _ _ _ heap]
    refine bind_congr fun s' => ?_
    change (zeroWords s'.placementHeap (List.range 1024)).run kernelMmu (s'.cached heap) >>= _ = _
    rw [run_zeroWords, bind_assoc]
    exact bind_congr fun s'' => rfl

/-- Without a cache the programs do what the functions do. -/
theorem maps_pageMap (depth : Nat) :
    Maps (Cached.pageMap depth : _ → _ → _ → _ → KernelProg H Unit)
      (PagingState.pageMap depth) := by
  induction depth with
  | zero =>
    refine Allocates.pageMapWith ?_
    intro s heap
    rfl
  | succ depth ih => exact ih.pagingStructureAlloc.pageMapWith

theorem allocates_pagingStructureAlloc (depth : Nat) :
    Allocates (Cached.pagingStructureAlloc depth : KernelProg H (BitVec 32))
      (PagingState.pagingStructureAlloc depth) :=
  (maps_pageMap depth).pagingStructureAlloc

@[simp] theorem run_clearEntry : (clearEntry v).run kernelMmu (s.cached heap) =
    s.pageUnmap v >>= fun s' => .ok ((), s'.cached heap) := by
  unfold clearEntry PagingState.pageUnmap
  simp only [Prog.run_bind, run_ofExcept, run_loadWord, bind_assoc, ok_bind]
  refine bind_congr fun _ => ?_
  refine bind_congr fun pde => ?_
  split
  · simp only [Prog.run_bind, run_loadWord, bind_assoc, ok_bind]
    refine bind_congr fun pte => ?_
    split
    · exact run_storeWord 0
    · rfl
  · rfl

@[simp] theorem run_pageUnmap : (pageUnmap v).run kernelMmu (s.cached heap) =
    s.pageUnmap v >>= fun s' => .ok ((), s'.cached heap) := by
  unfold pageUnmap
  simp only [Prog.run_bind, run_clearEntry, run_flushTlb, bind_assoc, ok_bind]

end Cached

end Treeos
