import Treeos.Pmm.Frames
import Treeos.Pmm.Layout
import Treeos.Pmm.Mmu

/-!
# Mapping pages

`page_map` and `page_unmap` of `pmm/paging.c`, `paging_structure_alloc` of
`pmm/allocator.c` and `virt_to_phys` of `vmm/addr.c`.
-/
namespace Treeos

open PageTable

-- `IS_PAGE_ALIGNED`
def isPageAligned (a : BitVec 32) : Bool := a &&& 0xFFF#32 == 0#32

/-- The bit field that `a >> 12` is stored in. -/
def frameOf (a : BitVec 32) : Frame := (a >>> 12).setWidth 20

-- `address << 12` of an entry
def frameAddr (f : Frame) : BitVec 32 := f.setWidth 32 <<< 12

theorem pageOffset_toNat (a : BitVec 32) : (a &&& 0xFFF#32).toNat = a.toNat % 4096 := by
  rw [BitVec.toNat_and]
  exact Nat.and_two_pow_sub_one_eq_mod _ 12

theorem isPageAligned_iff {a : BitVec 32} : isPageAligned a = true ↔ a.toNat % 4096 = 0 := by
  rw [isPageAligned, beq_iff_eq, ← BitVec.toNat_inj, pageOffset_toNat]
  rfl

theorem frameAddr_toNat (f : Frame) : (frameAddr f).toNat = 4096 * f.toNat := by
  have bound := f.isLt
  rw [frameAddr, BitVec.toNat_shiftLeft, BitVec.toNat_setWidth, Nat.shiftLeft_eq]
  omega

theorem frameAddr_shift (f : Frame) : (frameAddr f >>> 12).toNat = f.toNat := by
  rw [BitVec.toNat_ushiftRight, frameAddr_toNat, Nat.shiftRight_eq_div_pow]
  omega

@[simp] theorem frameOf_frameAddr (f : Frame) : frameOf (frameAddr f) = f := by
  have bound := f.isLt
  apply BitVec.eq_of_toNat_eq
  rw [frameOf, BitVec.toNat_setWidth, frameAddr_shift]
  omega

theorem isPageAligned_frameAddr (f : Frame) : isPageAligned (frameAddr f) = true := by
  rw [isPageAligned_iff, frameAddr_toNat]
  omega

/-- The mask that leaves the address of a page. -/
theorem pageMask_eq (a : BitVec 32) : a &&& 0xFFFFF000 = frameAddr (frameOf a) := by
  apply BitVec.eq_of_getLsbD_eq
  intro i bound
  have mask : (0xFFFFF000 : BitVec 32).getLsbD i = decide (12 ≤ i) := by
    rw [show (0xFFFFF000 : BitVec 32) = BitVec.allOnes 32 <<< 12 by decide,
      BitVec.getLsbD_shiftLeft, BitVec.getLsbD_allOnes]
    by_cases low : i < 12
    · simp [low]
    · have small : i - 12 < 32 := by omega
      simp [low, bound, small]
      omega
  rw [BitVec.getLsbD_and, mask, frameAddr, BitVec.getLsbD_shiftLeft, BitVec.getLsbD_setWidth,
    frameOf, BitVec.getLsbD_setWidth, BitVec.getLsbD_ushiftRight]
  by_cases low : i < 12
  · simp [low]
  · have small : i - 12 < 20 := by omega
    have back : 12 + (i - 12) = i := by omega
    have above : 12 ≤ i := by omega
    have inside : i - 12 < 32 := by omega
    simp only [low, bound, small, back, above, inside, decide_true, decide_false, Bool.true_and,
      Bool.and_true, Bool.not_false]

theorem frameOf_eq_address (e : Entry) : frameOf e = e.address := by
  rw [frameOf, BitVec.setWidth_ushiftRight_eq_extractLsb, Entry.address]

theorem frameAddr_frameOf {a : BitVec 32} (aligned : isPageAligned a = true) :
    frameAddr (frameOf a) = a := by
  have bound := a.isLt
  rw [isPageAligned_iff] at aligned
  apply BitVec.eq_of_toNat_eq
  rw [frameAddr_toNat, frameOf, BitVec.toNat_setWidth, BitVec.toNat_ushiftRight,
    Nat.shiftRight_eq_div_pow]
  omega

namespace PagingState

/-- `virt_to_phys` -/
def virtToPhys (s : PagingState) (vaddr : BitVec 32) : Except Panic (BitVec 32) := do
  let pde ← s.loadWord (pdeAddr vaddr)
  if pde.present then
    let pte ← s.loadWord (pteAddr vaddr)
    if pte.present then .ok ((pte &&& ~~~0xFFF#32) + (vaddr &&& 0xFFF#32))
    else .error (.fmt
      "virtual address %x references invalid page table entry %u in page directory %u"
      [vaddr, (vaddr >>> 12) &&& 0x3FF#32, vaddr >>> 22])
  else .error (.fmt "virtual address %x references invalid page directory entry %u"
    [vaddr, vaddr >>> 22])

/-- The first stores of `page_map` to an absent directory entry. -/
def markDirEntry (s : PagingState) (virtualaddr : BitVec 32) : Except Panic PagingState := do
  let s ← s.updateWord (pdeAddr virtualaddr) (·.setPresent true)
  let s ← s.updateWord (pdeAddr virtualaddr) (·.setRw true)
  s.updateWord (pdeAddr virtualaddr) (·.setUser true)

/-- What `page_map` does to an absent directory entry; `alloc` is `paging_structure_alloc`. -/
def newDirEntry (alloc : PagingState → Except Panic (BitVec 32 × PagingState)) (s : PagingState)
    (virtualaddr : BitVec 32) : Except Panic PagingState := do
  let s ← s.markDirEntry virtualaddr
  let (table, s) ← alloc s
  let physaddr ← s.virtToPhys table
  s.updateWord (pdeAddr virtualaddr) (·.setAddress (frameOf physaddr))

/-- What `page_map` does to the entry of the page itself. -/
def setTableEntry (s : PagingState) (physaddr virtualaddr : BitVec 32) (rw user : Bool) :
    Except Panic PagingState := do
  let pte ← s.loadWord (pteAddr virtualaddr)
  if pte.present then
    .error (.fmt ("page table entry already present for virtual address %x " ++
      "(mapped to physical address %x)") [virtualaddr, frameAddr pte.address])
  else
    let s ← s.updateWord (pteAddr virtualaddr) (·.setPresent true)
    let s ← s.updateWord (pteAddr virtualaddr) (·.setRw rw)
    let s ← s.updateWord (pteAddr virtualaddr) (·.setUser user)
    s.updateWord (pteAddr virtualaddr) (·.setAddress (frameOf physaddr))

/-- `page_map`, given `paging_structure_alloc` -/
def pageMapWith (alloc : PagingState → Except Panic (BitVec 32 × PagingState)) (s : PagingState)
    (physaddr virtualaddr : BitVec 32) (rw user : Bool) : Except Panic PagingState := do
  panicIf (!isPageAligned physaddr) "physical address is not page-aligned"
  panicIf (!isPageAligned virtualaddr) "virtual address is not page-aligned"
  panicIf (!s.bitmap.testBit (physaddr >>> 12).toNat)
    "mapping page that is not allocated in page_bitmap"
  let pde ← s.loadWord (pdeAddr virtualaddr)
  if pde.present then s.setTableEntry physaddr virtualaddr rw user
  else
    let s ← newDirEntry alloc s virtualaddr
    s.setTableEntry physaddr virtualaddr rw user

/-- `memset(p, 0, PAGE_SIZE)`, a word at a time -/
def zeroPage (s : PagingState) (p : BitVec 32) : Except Panic PagingState :=
  (List.range 1024).foldlM (fun s i => s.storeWord (p + BitVec.ofNat 32 (4 * i)) 0) s

/-- `paging_structure_alloc` once it has the frame `f` -/
def placeStructure
    (map : PagingState → BitVec 32 → BitVec 32 → Bool → Bool → Except Panic PagingState)
    (s : PagingState) (f : Frame) : Except Panic (BitVec 32 × PagingState) := do
  -- Map it to the next "slot" in the placement heap
  let s ← map s (frameAddr f) s.placementHeap true false
  let s ← s.zeroPage s.placementHeap
  .ok (s.placementHeap, { s with placementHeap := s.placementHeap + 0x1000,
                                 structures := s.placementHeap :: s.structures })

/-- `paging_structure_alloc`, given `page_map` -/
def pagingStructureAllocWith
    (map : PagingState → BitVec 32 → BitVec 32 → Bool → Bool → Except Panic PagingState)
    (s : PagingState) : Except Panic (BitVec 32 × PagingState) := do
  kassert (isPageAligned s.placementHeap) "IS_PAGE_ALIGNED(placement_heap)"
  -- First, allocate a free page
  let (pte, bitmap) ← pageAlloc s.bitmap (some 0)
  match pte with
  | none => .error (.msg "out of memory")
  | some pte => placeStructure map { s with bitmap := bitmap } pte.address

/-- `page_map`, which may call `paging_structure_alloc` down to the given depth. -/
def pageMap : Nat → PagingState → BitVec 32 → BitVec 32 → Bool → Bool → Except Panic PagingState
  | 0 => pageMapWith fun _ => .error .fuel
  | depth + 1 => pageMapWith (pagingStructureAllocWith (pageMap depth))

/-- `paging_structure_alloc` -/
def pagingStructureAlloc (depth : Nat) : PagingState → Except Panic (BitVec 32 × PagingState) :=
  pagingStructureAllocWith (pageMap depth)

/-- `page_unmap` -/
def pageUnmap (s : PagingState) (virtualaddr : BitVec 32) : Except Panic PagingState := do
  panicIf (!isPageAligned virtualaddr) "virtual address is not page-aligned"
  let pde ← s.loadWord (pdeAddr virtualaddr)
  if pde.present then
    let pte ← s.loadWord (pteAddr virtualaddr)
    if pte.present then
      -- It's like it was never there...
      s.storeWord (pteAddr virtualaddr) 0
    else .error (.fmt "page table entry not present for virtual address %x\n" [virtualaddr])
  else .error (.fmt "page directory entry not present for virtual address %x\n" [virtualaddr])

/-! ### What the pieces of `page_map` store -/

variable {s s' : PagingState} {v : BitVec 32} {f : Frame}

theorem SelfMapped.write_dir (selfMap : s.SelfMapped) {i : BitVec 10} (other : i ≠ 1023)
    (w : Entry) : (s.setMem (write s.mem s.dir i w)).SelfMapped := by
  unfold SelfMapped Uses
  rw [setMem_mem, setMem_dir, write_of_index_ne s.mem (Ne.symm other)]
  exact selfMap

theorem SelfMapped.write_table (selfMap : s.SelfMapped) (apart : f ≠ s.dir) (i : BitVec 10)
    (w : Entry) : (s.setMem (write s.mem f i w)).SelfMapped :=
  (uses_write (Ne.symm apart)).mpr selfMap

end PagingState

namespace Entry

/-- A directory entry after the first stores of `page_map`. -/
def marked (old : Entry) : Entry := ((old.setPresent true).setRw true).setUser true

/-- A directory entry that `page_map` has made for the table in frame `f`. -/
def linked (old : Entry) (f : Frame) : Entry := old.marked.setAddress f

/-- The entry that `page_map` makes for a page. -/
def mapped (old : Entry) (physaddr : BitVec 32) (rw user : Bool) : Entry :=
  (((old.setPresent true).setRw rw).setUser user).setAddress (frameOf physaddr)

variable (old : Entry) (physaddr : BitVec 32) (rw user : Bool)

@[simp] theorem present_marked : (marked old).present = true := by simp [marked]
@[simp] theorem present_linked (f : Frame) : (linked old f).present = true := by simp [linked]
@[simp] theorem address_linked (f : Frame) : (linked old f).address = f := by simp [linked]
@[simp] theorem present_mapped : (mapped old physaddr rw user).present = true := by simp [mapped]
@[simp] theorem rw_mapped : (mapped old physaddr rw user).rw = rw := by simp [mapped]
@[simp] theorem user_mapped : (mapped old physaddr rw user).user = user := by simp [mapped]
@[simp] theorem address_mapped : (mapped old physaddr rw user).address = frameOf physaddr := by
  simp [mapped]

end Entry

namespace PagingState

variable {s s' : PagingState} {v : BitVec 32} {f : Frame}

theorem markDirEntry_eq (selfMap : s.SelfMapped) (other : dirIndex v ≠ 1023) :
    s.markDirEntry v = .ok (s.setMem (write s.mem s.dir (dirIndex v)
      (s.mem s.dir (dirIndex v)).marked)) := by
  unfold markDirEntry
  rw [selfMap.updateWord_pde, ok_bind]
  have second := selfMap.write_dir other ((s.mem s.dir (dirIndex v)).setPresent true)
  rw [second.updateWord_pde, ok_bind]
  simp only [setMem_mem, setMem_dir, write_self, write_write, setMem_setMem]
  have third := selfMap.write_dir other (((s.mem s.dir (dirIndex v)).setPresent true).setRw true)
  rw [third.updateWord_pde]
  simp only [setMem_mem, setMem_dir, write_self, write_write, setMem_setMem]
  rfl

/-- The table of a page, once its directory entry is present. -/
structure TableAt (s : PagingState) (v : BitVec 32) (f : Frame) : Prop where
  uses : Uses pagingFormat s.mem s.dir (dirIndex v) f
  apart : f ≠ s.dir

theorem TableAt.write (table : s.TableAt v f) (i : BitVec 10) (w : Entry) :
    (s.setMem (write s.mem f i w)).TableAt v f :=
  ⟨(uses_write (Ne.symm table.apart)).mpr table.uses, table.apart⟩

theorem TableAt.updateWord (table : s.TableAt v f) (selfMap : s.SelfMapped)
    (change : Entry → Entry) : s.updateWord (pteAddr v) change =
      .ok (s.setMem (PageTable.write s.mem f (tableIndex v)
        (change (s.mem f (tableIndex v))))) :=
  selfMap.updateWord_pte table.uses change

theorem setTableEntry_eq (selfMap : s.SelfMapped) (table : s.TableAt v f)
    (absent : (s.mem f (tableIndex v)).present = false) (physaddr : BitVec 32) (rw user : Bool) :
    s.setTableEntry physaddr v rw user = .ok (s.setMem (write s.mem f (tableIndex v)
      ((s.mem f (tableIndex v)).mapped physaddr rw user))) := by
  unfold setTableEntry
  rw [selfMap.loadWord_pte table.uses, ok_bind, absent]
  have step (w : Entry) (change : Entry → Entry) :
      (s.setMem (write s.mem f (tableIndex v) w)).updateWord (pteAddr v) change =
        .ok (s.setMem (write s.mem f (tableIndex v) (change w))) := by
    rw [(table.write _ w).updateWord (selfMap.write_table table.apart _ w)]
    simp only [setMem_mem, write_self, write_write, setMem_setMem]
  simp only [Bool.false_eq_true, if_false, table.updateWord selfMap, ok_bind, step]
  rfl

theorem setTableEntry_present (selfMap : s.SelfMapped) (table : s.TableAt v f)
    (present : (s.mem f (tableIndex v)).present = true) (physaddr : BitVec 32) (rw user : Bool) :
    s.setTableEntry physaddr v rw user =
      .error (.fmt ("page table entry already present for virtual address %x " ++
        "(mapped to physical address %x)")
        [v, frameAddr (s.mem f (tableIndex v)).address]) := by
  unfold setTableEntry
  rw [selfMap.loadWord_pte table.uses, ok_bind, present, if_pos rfl]

/-- `page_map` to an absent entry of a table that is there. -/
theorem setTableEntry_ok_iff (selfMap : s.SelfMapped) (table : s.TableAt v f)
    {physaddr : BitVec 32} {rw user : Bool} :
    s.setTableEntry physaddr v rw user = .ok s' ↔ (s.mem f (tableIndex v)).present = false ∧
      s' = s.setMem (write s.mem f (tableIndex v)
        ((s.mem f (tableIndex v)).mapped physaddr rw user)) := by
  cases present : (s.mem f (tableIndex v)).present with
  | false =>
    rw [setTableEntry_eq selfMap table present, Except.ok.injEq]
    simp [eq_comm]
  | true =>
    rw [setTableEntry_present selfMap table present]
    simp

/-! ### Zeroing a page -/

/-- The words of an aligned page. -/
theorem pageOf_add {p : BitVec 32} (aligned : isPageAligned p = true) {i : Nat} (bound : i < 1024) :
    pageOf (p + BitVec.ofNat 32 (4 * i)) = pageOf p ∧
      (wordIndex (p + BitVec.ofNat 32 (4 * i))).toNat = i := by
  rw [isPageAligned_iff] at aligned
  have size := p.isLt
  have sum : (p + BitVec.ofNat 32 (4 * i)).toNat = p.toNat + 4 * i := by
    rw [BitVec.toNat_add, BitVec.toNat_ofNat]
    omega
  refine ⟨Prod.ext ?_ ?_, ?_⟩
  · apply BitVec.eq_of_toNat_eq
    show (dirIndex _).toNat = (dirIndex p).toNat
    rw [toNat_dirIndex, toNat_dirIndex, sum]
    omega
  · apply BitVec.eq_of_toNat_eq
    show (tableIndex _).toNat = (tableIndex p).toNat
    rw [toNat_tableIndex, toNat_tableIndex, sum]
    omega
  · rw [toNat_wordIndex, sum]
    omega

/-- The frame of a page that is no table is zeroed through the page. -/
theorem zeroPage_eq {p : BitVec 32} (aligned : isPageAligned p = true) {e : Entry}
    (found : s.lookup (pageOf p) = some e) (apart : e.address ≠ s.dir)
    (unused : (s.mem s.dir (dirIndex p)).address ≠ e.address) :
    s.zeroPage p = .ok (s.setMem (fill s.mem e.address 0)) := by
  -- After `n` rounds the first `n` words of the frame are zero.
  have rounds (n : Nat) (bound : n ≤ 1024) :
      (List.range n).foldlM (fun s i => s.storeWord (p + BitVec.ofNat 32 (4 * i)) 0) s =
        .ok (s.setMem fun g j => if g = e.address ∧ j.toNat < n then 0 else s.mem g j) := by
    induction n with
    | zero => simp [setMem, pure, Except.pure]
    | succ n ih =>
      obtain ⟨page, word⟩ := pageOf_add aligned (show n < 1024 by omega)
      rw [List.range_succ, List.foldlM_append, ih (by omega), ok_bind]
      simp only [List.foldlM_cons, List.foldlM_nil]
      have still : (s.setMem fun g j => if g = e.address ∧ j.toNat < n then 0
          else s.mem g j).lookup (pageOf (p + BitVec.ofNat 32 (4 * n))) = some e := by
        rw [page, ← found]
        -- The walk goes through the directory and the table only.
        exact lookup_congr (if_neg fun same => apart same.1.symm)
          (if_neg fun same => unused same.1)
      rw [storeWord_of_lookup still, ok_bind]
      simp only [setMem_mem, setMem_setMem]
      refine congrArg (fun mem => Except.ok (s.setMem mem)) ?_
      funext g j
      have last : j = wordIndex (p + BitVec.ofNat 32 (4 * n)) ↔ j.toNat = n := by
        rw [← BitVec.toNat_inj, word]
      unfold write
      simp only [last, Nat.lt_succ_iff_lt_or_eq]
      grind
  unfold zeroPage
  rw [rounds 1024 (Nat.le_refl _)]
  refine congrArg (fun mem => Except.ok (s.setMem mem)) ?_
  funext g j
  have bound : j.toNat < 1024 := j.isLt
  unfold fill
  simp only [bound, and_true]

/-! ### `virt_to_phys` -/

theorem virtToPhys_of_lookup (selfMap : s.SelfMapped) {e : Entry}
    (found : s.lookup (pageOf v) = some e) :
    s.virtToPhys v = .ok ((e &&& ~~~0xFFF#32) + (v &&& 0xFFF#32)) := by
  obtain ⟨⟨here, -⟩, same, present⟩ := lookup_some found
  have here : (s.mem s.dir (dirIndex v)).present = true := here
  have entry : s.mem (s.mem s.dir (dirIndex v)).address (tableIndex v) = e := same
  have present : e.present = true := present
  have uses : Uses pagingFormat s.mem s.dir (dirIndex v) (s.mem s.dir (dirIndex v)).address :=
    ⟨here, rfl⟩
  unfold virtToPhys
  rw [selfMap.loadWord_pde, ok_bind, if_pos here, selfMap.loadWord_pte uses, ok_bind, entry,
    if_pos present]

theorem virtToPhys_of_none (selfMap : s.SelfMapped) (none : s.lookup (pageOf v) = none) :
    ∃ format args, s.virtToPhys v = .error (.fmt format args) := by
  unfold virtToPhys
  rw [selfMap.loadWord_pde, ok_bind]
  cases present : (s.mem s.dir (dirIndex v)).present with
  | false => exact ⟨_, _, rfl⟩
  | true =>
    have uses : Uses pagingFormat s.mem s.dir (dirIndex v) (s.mem s.dir (dirIndex v)).address :=
      ⟨present, rfl⟩
    rw [if_pos rfl, selfMap.loadWord_pte uses, ok_bind]
    cases table : (s.mem (s.mem s.dir (dirIndex v)).address (tableIndex v)).present with
    | false => exact ⟨_, _, rfl⟩
    | true =>
      have found : s.lookup (pageOf v) = some _ := (lookup_eq_some uses).mpr ⟨table, rfl⟩
      rw [none] at found
      cases found

/-! ### `page_map` -/

/-- What `page_map` asks of its arguments. -/
structure MapAllowed (s : PagingState) (physaddr v : BitVec 32) : Prop where
  physAligned : isPageAligned physaddr = true
  virtAligned : isPageAligned v = true
  allocated : s.bitmap.testBit (physaddr >>> 12).toNat = true

variable {alloc : PagingState → Except Panic (BitVec 32 × PagingState)} {physaddr : BitVec 32}
  {rw user : Bool}

theorem pageMapWith_ok_iff (selfMap : s.SelfMapped) :
    pageMapWith alloc s physaddr v rw user = .ok s' ↔ MapAllowed s physaddr v ∧
      (if (s.mem s.dir (dirIndex v)).present then s.setTableEntry physaddr v rw user
        else newDirEntry alloc s v >>= fun t => t.setTableEntry physaddr v rw user) = .ok s' := by
  unfold pageMapWith
  rw [selfMap.loadWord_pde, panicIf_bind_ok_iff, panicIf_bind_ok_iff, panicIf_bind_ok_iff, ok_bind]
  simp only [Bool.not_eq_false']
  exact ⟨fun ⟨first, second, third, rest⟩ => ⟨⟨first, second, third⟩, rest⟩,
    fun ⟨allowed, rest⟩ => ⟨allowed.1, allowed.2, allowed.3, rest⟩⟩

/-- `page_map` below a directory entry that is there makes one table entry. -/
theorem pageMapWith_table_iff (selfMap : s.SelfMapped) (table : s.TableAt v f) :
    pageMapWith alloc s physaddr v rw user = .ok s' ↔ MapAllowed s physaddr v ∧
      (s.mem f (tableIndex v)).present = false ∧ s' = s.setMem (write s.mem f (tableIndex v)
        ((s.mem f (tableIndex v)).mapped physaddr rw user)) := by
  have here : (s.mem s.dir (dirIndex v)).present = true := table.uses.1
  rw [pageMapWith_ok_iff selfMap, if_pos here, setTableEntry_ok_iff selfMap table]

/-- `page_map` below an absent directory entry makes that entry first. -/
theorem pageMapWith_absent_iff (selfMap : s.SelfMapped)
    (absent : (s.mem s.dir (dirIndex v)).present = false) :
    pageMapWith alloc s physaddr v rw user = .ok s' ↔ MapAllowed s physaddr v ∧
      ∃ t, newDirEntry alloc s v = .ok t ∧ t.setTableEntry physaddr v rw user = .ok s' := by
  rw [pageMapWith_ok_iff selfMap, absent, if_neg (by decide), bind_ok_iff]

theorem pageMap_eq (depth : Nat) : ∃ alloc, pageMap depth = pageMapWith alloc := by
  cases depth <;> exact ⟨_, rfl⟩

/-! ### `paging_structure_alloc` -/

/-- The state after `paging_structure_alloc` has put frame `f` into the next slot of the
placement heap, which lies in table `table`. -/
def withStructure (s : PagingState) (table f : Frame) : PagingState where
  mem := fill (write s.mem table (tableIndex s.placementHeap)
    ((s.mem table (tableIndex s.placementHeap)).mapped (frameAddr f) true false)) f 0
  dir := s.dir
  bitmap := s.bitmap.setBit f.toNat
  placementHeap := s.placementHeap + 0x1000
  structures := s.placementHeap :: s.structures

theorem placeStructure_iff {table : Frame} {ret : BitVec 32} (selfMap : s.SelfMapped)
    (slot : s.TableAt s.placementHeap table) (aligned : isPageAligned s.placementHeap = true)
    (apart : f ≠ s.dir) (other : f ≠ table) :
    placeStructure (pageMapWith alloc) { s with bitmap := s.bitmap.setBit f.toNat } f =
        .ok (ret, s') ↔
      (s.mem table (tableIndex s.placementHeap)).present = false ∧ ret = s.placementHeap ∧
        s' = s.withStructure table f := by
  -- The frame is in use now, so `page_map` accepts it.
  let t : PagingState := { s with bitmap := s.bitmap.setBit f.toNat }
  have slot' : t.TableAt s.placementHeap table := ⟨slot.uses, slot.apart⟩
  have selfMap' : t.SelfMapped := selfMap
  have allowed : t.MapAllowed (frameAddr f) s.placementHeap :=
    ⟨isPageAligned_frameAddr f, aligned, by rw [frameAddr_shift]; exact s.bitmap.testBit_setBit_self _⟩
  let e := (s.mem table (tableIndex s.placementHeap)).mapped (frameAddr f) true false
  have zeroed : (t.setMem (write s.mem table (tableIndex s.placementHeap) e)).zeroPage
      s.placementHeap = .ok (t.setMem (fill (write s.mem table (tableIndex s.placementHeap) e) f 0)) := by
    have frame : e.address = f := by rw [Entry.address_mapped, frameOf_frameAddr]
    have slot'' := slot'.write (tableIndex s.placementHeap) e
    have found : (t.setMem (write s.mem table (tableIndex s.placementHeap) e)).lookup
        (pageOf s.placementHeap) = some e :=
      (lookup_eq_some slot''.uses).mpr ⟨Entry.present_mapped _ _ _ _, write_self _⟩
    have zeroed := zeroPage_eq aligned found (by rw [frame]; exact apart) fun same =>
      other (frame.symm.trans (same.symm.trans slot''.uses.2))
    rw [frame] at zeroed
    exact zeroed
  have mapping (u : PagingState) : pageMapWith alloc t (frameAddr f) s.placementHeap true false =
      .ok u ↔ (s.mem table (tableIndex s.placementHeap)).present = false ∧
        u = t.setMem (write s.mem table (tableIndex s.placementHeap) e) := by
    rw [pageMapWith_table_iff selfMap' slot']
    simp only [allowed, true_and]
    rfl
  show (pageMapWith alloc t (frameAddr f) s.placementHeap true false >>= fun u =>
    u.zeroPage u.placementHeap >>= fun u => .ok (u.placementHeap, _)) = _ ↔ _
  rw [bind_ok_iff]
  simp only [mapping]
  constructor
  · rintro ⟨u, ⟨absent, rfl⟩, rest⟩
    rw [setMem_placementHeap, zeroed, ok_bind] at rest
    cases rest
    exact ⟨absent, rfl, rfl⟩
  · rintro ⟨absent, rfl, rfl⟩
    refine ⟨_, ⟨absent, rfl⟩, ?_⟩
    rw [setMem_placementHeap, zeroed, ok_bind]
    rfl

/-- `paging_structure_alloc` while the directory entry of the placement heap is there. -/
theorem pagingStructureAlloc_iff {depth : Nat} {table : Frame} {ret : BitVec 32}
    (bound : s.bitmap.wordCount.toNat ≤ 1024) (selfMap : s.SelfMapped)
    (slot : s.TableAt s.placementHeap table)
    (busy : ∀ f : Frame, s.bitmap.testBit f.toNat = false → f ≠ s.dir ∧ f ≠ table) :
    pagingStructureAlloc depth s = .ok (ret, s') ↔ isPageAligned s.placementHeap = true ∧
      (s.mem table (tableIndex s.placementHeap)).present = false ∧ ret = s.placementHeap ∧
      ∃ f : Frame, IsLeast s.bitmap.clearBits f.toNat ∧ s' = s.withStructure table f := by
  obtain ⟨alloc, mapping⟩ := pageMap_eq depth
  unfold pagingStructureAlloc pagingStructureAllocWith
  rw [kassert_bind_ok_iff, bind_ok_iff, mapping]
  constructor
  · rintro ⟨aligned, ⟨_ | pte, bitmap⟩, taken, placed⟩
    · cases placed
    · obtain ⟨least, rfl⟩ := pageAlloc_some bound taken
      have ⟨apart, other⟩ := busy pte.address least.1.2
      obtain ⟨absent, rfl, rfl⟩ := (placeStructure_iff selfMap slot aligned apart other).mp placed
      exact ⟨aligned, absent, rfl, pte.address, least, rfl⟩
  · rintro ⟨aligned, absent, rfl, f, least, rfl⟩
    obtain ⟨pte, taken, rfl⟩ := pageAlloc_of_least bound least 0
    have ⟨apart, other⟩ := busy pte.address least.1.2
    exact ⟨aligned, _, taken, (placeStructure_iff selfMap slot aligned apart other).mpr
      ⟨absent, rfl, rfl⟩⟩

theorem withStructure_mem {table : Frame} {g : Frame} (other : g ≠ table) (apart : g ≠ f)
    (i : BitVec 10) : (s.withStructure table f).mem g i = s.mem g i := by
  show fill (write s.mem table _ _) f 0 g i = _
  rw [fill_of_ne _ apart, write_of_frame_ne _ other]

theorem SelfMapped.withStructure {table : Frame} (selfMap : s.SelfMapped) (slot : table ≠ s.dir)
    (apart : f ≠ s.dir) : (s.withStructure table f).SelfMapped := by
  unfold SelfMapped Uses
  rw [show (s.withStructure table f).dir = s.dir from rfl,
    withStructure_mem (Ne.symm slot) (Ne.symm apart)]
  exact selfMap

/-- The new page is mapped by the slot it was put into. -/
theorem withStructure_lookup {table : Frame} (slot : s.TableAt s.placementHeap table)
    (apart : f ≠ s.dir) (other : f ≠ table) :
    (s.withStructure table f).lookup (pageOf s.placementHeap) =
      some ((s.mem table (tableIndex s.placementHeap)).mapped (frameAddr f) true false) := by
  have uses : Uses pagingFormat (s.withStructure table f).mem s.dir
      (dirIndex s.placementHeap) table := by
    unfold Uses
    rw [withStructure_mem (Ne.symm slot.apart) (Ne.symm apart)]
    exact slot.uses
  refine (lookup_eq_some uses).mpr ⟨Entry.present_mapped _ _ _ _, ?_⟩
  show fill (write s.mem table _ _) f 0 table _ = _
  rw [fill_of_ne _ (Ne.symm other)]
  exact write_self _

/-- What `virt_to_phys` makes of an entry. -/
theorem mapped_base (old : Entry) (aligned : isPageAligned physaddr = true) :
    old.mapped physaddr rw user &&& ~~~0xFFF#32 = physaddr := by
  rw [show ~~~0xFFF#32 = (0xFFFFF000 : BitVec 32) by decide, pageMask_eq, frameOf_eq_address,
    Entry.address_mapped, frameAddr_frameOf aligned]

theorem virtToPhys_withStructure {table : Frame} (selfMap : s.SelfMapped)
    (slot : s.TableAt s.placementHeap table) (aligned : isPageAligned s.placementHeap = true)
    (apart : f ≠ s.dir) (other : f ≠ table) :
    (s.withStructure table f).virtToPhys s.placementHeap = .ok (frameAddr f) := by
  have offset : s.placementHeap &&& 0xFFF#32 = 0#32 := by
    simpa [isPageAligned] using aligned
  rw [virtToPhys_of_lookup (selfMap.withStructure slot.apart apart)
    (withStructure_lookup slot apart other), mapped_base _ (isPageAligned_frameAddr f), offset,
    BitVec.add_zero]

/-- The state after `page_map` has put a table for `v` into frame `f`, mapped by the next
slot of the placement heap. -/
def withTable (s : PagingState) (v : BitVec 32) (table f : Frame) : PagingState :=
  (s.setMem (write s.mem s.dir (dirIndex v) ((s.mem s.dir (dirIndex v)).linked f))).withStructure
    table f

theorem write_dir_withStructure {table : Frame} (slot : table ≠ s.dir) (apart : f ≠ s.dir)
    (i : BitVec 10) (w w' : Entry) :
    ((s.setMem (write s.mem s.dir i w)).withStructure table f).setMem
        (write ((s.setMem (write s.mem s.dir i w)).withStructure table f).mem s.dir i w') =
      (s.setMem (write s.mem s.dir i w')).withStructure table f := by
  unfold withStructure setMem
  simp only [write_of_frame_ne _ slot]
  congr 1
  funext g j
  unfold write fill
  grind

/-- The end of a new directory entry: the address of its table, found through the slot. -/
theorem newDirEntry_link {table : Frame} (selfMap : s.SelfMapped)
    (slot : s.TableAt s.placementHeap table) (aligned : isPageAligned s.placementHeap = true)
    (apart : f ≠ s.dir) (other : f ≠ table) :
    ((s.withStructure table f).virtToPhys s.placementHeap >>= fun physaddr =>
      (s.withStructure table f).updateWord (pdeAddr v) (·.setAddress (frameOf physaddr))) =
    .ok ((s.withStructure table f).setMem (write (s.withStructure table f).mem s.dir (dirIndex v)
      ((s.mem s.dir (dirIndex v)).setAddress f))) := by
  rw [virtToPhys_withStructure selfMap slot aligned apart other, ok_bind, frameOf_frameAddr,
    (selfMap.withStructure slot.apart apart).updateWord_pde]
  rw [show (s.withStructure table f).dir = s.dir from rfl,
    withStructure_mem (Ne.symm slot.apart) (Ne.symm apart)]

/-- A new directory entry while that of the placement heap is there. -/
theorem newDirEntry_iff {depth : Nat} {table : Frame} (bound : s.bitmap.wordCount.toNat ≤ 1024)
    (selfMap : s.SelfMapped) (last : dirIndex v ≠ 1023)
    (slot : s.TableAt s.placementHeap table) (other : dirIndex s.placementHeap ≠ dirIndex v)
    (busy : ∀ f : Frame, s.bitmap.testBit f.toNat = false → f ≠ s.dir ∧ f ≠ table) :
    newDirEntry (pagingStructureAlloc depth) s v = .ok s' ↔
      isPageAligned s.placementHeap = true ∧
      (s.mem table (tableIndex s.placementHeap)).present = false ∧
      ∃ f : Frame, IsLeast s.bitmap.clearBits f.toNat ∧ s' = s.withTable v table f := by
  obtain ⟨t, marking⟩ : ∃ t, t = s.setMem (write s.mem s.dir (dirIndex v)
    (s.mem s.dir (dirIndex v)).marked) := ⟨_, rfl⟩
  have heap : t.placementHeap = s.placementHeap := by rw [marking]; rfl
  have marked : t.SelfMapped := marking ▸ selfMap.write_dir last _
  have slot' : t.TableAt t.placementHeap table := by
    rw [marking]
    refine ⟨?_, slot.apart⟩
    unfold Uses
    rw [setMem_mem, setMem_dir, setMem_placementHeap, write_of_index_ne s.mem other]
    exact slot.uses
  have entry : t.mem table (tableIndex t.placementHeap) =
      s.mem table (tableIndex s.placementHeap) := by
    rw [marking]
    exact write_of_frame_ne s.mem slot.apart
  have bitmap : t.bitmap = s.bitmap := by rw [marking]; rfl
  have dir : t.dir = s.dir := by rw [marking]; rfl
  have allocated (ret : BitVec 32) (u : PagingState) :
      pagingStructureAlloc depth t = .ok (ret, u) ↔ _ :=
    pagingStructureAlloc_iff (bitmap ▸ bound) marked slot' (by rw [bitmap, dir]; exact busy)
  -- The second store to the directory entry replaces the first.
  have linked (f : Frame) (apart : f ≠ s.dir) : (t.withStructure table f).setMem
      (write (t.withStructure table f).mem t.dir (dirIndex v)
        ((t.mem t.dir (dirIndex v)).setAddress f)) = s.withTable v table f := by
    rw [dir, marking, setMem_mem, write_self]
    exact write_dir_withStructure slot.apart apart _ _ _
  unfold newDirEntry
  rw [markDirEntry_eq selfMap last, ok_bind, bind_ok_iff, ← marking]
  constructor
  · rintro ⟨⟨ret, u⟩, returned, rest⟩
    obtain ⟨aligned, absent, rfl, f, least, rfl⟩ := (allocated ret u).mp returned
    have ⟨apart, away⟩ := busy f (bitmap ▸ least.1.2)
    have link := newDirEntry_link (v := v) marked slot' aligned (dir ▸ apart) away
    rw [linked f apart] at link
    refine ⟨heap ▸ aligned, entry ▸ absent, f, bitmap ▸ least, ?_⟩
    exact (Except.ok.inj (link.symm.trans rest)).symm
  · rintro ⟨aligned, absent, f, least, rfl⟩
    have ⟨apart, away⟩ := busy f least.1.2
    have link := newDirEntry_link (v := v) marked slot' (heap ▸ aligned) (dir ▸ apart) away
    rw [linked f apart] at link
    exact ⟨(t.placementHeap, t.withStructure table f), (allocated _ _).mpr
      ⟨heap ▸ aligned, entry ▸ absent, rfl, f, bitmap ▸ least, rfl⟩, link⟩

end PagingState

end Treeos
