import Treeos.Module.Remap
import Treeos.Pmm.ArrayStores

/-!
# The records of the boot loader

The array of modules and their command lines are read by `module_table_init`, long after
`pmm_init` has decided which frames are free. Which frames are handed out in between, and
whether one of them holds such a record.
-/
namespace Treeos

open ByteMemory PageTable PagingState KernelHeap

/-- The accesses of `tty_remap` and `module_table_init`, which `kmain` calls after `pmm_init` -/
def laterAccesses (depth : Nat) (m : Memory) (mbi : MultibootInfo) (uses : List HeapUse)
    (s : PagingState) : List BitAccess :=
  ttyRemapAccesses depth s ++
    match ttyRemap depth s with
    | .ok s => moduleTableInitAccesses depth m mbi uses ⟨s, ⟨kheapStart, 0⟩, []⟩
    | .error _ => []

/-- `tty_remap` and `module_table_init` one after the other, as `kmain` calls them -/
def laterCalls (depth heapFuel : Nat) (flag : Bool) (m : Memory) (mbi : MultibootInfo)
    (s : PagingState) : Except Panic (ModuleTable × KernelHeap) := do
  let s ← ttyRemap depth s
  moduleTableInit (kernelKcalloc depth heapFuel flag) depth m mbi ⟨s, ⟨kheapStart, 0⟩, []⟩

/-- The uses of the heap that `kcalloc` makes in them -/
def LaterUses (depth heapFuel : Nat) (flag : Bool) (mbi : MultibootInfo) (s : PagingState)
    (uses : List HeapUse) : Prop :=
  ∀ t, ttyRemap depth s = .ok t →
    KcallocUses (kernelKcalloc depth heapFuel flag) depth mbi ⟨t, ⟨kheapStart, 0⟩, []⟩ uses

/-- The pages of the heap, and the tables that the directory does not have at the start -/
def framesNeeded (m : Memory) (mbi : MultibootInfo) : Nat :=
  heapPagesNeeded mbi +
    (dirIndices (ttyAddresses ++ moduleTablePages m mbi) \ {0, 768, 1023}).card

/-! ### The records -/

/-- The bytes of the string at `c`, with its NUL -/
def stringBytes (m : Memory) (c : BitVec 32) : Set (BitVec 32) :=
  {x | ∃ k, x = c + BitVec.ofNat 32 k ∧ ∀ j < k, m (c + BitVec.ofNat 32 j) ≠ 0}

namespace MultibootInfo

variable (mbi : MultibootInfo)

/-- Where the record of a module is -/
def record (i : Nat) : BitVec 32 := mbi.modsAddr + BitVec.ofNat 32 (16 * i)

/-- The bytes of the module array and of the command lines -/
def bootData (m : Memory) : Set (BitVec 32) :=
  {x | ∃ i < mbi.modsCount.toNat, x ∈ Span (mbi.record i) 16 ∨
    load32 m (mbi.record i + 8) ≠ 0 ∧ x ∈ stringBytes m (load32 m (mbi.record i + 8))}

/-- The frames that hold some of them -/
def bootFrames (m : Memory) : Set Nat := {f | ∃ x ∈ mbi.bootData m, x.toNat / 4096 = f}

end MultibootInfo

/-- No frame that was taken holds a record, so the records and the command lines are the same
whatever the frames have been used for. -/
structure BootDataKept (m : Memory) (mbi : MultibootInfo) (taken : List Nat) : Prop where
  apart : ∀ f ∈ taken, f ∉ mbi.bootFrames m
  same : ∀ m' : Memory, (∀ x, x.toNat / 4096 ∉ taken → m' x = m x) →
    mbi.modules m' = mbi.modules m ∧ ∀ x ∈ mbi.bootData m, m' x = m x

/-! ### What is taken -/

variable {depth : Nat} {s s' : PagingState} {m m' : Memory} {mbi : MultibootInfo}

/-- Between `pmm_init` and the end of `module_table_init`, every change of the bitmap is a frame
that `page_alloc` hands out. -/
theorem laterAccesses_allocates (uses : List HeapUse)
    (words : s.bitmap.wordCount.toNat < bitmapArraySize) :
    Allocates s.bitmap (laterAccesses depth m mbi uses s) := by
  have remap : Allocates s.bitmap (ttyRemapAccesses depth s) :=
    (allocates_rule depth).loop PagingState.bitmap (fun _ _ _ mapped => pageMap_accesses mapped)
      (fun _ words _ _ => pageMapAccesses_allocates words) words
  refine allocates_append.mpr ⟨remap, ?_⟩
  split
  next t returned =>
    have after := ttyRemap_accesses returned
    rw [← after]
    refine moduleTableInit_allocates (h := ⟨t, ⟨kheapStart, 0⟩, []⟩) uses ?_
    rw [after, applyAll_wordCount]
    exact words
  next => trivial

/-! ### From the tables of the boot code -/

variable {image : BootImage} {phys : PhysMem} {bitmap : Bitmap} {entries : List MmapEntry}
  {rounds heapFuel : Nat} {flag : Bool} {pmm : PmmState}

theorem BootTables.tabled (boot : BootTables image phys)
    (inUse : KernelInUse image.toKernelImage bitmap) (zero : bitmap.testBit 0 = true) :
    Tabled (BootTables.state image phys bitmap) {0, 768, 1023} := by
  refine ⟨boot.kernelSpace inUse zero, fun i => ?_⟩
  rw [Finset.mem_insert, Finset.mem_insert, Finset.mem_singleton]
  exact boot.present_iff i

theorem BootTables.missingTables (boot : BootTables image phys) (bitmap : Bitmap)
    (addresses : List (BitVec 32)) :
    missingTables (BootTables.state image phys bitmap) addresses =
      dirIndices addresses \ {0, 768, 1023} := by
  ext i
  rw [Finset.mem_sdiff, Treeos.missingTables, Finset.mem_filter, Finset.mem_insert,
    Finset.mem_insert, Finset.mem_singleton, ← boot.present_iff, Bool.not_eq_true]
  rfl

/-- `tty_remap` fills no directory entry but 960, so the heap and the page behind it have no
table. -/
theorem Tabled.heap_unmapped {t : PagingState}
    (tabled : Tabled t ({0, 768, 1023} ∪ dirIndices ttyAddresses)) {v : BitVec 32}
    (low : 0xD0000000 ≤ v.toNat) (high : v.toNat < 0xD0400000) : t.lookup (pageOf v) = none := by
  refine lookup_of_absent (Bool.eq_false_iff.mpr fun present => ?_)
  have member := (tabled.present _).mp present
  have index : (pageOf v).1 = 832 := by
    apply BitVec.eq_of_toNat_eq
    show (dirIndex v).toNat = 832
    rw [toNat_dirIndex]
    omega
  rw [index] at member
  exact absurd member (by decide)

theorem Tabled.unmapped {t : PagingState}
    (tabled : Tabled t ({0, 768, 1023} ∪ dirIndices ttyAddresses)) {v : BitVec 32}
    (heap : HeapAddress v) : t.lookup (pageOf v) = none := by
  have low : 0xD0000000 ≤ v.toNat := heap.low
  have high : v.toNat < 0xD0100000 := heap.high
  exact tabled.heap_unmapped low (by omega)

theorem Tabled.behind {t : PagingState}
    (tabled : Tabled t ({0, 768, 1023} ∪ dirIndices ttyAddresses)) :
    t.lookup (pageOf (kheapStart + kheapMaxSize)) = none :=
  tabled.heap_unmapped (by decide) (by decide)

/-- A run that returns takes what it needs. -/
theorem laterAccesses_length {uses : List HeapUse} {result : ModuleTable × KernelHeap}
    (boot : BootTables image phys) (inUse : KernelInUse image.toKernelImage bitmap)
    (zero : bitmap.testBit 0 = true) (small : mbi.modsCount.toNat * 16 + 80 < 2 ^ 32)
    (enough : 3 ≤ heapFuel)
    (callers : ∀ v ∈ windowPages (windowsFrom (mbi.modules m) 0), CallerPage v)
    (made : LaterUses (depth + 1) heapFuel flag mbi (BootTables.state image phys bitmap) uses)
    (returned : laterCalls (depth + 1) heapFuel flag m mbi (BootTables.state image phys bitmap) =
      .ok result) :
    (takenFrames (laterAccesses (depth + 1) m mbi uses
      (BootTables.state image phys bitmap))).length = framesNeeded m mbi := by
  obtain ⟨t, remapped, done⟩ := bind_ok_iff.mp returned
  obtain ⟨kept, remap⟩ := ttyRemap_taken (boot.tabled inUse zero) remapped
  have mapped := moduleTableInit_taken kept.space (fun v => kept.unmapped) kept.behind kept small
    enough callers (made t remapped) done
  have both := remap.append mapped
  rw [Finset.union_assoc, ← dirIndices_append, Nat.zero_add, TakenFor,
    Finset.union_comm, ← Finset.card_sdiff_add_card] at both
  rw [laterAccesses, remapped, framesNeeded]
  change (takenFrames (_ ++ moduleTableInitAccesses _ m mbi uses (emptyHeap t).heap)).length = _
  omega

theorem laterCalls_uses {result : ModuleTable × KernelHeap}
    (boot : BootTables image phys) (inUse : KernelInUse image.toKernelImage bitmap)
    (zero : bitmap.testBit 0 = true) (small : mbi.modsCount.toNat * 16 + 80 < 2 ^ 32)
    (enough : 3 ≤ heapFuel)
    (returned : laterCalls (depth + 1) heapFuel flag m mbi (BootTables.state image phys bitmap) =
      .ok result) :
    ∃ uses, LaterUses (depth + 1) heapFuel flag mbi (BootTables.state image phys bitmap) uses := by
  obtain ⟨t, remapped, done⟩ := bind_ok_iff.mp returned
  obtain ⟨kept, -⟩ := ttyRemap_taken (boot.tabled inUse zero) remapped
  obtain ⟨uses, made⟩ := moduleTableInit_uses kept.space (fun v => kept.unmapped) kept.behind small
    enough done
  refine ⟨uses, fun t' remapped' => ?_⟩
  obtain rfl : t = t' := Except.ok.inj (remapped.symm.trans remapped')
  exact made

/-! ### When the calls return -/

/-- What the boot loader and the linker promise: modules that fit into the windows, a text buffer
that is no available memory, and slots of the placement heap for all tables. -/
structure BootFits (image : BootImage) (entries : List MmapEntry) (m : Memory)
    (mbi : MultibootInfo) : Prop where
  fits : ∀ mod ∈ mbi.modules m, mod.Fits
  space : windowSpace (mbi.modules m) ≤ 0x10000000
  screen : ∀ page ∈ List.range ttyPages,
    184 + page ∉ freeAfterInit image.toKernelImage entries (mbi.modules m)
  slots : (pagingAllocatorInit image.toKernelImage).toNat +
    4096 * (2 + (dirIndices (windowPages (windowsFrom (mbi.modules m) 0))).card) ≤ 0xC0400000

/-- The pages from the second to the end of the kernel are mapped to themselves. -/
theorem BootTables.lookup_low (boot : BootTables image phys) (bitmap : Bitmap) {v : BitVec 32}
    (low : 4096 ≤ v.toNat) (high : v.toNat < 0x100000) :
    ∃ e, (BootTables.state image phys bitmap).lookup (pageOf v) = some e := by
  have bounds := image.bounds
  have last := image.realKernelEnd_toNat
  have zero : (pageOf v).1 = 0 := by
    apply BitVec.eq_of_toNat_eq
    show (dirIndex v).toNat = 0
    rw [toNat_dirIndex]
    omega
  have index : (tableIndex v).toNat = v.toNat / 4096 := by
    rw [toNat_tableIndex]
    omega
  have present : (phys image.dirFrame (pageOf v).1).present = true := by
    rw [zero, boot.directory, if_pos (.inl rfl), present_bootEntry]
  have table : (phys image.dirFrame (pageOf v).1).address = image.tableFrame := by
    rw [zero, boot.directory, if_pos (.inl rfl), address_bootEntry]
  have same : BitVec.ofNat 32 (4096 * (v.toNat / 4096)) =
      frameAddr (BitVec.ofNat 20 (v.toNat / 4096)) := by
    apply BitVec.eq_of_toNat_eq
    rw [frameAddr_toNat, BitVec.toNat_ofNat, BitVec.toNat_ofNat]
    omega
  have entry : (phys image.tableFrame (tableIndex v)).present = true := by
    rw [boot.table, if_pos (by unfold BootImage.lastPage; omega), index, same, ← bootEntry,
      present_bootEntry]
  exact ⟨_, (lookup_eq_some ⟨present, table⟩).mpr ⟨entry, rfl⟩⟩

theorem BootTables.ttyReady (boot : BootTables image phys) (fits : BootFits image entries m mbi)
    (holds : MmapHolds m (mbi.mmapAddr + mbi.mmapLength) mbi.mmapAddr entries)
    (visits : entries.length ≤ rounds)
    (started : pmmInit rounds image.toKernelImage m mbi (fun _ => 0) = .ok pmm) :
    TtyReady (BootTables.state image phys pmm.frames.bitmap) := by
  obtain ⟨inUse, zero, -⟩ := pmmInit_kernelInUse started
  refine ⟨boot.kernelSpace inUse zero, ?_, fun page inside => ?_, fun page inside => ?_,
    fun v member => ?_⟩
  · have slots := fits.slots
    show (pagingAllocatorInit image.toKernelImage).toNat < 0xC0400000
    omega
  · obtain ⟨address, -, small⟩ := ttyPage_toNat inside
    exact boot.lookup_low pmm.frames.bitmap (by omega) (by omega)
  · have free := (pmmInit_free holds visits started).2
    have used := fits.screen page inside
    rw [freeAfterInit, ← free, Bitmap.mem_free, Bool.not_eq_false] at used
    exact used
  · obtain ⟨c, call, rfl⟩ := List.mem_map.mp (ttyCalls_virt ▸ member)
    exact boot.unmapped _ (ttyCalls_callers c call)

theorem TtyRemapped.modulesReady {t : PagingState} (boot : BootTables image phys)
    (started : pmmInit rounds image.toKernelImage m mbi (fun _ => 0) = .ok pmm)
    (remapped : TtyRemapped (BootTables.state image phys pmm.frames.bitmap) t) :
    ModulesReady (mbi.modules m) t := by
  refine ⟨remapped.space, fun v own => ?_, fun mod member f reserved => ?_⟩
  · rw [remapped.other v own.callerPage fun w member => ?_]
    · exact boot.unmapped _ own.callerPage
    · obtain ⟨c, call, rfl⟩ := List.mem_map.mp (ttyCalls_virt ▸ member)
      obtain ⟨page, inside, rfl⟩ := mem_ttyCalls.mp call
      have high := (ttyPage_toNat inside).2.1
      rw [Ne, pageOf_eq_iff]
      dsimp only
      have below : v.toNat < 0xF0000000 := by
        rcases own with ⟨-, bound⟩ | ⟨-, bound⟩
        · have bound : v.toNat < 0xD0101000 := bound
          omega
        · exact bound
      omega
  · exact remapped.inUse f (pmmInit_modulesInUse started mod member f reserved)

/-- The frames that `module_table_init` needs, when the tables of the boot code and of `tty_remap`
are there. -/
theorem TtyRemapped.frames_lt {t : PagingState} (boot : BootTables image phys) {bitmap : Bitmap}
    (remapped : TtyRemapped (BootTables.state image phys bitmap) t)
    (few : t.bitmap.freeCount < moduleFrames t m mbi) :
    bitmap.freeCount < framesNeeded m mbi := by
  have count := remapped.frames (moduleTablePages m mbi)
  rw [boot.missingTables] at count
  change bitmap.freeCount + _ ≤ _ at count
  unfold moduleFrames at few
  unfold framesNeeded heapPagesNeeded
  unfold moduleTablePages at count ⊢
  split at few
  next => omega
  next some =>
    rw [if_neg some] at count ⊢
    rw [if_neg some]
    omega

/-- The calls return, or there are fewer frames than they need. -/
theorem laterCalls_ends (boot : BootTables image phys) (fits : BootFits image entries m mbi)
    (holds : MmapHolds m (mbi.mmapAddr + mbi.mmapLength) mbi.mmapAddr entries)
    (visits : entries.length ≤ rounds)
    (started : pmmInit rounds image.toKernelImage m mbi (fun _ => 0) = .ok pmm) (depth : Nat)
    (flag : Bool) (enough : 3 ≤ heapFuel) :
    Ends (fun e => e = .msg "out of memory" ∧
        pmm.frames.bitmap.freeCount < framesNeeded m mbi) (fun _ => True)
      (laterCalls (depth + 1) heapFuel flag m mbi
        (BootTables.state image phys pmm.frames.bitmap)) := by
  have remap : Ends (fun e => e = .msg "out of memory" ∧
      pmm.frames.bitmap.freeCount < framesNeeded m mbi)
      (TtyRemapped (BootTables.state image phys pmm.frames.bitmap))
      (ttyRemap (depth + 1) (BootTables.state image phys pmm.frames.bitmap)) := by
    refine (ttyRemap_ends (boot.ttyReady fits holds visits started) depth).imp
      (fun e stopped => ⟨stopped.1, ?_⟩) fun _ => id
    have few : pmm.frames.bitmap.freeCount < _ := stopped.2
    have sub : dirIndices ttyAddresses \ {0, 768, 1023} ⊆
        dirIndices (ttyAddresses ++ moduleTablePages m mbi) \ {0, 768, 1023} := by
      rw [dirIndices_append]
      exact Finset.sdiff_subset_sdiff Finset.subset_union_left subset_rfl
    rw [boot.missingTables] at few
    exact few.trans_le ((Finset.card_le_card sub).trans (Nat.le_add_left _ _))
  refine remap.bind fun t remapped => ?_
  obtain ⟨bm, preserved⟩ := pmmInit_preserved started
  have ready := TtyRemapped.modulesReady boot started remapped
  have inside : StaysInside (kernelKcalloc (depth + 1) heapFuel flag) (depth + 1) m mbi
      (emptyHeap t).heap := by
    refine staysInside_of_slots fits.fits fits.space ready enough ?_
    have slots := remapped.slots (windowPages (windowsFrom (mbi.modules m) 0))
    -- the pages of the text buffer share one table
    have one : (dirIndices ttyAddresses).card = 1 := by decide
    have tables : (dirIndices (ttyAddresses ++ windowPages (windowsFrom (mbi.modules m) 0)) \
        {0, 768, 1023}).card ≤
          1 + (dirIndices (windowPages (windowsFrom (mbi.modules m) 0))).card := by
      refine (Finset.card_le_card Finset.sdiff_subset).trans ?_
      rw [dirIndices_append, ← one]
      exact Finset.card_union_le _ _
    have room := fits.slots
    rw [boot.missingTables] at slots
    change _ ≤ (pagingAllocatorInit image.toKernelImage).toNat + _ at slots
    omega
  have ends := moduleTableInit_ends preserved fits.fits fits.space ready enough inside
  exact ends.imp (fun e stopped => ⟨stopped.1, remapped.frames_lt boot stopped.2⟩)
    fun _ _ => trivial

/-! ### Which records are kept -/

theorem modulesFrom_congr {count : Nat} {mod : BitVec 32}
    (same : ∀ i < count, ∀ x ∈ Span (mod + BitVec.ofNat 32 (16 * i)) 16, m' x = m x) :
    modulesFrom m' count mod = modulesFrom m count mod := by
  induction count generalizing mod with
  | zero => rfl
  | succ count ih =>
    have here := same 0 (Nat.succ_pos count)
    rw [Nat.mul_zero, BitVec.add_zero] at here
    have start : load32 m' mod = load32 m mod :=
      load32_congr fun x inside => here x (span_mono (by decide) inside)
    have stop : load32 m' (mod + 4) = load32 m (mod + 4) :=
      load32_congr fun x inside => here x (span_mono (by decide) (span_shift 4 inside))
    have next (i : Nat) : mod + 16 + BitVec.ofNat 32 (16 * i) =
        mod + BitVec.ofNat 32 (16 * (i + 1)) := by
      rw [Nat.mul_succ, BitVec.ofNat_add, BitVec.add_assoc, BitVec.add_comm 16]
      rfl
    have rest : modulesFrom m' count (mod + 16) = modulesFrom m count (mod + 16) := by
      refine ih fun i bound x inside => same (i + 1) (by omega) x ?_
      rwa [← next]
    rw [modulesFrom, modulesFrom, start, stop, rest]

theorem BootDataKept.of_apart {taken : List Nat} (apart : ∀ f ∈ taken, f ∉ mbi.bootFrames m) :
    BootDataKept m mbi taken := by
  refine ⟨apart, fun m' outside => ?_⟩
  have same : ∀ x ∈ mbi.bootData m, m' x = m x := fun x member =>
    outside x fun inside => apart _ inside ⟨x, member, rfl⟩
  exact ⟨modulesFrom_congr fun i bound x inside => same x ⟨i, bound, .inl inside⟩, same⟩

/-- Of `n` frames that are handed out, none holds a record exactly when each free frame that
holds one has `n` free frames below it. -/
theorem bootDataKept_of_count {entries : List MmapEntry}
    (holds : MmapHolds m (mbi.mmapAddr + mbi.mmapLength) mbi.mmapAddr entries) {fuel : Nat}
    (enough : entries.length ≤ fuel) {image : KernelImage} {pmm : PmmState}
    (started : pmmInit fuel image m mbi (fun _ => 0) = .ok pmm)
    (bitmap : s.bitmap = pmm.frames.bitmap) (uses : List HeapUse) :
    BootDataKept m mbi (takenFrames (laterAccesses depth m mbi uses s)) ↔
      ∀ f ∈ mbi.bootFrames m, f < 32 * ((mbi.pageCount + 31) / 32) →
        f ∈ freeAfterInit image entries (mbi.modules m) →
        (takenFrames (laterAccesses depth m mbi uses s)).length ≤
          {g | g ∈ freeAfterInit image entries (mbi.modules m) ∧ g < f}.encard := by
  have words : s.bitmap.wordCount.toNat < bitmapArraySize := by
    rw [bitmap]
    exact pmmInit_wordCount started
  have clear := pmmInit_clearBits holds enough started
  have allocates : Allocates s.bitmap (laterAccesses depth m mbi uses s) :=
    laterAccesses_allocates uses words
  have takes := allocates.takes
  rw [bitmap] at takes
  -- page_alloc takes the least free frame, so the first ones in order are gone
  have taken (f : Nat) : f ∈ takenFrames (laterAccesses depth m mbi uses s) ↔
      (f < 32 * ((mbi.pageCount + 31) / 32) ∧ f ∈ freeAfterInit image entries (mbi.modules m)) ∧
        {g | g ∈ freeAfterInit image entries (mbi.modules m) ∧ g < f}.encard <
          (takenFrames (laterAccesses depth m mbi uses s)).length := by
    rw [takes.mem_iff, clear]
    refine and_congr_right fun inside => ?_
    have below : {g | g ∈ pmm.frames.bitmap.clearBits ∧ g < f} =
        {g | g ∈ freeAfterInit image entries (mbi.modules m) ∧ g < f} := by
      ext g
      refine and_congr_left fun lower => (clear g).trans (and_iff_right ?_)
      exact Nat.lt_trans lower inside.1
    rw [below]
  constructor
  · intro kept f boot inside free
    by_contra few
    exact kept.apart f ((taken f).mpr ⟨⟨inside, free⟩, lt_of_not_ge few⟩) boot
  · intro enough
    refine .of_apart fun f member boot => ?_
    obtain ⟨⟨inside, free⟩, few⟩ := (taken f).mp member
    exact absurd (enough f boot inside free) (not_le_of_gt few)

/-- In every run of `tty_remap` and `module_table_init` that returns, no frame that `page_alloc`
hands out holds a record, exactly when each free frame that holds one has below it as many free
frames as the record of the boot loader makes them need. They return, or memory is too small for
that, if the modules fit. -/
theorem bootDataKept_iff (image : BootImage) (fuel : Nat) (enough : 1024 ≤ fuel) (m₀ : PhysMem)
    (clean : ∀ i, m₀ image.dirFrame i = 0 ∧ m₀ image.tableFrame i = 0) (m : Memory)
    (mbi : MultibootInfo) (entries : List MmapEntry)
    (holds : MmapHolds m (mbi.mmapAddr + mbi.mmapLength) mbi.mmapAddr entries) (rounds : Nat)
    (visits : entries.length ≤ rounds) (pmm : PmmState)
    (started : pmmInitOnArray rounds image.toKernelImage m mbi (fun _ => 0) = .ok pmm)
    (small : mbi.modsCount.toNat * 16 + 80 < 2 ^ 32)
    (callers : ∀ v ∈ windowPages (windowsFrom (mbi.modules m) 0), CallerPage v)
    (depth heapFuel : Nat) (flag : Bool) (enough' : 3 ≤ heapFuel) :
    ∃ phys, initBootstrapPaging fuel image m₀ = .ok phys ∧
      ∀ s, s = BootTables.state image phys pmm.frames.bitmap →
        (∀ result, laterCalls (depth + 1) heapFuel flag m mbi s = .ok result →
          (∃ uses, LaterUses (depth + 1) heapFuel flag mbi s uses) ∧
          ∀ uses, LaterUses (depth + 1) heapFuel flag mbi s uses →
            (BootDataKept m mbi (takenFrames (laterAccesses (depth + 1) m mbi uses s)) ↔
              ∀ f ∈ mbi.bootFrames m, f < 32 * ((mbi.pageCount + 31) / 32) →
                f ∈ freeAfterInit image.toKernelImage entries (mbi.modules m) →
                framesNeeded m mbi ≤
                  {g | g ∈ freeAfterInit image.toKernelImage entries (mbi.modules m) ∧
                    g < f}.encard)) ∧
        (BootFits image entries m mbi →
          (∃ result, laterCalls (depth + 1) heapFuel flag m mbi s = .ok result) ∨
          laterCalls (depth + 1) heapFuel flag m mbi s = .error (.msg "out of memory") ∧
            s.bitmap.freeCount < framesNeeded m mbi) := by
  have started := pmmInit_of_onArray started
  obtain ⟨phys, returned, boot⟩ := initBootstrapPaging_eq enough clean
  obtain ⟨inUse, zero, -⟩ := pmmInit_kernelInUse started
  refine ⟨phys, returned, fun s start => ⟨fun result done => ?_, fun fits => ?_⟩⟩
  · rw [start] at done ⊢
    refine ⟨laterCalls_uses boot inUse zero small enough' done, fun uses made => ?_⟩
    have count := laterAccesses_length boot inUse zero small enough' callers made done
    have kept : BootDataKept m mbi (takenFrames (laterAccesses (depth + 1) m mbi uses
        (BootTables.state image phys pmm.frames.bitmap))) ↔ _ :=
      bootDataKept_of_count holds visits started rfl uses
    rw [count] at kept
    exact kept
  · rw [start]
    have ends := laterCalls_ends boot fits holds visits started depth flag enough'
    cases done : laterCalls (depth + 1) heapFuel flag m mbi
        (BootTables.state image phys pmm.frames.bitmap) with
    | ok result => exact .inl ⟨result, rfl⟩
    | error e =>
      rw [done] at ends
      obtain ⟨message, few⟩ := ends
      exact .inr ⟨message ▸ rfl, few⟩

/-! ### Two machines -/

section OneModule

-- the machine with 8 MiB and a module of one page, wherever its record is
variable {data : Memory} {mbi : MultibootInfo}

theorem oneModule_callers (modules : mbi.modules data = [⟨0x180000, 0x180234⟩]) :
    ∀ v ∈ windowPages (windowsFrom (mbi.modules data) 0), CallerPage v := by
  rw [oneModule_pages modules]
  intro v member
  rw [List.mem_singleton.mp member]
  exact ⟨by decide, by decide⟩

theorem oneModule_needed (modules : mbi.modules data = [⟨0x180000, 0x180234⟩]) :
    framesNeeded data mbi = 19 := by
  have one := oneModule_count modules
  unfold framesNeeded heapPagesNeeded moduleTablePages
  rw [one, if_neg (by decide), if_neg (by decide), oneModule_pages modules]
  decide

theorem oneModule_bootFits (modules : mbi.modules data = [⟨0x180000, 0x180234⟩])
    {entries : List MmapEntry} (screen : ∀ page ∈ List.range ttyPages,
      184 + page ∉ freeAfterInit smallImage entries (mbi.modules data)) :
    BootFits smallBoot entries data mbi := by
  obtain ⟨fits, space⟩ := oneModule_fits modules
  refine ⟨fits, space, screen, ?_⟩
  rw [oneModule_pages modules]
  decide

theorem oneModule_later (modules : mbi.modules data = [⟨0x180000, 0x180234⟩])
    {entries : List MmapEntry} (screen : ∀ page ∈ List.range ttyPages,
      184 + page ∉ freeAfterInit smallImage entries (mbi.modules data))
    (holds : MmapHolds data (mbi.mmapAddr + mbi.mmapLength) mbi.mmapAddr entries) {fuel : Nat}
    (enough : entries.length ≤ fuel) (member : ⟨20, 0x200000, 0x200000, 1⟩ ∈ entries)
    (large : 1024 ≤ mbi.pageCount) {pmm : PmmState}
    (started : pmmInit fuel smallImage data mbi (fun _ => 0) = .ok pmm) {phys : PhysMem}
    (boot : BootTables smallBoot phys) : ∃ result, laterCalls 1 3 true data mbi
      (BootTables.state smallBoot phys pmm.frames.bitmap) = .ok result := by
  have ends := laterCalls_ends boot (oneModule_bootFits modules screen) holds enough started 0 true
    (Nat.le_refl 3)
  cases done : laterCalls 1 3 true data mbi (BootTables.state smallBoot phys pmm.frames.bitmap) with
  | ok result => exact ⟨result, rfl⟩
  | error e =>
    rw [done] at ends
    have few : pmm.frames.bitmap.freeCount < framesNeeded data mbi := ends.2
    have many : 512 ≤ pmm.frames.bitmap.freeCount := Bitmap.le_freeCount 512 512
      fun f above below => oneModule_free modules holds enough member large started above below
    rw [oneModule_needed modules] at few
    omega

end OneModule

/-- The record at 0x9000 stays as it was, as the memory around it is never freed. -/
theorem oneModule_kept : ∃ m pmm s result uses,
    initBootstrapPaging 1024 smallBoot (fun _ _ => 0) = .ok m ∧
    pmmInitOnArray 1 smallImage moduleMemory moduleInfo (fun _ => 0) = .ok pmm ∧
    s = BootTables.state smallBoot m pmm.frames.bitmap ∧
    laterCalls 1 3 true moduleMemory moduleInfo s = .ok result ∧
    LaterUses 1 3 true moduleInfo s uses ∧
    BootDataKept moduleMemory moduleInfo
      (takenFrames (laterAccesses 1 moduleMemory moduleInfo uses s)) := by
  obtain ⟨pmm, onArray⟩ := moduleInfo_pmmInit
  have started := pmmInit_of_onArray onArray
  have screen : ∀ page ∈ List.range ttyPages, 184 + page ∉
      freeAfterInit smallImage [⟨20, 0x200000, 0x200000, 1⟩] (moduleInfo.modules moduleMemory) := by
    rintro page inside ⟨⟨above | ⟨e, member, -, freed⟩, -⟩, -⟩
    · have bound : 8192 ≤ 184 + page := above
      have small := (ttyPage_toNat inside).2.2
      omega
    · rw [List.mem_singleton.mp member] at freed
      have low : 512 ≤ 184 + page := freed.1
      have small := (ttyPage_toNat inside).2.2
      omega
  have callers := oneModule_callers moduleMemory_modules
  obtain ⟨m, returned, kept⟩ := bootDataKept_iff smallBoot 1024 (Nat.le_refl 1024) (fun _ _ => 0)
    (fun _ => ⟨rfl, rfl⟩) moduleMemory moduleInfo _ moduleMemory_holds 1 (Nat.le_refl 1) pmm onArray
    (by decide) callers 0 3 true (Nat.le_refl 3)
  obtain ⟨m', returned', boot⟩ := smallBoot_tables
  obtain rfl : m = m' := Except.ok.inj (returned.symm.trans returned')
  obtain ⟨result, done⟩ := oneModule_later moduleMemory_modules screen moduleMemory_holds
    (Nat.le_refl 1) (List.mem_singleton_self _) (by decide) started boot
  obtain ⟨⟨uses, made⟩, each⟩ := (kept _ rfl).1 result done
  refine ⟨m, pmm, _, result, uses, returned, onArray, rfl, done, made, ?_⟩
  refine (each uses made).mpr fun f boot _ free => ?_
  obtain ⟨x, ⟨i, one, here⟩, frame⟩ := boot
  obtain rfl : i = 0 := Nat.lt_one_iff.mp one
  have nine : f = 9 := by
    rcases here with inside | ⟨line, -⟩
    · have place : (x - 0x9000).toNat < 16 := inside
      bv_omega
    · exact absurd (by decide +kernel : load32 moduleMemory (moduleInfo.record 0 + 8) = 0) line
  obtain ⟨⟨above | ⟨e, member, -, freed⟩, -⟩, -⟩ := free
  · have bound : 8192 ≤ f := above
    omega
  · rw [List.mem_singleton.mp member] at freed
    have low : 512 ≤ f := freed.1
    omega

/-- The machine with 8 MiB, with memory from 32 KiB on and the module array at its start -/
def lowInfo : MultibootInfo := { moduleInfo with modsAddr := 0x8000, mmapLength := 48 }

def lowEntries : List MmapEntry := [⟨20, 0x8000, 0x98000, 1⟩, ⟨20, 0x200000, 0x200000, 1⟩]

def lowMemory : Memory :=
  store32 (store32 (mmapMemory [(0x8000, 0x98000), (0x200000, 0x200000)]) 0x8000 0x180000) 0x8004
    0x180234

theorem lowMemory_holds : MmapHolds lowMemory (lowInfo.mmapAddr + lowInfo.mmapLength)
    lowInfo.mmapAddr lowEntries := by
  refine ⟨⟨?_, ?_, ?_, ?_⟩, ?_, ⟨?_, ?_, ?_, ?_⟩, ?_, rfl⟩ <;> decide +kernel

theorem lowMemory_modules : lowInfo.modules lowMemory = [⟨0x180000, 0x180234⟩] := by
  have start : load32 lowMemory 0x8000 = 0x180000 := by decide +kernel
  have stop : load32 lowMemory (0x8000 + 4) = 0x180234 := by decide +kernel
  show [(⟨load32 lowMemory 0x8000, load32 lowMemory (0x8000 + 4)⟩ : Module)] = _
  rw [start, stop]

/-- The free frames below 1 MiB are those that `parse_memory_map` frees for the first entry. -/
theorem lowMemory_free {f : Nat} (below : f < 256)
    (free : f ∈ freeAfterInit smallImage lowEntries (lowInfo.modules lowMemory)) :
    8 ≤ f ∧ f ≤ 16 := by
  obtain ⟨⟨above | ⟨e, member, -, freed⟩, -⟩, -⟩ := free
  · have bound : 8192 ≤ f := above
    omega
  · simp only [lowEntries, List.mem_cons, List.not_mem_nil, or_false] at member
    rcases member with rfl | rfl
    · exact freed
    · have low : 512 ≤ f := freed.1
      omega

/-- The first free frame is where the module array is, and `tty_remap` takes it for a table. -/
theorem lowMemory_overwritten : ∃ m pmm s result uses,
    initBootstrapPaging 1024 smallBoot (fun _ _ => 0) = .ok m ∧
    pmmInitOnArray 2 smallImage lowMemory lowInfo (fun _ => 0) = .ok pmm ∧
    s = BootTables.state smallBoot m pmm.frames.bitmap ∧
    laterCalls 1 3 true lowMemory lowInfo s = .ok result ∧
    LaterUses 1 3 true lowInfo s uses ∧
    ¬BootDataKept lowMemory lowInfo (takenFrames (laterAccesses 1 lowMemory lowInfo uses s)) := by
  obtain ⟨pmm, onArray⟩ := oneModule_pmmInit lowMemory_modules rfl rfl (by decide)
    lowMemory_holds (Nat.le_refl 2) ⟨by decide, by decide, by decide⟩
  have started := pmmInit_of_onArray onArray
  obtain ⟨inUse, zero, -⟩ := pmmInit_kernelInUse started
  obtain ⟨m, returned, boot⟩ := smallBoot_tables
  have screen : ∀ page ∈ List.range ttyPages,
      184 + page ∉ freeAfterInit smallImage lowEntries (lowInfo.modules lowMemory) := by
    intro page inside free
    have small := (ttyPage_toNat inside).2.2
    have low := (lowMemory_free (by omega) free).2
    omega
  obtain ⟨result, done⟩ := oneModule_later lowMemory_modules screen lowMemory_holds
    (Nat.le_refl 2) (List.mem_cons_of_mem _ (List.mem_singleton_self _)) (by decide) started boot
  obtain ⟨uses, made⟩ := laterCalls_uses boot inUse zero (by decide) (Nat.le_refl 3) done
  refine ⟨m, pmm, _, result, uses, returned, onArray, rfl, done, made, fun kept => ?_⟩
  have callers := oneModule_callers lowMemory_modules
  have count := laterAccesses_length boot inUse zero (by decide) (Nat.le_refl 3) callers made done
  have record : 8 ∈ lowInfo.bootFrames lowMemory := by
    refine ⟨0x8000, ⟨0, by decide, .inl ?_⟩, rfl⟩
    show ((0x8000 : BitVec 32) - lowInfo.record 0).toNat < 16
    decide
  have free : 8 ∈ freeAfterInit smallImage lowEntries (lowInfo.modules lowMemory) := by
    refine ⟨⟨.inr ⟨_, List.mem_cons_self, rfl, ⟨by decide, by decide⟩⟩, by decide⟩, ?_⟩
    rw [lowMemory_modules]
    rintro (kernel | ⟨mod, member, reserved⟩)
    · exact absurd kernel.1 (by decide)
    · rw [List.mem_singleton.mp member] at reserved
      exact absurd reserved.1 (by decide)
  -- 19 frames are needed, and there is none below the record
  have below := (bootDataKept_of_count lowMemory_holds (Nat.le_refl 2) started rfl uses).mp kept 8
    record (by decide) free
  have none : {g | g ∈ freeAfterInit smallImage lowEntries (lowInfo.modules lowMemory) ∧
      g < 8} = ∅ := by
    refine Set.eq_empty_iff_forall_notMem.mpr fun g ⟨here, less⟩ => ?_
    have low := (lowMemory_free (by omega) here).1
    omega
  rw [count, oneModule_needed lowMemory_modules, none, Set.encard_empty] at below
  exact absurd below (by decide)

end Treeos
