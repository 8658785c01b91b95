import Treeos.Module.Mapped
import Treeos.Pmm.Accesses

/-!
# Accesses to the frame bitmap while modules are mapped

The accesses of `module_table_init`, those of the heap that it calls included, and for which
memory maps and modules all accesses since `pmm_init` stay inside of the array.
-/
namespace Treeos

open ByteMemory PagingState KernelHeap

/-- The accesses of a loop whose steps may stop it -/
def loopAccesses {σ ι : Type} (step : σ → ι → Except Panic σ)
    (accesses : σ → ι → List BitAccess) : List ι → σ → List BitAccess
  | [], _ => []
  | i :: rest, s => accesses s i ++
    match step s i with
    | .ok s => loopAccesses step accesses rest s
    | .error _ => []

def allocPageAccesses (depth : Nat) (h : KernelHeap) : List BitAccess :=
  newPageAccesses (pageMapAccesses depth) h.paging (h.kheap.base + h.kheap.size)

def allocPagesAccesses (depth : Nat) : Nat → KernelHeap → List BitAccess
  | 0, _ => []
  | pages + 1, h => allocPageAccesses depth h ++
    match h.allocPage depth with
    | .ok h => allocPagesAccesses depth pages h
    | .error _ => []

/-- Loads and stores do not involve the bitmap. -/
def HeapUse.accesses (depth : Nat) (h : KernelHeap) : HeapUse → List BitAccess
  | .request pages => allocPagesAccesses depth pages.toNat h
  | .load _ => []
  | .store _ _ => []

def mapPagesAccesses (depth : Nat) (s : PagingState) (modStart addr pages : BitVec 32) :
    List BitAccess :=
  loopAccesses (fun s k => s.pageMap depth (modStart + BitVec.ofNat 32 k <<< 12)
      (addr + BitVec.ofNat 32 k <<< 12) false false)
    (fun s k => pageMapAccesses depth s (modStart + BitVec.ofNat 32 k <<< 12)
      (addr + BitVec.ofNat 32 k <<< 12)) (List.range pages.toNat) s

def moduleTableFromAccesses (depth : Nat) (m : Memory) :
    Nat → BitVec 32 → BitVec 32 → PagingState → List BitAccess
  | 0, _, _, _ => []
  | count + 1, mod, offset, s =>
    let modStart := pageAlignDown (load32 m mod)
    let modSize := pageAlignUp (load32 m (mod + 4)) - modStart
    mapPagesAccesses depth s modStart (modulesStartAddr + offset) (modSize >>> 12) ++
      match mapPages depth s modStart (modulesStartAddr + offset) (modSize >>> 12) with
      | .ok s => moduleTableFromAccesses depth m count (mod + 16) (offset + (modSize + 0x1000)) s
      | .error _ => []

/-- The accesses of `module_table_init`, where `kcalloc` makes the given uses of the heap -/
def moduleTableInitAccesses (depth : Nat) (m : Memory) (mbi : MultibootInfo)
    (uses : List HeapUse) (h : KernelHeap) : List BitAccess :=
  if mbi.modsCount = 0 then []
  else loopAccesses (HeapUse.run depth) (HeapUse.accesses depth) uses h ++
    match uses.foldlM (HeapUse.run depth) h with
    | .ok h => moduleTableFromAccesses depth m mbi.modsCount.toNat mbi.modsAddr 0 h.paging
    | .error _ => []

/-- The uses of the heap that the `kcalloc` of `module_table_init` makes -/
structure KcallocUses (kcalloc : Kcalloc) (depth : Nat) (mbi : MultibootInfo) (h : KernelHeap)
    (uses : List HeapUse) : Prop where
  own : ∀ v w, .store v w ∈ uses → HeapAddress v
  run : mbi.modsCount ≠ 0 →
    (kcalloc h mbi.modsCount 16).map Prod.snd = uses.foldlM (HeapUse.run depth) h

/-! ### The bitmap that the accesses leave -/

variable {σ ι : Type} {step : σ → ι → Except Panic σ} {accesses : σ → ι → List BitAccess}
variable {depth : Nat} {s s' : PagingState} {h h' : KernelHeap}

theorem loopAccesses_accounts (bitmap : σ → Bitmap)
    (each : ∀ s i s', step s i = .ok s' → bitmap s' = applyAll (bitmap s) (accesses s i))
    {is : List ι} {s s' : σ} (done : is.foldlM step s = .ok s') :
    bitmap s' = applyAll (bitmap s) (loopAccesses step accesses is s) := by
  induction is generalizing s with
  | nil =>
    cases done
    rfl
  | cons i is ih =>
    rw [List.foldlM_cons] at done
    obtain ⟨t, first, rest⟩ := bind_ok_iff.mp done
    rw [loopAccesses, first, applyAll_append, ← each s i t first]
    exact ih rest

theorem allocPage_accesses (done : h.allocPage depth = .ok h') :
    h'.paging.bitmap = applyAll h.paging.bitmap (allocPageAccesses depth h) := by
  obtain ⟨⟨pte, bitmap⟩, taken, done⟩ := bind_ok_iff.mp done
  rw [allocPageAccesses, newPageAccesses, taken, applyAll_append, ← pageAlloc_accesses taken]
  cases pte with
  | none => cases done
  | some pte =>
    obtain ⟨paging, mapped, done⟩ := bind_ok_iff.mp done
    obtain ⟨_, -, done⟩ := bind_ok_iff.mp done
    cases done
    exact pageMap_accesses mapped

theorem allocPages_accesses {pages : Nat} (done : allocPages depth pages h = .ok h') :
    h'.paging.bitmap = applyAll h.paging.bitmap (allocPagesAccesses depth pages h) := by
  induction pages generalizing h with
  | zero =>
    cases done
    rfl
  | succ pages ih =>
    obtain ⟨g, first, rest⟩ := bind_ok_iff.mp done
    rw [allocPagesAccesses, first, applyAll_append, ← allocPage_accesses first]
    exact ih rest

theorem HeapUse.run_accesses {use : HeapUse} (done : use.run depth h = .ok h') :
    h'.paging.bitmap = applyAll h.paging.bitmap (use.accesses depth h) := by
  cases use with
  | request pages =>
    obtain ⟨⟨start, g⟩, allocated, done⟩ := bind_ok_iff.mp done
    cases done
    rw [liballocAlloc] at allocated
    split at allocated
    next zero =>
      cases allocated
      rw [zero]
      rfl
    next =>
      obtain ⟨g, pages, allocated⟩ := bind_ok_iff.mp allocated
      cases allocated
      exact allocPages_accesses pages
  | load v =>
    obtain ⟨_, -, done⟩ := bind_ok_iff.mp done
    cases done
    rfl
  | store v w =>
    obtain ⟨_, stored, done⟩ := bind_ok_iff.mp done
    cases done
    exact storeWord_bitmap stored

theorem mapPages_accesses {modStart addr pages : BitVec 32}
    (done : mapPages depth s modStart addr pages = .ok s') :
    s'.bitmap = applyAll s.bitmap (mapPagesAccesses depth s modStart addr pages) :=
  loopAccesses_accounts PagingState.bitmap (fun _ _ _ mapped => pageMap_accesses mapped) done

theorem moduleTableFrom_accesses {m : Memory} {count : Nat} {mod offset : BitVec 32}
    {entries : List ModuleEntry} (done : moduleTableFrom depth m count mod offset s =
      .ok (entries, s')) :
    s'.bitmap = applyAll s.bitmap (moduleTableFromAccesses depth m count mod offset s) := by
  induction count generalizing mod offset s entries with
  | zero =>
    cases done
    rfl
  | succ count ih =>
    obtain ⟨_, -, done⟩ := bind_ok_iff.mp done
    obtain ⟨t, mapped, done⟩ := bind_ok_iff.mp done
    obtain ⟨⟨others, u⟩, rest, done⟩ := bind_ok_iff.mp done
    cases done
    rw [moduleTableFromAccesses, mapped, applyAll_append, ← mapPages_accesses mapped]
    exact ih rest

/-- The accesses of `module_table_init` account for the bitmap that it leaves. -/
theorem moduleTableInit_accesses {kcalloc : Kcalloc} {m : Memory} {mbi : MultibootInfo}
    {uses : List HeapUse} {table : ModuleTable}
    (calls : (kcalloc h mbi.modsCount 16).map Prod.snd = uses.foldlM (HeapUse.run depth) h)
    (done : moduleTableInit kcalloc depth m mbi h = .ok (table, h')) :
    h'.paging.bitmap =
      applyAll h.paging.bitmap (moduleTableInitAccesses depth m mbi uses h) := by
  rw [moduleTableInit] at done
  rw [moduleTableInitAccesses]
  split at done
  next none =>
    rw [if_pos none]
    cases done
    rfl
  next some =>
    obtain ⟨⟨start, g⟩, allocated, done⟩ := bind_ok_iff.mp done
    obtain ⟨⟨entries, s⟩, mapped, done⟩ := bind_ok_iff.mp done
    cases done
    rw [allocated] at calls
    have ran : uses.foldlM (HeapUse.run depth) h = .ok g := calls.symm
    have heap := loopAccesses_accounts (fun h => h.paging.bitmap)
      (fun _ _ _ ran => HeapUse.run_accesses ran) ran
    rw [if_neg some, ran, applyAll_append, ← heap]
    exact moduleTableFrom_accesses mapped

/-! ### What all accesses have in common -/

/-- A property of the accesses from a bitmap on, which the accesses of `page_map` have for the
frames in `frames`, and those for a new page always. -/
structure AccessRule (depth : Nat) (frames : Set (BitVec 32))
    (rule : Bitmap → List BitAccess → Prop) : Prop where
  nil : ∀ bm, rule bm []
  append : ∀ bm first rest, rule bm first → rule (applyAll bm first) rest → rule bm (first ++ rest)
  pageMap : ∀ (s : PagingState) (physaddr v : BitVec 32), physaddr ∈ frames →
    s.bitmap.wordCount.toNat < bitmapArraySize →
      rule s.bitmap (pageMapAccesses depth s physaddr v)
  newPage : ∀ (s : PagingState) (v : BitVec 32), s.bitmap.wordCount.toNat < bitmapArraySize →
    rule s.bitmap (newPageAccesses (pageMapAccesses depth) s v)

section Rules

variable {frames : Set (BitVec 32)} {rule : Bitmap → List BitAccess → Prop}

/-- Steps that account for the bitmap -/
theorem AccessRule.loop (holds : AccessRule depth frames rule) (bitmap : σ → Bitmap)
    (keeps : ∀ s i s', step s i = .ok s' → bitmap s' = applyAll (bitmap s) (accesses s i))
    {is : List ι} (each : ∀ s, (bitmap s).wordCount.toNat < bitmapArraySize → ∀ i ∈ is,
      rule (bitmap s) (accesses s i)) {s : σ}
    (words : (bitmap s).wordCount.toNat < bitmapArraySize) :
    rule (bitmap s) (loopAccesses step accesses is s) := by
  induction is generalizing s with
  | nil => exact holds.nil _
  | cons i is ih =>
    rw [loopAccesses]
    refine holds.append _ _ _ (each s words i List.mem_cons_self) ?_
    split
    next t done =>
      rw [← keeps s i t done]
      refine ih (fun s words i member => each s words i (List.mem_cons_of_mem _ member)) ?_
      rw [keeps s i t done, applyAll_wordCount]
      exact words
    next => exact holds.nil _

theorem AccessRule.allocPages (holds : AccessRule depth frames rule) (pages : Nat)
    (words : h.paging.bitmap.wordCount.toNat < bitmapArraySize) :
    rule h.paging.bitmap (allocPagesAccesses depth pages h) := by
  induction pages generalizing h with
  | zero => exact holds.nil _
  | succ pages ih =>
    rw [allocPagesAccesses]
    refine holds.append _ _ _ (holds.newPage _ _ words) ?_
    split
    next g done =>
      have same := allocPage_accesses done
      rw [← same]
      refine ih ?_
      rw [same, applyAll_wordCount]
      exact words
    next => exact holds.nil _

theorem AccessRule.heapUse (holds : AccessRule depth frames rule) (use : HeapUse)
    (words : h.paging.bitmap.wordCount.toNat < bitmapArraySize) :
    rule h.paging.bitmap (use.accesses depth h) := by
  cases use with
  | request pages => exact holds.allocPages pages.toNat words
  | load v => exact holds.nil _
  | store v w => exact holds.nil _

theorem AccessRule.mapPages (holds : AccessRule depth frames rule)
    {modStart addr pages : BitVec 32}
    (inside : ∀ k < pages.toNat, modStart + BitVec.ofNat 32 k <<< 12 ∈ frames)
    (words : s.bitmap.wordCount.toNat < bitmapArraySize) :
    rule s.bitmap (mapPagesAccesses depth s modStart addr pages) :=
  holds.loop PagingState.bitmap (fun _ _ _ mapped => pageMap_accesses mapped)
    (fun _ words k member => holds.pageMap _ _ _ (inside k (List.mem_range.mp member)) words) words

/-- Every page of the module is one of the frames. -/
def Module.InFrames (mod : Module) (frames : Set (BitVec 32)) : Prop :=
  ∀ k < (mod.windowSize >>> 12).toNat,
    pageAlignDown mod.modStart + BitVec.ofNat 32 k <<< 12 ∈ frames

theorem AccessRule.moduleTableFrom (holds : AccessRule depth frames rule) {m : Memory}
    {count : Nat} {mod offset : BitVec 32}
    (inside : ∀ module ∈ modulesFrom m count mod, module.InFrames frames)
    (words : s.bitmap.wordCount.toNat < bitmapArraySize) :
    rule s.bitmap (moduleTableFromAccesses depth m count mod offset s) := by
  induction count generalizing mod offset s with
  | zero => exact holds.nil _
  | succ count ih =>
    rw [modulesFrom, List.forall_mem_cons] at inside
    rw [moduleTableFromAccesses]
    refine holds.append _ _ _ (holds.mapPages inside.1 words) ?_
    split
    next t mapped =>
      rw [← mapPages_accesses mapped]
      refine ih inside.2 ?_
      rw [mapPages_accesses mapped, applyAll_wordCount]
      exact words
    next => exact holds.nil _

theorem AccessRule.moduleTableInit (holds : AccessRule depth frames rule) {m : Memory}
    {mbi : MultibootInfo} (uses : List HeapUse)
    (inside : ∀ module ∈ mbi.modules m, module.InFrames frames)
    (words : h.paging.bitmap.wordCount.toNat < bitmapArraySize) :
    rule h.paging.bitmap (moduleTableInitAccesses depth m mbi uses h) := by
  have heap : rule h.paging.bitmap
      (loopAccesses (HeapUse.run depth) (HeapUse.accesses depth) uses h) :=
    holds.loop (fun h => h.paging.bitmap) (fun _ _ _ ran => HeapUse.run_accesses ran)
      (fun _ words use _ => holds.heapUse use words) words
  rw [moduleTableInitAccesses]
  split
  · exact holds.nil _
  refine holds.append _ _ _ heap ?_
  split
  next g ran =>
    have same := loopAccesses_accounts (fun h => h.paging.bitmap)
      (fun _ _ _ ran => HeapUse.run_accesses ran) ran
    rw [← same]
    refine holds.moduleTableFrom inside ?_
    rw [same, applyAll_wordCount]
    exact words
  next => exact holds.nil _

end Rules

/-! ### Bounds of the accesses -/

theorem inArray_rule (depth : Nat) :
    AccessRule depth {p | (p >>> 12).toNat < 32768} fun _ accesses => InArray accesses where
  nil _ := inArray_nil
  append _ _ _ before behind := inArray_append.mpr ⟨before, behind⟩
  pageMap s physaddr v small words := (pageMapAccesses_inArray words).mpr small
  newPage s v words := by
    refine newPageAccesses_inArray words fun t same f small => ?_
    rw [pageMapAccesses_inArray (by rw [same]; exact words), frameAddr_shift]
    exact small

/-- A module whose frames have been reserved inside of the array is mapped with tests inside
of the array. -/
theorem modulePage_lt {modStart modEnd : BitVec 32}
    (reserved : lastPage modStart (modEnd - modStart - 1) < 32768) {k : Nat}
    (inside : k < ((pageAlignUp modEnd - pageAlignDown modStart) >>> 12).toNat) :
    ((pageAlignDown modStart + BitVec.ofNat 32 k <<< 12) >>> 12).toNat < 32768 := by
  have start := pageAlignDown_toNat modStart
  have startBound := modStart.isLt
  have endBound := modEnd.isLt
  unfold lastPage at reserved
  -- the module ends behind its last byte, without a carry
  have length : modEnd.toNat = modStart.toNat + (modEnd - modStart - 1).toNat + 1 := by
    have size := (modEnd - modStart - 1).isLt
    generalize lengthWord : modEnd - modStart - 1 = length at *
    have sum : modEnd = modStart + length + 1 := by
      rw [← lengthWord]
      bv_omega
    rw [sum, BitVec.toNat_add, BitVec.toNat_add]
    have one : (1 : BitVec 32).toNat = 1 := rfl
    omega
  have stop := pageAlignUp_toNat (a := modEnd) (by omega)
  have window : (pageAlignUp modEnd - pageAlignDown modStart).toNat =
      4096 * ((modEnd.toNat + 4095) / 4096) - 4096 * (modStart.toNat / 4096) := by
    rw [BitVec.toNat_sub_of_le (show (pageAlignDown modStart).toNat ≤ _ by rw [start, stop]; omega),
      start, stop]
  rw [BitVec.toNat_ushiftRight, Nat.shiftRight_eq_div_pow, window] at inside
  have offset : (BitVec.ofNat 32 k <<< 12).toNat = 4096 * k := ofNat_shift_toNat (by omega)
  rw [BitVec.toNat_ushiftRight, Nat.shiftRight_eq_div_pow, BitVec.toNat_add, start, offset]
  omega

theorem moduleTableInit_inArray {m : Memory} {mbi : MultibootInfo} (uses : List HeapUse)
    (reserved : ∀ module ∈ mbi.modules m,
      lastPage module.modStart (module.modEnd - module.modStart - 1) < 32768)
    (words : h.paging.bitmap.wordCount.toNat < bitmapArraySize) :
    InArray (moduleTableInitAccesses depth m mbi uses h) :=
  (inArray_rule depth).moduleTableInit uses
    (fun module member _ inside => modulePage_lt (reserved module member) inside) words

/-- From `pmm_init` to the end of `module_table_init`, every access to the bitmap is inside of
its array exactly when each available entry of the memory map and each module keeps the
region functions inside of it. -/
theorem bitmapAccesses_inArray_iff (image : BootImage) (fuel : Nat) (m : Memory)
    (mbi : MultibootInfo) (bits : Nat → BitVec 32) (pmm : PmmState)
    (started : pmmInit fuel image.toKernelImage m mbi bits = .ok pmm) (depth : Nat)
    (uses : List HeapUse) (h : KernelHeap)
    (words : h.paging.bitmap.wordCount = pmm.frames.bitmap.wordCount) :
    (∀ a ∈ pmmInitAccesses fuel image.toKernelImage m mbi ++
        moduleTableInitAccesses depth m mbi uses h, a.bit / 32 < 1024) ↔
      (∀ e ∈ visitedEntries m mbi fuel mbi.mmapAddr, load32 m (e + 20) = 1 →
        lastPage (entryAddr m e) (entryAddr m e) < 32768) ∧
      ∀ module ∈ mbi.modules m,
        lastPage module.modStart (module.modEnd - module.modStart - 1) < 32768 := by
  have small : h.paging.bitmap.wordCount.toNat < bitmapArraySize := by
    rw [words]
    exact pmmInit_wordCount started
  refine inArray_append.trans ?_
  rw [pmmInit_inArray]
  exact and_iff_left_of_imp fun reserved => moduleTableInit_inArray uses reserved.2 small

/-- A `module_table_init` that returns has made uses of the heap. -/
theorem moduleTableInit_uses {s₀ : PagingState} {fuel : Nat} {flag : Bool} {m : Memory}
    {mbi : MultibootInfo} (start : s₀.KernelSpace)
    (unmapped : ∀ v, HeapAddress v → s₀.lookup (pageOf v) = none)
    (behind : s₀.lookup (pageOf (kheapStart + kheapMaxSize)) = none)
    (small : mbi.modsCount.toNat * 16 + 80 < 2 ^ 32) (enough : 3 ≤ fuel)
    {result : ModuleTable × KernelHeap} (returned : moduleTableInit
      (kernelKcalloc (depth + 1) fuel flag) (depth + 1) m mbi (emptyHeap s₀).heap = .ok result) :
    ∃ uses, KcallocUses (kernelKcalloc (depth + 1) fuel flag) (depth + 1) mbi (emptyHeap s₀).heap
      uses := by
  unfold moduleTableInit at returned
  split at returned
  next none => exact ⟨[], nofun, fun some => absurd none some⟩
  next some =>
    obtain ⟨⟨p, h⟩, called, -⟩ := bind_ok_iff.mp returned
    obtain ⟨uses, own, ran, -⟩ :=
      (kernelKcalloc_done start unmapped behind small enough called).uses
    exact ⟨uses, own, fun _ => by rw [called, ran]; rfl⟩

/-- The machine with 8 MiB and one module stays inside of the array. -/
theorem oneModule_inArray : ∃ m pmm table h uses start,
    initBootstrapPaging 1024 smallBoot (fun _ _ => 0) = .ok m ∧
    pmmInit 1 smallImage moduleMemory moduleInfo (fun _ => 0) = .ok pmm ∧
    start = ⟨BootTables.state smallBoot m pmm.frames.bitmap, ⟨kheapStart, 0⟩, []⟩ ∧
    moduleTableInit (kernelKcalloc 1 3 true) 1 moduleMemory moduleInfo start = .ok (table, h) ∧
    KcallocUses (kernelKcalloc 1 3 true) 1 moduleInfo start uses ∧
    ∀ a ∈ pmmInitAccesses 1 smallImage moduleMemory moduleInfo ++
      moduleTableInitAccesses 1 moduleMemory moduleInfo uses start, a.bit / 32 < 1024 := by
  obtain ⟨m, booted, boot⟩ := smallBoot_tables
  obtain ⟨pmm, onArray⟩ := moduleInfo_pmmInit
  have started := pmmInit_of_onArray onArray
  obtain ⟨table, h, returned⟩ := oneModule_returns moduleMemory_modules boot moduleMemory_holds
    (Nat.le_refl 1) (List.mem_singleton_self _) (by decide) started
  have ready := boot.modulesReady started .nil nofun
  obtain ⟨uses, made⟩ := moduleTableInit_uses ready.space (fun v => ready.heap_unmapped)
    ready.behind (by decide) (Nat.le_refl 3) returned
  refine ⟨m, pmm, table, h, uses, _, booted, started, rfl, returned, made, ?_⟩
  refine (bitmapAccesses_inArray_iff smallBoot 1 moduleMemory moduleInfo (fun _ => 0) pmm started 1
    uses ⟨BootTables.state smallBoot m pmm.frames.bitmap, ⟨kheapStart, 0⟩, []⟩ rfl).mpr
      ⟨fun e member _ => ?_, fun mod member => ?_⟩
  · have visited : visitedEntries moduleMemory moduleInfo 1 moduleInfo.mmapAddr = [0x10000] := by
      decide +kernel
    rw [visited, List.mem_singleton] at member
    have address : entryAddr moduleMemory 0x10000 = 0x200000 := by decide +kernel
    rw [member, address]
    decide
  · rw [moduleMemory_modules, List.mem_singleton] at member
    rw [member]
    decide

/-- A machine with 100 MiB, and memory from 64 MiB on. -/
def highInfo : MultibootInfo := { pcInfo with memUpper := 0x18C00, mmapLength := 24 }

def highMemory : Memory := mmapMemory [(0x4000000, 0x2400000)]

/-- `paging_init_region` writes behind the array, and nothing panics. -/
theorem highMemory_outside :
    (∃ pmm, pmmInit 1 smallImage highMemory highInfo (fun _ => 0) = .ok pmm) ∧
      (∀ kcalloc h, moduleTableInit kcalloc 1 highMemory highInfo h = .ok (⟨0, [], 0⟩, h)) ∧
      ¬∀ a ∈ pmmInitAccesses 1 smallImage highMemory highInfo, a.bit / 32 < 1024 := by
  have holds : MmapHolds highMemory (highInfo.mmapAddr + highInfo.mmapLength) highInfo.mmapAddr
      [⟨20, 0x4000000, 0x2400000, 1⟩] := by
    refine ⟨⟨?_, ?_, ?_, ?_⟩, ?_, rfl⟩ <;> decide +kernel
  refine ⟨pmmInit_returns holds (Nat.le_refl 1) smallImage (by decide) (by decide) rfl
    (preserveModules_none rfl), fun _ _ => rfl, fun inside => ?_⟩
  have smallHigh : InArray (pmmInitAccesses 1 smallBoot.toKernelImage highMemory highInfo) ↔ _ :=
    pmmInit_inArray 1
  have low := (smallHigh.mp inside).1 highInfo.mmapAddr
  have visited : visitedEntries highMemory highInfo 1 highInfo.mmapAddr = [highInfo.mmapAddr] := by
    decide +kernel
  have address : entryAddr highMemory highInfo.mmapAddr = 0x4000000 := by decide +kernel
  rw [visited, address] at low
  exact absurd (low List.mem_cons_self holds.1.2.2.2) (by decide)

/-! ### The frames that are taken -/

theorem allocates_rule (depth : Nat) : AccessRule depth Set.univ Allocates where
  nil _ := trivial
  append _ _ _ before behind := allocates_append.mpr ⟨before, behind⟩
  pageMap _ _ _ _ words := pageMapAccesses_allocates words
  newPage s v words := by
    refine newPageAccesses_allocates words fun t same physaddr => ?_
    exact pageMapAccesses_allocates (by rw [same]; exact words)

theorem moduleTableInit_allocates {m : Memory} {mbi : MultibootInfo} (uses : List HeapUse)
    (words : h.paging.bitmap.wordCount.toNat < bitmapArraySize) :
    Allocates h.paging.bitmap (moduleTableInitAccesses depth m mbi uses h) :=
  (allocates_rule depth).moduleTableInit uses (fun _ _ _ _ => Set.mem_univ _) words

end Treeos
