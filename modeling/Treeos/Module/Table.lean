import Treeos.Vmm.HeapGrowth

/-!
# The module table

`module_table_init` of `kernel/module.c`. It maps every module that the boot loader has left
in memory to a window of its own, with a blank page behind each.
-/
namespace Treeos

open ByteMemory PageTable PagingState KernelHeap

/-- `MODULES_START_ADDR` -/
def modulesStartAddr : BitVec 32 := 0xE0000000

-- `PAGE_ALIGN_DOWN` and `PAGE_ALIGN_UP`
def pageAlignDown (a : BitVec 32) : BitVec 32 := a &&& -0x1000
def pageAlignUp (a : BitVec 32) : BitVec 32 := (a + (0x1000 - 1)) &&& -0x1000

/-- `strncpy`: it copies `num` bytes, whatever they are. -/
def strncpy (dest : List (BitVec 8)) (m : Memory) (src : BitVec 32) (num : Nat) :
    List (BitVec 8) :=
  (List.range num).map (fun i => m (src + BitVec.ofNat 32 i)) ++ dest.drop num

/-- `struct module` -/
structure ModuleEntry where
  name : List (BitVec 8)
  addr : BitVec 32
  size : BitVec 32

/-- The loop of `module_table_init` that maps the pages of one module. -/
def mapPages (depth : Nat) (s : PagingState) (modStart addr pages : BitVec 32) :
    Except Panic PagingState :=
  (List.range pages.toNat).foldlM (fun s k =>
    s.pageMap depth (modStart + BitVec.ofNat 32 k <<< 12) (addr + BitVec.ofNat 32 k <<< 12) false
      false) s

/-- The entry for the record at `mod`, in a table that `kcalloc` has cleared. -/
def moduleEntry (m : Memory) (mod offset : BitVec 32) : ModuleEntry where
  addr := modulesStartAddr + offset + load32 m mod % 0x1000
  size := load32 m (mod + 4) - load32 m mod
  name :=
    let cmdline := load32 m (mod + 8)
    if cmdline ≠ 0 then strncpy (List.replicate 8 0) m (cmdline + 2) 7 else List.replicate 8 0

/-- The loop of `module_table_init`, with `count` modules to go. -/
def moduleTableFrom (depth : Nat) (m : Memory) :
    Nat → BitVec 32 → BitVec 32 → PagingState → Except Panic (List ModuleEntry × PagingState)
  | 0, _, _, s => .ok ([], s)
  | count + 1, mod, offset, s => do
    kassert (mod ≠ 0) "mod"
    -- Calculate page aligned values for use in page allocation
    let modStart := pageAlignDown (load32 m mod)
    let modEnd := pageAlignUp (load32 m (mod + 4))
    let modSize := modEnd - modStart
    let s ← mapPages depth s modStart (modulesStartAddr + offset) (modSize >>> 12)
    -- Allow for a blank page between modules as a canary
    let (entries, s) ← moduleTableFrom depth m count (mod + 16) (offset + (modSize + 0x1000)) s
    .ok (moduleEntry m mod offset :: entries, s)

/-- What `module_table_init` sets up: `module_table`, what it points to, and
`module_table_size`. -/
structure ModuleTable where
  table : BitVec 32
  entries : List ModuleEntry
  size : BitVec 32

/-- `module_table_init` -/
def moduleTableInit (kcalloc : Kcalloc) (depth : Nat) (m : Memory) (mbi : MultibootInfo)
    (h : KernelHeap) : Except Panic (ModuleTable × KernelHeap) :=
  -- nothing to do
  if mbi.modsCount = 0 then .ok (⟨0, [], 0⟩, h)
  else do
    let (table, h) ← kcalloc h mbi.modsCount 16
    let (entries, s) ← moduleTableFrom depth m mbi.modsCount.toNat mbi.modsAddr 0 h.paging
    .ok (⟨table, entries, mbi.modsCount⟩, { h with paging := s })

/-! ### Aligned addresses -/

theorem pageAlignDown_toNat (a : BitVec 32) : (pageAlignDown a).toNat = 4096 * (a.toNat / 4096) := by
  have bound := a.isLt
  show (a &&& 0xFFFFF000).toNat = _
  rw [pageMask_eq, frameAddr_toNat, frameOf, BitVec.toNat_setWidth, BitVec.toNat_ushiftRight,
    Nat.shiftRight_eq_div_pow]
  omega

theorem pageAlignUp_toNat {a : BitVec 32} (small : a.toNat + 4095 < 2 ^ 32) :
    (pageAlignUp a).toNat = 4096 * ((a.toNat + 4095) / 4096) := by
  have next : (a + (0x1000 - 1)).toNat = a.toNat + 4095 := by
    rw [BitVec.toNat_add]
    exact Nat.mod_eq_of_lt small
  rw [← next]
  exact pageAlignDown_toNat _

theorem ofNat_shift_toNat {k : Nat} (small : k < 2 ^ 20) :
    (BitVec.ofNat 32 k <<< 12).toNat = 4096 * k := by
  rw [BitVec.toNat_shiftLeft, BitVec.toNat_ofNat, Nat.shiftLeft_eq]
  omega

/-! ### Windows -/

-- `mod_size`
def Module.windowSize (mod : Module) : BitVec 32 :=
  pageAlignUp mod.modEnd - pageAlignDown mod.modStart

/-- The boot loader leaves a module below the end of the bitmap's range. -/
structure Module.Fits (mod : Module) : Prop where
  proper : mod.modStart < mod.modEnd
  inside : mod.modEnd.toNat + 2 * 4096 ≤ 4096 * (bitsPerWord * bitmapArraySize)

/-- What the windows of the modules and the pages behind them take. -/
def windowSpace (modules : List Module) : Nat :=
  (modules.map fun mod => mod.windowSize.toNat + 4096).sum

theorem windowSpace_cons (mod : Module) (modules : List Module) :
    windowSpace (mod :: modules) = mod.windowSize.toNat + 4096 + windowSpace modules :=
  List.sum_cons

/-- A module, and the value of `offset` when it is mapped. -/
structure Window where
  module : Module
  offset : BitVec 32

def Window.base (w : Window) : BitVec 32 := modulesStartAddr + w.offset

/-- The windows of the modules, from the given offset on. -/
def windowsFrom : List Module → BitVec 32 → List Window
  | [], _ => []
  | mod :: modules, offset =>
    ⟨mod, offset⟩ :: windowsFrom modules (offset + (mod.windowSize + 0x1000))

/-- The window of the record at `mod`, and those of the records behind it. -/
theorem windowsFrom_succ (m : Memory) (count : Nat) (mod offset : BitVec 32) {w : Window}
    (here : w = ⟨⟨load32 m mod, load32 m (mod + 4)⟩, offset⟩) :
    windowsFrom (modulesFrom m (count + 1) mod) offset =
      w :: windowsFrom (modulesFrom m count (mod + 16))
        (offset + (w.module.windowSize + 0x1000)) := by
  rw [here]
  rfl

theorem modulesFrom_length (m : Memory) (count : Nat) (mod : BitVec 32) :
    (modulesFrom m count mod).length = count := by
  induction count generalizing mod with
  | zero => rfl
  | succ count ih => exact congrArg Nat.succ (ih _)

/-- The pages of a module, and those that its window ends behind. -/
theorem Module.Fits.windowSize_toNat {mod : Module} (fits : mod.Fits) :
    4096 * (mod.modStart.toNat / 4096) + mod.windowSize.toNat =
      4096 * ((mod.modEnd.toNat + 4095) / 4096) := by
  have proper : mod.modStart.toNat < mod.modEnd.toNat := fits.proper
  have inside : mod.modEnd.toNat + 2 * 4096 ≤ 4096 * (32 * 1024) := fits.inside
  have low := pageAlignDown_toNat mod.modStart
  have high : (pageAlignUp mod.modEnd).toNat = _ := pageAlignUp_toNat (by omega)
  have le : pageAlignDown mod.modStart ≤ pageAlignUp mod.modEnd := by
    rw [BitVec.le_def]
    omega
  unfold windowSize
  rw [BitVec.toNat_sub_of_le le]
  omega

/-- A window with the page behind it is in the 256 MiB from `MODULES_START_ADDR` on. -/
structure Window.Placed (w : Window) : Prop where
  fits : w.module.Fits
  aligned : w.offset.toNat % 4096 = 0
  inside : w.offset.toNat + w.module.windowSize.toNat + 4096 ≤ 0x10000000

/-- The window `w'` begins behind the blank page of `w`. -/
def Window.Before (w w' : Window) : Prop :=
  w.offset.toNat + w.module.windowSize.toNat + 4096 ≤ w'.offset.toNat

/-- `offset` grows by the window and the page behind it. -/
theorem nextOffset_toNat (mod : Module) (offset : BitVec 32)
    (inside : offset.toNat + (mod.windowSize.toNat + 4096) ≤ 0x10000000) :
    (offset + (mod.windowSize + 0x1000)).toNat = offset.toNat + (mod.windowSize.toNat + 4096) := by
  have page : (mod.windowSize + 0x1000).toNat = mod.windowSize.toNat + 4096 := by
    rw [BitVec.toNat_add]
    exact Nat.mod_eq_of_lt (show mod.windowSize.toNat + 4096 < 2 ^ 32 by omega)
  rw [BitVec.toNat_add, page]
  omega

theorem windowsFrom_placed {modules : List Module} (offset : BitVec 32)
    (fits : ∀ mod ∈ modules, mod.Fits) (aligned : offset.toNat % 4096 = 0)
    (space : offset.toNat + windowSpace modules ≤ 0x10000000) :
    (∀ w ∈ windowsFrom modules offset, w.Placed ∧ offset.toNat ≤ w.offset.toNat) ∧
      (windowsFrom modules offset).Pairwise Window.Before := by
  induction modules generalizing offset with
  | nil => exact ⟨nofun, .nil⟩
  | cons mod modules ih =>
    have split := windowSpace_cons mod modules
    have first := fits mod List.mem_cons_self
    have whole := first.windowSize_toNat
    have next := nextOffset_toNat mod offset (by omega)
    obtain ⟨placed, apart⟩ := ih (offset + (mod.windowSize + 0x1000))
      (fun mod' member => fits mod' (List.mem_cons_of_mem _ member)) (by omega) (by omega)
    refine ⟨?_, List.pairwise_cons.mpr ⟨fun w member => ?_, apart⟩⟩
    · rintro w (_ | ⟨_, member⟩)
      · exact ⟨⟨first, aligned, show offset.toNat + mod.windowSize.toNat + 4096 ≤ _ by omega⟩,
          Nat.le_refl _⟩
      · exact ⟨(placed w member).1, by have behind := (placed w member).2; omega⟩
    · have behind := (placed w member).2
      show offset.toNat + mod.windowSize.toNat + 4096 ≤ _
      omega

/-! ### The calls of `page_map` -/

/-- A call of `page_map` for a page of the kernel. -/
structure MapCall where
  phys : BitVec 32
  virt : BitVec 32
  rw : Bool

def MapCall.run (depth : Nat) (s : PagingState) (c : MapCall) : Except Panic PagingState :=
  s.pageMap depth c.phys c.virt c.rw false

/-- The call for page `k` of a window. -/
def Window.call (w : Window) (k : Nat) : MapCall where
  phys := pageAlignDown w.module.modStart + BitVec.ofNat 32 k <<< 12
  virt := w.base + BitVec.ofNat 32 k <<< 12
  rw := false

def Window.calls (w : Window) : List MapCall :=
  (List.range (w.module.windowSize >>> 12).toNat).map w.call

theorem Window.Placed.call_toNat {w : Window} (placed : w.Placed) {k : Nat}
    (inside : 4096 * k < w.module.windowSize.toNat) :
    (w.call k).virt.toNat = 0xE0000000 + w.offset.toNat + 4096 * k ∧
      (w.call k).phys.toNat = 4096 * (w.module.modStart.toNat / 4096 + k) := by
  have whole := placed.fits.windowSize_toNat
  have low : w.module.modEnd.toNat + 2 * 4096 ≤ 4096 * (32 * 1024) := placed.fits.inside
  have room := placed.inside
  have page := ofNat_shift_toNat (show k < 2 ^ 20 by omega)
  have base : w.base.toNat = 0xE0000000 + w.offset.toNat := by
    unfold base
    rw [BitVec.toNat_add]
    exact Nat.mod_eq_of_lt (show 0xE0000000 + w.offset.toNat < 2 ^ 32 by omega)
  constructor
  · show (w.base + BitVec.ofNat 32 k <<< 12).toNat = _
    rw [BitVec.toNat_add, base, page]
    omega
  · show (pageAlignDown w.module.modStart + BitVec.ofNat 32 k <<< 12).toNat = _
    rw [BitVec.toNat_add, pageAlignDown_toNat, page]
    omega

theorem Window.calls_eq (w : Window) :
    w.calls = (List.range (w.module.windowSize.toNat / 4096)).map w.call := by
  unfold calls
  rw [BitVec.toNat_ushiftRight, Nat.shiftRight_eq_div_pow]

theorem Window.Placed.mem_calls {w : Window} (placed : w.Placed) {c : MapCall} :
    c ∈ w.calls ↔ ∃ k, 4096 * k < w.module.windowSize.toNat ∧ w.call k = c := by
  have whole := placed.fits.windowSize_toNat
  rw [w.calls_eq, List.mem_map]
  refine exists_congr fun k => and_congr_left fun _ => ?_
  rw [List.mem_range]
  omega

/-- All pages that are mapped differ. -/
theorem windowCalls_nodup {windows : List Window} (placed : ∀ w ∈ windows, w.Placed)
    (apart : windows.Pairwise Window.Before) :
    ((windows.flatMap Window.calls).map fun c => pageOf c.virt).Nodup := by
  have page {c c' : MapCall} (same : pageOf c.virt = pageOf c'.virt) :
      c.virt.toNat / 4096 = c'.virt.toNat / 4096 := pageOf_eq_iff.mp same
  rw [List.map_flatMap, List.nodup_flatMap]
  refine ⟨fun w member => ?_, apart.imp_of_mem fun {w w'} first second behind => ?_⟩
  · rw [w.calls_eq, List.map_map]
    refine List.Nodup.map_on ?_ List.nodup_range
    intro k inside k' inside' same
    rw [List.mem_range] at inside inside'
    have value := ((placed w member).call_toNat (k := k) (by omega)).1
    have value' := ((placed w member).call_toNat (k := k') (by omega)).1
    have equal := page same
    omega
  · intro v here there
    obtain ⟨c, member, rfl⟩ := List.mem_map.mp here
    obtain ⟨c', member', same⟩ := List.mem_map.mp there
    obtain ⟨k, inside, rfl⟩ := (placed w first).mem_calls.mp member
    obtain ⟨k', inside', rfl⟩ := (placed w' second).mem_calls.mp member'
    have value := ((placed w first).call_toNat inside).1
    have value' := ((placed w' second).call_toNat inside').1
    have equal := page same
    unfold Window.Before at behind
    omega

/-! ### Tables that are missing -/

-- the addresses of the windows
def windowPages (windows : List Window) : List (BitVec 32) :=
  (windows.flatMap Window.calls).map MapCall.virt

theorem windowPages_cons (w : Window) (windows : List Window) :
    windowPages (w :: windows) = w.calls.map MapCall.virt ++ windowPages windows := by
  rw [windowPages, List.flatMap_cons, List.map_append]
  rfl

-- the directory entries of the addresses
def dirIndices (addresses : List (BitVec 32)) : Finset (BitVec 10) :=
  (addresses.map dirIndex).toFinset

/-- The directory entries of the addresses that have no table -/
def missingTables (s : PagingState) (addresses : List (BitVec 32)) : Finset (BitVec 10) :=
  (dirIndices addresses).filter fun i => (s.mem s.dir i).present = false

theorem mem_missingTables {s : PagingState} {addresses : List (BitVec 32)} {i : BitVec 10} :
    i ∈ missingTables s addresses ↔
      (∃ v ∈ addresses, dirIndex v = i) ∧ (s.mem s.dir i).present = false := by
  rw [missingTables, Finset.mem_filter, dirIndices, List.mem_toFinset, List.mem_map]

theorem missingTables_card_le (s : PagingState) (addresses : List (BitVec 32)) :
    (missingTables s addresses).card ≤ addresses.length := by
  refine (Finset.card_filter_le _ _).trans ((List.toFinset_card_le _).trans ?_)
  rw [List.length_map]

/-- The entries of the directory that are present, and the one for the page -/
theorem PagingState.PageMapped.present {s s' : PagingState} {v physaddr : BitVec 32}
    {rw user : Bool} (mapped : s.PageMapped physaddr v rw user s') (tables : s.Tables)
    (i : BitVec 10) : (s'.mem s'.dir i).present = true ↔
      i = dirIndex v ∨ (s.mem s.dir i).present = true := by
  obtain ⟨dir, entry⟩ := mapped.dir tables i
  obtain ⟨old, found⟩ := mapped.lookup_self tables
  have new : (s'.mem s'.dir (dirIndex v)).present = true := (lookup_some found).1.1
  rw [dir] at new ⊢
  constructor
  · intro present
    rcases entry with same | ⟨new, -⟩
    · exact .inr (same ▸ present)
    · exact .inl new
  · rintro (rfl | present)
    · exact new
    · rcases entry with same | ⟨-, absent, -⟩
      · rw [same]
        exact present
      · rw [absent] at present
        cases present

/-- A page that has been mapped has its table. -/
theorem PagingState.PageMapped.missing_le {s s' : PagingState} {v physaddr : BitVec 32}
    {rw user : Bool} (mapped : s.PageMapped physaddr v rw user s') (tables : s.Tables)
    (later : List (BitVec 32)) :
    (missingTables s' later).card + (if (s.mem s.dir (dirIndex v)).present then 0 else 1) ≤
      (missingTables s (v :: later)).card := by
  have subset : missingTables s' later ⊆ missingTables s (v :: later) := by
    intro i missing
    obtain ⟨⟨w, member, same⟩, absent⟩ := mem_missingTables.mp missing
    refine mem_missingTables.mpr ⟨⟨w, List.mem_cons_of_mem _ member, same⟩, ?_⟩
    refine Bool.eq_false_iff.mpr fun present => ?_
    rw [(mapped.present tables i).mpr (.inr present)] at absent
    cases absent
  split
  next => exact Finset.card_le_card subset
  next absent =>
    refine Finset.card_lt_card (Finset.ssubset_iff_of_subset subset |>.mpr ⟨dirIndex v, ?_, ?_⟩)
    · exact mem_missingTables.mpr ⟨⟨v, List.mem_cons_self, rfl⟩, Bool.eq_false_iff.mpr absent⟩
    · intro missing
      have new := (mapped.present tables (dirIndex v)).mpr (.inl rfl)
      rw [(mem_missingTables.mp missing).2] at new
      cases new

/-! ### A sequence of calls -/

/-- Each call of `page_map` finds a table for its page, or a slot of the placement heap for a
new one. -/
def HasRoom (depth : Nat) : List MapCall → PagingState → Prop
  | [], _ => True
  | c :: calls, s => s.HasSlot c.virt ∧ ∀ s', c.run depth s = .ok s' → HasRoom depth calls s'

/-- What `page_map` asks for: a frame in use, and a page that is not mapped. -/
structure MapCall.Allowed (s : PagingState) (c : MapCall) : Prop where
  page : CallerPage c.virt
  allowed : s.MapAllowed c.phys c.virt
  unmapped : s.lookup (pageOf c.virt) = none

/-- What a sequence of calls has done. Pages below 4 MiB stay, and every new table takes a frame and
a page of the placement heap. -/
structure CallsDone (s : PagingState) (calls : List MapCall) (s' : PagingState) : Prop where
  space : s'.KernelSpace
  mapped : ∀ c ∈ calls, ∃ e, s'.lookup (pageOf c.virt) = some e ∧ e.address = frameOf c.phys
  other : ∀ v, CallerPage v → (∀ c ∈ calls, pageOf v ≠ pageOf c.virt) →
    s'.lookup (pageOf v) = s.lookup (pageOf v)
  low : ∀ v e, v < 0x400000 → s.lookup (pageOf v) = some e → s'.lookup (pageOf v) = some e
  inUse : ∀ bit, s.bitmap.testBit bit = true → s'.bitmap.testBit bit = true
  frames : ∀ later, s.bitmap.freeCount + (missingTables s' later).card ≤
    s'.bitmap.freeCount + (missingTables s (calls.map MapCall.virt ++ later)).card
  slots : ∀ later, s'.placementHeap.toNat + 4096 * (missingTables s' later).card ≤
    s.placementHeap.toNat + 4096 * (missingTables s (calls.map MapCall.virt ++ later)).card

variable {s s' : PagingState} {depth : Nat}

theorem CallsDone.nil (space : s.KernelSpace) : CallsDone s [] s :=
  ⟨space, nofun, fun _ _ _ => rfl, fun _ _ _ => id, fun _ => id, fun _ => le_rfl, fun _ => le_rfl⟩

/-- A call that has returned -/
theorem MapCall.done {c : MapCall} (space : s.KernelSpace) (page : CallerPage c.virt)
    (returned : c.run depth s = .ok s') : CallsDone s [c] s' := by
  have room := space.placement.pageMap_room page returned
  have inside := room.imp_right fun room => (space.placement.slot_toNat room).1
  have mapped := pageMap_cases space.tables (page.dirIndex_ne 1023 (by decide)) inside returned
  have step : KernelStep s _ s' := .call (.map page returned)
  refine ⟨step.inv space, fun c' member => ?_, fun v own other => ?_, fun v e low found => ?_,
    fun bit used => step.bits space used, fun later => ?_, fun later => ?_⟩
  · rw [List.mem_singleton.mp member]
    obtain ⟨old, found⟩ := mapped.lookup_self space.tables
    exact ⟨_, found, Entry.address_mapped _ _ _ _⟩
  · exact mapped.lookup_other space.placement page room own (other c (List.mem_singleton.mpr rfl))
  · exact mapped.lookup_low space.placement page room low found
  · have count := mapped.freeCount
    have tables : _ ≤ (missingTables s ([c].map MapCall.virt ++ later)).card :=
      mapped.missing_le space.tables later
    omega
  · have heap := mapped.heap
    have tables : _ ≤ (missingTables s ([c].map MapCall.virt ++ later)).card :=
      mapped.missing_le space.tables later
    rw [heap]
    split at tables
    next present =>
      rw [if_pos present]
      omega
    next absent =>
      have next : (s.placementHeap + 0x1000).toNat ≤ s.placementHeap.toNat + 4096 := by
        rw [BitVec.toNat_add]
        exact Nat.mod_le _ _
      rw [if_neg absent]
      omega

/-- Pages that a later call does not map stay as the first has left them. -/
theorem CallsDone.cons {c : MapCall} {calls : List MapCall} {s₁ : PagingState}
    (first : CallsDone s [c] s₁) (rest : CallsDone s₁ calls s') (page : CallerPage c.virt)
    (new : ∀ c' ∈ calls, pageOf c.virt ≠ pageOf c'.virt) : CallsDone s (c :: calls) s' := by
  refine ⟨rest.space, ?_, fun v own other => ?_, fun v e low found => ?_, fun bit used => ?_,
    fun later => ?_, fun later => ?_⟩
  · rintro c' (_ | ⟨_, member⟩)
    · rw [rest.other _ page new]
      exact first.mapped c (List.mem_singleton.mpr rfl)
    · exact rest.mapped c' member
  · have here : ∀ c' ∈ [c], pageOf v ≠ pageOf c'.virt := by
      intro c' member
      exact other c' (List.mem_cons.mpr (.inl (List.mem_singleton.mp member)))
    rw [rest.other v own fun c' member => other c' (List.mem_cons_of_mem _ member)]
    exact first.other v own here
  · exact rest.low v e low (first.low v e low found)
  · exact rest.inUse bit (first.inUse bit used)
  · have before : _ ≤ _ + (missingTables s ((c :: calls).map MapCall.virt ++ later)).card :=
      first.frames (calls.map MapCall.virt ++ later)
    have behind := rest.frames later
    omega
  · have before : _ ≤ _ + 4096 * (missingTables s ((c :: calls).map MapCall.virt ++ later)).card :=
      first.slots (calls.map MapCall.virt ++ later)
    exact (rest.slots later).trans before

/-- Without a table for its page, a call needs a frame. -/
theorem missingTables_pos {v : BitVec 32} (absent : (s.mem s.dir (dirIndex v)).present = false)
    (later : List (BitVec 32)) : 0 < (missingTables s (v :: later)).card :=
  Finset.card_pos.mpr ⟨dirIndex v, mem_missingTables.mpr ⟨⟨v, List.mem_cons_self, rfl⟩, absent⟩⟩

/-- The placement heap has slots for all tables that are missing. -/
theorem hasRoom_of_slots {calls : List MapCall} (space : s.KernelSpace)
    (callers : ∀ c ∈ calls, CallerPage c.virt)
    (slots : s.placementHeap.toNat + 4096 * (missingTables s (calls.map MapCall.virt)).card ≤
      0xC0400000) : HasRoom depth calls s := by
  induction calls generalizing s with
  | nil => trivial
  | cons c calls ih =>
    refine ⟨?_, fun s₁ returned => ?_⟩
    · unfold HasSlot
      cases present : (s.mem s.dir (dirIndex c.virt)).present with
      | true => exact .inl rfl
      | false =>
        have some := missingTables_pos present (calls.map MapCall.virt)
        rw [List.map_cons] at slots
        exact .inr (show s.placementHeap.toNat < 0xC0400000 by omega)
    · have done := MapCall.done space (callers c List.mem_cons_self) returned
      have left := done.slots (calls.map MapCall.virt)
      refine ih done.space (fun c' member => callers c' (List.mem_cons_of_mem _ member)) ?_
      exact left.trans slots

/-- A call that is allowed maps its page, or it finds no frame for a table. -/
theorem MapCall.Allowed.total {c : MapCall} (allowed : c.Allowed s) (space : s.KernelSpace)
    (slot : s.HasSlot c.virt) (depth : Nat) :
    (∃ s₁, c.run (depth + 1) s = .ok s₁) ∨ c.run (depth + 1) s = .error (.msg "out of memory") ∧
      ∀ later, s.bitmap.freeCount < (missingTables s (c.virt :: later)).card := by
  obtain ⟨page, asked, unmapped⟩ := allowed
  have total : (∃ s₁, s.PageMapped c.phys c.virt c.rw false s₁ ∧ c.run (depth + 1) s = .ok s₁) ∨
      c.run (depth + 1) s = .error (.msg "out of memory") ∧
        (s.mem s.dir (dirIndex c.virt)).present = false ∧ s.bitmap.clearBits = ∅ :=
    space.pageMap_total page slot asked unmapped depth
  refine total.imp (fun ⟨s₁, _, returned⟩ => ⟨s₁, returned⟩) fun ⟨stopped, absent, full⟩ => ?_
  refine ⟨stopped, fun later => ?_⟩
  rw [Bitmap.freeCount_eq_zero_iff.mpr full]
  exact missingTables_pos absent later

/-- The calls map their pages, or there are fewer frames than tables that are missing. -/
theorem mapCalls_ends {calls : List MapCall} (space : s.KernelSpace)
    (allowed : ∀ c ∈ calls, c.Allowed s) (distinct : (calls.map fun c => pageOf c.virt).Nodup)
    (room : HasRoom (depth + 1) calls s) :
    Ends (fun e => e = .msg "out of memory" ∧
        s.bitmap.freeCount < (missingTables s (calls.map MapCall.virt)).card)
      (CallsDone s calls) (calls.foldlM (MapCall.run (depth + 1)) s) := by
  induction calls generalizing s with
  | nil => exact .nil space
  | cons c calls ih =>
    obtain ⟨slot, rest⟩ := room
    obtain ⟨new, distinct⟩ := List.nodup_cons.mp distinct
    have first := allowed c List.mem_cons_self
    have different {c' : MapCall} (member : c' ∈ calls) : pageOf c.virt ≠ pageOf c'.virt :=
      fun same => new (List.mem_map.mpr ⟨c', member, same.symm⟩)
    rw [List.foldlM_cons, List.map_cons]
    rcases first.total space slot depth with ⟨s₁, returned⟩ | ⟨full, few⟩
    · have done := MapCall.done space first.page returned
      rw [returned, ok_bind]
      have kept (c' : MapCall) (member : c' ∈ calls) : c'.Allowed s₁ := by
        obtain ⟨page, asked, unmapped⟩ := allowed c' (List.mem_cons_of_mem _ member)
        refine ⟨page, ⟨asked.physAligned, asked.virtAligned, done.inUse _ asked.allocated⟩, ?_⟩
        rw [done.other _ page fun c'' here => ?_, unmapped]
        rw [List.mem_singleton.mp here]
        exact Ne.symm (different member)
      have count : _ ≤ _ + (missingTables s (c.virt :: calls.map MapCall.virt)).card :=
        done.frames (calls.map MapCall.virt)
      refine (ih done.space kept distinct (rest s₁ returned)).imp
        (fun e stopped => ⟨stopped.1, ?_⟩) fun s' later => ?_
      · have fewer := stopped.2
        omega
      · exact done.cons later first.page fun c' member => different member
    · rw [full]
      exact ⟨rfl, few _⟩

/-! ### The loop over the modules -/

/-- The entry of the table for a window. -/
structure Window.Holds (w : Window) (e : ModuleEntry) : Prop where
  addr : e.addr = w.base + w.module.modStart % 0x1000
  size : e.size = w.module.modEnd - w.module.modStart

theorem mapPages_eq (w : Window) : mapPages depth s (pageAlignDown w.module.modStart) w.base
    (w.module.windowSize >>> 12) = w.calls.foldlM (MapCall.run depth) s := by
  unfold mapPages Window.calls
  rw [List.foldlM_map]
  rfl

/-- The loop makes the calls for the windows one after the other. What it asserts of the records,
`preserve_modules` has asserted before. -/
theorem moduleTableFrom_ends {m : Memory} {count : Nat} {mod offset : BitVec 32} {bm bm' : Bitmap}
    (preserved : preserveFrom m count mod bm = .ok bm') {E : Panic → Prop}
    {I : PagingState → Prop} (ends : Ends E I
      (((windowsFrom (modulesFrom m count mod) offset).flatMap Window.calls).foldlM
        (MapCall.run depth) s)) :
    Ends E (fun result => List.Forall₂ Window.Holds
        (windowsFrom (modulesFrom m count mod) offset) result.1 ∧ I result.2)
      (moduleTableFrom depth m count mod offset s) := by
  induction count generalizing mod offset s bm with
  | zero => exact ⟨.nil, ends⟩
  | succ count ih =>
    obtain ⟨w, here⟩ : ∃ w : Window, w = ⟨⟨load32 m mod, load32 m (mod + 4)⟩, offset⟩ := ⟨_, rfl⟩
    have split := windowsFrom_succ m count mod offset here
    rw [split, List.flatMap_cons, List.foldlM_append, ← mapPages_eq] at ends
    rw [split]
    have holds : w.Holds (moduleEntry m mod offset) := by
      rw [here]
      exact ⟨rfl, rfl⟩
    obtain ⟨some, preserved⟩ := kassert_bind_ok_iff.mp preserved
    rw [moduleTableFrom, some]
    subst here
    exact ends.bind_congr fun s₁ later => (ih preserved later).bind fun result done =>
      ⟨.cons holds done.1, done.2⟩

end Treeos
