import Treeos.Module.Table
import Treeos.Pmm.ArrayStores
import Treeos.Vmm.KernelCalloc

/-!
# Where the modules are mapped

`module_table_init` stops only when there are not enough frames. When it returns, every byte of a
module is at the address that the table says.
-/
namespace Treeos

open ByteMemory PageTable PagingState KernelHeap

variable {s s' : PagingState} {depth : Nat}

/-! ### What the table says -/

/-- The physical address behind `v`. -/
def PagingState.physical (s : PagingState) (v : BitVec 32) : Option (BitVec 32) :=
  (s.lookup (pageOf v)).map fun e => frameAddr e.address + (v &&& 0xFFF#32)

/-- The pages of an entry. -/
def ModuleEntry.window (e : ModuleEntry) : Set Nat :=
  {a | (pageAlignDown e.addr).toNat ≤ a ∧ a < (pageAlignUp (e.addr + e.size)).toNat}

/-- The table describes the modules: every byte is where its entry says, and windows are
apart, with an unmapped page behind each. -/
structure ModulesMapped (modules : List Module) (entries : List ModuleEntry) (s : PagingState) :
    Prop where
  translated : List.Forall₂ (fun mod e => e.size = mod.modEnd - mod.modStart ∧
    ∀ k < e.size.toNat, s.physical (e.addr + BitVec.ofNat 32 k) =
      some (mod.modStart + BitVec.ofNat 32 k)) modules entries
  disjoint : entries.Pairwise fun e e' => ∀ a ∈ e.window, a ∉ e'.window
  blank : ∀ e ∈ entries, s.lookup (pageOf (pageAlignUp (e.addr + e.size))) = none

/-- Where the entry of a window begins and ends. -/
theorem Window.Holds.toNat {w : Window} {e : ModuleEntry} (holds : w.Holds e)
    (placed : w.Placed) :
    e.addr.toNat = 0xE0000000 + w.offset.toNat + w.module.modStart.toNat % 4096 ∧
    w.module.modStart.toNat + e.size.toNat = w.module.modEnd.toNat ∧
    (pageAlignDown e.addr).toNat = 0xE0000000 + w.offset.toNat ∧
    (pageAlignUp (e.addr + e.size)).toNat =
      0xE0000000 + w.offset.toNat + w.module.windowSize.toNat := by
  have whole := placed.fits.windowSize_toNat
  have proper : w.module.modStart.toNat < w.module.modEnd.toNat := placed.fits.proper
  have low : w.module.modEnd.toNat + 2 * 4096 ≤ 4096 * (32 * 1024) := placed.fits.inside
  have room := placed.inside
  have aligned := placed.aligned
  have base : w.base.toNat = 0xE0000000 + w.offset.toNat := by
    unfold base
    rw [BitVec.toNat_add]
    exact Nat.mod_eq_of_lt (show 0xE0000000 + w.offset.toNat < 2 ^ 32 by omega)
  have rest : (w.module.modStart % 0x1000).toNat = w.module.modStart.toNat % 4096 := rfl
  have addr : e.addr.toNat = 0xE0000000 + w.offset.toNat + w.module.modStart.toNat % 4096 := by
    rw [holds.addr, BitVec.toNat_add, base, rest]
    omega
  have size : w.module.modStart.toNat + e.size.toNat = w.module.modEnd.toNat := by
    rw [holds.size, BitVec.toNat_sub_of_le (BitVec.le_def.mpr proper.le)]
    omega
  have stop : (e.addr + e.size).toNat = e.addr.toNat + e.size.toNat := by
    rw [BitVec.toNat_add]
    omega
  refine ⟨addr, size, ?_, ?_⟩
  · rw [pageAlignDown_toNat]
    omega
  · rw [pageAlignUp_toNat (by omega)]
    omega

/-- Every byte of a module is in a page that was mapped for it. -/
theorem Window.Holds.translated {w : Window} {e : ModuleEntry} (holds : w.Holds e)
    (placed : w.Placed) (mapped : ∀ c ∈ w.calls, ∃ entry, s.lookup (pageOf c.virt) = some entry ∧
      entry.address = frameOf c.phys) {k : Nat} (inside : k < e.size.toNat) :
    s.physical (e.addr + BitVec.ofNat 32 k) = some (w.module.modStart + BitVec.ofNat 32 k) := by
  obtain ⟨addr, size, -, -⟩ := holds.toNat placed
  have whole := placed.fits.windowSize_toNat
  have room := placed.inside
  have aligned := placed.aligned
  have low : w.module.modEnd.toNat + 2 * 4096 ≤ 4096 * (32 * 1024) := placed.fits.inside
  obtain ⟨j, page⟩ : ∃ j, j = (w.module.modStart.toNat % 4096 + k) / 4096 := ⟨_, rfl⟩
  have here : 4096 * j < w.module.windowSize.toNat := by omega
  obtain ⟨virt, phys⟩ := placed.call_toNat here
  have small : (BitVec.ofNat 32 k).toNat = k := by
    rw [BitVec.toNat_ofNat]
    omega
  have value : (e.addr + BitVec.ofNat 32 k).toNat = e.addr.toNat + k := by
    rw [BitVec.toNat_add, small]
    omega
  have same : pageOf (e.addr + BitVec.ofNat 32 k) = pageOf (w.call j).virt := by
    rw [pageOf_eq_iff, value, virt]
    omega
  obtain ⟨entry, found, frame⟩ := mapped _ (placed.mem_calls.mpr ⟨j, here, rfl⟩)
  have base : frameAddr entry.address = (w.call j).phys := by
    rw [frame]
    exact frameAddr_frameOf (isPageAligned_iff.mpr (by omega))
  unfold physical
  rw [same, found, Option.map_some, Option.some.injEq, base]
  apply BitVec.eq_of_toNat_eq
  rw [BitVec.toNat_add, pageOffset_toNat, value, phys, BitVec.toNat_add, small]
  omega

theorem windowsFrom_modules (modules : List Module) (offset : BitVec 32) :
    (windowsFrom modules offset).map Window.module = modules := by
  induction modules generalizing offset with
  | nil => rfl
  | cons mod modules ih => exact congrArg (mod :: ·) (ih _)

theorem exists_window {windows : List Window} {entries : List ModuleEntry}
    (holds : List.Forall₂ Window.Holds windows entries) {e : ModuleEntry} (member : e ∈ entries) :
    ∃ w ∈ windows, w.Holds e := by
  induction holds with
  | nil => cases member
  | cons first _ ih =>
    rcases List.mem_cons.mp member with rfl | later
    · exact ⟨_, List.mem_cons_self, first⟩
    · obtain ⟨w, there, same⟩ := ih later
      exact ⟨w, List.mem_cons_of_mem _ there, same⟩

theorem windows_disjoint {windows : List Window} {entries : List ModuleEntry}
    (holds : List.Forall₂ Window.Holds windows entries) (placed : ∀ w ∈ windows, w.Placed)
    (apart : windows.Pairwise Window.Before) :
    entries.Pairwise fun e e' => ∀ a ∈ e.window, a ∉ e'.window := by
  induction holds with
  | nil => exact .nil
  | @cons w e windows entries first rest ih =>
    obtain ⟨behind, apart⟩ := List.pairwise_cons.mp apart
    refine List.pairwise_cons.mpr ⟨fun e' member a here there => ?_,
      ih (fun w' later => placed w' (List.mem_cons_of_mem _ later)) apart⟩
    obtain ⟨w', later, second⟩ := exists_window rest member
    obtain ⟨-, -, -, stop⟩ := first.toNat (placed w List.mem_cons_self)
    obtain ⟨-, -, start, -⟩ := second.toNat (placed w' (List.mem_cons_of_mem _ later))
    have above : _ ≤ _ := behind w' later
    have high : a < _ := here.2
    have low : _ ≤ a := there.1
    omega

/-- Of two windows one is before the other. -/
theorem windows_order {windows : List Window} (apart : windows.Pairwise Window.Before)
    {w w' : Window} (first : w ∈ windows) (second : w' ∈ windows) :
    w = w' ∨ w.Before w' ∨ w'.Before w := by
  refine List.Pairwise.forall_of_forall_of_flip
    (R := fun w w' : Window => w = w' ∨ w.Before w' ∨ w'.Before w) (fun w _ => .inl rfl) ?_ ?_
    first second
  · exact apart.imp fun before => .inr (.inl before)
  · exact apart.imp fun before => .inr (.inr before)

/-- The page behind a window is in no other. -/
theorem Window.Placed.blank {windows : List Window} (placed : ∀ w ∈ windows, w.Placed)
    (apart : windows.Pairwise Window.Before) {w : Window}
    (member : w ∈ windows) {v : BitVec 32}
    (here : v.toNat = 0xE0000000 + w.offset.toNat + w.module.windowSize.toNat) :
    ∀ c ∈ windows.flatMap Window.calls, pageOf v ≠ pageOf c.virt := by
  intro c call same
  obtain ⟨w', member', call⟩ := List.mem_flatMap.mp call
  obtain ⟨k, inside, rfl⟩ := (placed w' member').mem_calls.mp call
  obtain ⟨virt, -⟩ := (placed w' member').call_toNat inside
  have aligned := (placed w member).aligned
  have aligned' := (placed w' member').aligned
  have whole := (placed w member).fits.windowSize_toNat
  have whole' := (placed w' member').fits.windowSize_toNat
  have order := windows_order apart member member'
  rw [pageOf_eq_iff] at same
  unfold Before at order
  rcases order with rfl | before | behind <;> omega

/-- An address of the windows is one that `page_map` may map. -/
theorem callerPage_window {v : BitVec 32} (low : modulesStartAddr ≤ v) (high : v < 0xF0000000) :
    CallerPage v := by
  have low : 0xE0000000 ≤ v.toNat := low
  have high : v.toNat < 0xF0000000 := high
  constructor
  · show 0xC4000000 ≤ v.toNat
    omega
  · show v.toNat < 0xFFC00000
    omega

theorem CallsDone.modulesMapped {modules : List Module} {windows : List Window}
    {entries : List ModuleEntry} (done : CallsDone s (windows.flatMap Window.calls) s')
    (order : windows.map Window.module = modules) (placed : ∀ w ∈ windows, w.Placed)
    (apart : windows.Pairwise Window.Before)
    (holds : List.Forall₂ Window.Holds windows entries)
    (unmapped : ∀ v, modulesStartAddr ≤ v → v < 0xF0000000 → s.lookup (pageOf v) = none) :
    ModulesMapped modules entries s' := by
  refine ⟨?_, windows_disjoint holds placed apart, fun e member => ?_⟩
  · rw [← order, List.forall₂_map_left_iff]
    have both := (List.forall₂_and_left (p := (· ∈ windows)) (R := Window.Holds) windows
      entries).mpr ⟨fun w member => member, holds⟩
    refine both.imp fun w e ⟨member, entry⟩ => ⟨entry.size, fun k inside => ?_⟩
    refine entry.translated (placed w member) (fun c call => ?_) inside
    exact done.mapped c (List.mem_flatMap.mpr ⟨w, member, call⟩)
  · obtain ⟨w, here, entry⟩ := exists_window holds member
    obtain ⟨-, -, -, stop⟩ := entry.toNat (placed w here)
    have room := (placed w here).inside
    have low : modulesStartAddr ≤ pageAlignUp (e.addr + e.size) := by
      show 0xE0000000 ≤ (pageAlignUp (e.addr + e.size)).toNat
      omega
    have high : pageAlignUp (e.addr + e.size) < 0xF0000000 := by
      show (pageAlignUp (e.addr + e.size)).toNat < 0xF0000000
      omega
    rw [done.other _ (callerPage_window low high) (Window.Placed.blank placed apart here stop)]
    exact unmapped _ low high

/-! ### `module_table_init` -/

/-- The addresses of the kernel heap, with the page behind it, and of the modules. -/
def HeapOrModule (v : BitVec 32) : Prop :=
  kheapStart ≤ v ∧ v < kheapStart + kheapMaxSize + 0x1000 ∨ modulesStartAddr ≤ v ∧ v < 0xF0000000

/-- What `module_table_init` relies on: frames of modules are in use, and nothing is mapped
where it maps. -/
structure ModulesReady (modules : List Module) (s : PagingState) : Prop where
  space : s.KernelSpace
  unmapped : ∀ v, HeapOrModule v → s.lookup (pageOf v) = none
  inUse : ∀ mod ∈ modules, ∀ f ∈ mod.reserved, s.bitmap.testBit f = true

/-- The placement heap stays inside the 4 MiB of directory entry 768. -/
structure StaysInside (kcalloc : Kcalloc) (depth : Nat) (m : Memory) (mbi : MultibootInfo)
    (h : KernelHeap) : Prop where
  heap : h.paging.HasSlot kheapStart
  windows : ∀ table h', kcalloc h mbi.modsCount 16 = .ok (table, h') →
    HasRoom depth ((windowsFrom (mbi.modules m) 0).flatMap Window.calls) h'.paging

/-- `kcalloc` maps none of the windows. -/
theorem HeapGrown.window_unmapped {modules : List Module} {s₀ : PagingState} {h : KernelHeap}
    (inv : HeapGrown s₀ h) (ready : ModulesReady modules s₀) {v : BitVec 32}
    (low : modulesStartAddr ≤ v) (high : v < 0xF0000000) : h.paging.lookup (pageOf v) = none := by
  rw [inv.other v (callerPage_window low high) fun heap => ?_]
  · exact ready.unmapped v (.inr ⟨low, high⟩)
  · have below : v.toNat < 0xD0100000 := heap.high
    have above : 0xE0000000 ≤ v.toNat := low
    omega

theorem HeapGrown.callsAllowed {modules : List Module} {s₀ : PagingState} {h : KernelHeap}
    (inv : HeapGrown s₀ h) (ready : ModulesReady modules s₀) {w : Window} (placed : w.Placed)
    (member : w.module ∈ modules) {c : MapCall} (call : c ∈ w.calls) : c.Allowed h.paging := by
  obtain ⟨leases, leased⟩ := inv.leased
  obtain ⟨k, inside, rfl⟩ := placed.mem_calls.mp call
  obtain ⟨virt, phys⟩ := placed.call_toNat inside
  have whole := placed.fits.windowSize_toNat
  have room := placed.inside
  have aligned := placed.aligned
  have proper : w.module.modStart.toNat < w.module.modEnd.toNat := placed.fits.proper
  have low : modulesStartAddr ≤ (w.call k).virt := by
    show 0xE0000000 ≤ (w.call k).virt.toNat
    omega
  have high : (w.call k).virt < 0xF0000000 := by
    show (w.call k).virt.toNat < 0xF0000000
    omega
  refine ⟨callerPage_window low high, ⟨isPageAligned_iff.mpr (by omega),
    isPageAligned_iff.mpr (by omega), ?_⟩, inv.window_unmapped ready low high⟩
  -- the frame has a byte of the module, so `preserve_modules` has reserved it
  have frame : ((w.call k).phys >>> 12).toNat = w.module.modStart.toNat / 4096 + k := by
    rw [BitVec.toNat_ushiftRight, phys, Nat.shiftRight_eq_div_pow]
    omega
  have meets : FrameMeets (w.module.modStart.toNat / 4096 + k) w.module.modStart.toNat
      w.module.modEnd.toNat := by
    unfold FrameMeets
    omega
  rw [frame]
  refine (leased.bits _).mpr (.inl (ready.inUse _ member _ ?_))
  exact regionPages_of_meets meets (Module.size_toNat placed.fits.proper).ge

theorem ModulesReady.behind {modules : List Module} (ready : ModulesReady modules s) :
    s.lookup (pageOf (kheapStart + kheapMaxSize)) = none :=
  ready.unmapped _ (.inl ⟨by decide, by decide⟩)

theorem ModulesReady.heap_unmapped {modules : List Module} (ready : ModulesReady modules s)
    {v : BitVec 32} (own : HeapAddress v) : s.lookup (pageOf v) = none := by
  have high : v.toNat < 0xD0100000 := own.high
  exact ready.unmapped v (.inl ⟨own.low, show v.toNat < 0xD0101000 by omega⟩)

/-- Each window with the page behind it takes two pages at least. -/
theorem windowSpace_ge {modules : List Module} (fits : ∀ mod ∈ modules, mod.Fits) :
    8192 * modules.length ≤ windowSpace modules := by
  induction modules with
  | nil => exact Nat.zero_le _
  | cons mod modules ih =>
    have split := windowSpace_cons mod modules
    have first := fits mod List.mem_cons_self
    have whole := first.windowSize_toNat
    have proper : mod.modStart.toNat < mod.modEnd.toNat := first.proper
    have others := ih fun mod' member => fits mod' (List.mem_cons_of_mem _ member)
    rw [split, List.length_cons]
    omega

/-- The frames that `module_table_init` needs: for the pages that `kcalloc` asks for, and for the
tables that are missing. -/
def moduleFrames (s : PagingState) (m : Memory) (mbi : MultibootInfo) : Nat :=
  if mbi.modsCount = 0 then 0
  else kcallocPages mbi.modsCount 16 +
    (missingTables s (kheapStart :: windowPages (windowsFrom (mbi.modules m) 0))).card

theorem tableCount_le_missing (s : PagingState) (addresses : List (BitVec 32)) :
    (emptyHeap s).heap.tableCount ≤ (missingTables s (kheapStart :: addresses)).card := by
  unfold KernelHeap.tableCount
  split
  next => exact Nat.zero_le _
  next absent =>
    refine Finset.card_pos.mpr ⟨_, mem_missingTables.mpr ⟨⟨_, List.mem_cons_self, rfl⟩, ?_⟩⟩
    exact Bool.eq_false_iff.mpr absent

/-- The heap takes no table away. -/
theorem HeapGrown.missingTables_subset {h : KernelHeap} (grown : HeapGrown s h)
    (addresses : List (BitVec 32)) :
    missingTables h.paging addresses ⊆ missingTables s addresses := by
  obtain ⟨leases, leased⟩ := grown.leased
  intro i missing
  obtain ⟨address, absent⟩ := mem_missingTables.mp missing
  refine mem_missingTables.mpr ⟨address, Bool.eq_false_iff.mpr fun old => ?_⟩
  rw [leased.kept.2 i old, old] at absent
  cases absent

theorem missingTables_cons (s : PagingState) (v : BitVec 32) (addresses : List (BitVec 32)) :
    missingTables s addresses ⊆ missingTables s (v :: addresses) := by
  intro i missing
  obtain ⟨⟨w, member, same⟩, absent⟩ := mem_missingTables.mp missing
  exact mem_missingTables.mpr ⟨⟨w, List.mem_cons_of_mem _ member, same⟩, absent⟩

/-- A table of the heap that is new is not missing any more. -/
theorem HeapGrown.missingTables_le {h : KernelHeap} (grown : HeapGrown s h)
    (addresses : List (BitVec 32)) :
    (missingTables h.paging addresses).card + (emptyHeap s).heap.tableCount ≤
      (missingTables s (kheapStart :: addresses)).card + h.tableCount := by
  have subset := (grown.missingTables_subset addresses).trans (missingTables_cons s kheapStart _)
  have le := Finset.card_le_card subset
  unfold KernelHeap.tableCount
  split
  next => exact Nat.le_add_right_of_le le
  next absent =>
    split
    next new =>
      refine Finset.card_lt_card
        ((Finset.ssubset_iff_of_subset subset).mpr ⟨dirIndex kheapStart, ?_, ?_⟩)
      · exact mem_missingTables.mpr ⟨⟨_, List.mem_cons_self, rfl⟩, Bool.eq_false_iff.mpr absent⟩
      · intro missing
        rw [(mem_missingTables.mp missing).2] at new
        cases new
    next => exact Nat.add_le_add_right le 1

/-- The heap leaves it to `module_table_init` to map the windows. -/
theorem HeapGrown.windowsAllowed {modules : List Module} {h : KernelHeap} (grown : HeapGrown s h)
    (ready : ModulesReady modules s) (fits : ∀ mod ∈ modules, mod.Fits)
    (space : windowSpace modules ≤ 0x10000000) :
    ∀ c ∈ (windowsFrom modules 0).flatMap Window.calls, c.Allowed h.paging := by
  obtain ⟨placed, -⟩ := windowsFrom_placed 0 fits rfl
    (show 0 + windowSpace modules ≤ _ by omega)
  intro c member
  obtain ⟨w, here, call⟩ := List.mem_flatMap.mp member
  refine grown.callsAllowed ready (placed w here).1 ?_ call
  rw [← windowsFrom_modules modules 0]
  exact List.mem_map_of_mem here

/-- The table with a record of 16 bytes for each module fits into the heap. -/
theorem modulesFit {m : Memory} {mbi : MultibootInfo} (fits : ∀ mod ∈ mbi.modules m, mod.Fits)
    (space : windowSpace (mbi.modules m) ≤ 0x10000000) :
    mbi.modsCount.toNat * (16 : BitVec 32).toNat + 80 < 2 ^ 32 ∧
      kcallocPages mbi.modsCount 16 ≤ 256 := by
  have few := windowSpace_ge fits
  rw [MultibootInfo.modules, modulesFrom_length, ← MultibootInfo.modules] at few
  have small : mbi.modsCount.toNat * (16 : BitVec 32).toNat + 80 < 2 ^ 32 := by
    show mbi.modsCount.toNat * 16 + 80 < 2 ^ 32
    omega
  refine ⟨small, ?_⟩
  rw [kcallocPages_eq small]
  show max 16 ((mbi.modsCount.toNat * 16 + 80 + 4095) / 4096) ≤ 256
  omega

/-- `module_table_init` returns with a table that describes the modules, or there are not enough
frames. -/
theorem moduleTableInit_ends {m : Memory} {mbi : MultibootInfo} {bm bm' : Bitmap} {fuel : Nat}
    {flag : Bool} (preserved : preserveFrom m mbi.modsCount.toNat mbi.modsAddr bm = .ok bm')
    (fits : ∀ mod ∈ mbi.modules m, mod.Fits)
    (space : windowSpace (mbi.modules m) ≤ 0x10000000) (ready : ModulesReady (mbi.modules m) s)
    (enough : 3 ≤ fuel)
    (inside : StaysInside (kernelKcalloc (depth + 1) fuel flag) (depth + 1) m mbi
      (emptyHeap s).heap) :
    Ends (fun e => e = .msg "out of memory" ∧ s.bitmap.freeCount < moduleFrames s m mbi)
      (fun result => ModulesMapped (mbi.modules m) result.1.entries result.2.paging)
      (moduleTableInit (kernelKcalloc (depth + 1) fuel flag) (depth + 1) m mbi
        (emptyHeap s).heap) := by
  unfold moduleTableInit moduleFrames
  split
  next none =>
    have empty : mbi.modules m = [] := by
      unfold MultibootInfo.modules
      rw [none]
      rfl
    rw [empty]
    exact ⟨.nil, .nil, nofun⟩
  next some =>
    obtain ⟨small, pages⟩ := modulesFit fits space
    obtain ⟨placed, apart⟩ := windowsFrom_placed 0 fits rfl
      (show 0 + windowSpace (mbi.modules m) ≤ _ by omega)
    have called : Ends _ _
        (kernelKcalloc (depth + 1) fuel flag (emptyHeap s).heap mbi.modsCount 16) :=
      kernelKcalloc_ends ready.space ⟨inside.heap, ready.behind⟩
        (fun v => ready.heap_unmapped) small enough
    cases returned : kernelKcalloc (depth + 1) fuel flag (emptyHeap s).heap mbi.modsCount 16 with
    | error e =>
      rw [returned] at called
      cases called with
      | noFrames few =>
        exact ⟨rfl, few.trans_le (Nat.add_le_add_left (tableCount_le_missing s _) _)⟩
      | noRoom large =>
        -- the modules are so few that their table fits into the empty heap
        have start : (emptyHeap s).heap.kheap.size.toNat = 0 := rfl
        rw [start] at large
        omega
    | ok result =>
      obtain ⟨table, h'⟩ := result
      rw [returned] at called
      replace called : KcallocDone s (depth + 1) (kcallocPages mbi.modsCount 16)
        (emptyHeap s).heap h' := called
      obtain ⟨leases, leased⟩ := called.grown.leased
      -- the heap has taken none of the addresses of the windows
      have calls := mapCalls_ends leased.space (called.grown.windowsAllowed ready fits space)
        (windowCalls_nodup (fun w member => (placed w member).1) apart)
        (inside.windows table h' returned)
      refine (moduleTableFrom_ends preserved (calls.imp (fun e stopped => ?_) fun _ => id)).bind
        fun result both => ?_
      · have tables := called.grown.missingTables_le (windowPages (windowsFrom (mbi.modules m) 0))
        have frames := called.frames
        have same : (emptyHeap s).heap.paging.bitmap = s.bitmap := rfl
        rw [same] at frames
        have few : h'.paging.bitmap.freeCount < (missingTables h'.paging
            (windowPages (windowsFrom (mbi.modules m) 0))).card := stopped.2
        exact ⟨stopped.1, by omega⟩
      · refine both.2.modulesMapped (windowsFrom_modules _ _)
          (fun w member => (placed w member).1) apart both.1 fun v low high => ?_
        exact called.grown.window_unmapped ready low high

/-- The placement heap has slots for the table of the heap and for those of the windows. -/
theorem staysInside_of_slots {m : Memory} {mbi : MultibootInfo} {fuel : Nat} {flag : Bool}
    (fits : ∀ mod ∈ mbi.modules m, mod.Fits) (space : windowSpace (mbi.modules m) ≤ 0x10000000)
    (ready : ModulesReady (mbi.modules m) s) (enough : 3 ≤ fuel)
    (slots : s.placementHeap.toNat +
      4096 * ((missingTables s (windowPages (windowsFrom (mbi.modules m) 0))).card + 1) ≤
        0xC0400000) :
    StaysInside (kernelKcalloc (depth + 1) fuel flag) (depth + 1) m mbi (emptyHeap s).heap := by
  have slot : s.HasSlot kheapStart := .inr (show s.placementHeap.toNat < 0xC0400000 by omega)
  refine ⟨slot, fun table h' returned => ?_⟩
  have called : Ends _ _
      (kernelKcalloc (depth + 1) fuel flag (emptyHeap s).heap mbi.modsCount 16) :=
    kernelKcalloc_ends ready.space ⟨slot, ready.behind⟩ (fun v => ready.heap_unmapped)
      (modulesFit fits space).1 enough
  rw [returned] at called
  replace called : KcallocDone s (depth + 1) (kcallocPages mbi.modsCount 16)
    (emptyHeap s).heap h' := called
  obtain ⟨leases, leased⟩ := called.grown.leased
  have missing := Finset.card_le_card
    (called.grown.missingTables_subset (windowPages (windowsFrom (mbi.modules m) 0)))
  refine hasRoom_of_slots leased.space
    (fun c member => (called.grown.windowsAllowed ready fits space c member).page) ?_
  show h'.paging.placementHeap.toNat + 4096 * (missingTables h'.paging (windowPages _)).card ≤ _
  -- `kcalloc` has taken a slot at most, for the table of the heap
  have heap : h'.paging.placementHeap.toNat ≤ s.placementHeap.toNat + 4096 := by
    rcases called.grown.table with ⟨-, bound⟩ | ⟨-, same⟩
    · exact bound
    · rw [same]
      exact Nat.le_add_right _ _
  omega

/-- Addresses of one page are left to the same users. -/
theorem HeapOrModule.samePage {v w : BitVec 32} (own : HeapOrModule v)
    (same : pageOf v = pageOf w) : HeapOrModule w := by
  rw [pageOf_eq_iff] at same
  rcases own with ⟨low, high⟩ | ⟨low, high⟩
  · have low : 0xD0000000 ≤ v.toNat := low
    have high : v.toNat < 0xD0101000 := high
    exact .inl ⟨show 0xD0000000 ≤ w.toNat by omega, show w.toNat < 0xD0101000 by omega⟩
  · have low : 0xE0000000 ≤ v.toNat := low
    have high : v.toNat < 0xF0000000 := high
    exact .inr ⟨show 0xE0000000 ≤ w.toNat by omega, show w.toNat < 0xF0000000 by omega⟩

theorem HeapOrModule.callerPage {v : BitVec 32} (own : HeapOrModule v) : CallerPage v := by
  rcases own with ⟨low, high⟩ | ⟨low, high⟩
  · have low : 0xD0000000 ≤ v.toNat := low
    have high : v.toNat < 0xD0101000 := high
    exact ⟨show 0xC4000000 ≤ v.toNat by omega, show v.toNat < 0xFFC00000 by omega⟩
  · exact callerPage_window low high

/-- What a run has left of the state behind `pmm_init`. -/
theorem BootTables.modulesReady {image : BootImage} {m : PhysMem} (boot : BootTables image m)
    {data : Memory} {mbi : MultibootInfo} {rounds : Nat} {bits : Nat → BitVec 32} {pmm : PmmState}
    (started : pmmInit rounds image.toKernelImage data mbi bits = .ok pmm)
    {labels : List (Option (BitVec 32))}
    (run : Run.From KernelStep (BootTables.state image m pmm.frames.bitmap) labels s)
    (outside : ∀ v, some v ∈ labels → ¬HeapOrModule v) : ModulesReady (mbi.modules data) s := by
  obtain ⟨inUse, zero, -⟩ := pmmInit_kernelInUse started
  have start := boot.kernelSpace inUse zero
  refine ⟨run_kernelSpace start run, fun v own => ?_, fun mod member f reserved => ?_⟩
  · refine run_unmapped start run own.callerPage (fun w label same => outside w label ?_)
      (boot.unmapped _ own.callerPage)
    exact own.samePage same
  · exact run_bits start run (pmmInit_modulesInUse started mod member f reserved)

/-- A machine with 8 MiB and one module. -/
def moduleInfo : MultibootInfo where
  flags := 0x49
  memLower := 1024
  memUpper := 7168
  modsCount := 1
  modsAddr := 0x9000
  mmapLength := 24
  mmapAddr := 0x10000

def moduleMemory : Memory :=
  store32 (store32 (mmapMemory [(0x200000, 0x200000)]) 0x9000 0x180000) 0x9004 0x180234

theorem moduleMemory_holds : MmapHolds moduleMemory (moduleInfo.mmapAddr + moduleInfo.mmapLength)
    moduleInfo.mmapAddr [⟨20, 0x200000, 0x200000, 1⟩] := by
  refine ⟨⟨?_, ?_, ?_, ?_⟩, ?_, rfl⟩ <;> decide +kernel

theorem moduleMemory_modules : moduleInfo.modules moduleMemory = [⟨0x180000, 0x180234⟩] := by
  have start : load32 moduleMemory 0x9000 = 0x180000 := by decide +kernel
  have stop : load32 moduleMemory (0x9000 + 4) = 0x180234 := by decide +kernel
  show [(⟨load32 moduleMemory 0x9000, load32 moduleMemory (0x9000 + 4)⟩ : Module)] = _
  rw [start, stop]

section OneModule

-- a module of one page, wherever its record is
variable {data : Memory} {mbi : MultibootInfo}

theorem oneModule_count (modules : mbi.modules data = [⟨0x180000, 0x180234⟩]) :
    mbi.modsCount = 1 := by
  apply BitVec.eq_of_toNat_eq
  rw [← modulesFrom_length data mbi.modsCount.toNat mbi.modsAddr, ← MultibootInfo.modules, modules]
  rfl

/-- On a machine with 8 MiB `pmm_init` accepts it. -/
theorem oneModule_pmmInit (modules : mbi.modules data = [⟨0x180000, 0x180234⟩])
    (flags : mbi.flags = 0x49) (memory : mbi.memLower + mbi.memUpper = 8192)
    (array : mbi.modsAddr ≠ 0) {entries : List MmapEntry}
    (holds : MmapHolds data (mbi.mmapAddr + mbi.mmapLength) mbi.mmapAddr entries) {fuel : Nat}
    (enough : entries.length ≤ fuel)
    (ends : EndsInArray smallImage entries [⟨0x180000, 0x180234⟩]) :
    ∃ pmm, pmmInitOnArray fuel smallImage data mbi (fun _ => 0) = .ok pmm := by
  have one := oneModule_count modules
  have preserved (bm : Bitmap) : ∃ bm', preserveModules data mbi bm = .ok bm' := by
    unfold preserveModules
    rw [one, flags]
    exact ⟨_, bind_ok_iff.mpr ⟨(), panicIf_ok.mpr (by decide), bind_ok_iff.mpr ⟨(),
      kassert_ok.mpr (decide_eq_true array), rfl⟩⟩⟩
  obtain ⟨⟨bytes, frames⟩, filled⟩ : ∃ r,
      pagingInitBitmap (fun _ => 0) ((mbi.memLower + mbi.memUpper) * 1024) = .ok r := by
    rw [memory]
    exact ⟨_, rfl⟩
  obtain ⟨pmm, started⟩ := pmmInit_returns holds enough smallImage (by rw [flags]; decide)
    (by rw [flags]; decide) filled preserved
  rw [← modules] at ends
  exact ⟨pmm, (pmmInitOnArray_eq ((endsInArray_iff holds enough).mp ends)).trans started⟩

theorem oneModule_fits (modules : mbi.modules data = [⟨0x180000, 0x180234⟩]) :
    (∀ mod ∈ mbi.modules data, mod.Fits) ∧ windowSpace (mbi.modules data) ≤ 0x10000000 := by
  rw [modules]
  refine ⟨fun mod member => ?_, by decide⟩
  rw [List.mem_singleton.mp member]
  exact ⟨by decide, by decide⟩

theorem oneModule_pages (modules : mbi.modules data = [⟨0x180000, 0x180234⟩]) :
    windowPages (windowsFrom (mbi.modules data) 0) = [0xE0000000] := by
  rw [modules]
  rfl

theorem oneModule_frames (modules : mbi.modules data = [⟨0x180000, 0x180234⟩])
    (s : PagingState) : moduleFrames s data mbi ≤ 18 := by
  have one := oneModule_count modules
  have tables := missingTables_card_le s [kheapStart, 0xE0000000]
  have pages : kcallocPages 1 16 = 16 := by decide
  unfold moduleFrames
  rw [if_neg (by rw [one]; decide), one, pages, oneModule_pages modules]
  exact Nat.add_le_add_left tables 16

/-- Memory from 2 MiB to 4 MiB, where neither the kernel nor the module is, is free. -/
theorem oneModule_free (modules : mbi.modules data = [⟨0x180000, 0x180234⟩])
    {entries : List MmapEntry}
    (holds : MmapHolds data (mbi.mmapAddr + mbi.mmapLength) mbi.mmapAddr entries) {fuel : Nat}
    (enough : entries.length ≤ fuel) (member : ⟨20, 0x200000, 0x200000, 1⟩ ∈ entries)
    (large : 1024 ≤ mbi.pageCount) {pmm : PmmState}
    (started : pmmInit fuel smallImage data mbi (fun _ => 0) = .ok pmm) {f : Nat}
    (above : 512 ≤ f) (below : f < 1024) : f ∈ pmm.frames.bitmap.clearBits := by
  refine (pmmInit_clearBits holds enough started f).mpr ⟨by omega, ⟨.inr ?_, ?_⟩, ?_⟩
  · exact ⟨_, member, rfl, show 512 ≤ f ∧ f ≤ 1024 from ⟨above, by omega⟩⟩
  · exact Nat.ne_of_gt (Nat.lt_of_lt_of_le (by decide) above)
  · rw [modules]
    rintro (kernel | ⟨mod, here, reserved⟩)
    · have bound : f ≤ smallImage.realKernelStart.toNat / 4096 +
        ((smallImage.realKernelEnd - smallImage.realKernelStart).toNat + 4095) / 4096 := kernel.2
      exact absurd (above.trans bound) (by decide)
    · rw [List.mem_singleton.mp here] at reserved
      have bound : f ≤ 384 + (0x233 + 4095) / 4096 := reserved.2
      omega

theorem oneModule_staysInside (modules : mbi.modules data = [⟨0x180000, 0x180234⟩])
    {phys : PhysMem} (boot : BootTables smallBoot phys) {fuel : Nat} {bits : Nat → BitVec 32}
    {pmm : PmmState} (started : pmmInit fuel smallImage data mbi bits = .ok pmm) :
    StaysInside (kernelKcalloc 1 3 true) 1 data mbi
      ⟨BootTables.state smallBoot phys pmm.frames.bitmap, ⟨kheapStart, 0⟩, []⟩ := by
  obtain ⟨fits, space⟩ := oneModule_fits modules
  refine staysInside_of_slots fits space (boot.modulesReady started .nil nofun) (Nat.le_refl 3) ?_
  have tables := missingTables_card_le (BootTables.state smallBoot phys pmm.frames.bitmap)
    [0xE0000000]
  rw [oneModule_pages modules]
  show 0xC0111000 + 4096 * (_ + 1) ≤ 0xC0400000
  rw [List.length_singleton] at tables
  omega

/-- Of the frames that are free 18 are needed, so the table is returned. -/
theorem oneModule_returns (modules : mbi.modules data = [⟨0x180000, 0x180234⟩])
    {phys : PhysMem} (boot : BootTables smallBoot phys) {entries : List MmapEntry}
    (holds : MmapHolds data (mbi.mmapAddr + mbi.mmapLength) mbi.mmapAddr entries) {fuel : Nat}
    (enough : entries.length ≤ fuel) (member : ⟨20, 0x200000, 0x200000, 1⟩ ∈ entries)
    (large : 1024 ≤ mbi.pageCount) {pmm : PmmState}
    (started : pmmInit fuel smallImage data mbi (fun _ => 0) = .ok pmm) : ∃ table h,
    moduleTableInit (kernelKcalloc 1 3 true) 1 data mbi
      ⟨BootTables.state smallBoot phys pmm.frames.bitmap, ⟨kheapStart, 0⟩, []⟩ = .ok (table, h) := by
  obtain ⟨fits, space⟩ := oneModule_fits modules
  obtain ⟨bm, preserved⟩ := pmmInit_preserved started
  have ends := moduleTableInit_ends preserved fits space (boot.modulesReady started .nil nofun)
    (Nat.le_refl 3) (oneModule_staysInside modules boot started)
  cases returned : moduleTableInit (kernelKcalloc 1 3 true) 1 data mbi
      (emptyHeap (BootTables.state smallBoot phys pmm.frames.bitmap)).heap with
  | ok result => exact ⟨result.1, result.2, returned⟩
  | error e =>
    rw [returned] at ends
    have few : pmm.frames.bitmap.freeCount < moduleFrames _ data mbi := ends.2
    have many : 512 ≤ pmm.frames.bitmap.freeCount := Bitmap.le_freeCount 512 512
      fun f above below => oneModule_free modules holds enough member large started above below
    have frames := oneModule_frames modules (BootTables.state smallBoot phys pmm.frames.bitmap)
    omega

end OneModule

theorem moduleInfo_pmmInit : ∃ pmm,
    pmmInitOnArray 1 smallImage moduleMemory moduleInfo (fun _ => 0) = .ok pmm :=
  oneModule_pmmInit moduleMemory_modules rfl rfl (by decide) moduleMemory_holds (Nat.le_refl 1)
    ⟨by decide, by decide, by decide⟩

end Treeos
