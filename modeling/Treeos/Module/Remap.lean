import Treeos.Module.Taken

/-!
# The text buffer is moved

`tty_remap` of `tty.c`, which `kmain` calls between `pmm_init` and `module_table_init`. It maps
the buffer of the adapter behind the modules and unmaps it below 1 MiB.
-/
namespace Treeos

open ByteMemory PageTable PagingState KernelHeap

-- the text buffer of the adapter, and where its addresses are moved to
def vgaTextBufferStart : BitVec 32 := 0xB8000
def vgaTextBufferEnd : BitVec 32 := 0xBFFFF
def ioMmapHighOffset : BitVec 32 := 0xF0000000

def ttyPages : Nat := (pageAlignUp (vgaTextBufferEnd - vgaTextBufferStart) >>> 12).toNat

-- `page_map` in the first loop of `tty_remap`
def mapTtyPage (depth : Nat) (s : PagingState) (page : Nat) : Except Panic PagingState :=
  s.pageMap depth (vgaTextBufferStart + BitVec.ofNat 32 page <<< 12)
    (vgaTextBufferStart + ioMmapHighOffset + BitVec.ofNat 32 page <<< 12) true false

/-- `tty_remap`, without its change of `tty_buf` -/
def ttyRemap (depth : Nat) (s : PagingState) : Except Panic PagingState := do
  -- First, map the high address pages
  let s ← (List.range ttyPages).foldlM (mapTtyPage depth) s
  -- Next, unmap low pages
  (List.range ttyPages).foldlM
    (fun s page => s.pageUnmap (vgaTextBufferStart + BitVec.ofNat 32 page <<< 12)) s

def ttyRemapAccesses (depth : Nat) (s : PagingState) : List BitAccess :=
  loopAccesses (mapTtyPage depth)
    (fun s page => pageMapAccesses depth s (vgaTextBufferStart + BitVec.ofNat 32 page <<< 12)
      (vgaTextBufferStart + ioMmapHighOffset + BitVec.ofNat 32 page <<< 12))
    (List.range ttyPages) s

/-- The calls of `page_map` in the first loop -/
def ttyCalls : List MapCall := (List.range ttyPages).map fun page =>
  ⟨vgaTextBufferStart + BitVec.ofNat 32 page <<< 12,
    vgaTextBufferStart + ioMmapHighOffset + BitVec.ofNat 32 page <<< 12, true⟩

-- the addresses that are mapped
def ttyAddresses : List (BitVec 32) :=
  (List.range ttyPages).map fun page =>
    vgaTextBufferStart + ioMmapHighOffset + BitVec.ofNat 32 page <<< 12

/-! ### The frames that are taken -/

variable {depth : Nat} {s s' : PagingState}

theorem pageUnmap_bitmap {v : BitVec 32} (returned : s.pageUnmap v = .ok s') :
    s'.bitmap = s.bitmap := by
  obtain ⟨_, -, returned⟩ := bind_ok_iff.mp returned
  obtain ⟨pde, -, returned⟩ := bind_ok_iff.mp returned
  split at returned
  · obtain ⟨pte, -, returned⟩ := bind_ok_iff.mp returned
    split at returned
    · exact storeWord_bitmap returned
    · cases returned
  · cases returned

theorem ttyRemap_accesses (returned : ttyRemap depth s = .ok s') :
    s'.bitmap = applyAll s.bitmap (ttyRemapAccesses depth s) := by
  obtain ⟨t, mapped, unmapped⟩ := bind_ok_iff.mp returned
  have first : t.bitmap = applyAll s.bitmap (ttyRemapAccesses depth s) :=
    loopAccesses_accounts PagingState.bitmap (fun _ _ _ mapped => pageMap_accesses mapped) mapped
  rw [← first]
  generalize List.range ttyPages = pages at unmapped
  clear mapped first returned
  induction pages generalizing t with
  | nil =>
    cases unmapped
    rfl
  | cons page pages ih =>
    rw [List.foldlM_cons] at unmapped
    obtain ⟨u, unmap, unmapped⟩ := bind_ok_iff.mp unmapped
    exact (ih u unmapped).trans (pageUnmap_bitmap unmap)

theorem Tabled.pageUnmap {entries : Finset (BitVec 10)} (tabled : Tabled s entries)
    {v : BitVec 32} (high : v < 0xFFC00000) (returned : s.pageUnmap v = .ok s') :
    Tabled s' entries := by
  refine ⟨(KernelStep.unmap high returned).inv tabled.space, fun i => ?_⟩
  obtain ⟨table, here, -, -, rfl⟩ :=
    pageUnmap_cases tabled.space.tables (dirIndex_ne_last high) returned
  rw [← tabled.present, setMem_mem, setMem_dir, write_of_frame_ne s.mem (Ne.symm here.apart)]

theorem ttyRemap_taken {entries : Finset (BitVec 10)} (tabled : Tabled s entries)
    (returned : ttyRemap depth s = .ok s') :
    Tabled s' (entries ∪ dirIndices ttyAddresses) ∧
      TakenFor (ttyRemapAccesses depth s) entries (entries ∪ dirIndices ttyAddresses) 0 := by
  obtain ⟨t, mapped, unmapped⟩ := bind_ok_iff.mp returned
  have range : (List.range ttyPages).all (fun page => decide
      (0xC4000000 ≤ vgaTextBufferStart + ioMmapHighOffset + BitVec.ofNat 32 page <<< 12 ∧
        vgaTextBufferStart + ioMmapHighOffset + BitVec.ofNat 32 page <<< 12 < 0xFFC00000 ∧
        vgaTextBufferStart + BitVec.ofNat 32 page <<< 12 < 0xFFC00000)) = true := by decide
  have inside (page : Nat) (member : page ∈ List.range ttyPages) :=
    of_decide_eq_true (List.all_eq_true.mp range page member)
  have high : ∀ page ∈ List.range ttyPages,
      CallerPage (vgaTextBufferStart + ioMmapHighOffset + BitVec.ofNat 32 page <<< 12) :=
    fun page member => ⟨(inside page member).1, (inside page member).2.1⟩
  have low : ∀ page ∈ List.range ttyPages,
      vgaTextBufferStart + BitVec.ofNat 32 page <<< 12 < 0xFFC00000 :=
    fun page member => (inside page member).2.2
  obtain ⟨kept, taken⟩ := tabled.pageMaps _ _ high mapped
  refine ⟨?_, taken⟩
  change Tabled t (entries ∪ dirIndices ttyAddresses) at kept
  -- the pages that are unmapped leave the directory as it is
  generalize List.range ttyPages = pages at unmapped low
  clear mapped taken returned range inside high
  induction pages generalizing t with
  | nil =>
    cases unmapped
    exact kept
  | cons page pages ih =>
    rw [List.foldlM_cons] at unmapped
    obtain ⟨u, unmap, unmapped⟩ := bind_ok_iff.mp unmapped
    refine ih u (kept.pageUnmap (low page List.mem_cons_self) unmap) unmapped ?_
    exact fun page member => low page (List.mem_cons_of_mem _ member)

/-! ### When it returns -/

-- what the loops map and unmap, page by page
theorem ttyPage_toNat {page : Nat} (inside : page ∈ List.range ttyPages) :
    (vgaTextBufferStart + BitVec.ofNat 32 page <<< 12).toNat = 4096 * (184 + page) ∧
      (vgaTextBufferStart + ioMmapHighOffset + BitVec.ofNat 32 page <<< 12).toNat =
        0xF0000000 + 4096 * (184 + page) ∧ page < 8 := by
  have pages : ttyPages = 8 := by decide
  rw [pages, List.mem_range] at inside
  have shifted := ofNat_shift_toNat (show page < 2 ^ 20 by omega)
  have low : vgaTextBufferStart.toNat = 0xB8000 := rfl
  have high : (vgaTextBufferStart + ioMmapHighOffset).toNat = 0xF00B8000 := by decide
  refine ⟨?_, ?_, inside⟩
  · rw [BitVec.toNat_add, shifted, low]
    omega
  · rw [BitVec.toNat_add, shifted, high]
    omega

theorem mem_ttyCalls {c : MapCall} : c ∈ ttyCalls ↔ ∃ page ∈ List.range ttyPages,
    ⟨vgaTextBufferStart + BitVec.ofNat 32 page <<< 12,
      vgaTextBufferStart + ioMmapHighOffset + BitVec.ofNat 32 page <<< 12, true⟩ = c :=
  List.mem_map

theorem ttyCalls_virt : ttyCalls.map MapCall.virt = ttyAddresses := List.map_map

theorem ttyCalls_callers : ∀ c ∈ ttyCalls, CallerPage c.virt := by
  intro c member
  obtain ⟨page, inside, rfl⟩ := mem_ttyCalls.mp member
  obtain ⟨-, high, small⟩ := ttyPage_toNat inside
  constructor
  · show 0xC4000000 ≤ (vgaTextBufferStart + ioMmapHighOffset + BitVec.ofNat 32 page <<< 12).toNat
    omega
  · show (vgaTextBufferStart + ioMmapHighOffset + BitVec.ofNat 32 page <<< 12).toNat < 0xFFC00000
    omega

theorem ttyCalls_nodup : (ttyCalls.map fun c => pageOf c.virt).Nodup := by
  rw [ttyCalls, List.map_map]
  refine List.Nodup.map_on ?_ List.nodup_range
  intro page inside page' inside' same
  have value := (ttyPage_toNat inside).2.1
  have value' := (ttyPage_toNat inside').2.1
  have equal := pageOf_eq_iff.mp same
  dsimp only at equal
  omega

/-- What `tty_remap` relies on: the pages of the buffer are mapped, their frames are in use, and
nothing is mapped where it maps them. -/
structure TtyReady (s : PagingState) : Prop where
  space : s.KernelSpace
  slot : s.placementHeap < 0xC0400000
  low : ∀ page ∈ List.range ttyPages,
    ∃ e, s.lookup (pageOf (vgaTextBufferStart + BitVec.ofNat 32 page <<< 12)) = some e
  inUse : ∀ page ∈ List.range ttyPages, s.bitmap.testBit (184 + page) = true
  unmapped : ∀ v ∈ ttyAddresses, s.lookup (pageOf v) = none

theorem TtyReady.allowed (ready : TtyReady s) : ∀ c ∈ ttyCalls, c.Allowed s := by
  intro c member
  have page := ttyCalls_callers c member
  have unmapped := ready.unmapped c.virt (ttyCalls_virt ▸ List.mem_map_of_mem member)
  obtain ⟨k, inside, rfl⟩ := mem_ttyCalls.mp member
  obtain ⟨low, high, -⟩ := ttyPage_toNat inside
  refine ⟨page, ⟨isPageAligned_iff.mpr (by dsimp only; omega),
    isPageAligned_iff.mpr (by dsimp only; omega), ?_⟩, unmapped⟩
  have frame : ((vgaTextBufferStart + BitVec.ofNat 32 k <<< 12) >>> 12).toNat = 184 + k := by
    rw [BitVec.toNat_ushiftRight, Nat.shiftRight_eq_div_pow, low]
    omega
  rw [frame]
  exact ready.inUse k inside

theorem TtyReady.hasRoom (ready : TtyReady s) (depth : Nat) : HasRoom depth ttyCalls s := by
  refine hasRoom_of_slots ready.space ttyCalls_callers ?_
  have one : (dirIndices ttyAddresses).card = 1 := by decide
  have missing : (missingTables s ttyAddresses).card ≤ 1 :=
    (Finset.card_filter_le _ _).trans one.le
  have aligned := ready.space.placement.aligned_toNat
  have room : s.placementHeap.toNat < 0xC0400000 := ready.slot
  rw [ttyCalls_virt]
  omega

/-- The pages below 4 MiB that have been unmapped are of no concern to the others. -/
structure LowUnmapped (s s' : PagingState) : Prop where
  space : s'.KernelSpace
  bitmap : s'.bitmap = s.bitmap
  placementHeap : s'.placementHeap = s.placementHeap
  entry : ∀ i, s'.mem s'.dir i = s.mem s.dir i
  other : ∀ v, CallerPage v → s'.lookup (pageOf v) = s.lookup (pageOf v)

/-- A page below 4 MiB that is mapped can be unmapped. -/
theorem unmapLow_returns (space : s.KernelSpace) {v : BitVec 32} (low : v < 0x400000)
    (aligned : isPageAligned v = true) {e : Entry} (found : s.lookup (pageOf v) = some e) :
    ∃ s', s.pageUnmap v = .ok s' ∧ LowUnmapped s s' ∧ ∀ w < 0x400000, pageOf w ≠ pageOf v →
      s'.lookup (pageOf w) = s.lookup (pageOf w) := by
  have bound : v.toNat < 0x400000 := low
  have high : v < 0xFFC00000 := show v.toNat < 0xFFC00000 by omega
  have unmapped := space.tables.selfMap.pageUnmap_of_lookup aligned found
  have here := space.tables.tableAt (dirIndex_ne_last high) (lookup_some found).1.1
  have step : KernelStep s none _ := .unmap high unmapped
  refine ⟨_, unmapped, ⟨step.inv space, rfl, rfl, fun i => ?_, fun w own => ?_⟩,
    fun w below other => ?_⟩
  · exact write_of_frame_ne s.mem (Ne.symm here.apart)
  · refine space.tables.lookup_other here fun same => ?_
    rcases same.1 with same | ⟨zero, -⟩ | ⟨kernel, -⟩
    -- `w` is above the kernel, so it is none of the pages that share the entry of `v`
    · have first : dirIndex w = dirIndex v := same
      refine own.dirIndex_ne 0 (by decide) (first.trans ?_)
      apply BitVec.eq_of_toNat_eq
      rw [toNat_dirIndex]
      show _ = 0
      omega
    · exact own.dirIndex_ne 0 (by decide) zero
    · exact own.dirIndex_ne 768 (by decide) kernel
  · refine space.tables.lookup_other here fun same => other ?_
    have below : w.toNat < 0x400000 := below
    have index : tableIndex w = tableIndex v := same.2
    have value := congrArg BitVec.toNat index
    rw [toNat_tableIndex, toNat_tableIndex] at value
    rw [pageOf_eq_iff]
    omega

/-- All pages of the buffer are unmapped. -/
theorem unmapTty_returns {pages : List Nat} (space : s.KernelSpace)
    (inside : ∀ page ∈ pages, page ∈ List.range ttyPages) (distinct : pages.Nodup)
    (low : ∀ page ∈ pages,
      ∃ e, s.lookup (pageOf (vgaTextBufferStart + BitVec.ofNat 32 page <<< 12)) = some e) :
    ∃ s', pages.foldlM (fun s page =>
        s.pageUnmap (vgaTextBufferStart + BitVec.ofNat 32 page <<< 12)) s = .ok s' ∧
      LowUnmapped s s' := by
  induction pages generalizing s with
  | nil => exact ⟨s, rfl, space, rfl, rfl, fun _ => rfl, fun _ _ => rfl⟩
  | cons page pages ih =>
    have address := (ttyPage_toNat (inside page List.mem_cons_self)).1
    have small := (ttyPage_toNat (inside page List.mem_cons_self)).2.2
    obtain ⟨new, distinct⟩ := List.nodup_cons.mp distinct
    obtain ⟨e, found⟩ := low page List.mem_cons_self
    obtain ⟨s₁, unmapped, first, kept⟩ := unmapLow_returns space
      (show (vgaTextBufferStart + BitVec.ofNat 32 page <<< 12).toNat < 0x400000 by omega)
      (isPageAligned_iff.mpr (by omega)) found
    have rest : ∀ page' ∈ pages, ∃ e,
        s₁.lookup (pageOf (vgaTextBufferStart + BitVec.ofNat 32 page' <<< 12)) = some e := by
      intro page' member
      have address' := (ttyPage_toNat (inside page' (List.mem_cons_of_mem _ member))).1
      have small' := (ttyPage_toNat (inside page' (List.mem_cons_of_mem _ member))).2.2
      rw [kept _ (show (vgaTextBufferStart + BitVec.ofNat 32 page' <<< 12).toNat < 0x400000 by
        omega)]
      · exact low page' (List.mem_cons_of_mem _ member)
      · rw [Ne, pageOf_eq_iff]
        intro same
        have equal : page = page' := by omega
        exact new (equal ▸ member)
    obtain ⟨s', done, later⟩ := ih first.space
      (fun page' member => inside page' (List.mem_cons_of_mem _ member)) distinct rest
    refine ⟨s', ?_, later.space, later.bitmap.trans first.bitmap,
      later.placementHeap.trans first.placementHeap, fun i => ?_, fun v own => ?_⟩
    · rw [List.foldlM_cons, unmapped, ok_bind, done]
    · exact (later.entry i).trans (first.entry i)
    · exact (later.other v own).trans (first.other v own)

/-- What `tty_remap` has done, and how many frames and slots there are for later tables. -/
structure TtyRemapped (s s' : PagingState) : Prop where
  space : s'.KernelSpace
  other : ∀ v, CallerPage v → (∀ w ∈ ttyAddresses, pageOf v ≠ pageOf w) →
    s'.lookup (pageOf v) = s.lookup (pageOf v)
  inUse : ∀ bit, s.bitmap.testBit bit = true → s'.bitmap.testBit bit = true
  frames : ∀ later, s.bitmap.freeCount + (missingTables s' later).card ≤
    s'.bitmap.freeCount + (missingTables s (ttyAddresses ++ later)).card
  slots : ∀ later, s'.placementHeap.toNat + 4096 * (missingTables s' later).card ≤
    s.placementHeap.toNat + 4096 * (missingTables s (ttyAddresses ++ later)).card

/-- `tty_remap` returns, or there is no frame for its table. -/
theorem ttyRemap_ends (ready : TtyReady s) (depth : Nat) :
    Ends (fun e => e = .msg "out of memory" ∧
        s.bitmap.freeCount < (missingTables s ttyAddresses).card)
      (TtyRemapped s) (ttyRemap (depth + 1) s) := by
  have looped : (List.range ttyPages).foldlM (mapTtyPage (depth + 1)) s =
      ttyCalls.foldlM (MapCall.run (depth + 1)) s := by
    rw [ttyCalls, List.foldlM_map]
    rfl
  have calls := mapCalls_ends ready.space ready.allowed ttyCalls_nodup
    (ready.hasRoom (depth + 1))
  rw [ttyCalls_virt] at calls
  unfold ttyRemap
  rw [looped]
  refine calls.bind fun t done => ?_
  obtain ⟨s', returned, unmapped⟩ := unmapTty_returns done.space (fun _ => id) List.nodup_range
    fun page inside => by
      obtain ⟨address, -, small⟩ := ttyPage_toNat inside
      obtain ⟨e, found⟩ := ready.low page inside
      have low : vgaTextBufferStart + BitVec.ofNat 32 page <<< 12 < 0x400000 :=
        show (vgaTextBufferStart + BitVec.ofNat 32 page <<< 12).toNat < 0x400000 by omega
      exact ⟨e, done.low _ e low found⟩
  rw [returned]
  have tables (later : List (BitVec 32)) : missingTables s' later = missingTables t later := by
    unfold missingTables
    refine Finset.filter_congr fun i _ => ?_
    rw [unmapped.entry]
  have remapped : TtyRemapped s s' := by
    refine ⟨unmapped.space, fun v own away => ?_, fun bit used => ?_, fun later => ?_,
      fun later => ?_⟩
    -- the pages that are unmapped are below 4 MiB, so the maps and the bitmap are those of `t`
    · rw [unmapped.other v own]
      refine done.other v own fun c member => away c.virt ?_
      exact ttyCalls_virt ▸ List.mem_map_of_mem member
    · rw [unmapped.bitmap]
      exact done.inUse bit used
    · rw [unmapped.bitmap, tables, ← ttyCalls_virt]
      exact done.frames later
    · rw [unmapped.placementHeap, tables, ← ttyCalls_virt]
      exact done.slots later
  exact remapped

end Treeos
