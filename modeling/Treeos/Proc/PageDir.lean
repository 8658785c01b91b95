import Treeos.Pmm.Placement
import Treeos.Proc.Switch

/-!
# New page directories

`clone_page_dir` and the directory that `spawn_init` builds, with `memcpy`, which copies
bytes through the paging unit.
-/
namespace Treeos

open PageTable

/-! ### Bytes of words -/

namespace Entry

/-- Byte `k` of a word, from the lowest one on. -/
def byte (w : Entry) (k : Nat) : BitVec 8 := w.extractLsb' (8 * k) 8

def setByte (w : Entry) (k : Nat) (b : BitVec 8) : Entry :=
  (w &&& ~~~((0xFF : Entry) <<< (8 * k))) ||| b.setWidth 32 <<< (8 * k)

theorem byte_setByte (w : Entry) (b : BitVec 8) {j k : Nat} (inside : j < 4) (bound : k < 4) :
    (w.setByte k b).byte j = if j = k then b else w.byte j := by
  have mask (i : Nat) : (0xFF : Entry).getLsbD i = decide (i < 8) := by
    rw [show (0xFF : Entry) = (BitVec.allOnes 8).setWidth 32 by decide, BitVec.getLsbD_setWidth,
      BitVec.getLsbD_allOnes]
    by_cases low : i < 8
    · simp [low, show i < 32 by omega]
    · simp [low]
  ext i small
  have here : 8 * j + i < 32 := by omega
  simp only [byte, setByte, BitVec.getElem_extractLsb', BitVec.getLsbD_or, BitVec.getLsbD_and,
    BitVec.getLsbD_not, BitVec.getLsbD_shiftLeft, BitVec.getLsbD_setWidth, mask, here,
    decide_true, Bool.true_and]
  split
  next same =>
    subst same
    simp [small, show ¬8 * j + i < 8 * j by omega, show i < 32 by omega]
  next other =>
    rcases Nat.lt_or_gt_of_ne other with before | behind
    · simp [show 8 * j + i < 8 * k by omega, BitVec.getElem_extractLsb']
    · have above : ¬8 * j + i < 8 * k := by omega
      have out : ¬8 * j + i - 8 * k < 8 := by omega
      simp [above, out, BitVec.getElem_extractLsb', BitVec.getLsbD_of_ge b _ (Nat.not_lt.mp out)]

/-- Words with the same bytes are the same. -/
theorem eq_of_bytes {w w' : Entry} (same : ∀ k < 4, w.byte k = w'.byte k) : w = w' := by
  apply BitVec.eq_of_getLsbD_eq
  intro i bound
  have bytes := congrArg (·.getLsbD (i % 8)) (same (i / 8) (by omega))
  simp only [byte, BitVec.getLsbD_extractLsb', show i % 8 < 8 by omega,
    show 8 * (i / 8) + i % 8 = i by omega, decide_true, Bool.true_and] at bytes
  exact bytes

theorem byte_zero (k : Nat) : byte 0 k = 0 := by
  ext i bound
  simp [byte]

end Entry

/-- Byte `q` of a frame. -/
def byteOf (m : BitVec 10 → Entry) (q : Nat) : BitVec 8 := (m (BitVec.ofNat 10 (q / 4))).byte (q % 4)

theorem byteOf_word (m : BitVec 10 → Entry) (i : BitVec 10) {k : Nat} (inside : k < 4) :
    byteOf m (4 * i.toNat + k) = (m i).byte k := by
  have index : BitVec.ofNat 10 ((4 * i.toNat + k) / 4) = i := by
    rw [show (4 * i.toNat + k) / 4 = i.toNat by omega, BitVec.ofNat_toNat, BitVec.setWidth_eq]
  rw [byteOf, index, show (4 * i.toNat + k) % 4 = k by omega]

namespace PagingState

/-- The byte at `v`, in the word around it -/
def loadByte (s : PagingState) (v : BitVec 32) : Except Panic (BitVec 8) := do
  let w ← s.loadWord v
  .ok (w.byte (v &&& 3).toNat)

def storeByte (s : PagingState) (v : BitVec 32) (b : BitVec 8) : Except Panic PagingState :=
  s.updateWord v (·.setByte (v &&& 3).toNat b)

/-- `memcpy`, with `num` bytes to go -/
def memcpy : Nat → PagingState → BitVec 32 → BitVec 32 → Except Panic PagingState
  | 0, s, _, _ => .ok s
  | num + 1, s, destc, srcc => do
    let b ← s.loadByte srcc
    let s ← s.storeByte destc b
    memcpy num s (destc + 1) (srcc + 1)

end PagingState

/-- The last entry of a new directory, which refers to the directory itself -/
def setOwnEntry (pde : BitVec 32) (s : PagingState) : Except Panic PagingState := do
  let s ← s.updateWord (pde + 4 * 1023) (·.setPresent true)
  let s ← s.updateWord (pde + 4 * 1023) (·.setRw true)
  let physaddr ← s.virtToPhys pde
  s.updateWord (pde + 4 * 1023) (·.setAddress (frameOf physaddr))

/-- What `clone_page_dir` and `spawn_init` do to make a directory. The third argument of
their `memcpy` is the number of directory entries, for want of a factor 4. -/
def buildPageDir (depth : Nat) (kernelPageDir : BitVec 32) (s : PagingState) :
    Except Panic (BitVec 32 × PagingState) := do
  let (pde, s) ← PagingState.pagingStructureAlloc depth s
  -- Copy kernel pages into new directory
  let s ← s.memcpy 255 (pde + 4 * 768) (kernelPageDir + 4 * 768)
  let s ← setOwnEntry pde s
  .ok (pde, s)

/-- `clone_page_dir` -/
def clonePageDir (depth : Nat) (kernelPageDir : BitVec 32) (pde : Option (BitVec 32))
    (s : PagingState) : Except Panic (BitVec 32 × PagingState) := do
  let (pde, s) ← match pde with
    | none => buildPageDir depth kernelPageDir s
    | some pde => .ok (pde, s)
  kassert (isPageAligned pde) "IS_PAGE_ALIGNED(pde)"
  .ok (pde, s)

namespace PagingState

variable {s : PagingState} {p c : BitVec 32} {f g : Frame} {q : Nat}

/-! ### Accesses to a page -/

theorem pageOf_byte (aligned : isPageAligned p = true) (bound : q < 4096) :
    pageOf (p + BitVec.ofNat 32 q) = pageOf p ∧
      wordIndex (p + BitVec.ofNat 32 q) = BitVec.ofNat 10 (q / 4) ∧
      ((p + BitVec.ofNat 32 q) &&& 3).toNat = q % 4 := by
  rw [isPageAligned_iff] at aligned
  have size := p.isLt
  have sum : (p + BitVec.ofNat 32 q).toNat = p.toNat + q := by
    rw [BitVec.toNat_add, BitVec.toNat_ofNat]
    omega
  refine ⟨pageOf_eq_iff.mpr (by omega), BitVec.eq_of_toNat_eq ?_, ?_⟩
  · rw [toNat_wordIndex, sum, BitVec.toNat_ofNat]
    omega
  · rw [BitVec.toNat_and, sum]
    show (p.toNat + q) &&& (2 ^ 2 - 1) = _
    rw [Nat.and_two_pow_sub_one_eq_mod]
    omega

/-- Page `p` is frame `g`, through tables that are not in frame `f`. -/
structure Shows (s : PagingState) (p : BitVec 32) (g f : Frame) : Prop where
  aligned : isPageAligned p = true
  page : ∃ e, s.lookup (pageOf p) = some e ∧ e.address = g
  unused : ¬Uses pagingFormat s.mem s.dir (dirIndex p) f

namespace Shows

/-- What happens in frame `f` does not change what the page shows. -/
theorem congr (shows : s.Shows p g f) (apart : s.dir ≠ f) {m : PhysMem}
    (same : ∀ h, h ≠ f → m h = s.mem h) : (s.setMem m).Shows p g f := by
  obtain ⟨e, found, address⟩ := shows.page
  have uses := (lookup_some found).1
  have table : (s.mem s.dir (pageOf p).1).address ≠ f := fun here => shows.unused ⟨uses.1, here⟩
  refine ⟨shows.aligned, ⟨e, ?_, address⟩, ?_⟩
  · rw [← found]
    exact lookup_congr (congrFun (same _ apart) _) (congrFun (same _ table) _)
  · unfold Uses
    rw [setMem_mem, setMem_dir, same _ apart]
    exact shows.unused

theorem write (shows : s.Shows p g f) (apart : s.dir ≠ f) (i : BitVec 10) (w : Entry) :
    (s.setMem (PageTable.write s.mem f i w)).Shows p g f :=
  shows.congr apart fun _ away => funext fun _ => write_of_frame_ne _ away

theorem loadByte (shows : s.Shows p g f) (bound : q < 4096) :
    s.loadByte (p + BitVec.ofNat 32 q) = .ok (byteOf (s.mem g) q) := by
  obtain ⟨page, word, byte⟩ := pageOf_byte shows.aligned bound
  obtain ⟨e, found, address⟩ := shows.page
  rw [← page] at found
  rw [PagingState.loadByte, loadWord_of_lookup found, ok_bind, word, byte, address]
  rfl

theorem updateWord (shows : s.Shows p g f) (bound : q < 4096) (change : Entry → Entry) :
    s.updateWord (p + BitVec.ofNat 32 q) change = .ok (s.setMem (PageTable.write s.mem g
      (BitVec.ofNat 10 (q / 4)) (change (s.mem g (BitVec.ofNat 10 (q / 4)))))) := by
  obtain ⟨page, word, -⟩ := pageOf_byte shows.aligned bound
  obtain ⟨e, found, address⟩ := shows.page
  rw [← page] at found
  rw [PagingState.updateWord, loadWord_of_lookup found, ok_bind, storeWord_of_lookup found, word,
    address]

end Shows

/-- A stored byte among the bytes of its frame. -/
theorem byteOf_write {m : PhysMem} {b : BitVec 8} (bound : q < 4096) {r : Nat} (inside : r < 4096) :
    byteOf (write m f (BitVec.ofNat 10 (q / 4))
      ((m f (BitVec.ofNat 10 (q / 4))).setByte (q % 4) b) f) r =
      if r = q then b else byteOf (m f) r := by
  unfold byteOf
  by_cases word : r / 4 = q / 4
  · rw [word, write_self, Entry.byte_setByte _ _ (by omega) (by omega)]
    by_cases same : r = q
    · rw [if_pos same, if_pos (by rw [same])]
    · rw [if_neg same, if_neg (by omega)]
  · have other : BitVec.ofNat 10 (r / 4) ≠ BitVec.ofNat 10 (q / 4) := by
      intro same
      have index := congrArg BitVec.toNat same
      rw [BitVec.toNat_ofNat, BitVec.toNat_ofNat] at index
      omega
    rw [write_of_index_ne _ other, if_neg (by rintro rfl; exact word rfl)]

/-- A copy to a page changes the bytes of its frame that it is given. -/
theorem memcpy_spec (apart : s.dir ≠ f) (other : g ≠ f) (dest : s.Shows p f f)
    (src : s.Shows c g f) (num : Nat) (inside : q + num ≤ 4096) :
    ∃ m, s.memcpy num (p + BitVec.ofNat 32 q) (c + BitVec.ofNat 32 q) = .ok (s.setMem m) ∧
      (∀ h, h ≠ f → m h = s.mem h) ∧
      ∀ r < 4096, byteOf (m f) r =
        if q ≤ r ∧ r < q + num then byteOf (s.mem g) r else byteOf (s.mem f) r := by
  induction num generalizing s q with
  | zero =>
    refine ⟨s.mem, rfl, fun _ _ => rfl, fun r _ => ?_⟩
    rw [if_neg (by omega)]
  | succ num ih =>
    have next (a : BitVec 32) : a + BitVec.ofNat 32 q + 1 = a + BitVec.ofNat 32 (q + 1) := by
      rw [BitVec.ofNat_add, BitVec.add_assoc]
      rfl
    -- one byte, then the rest from the state behind it
    obtain ⟨m₁, stored⟩ : ∃ m₁, m₁ = write s.mem f (BitVec.ofNat 10 (q / 4))
      ((s.mem f (BitVec.ofNat 10 (q / 4))).setByte (q % 4) (byteOf (s.mem g) q)) := ⟨_, rfl⟩
    have copied : s.storeByte (p + BitVec.ofNat 32 q) (byteOf (s.mem g) q) =
        .ok (s.setMem m₁) := by
      rw [storeByte, (pageOf_byte dest.aligned (by omega)).2.2, dest.updateWord (by omega), stored]
    obtain ⟨m, returned, frame, bytes⟩ := ih (s := s.setMem m₁) (q := q + 1) apart
      (by rw [stored]; exact dest.write apart _ _) (by rw [stored]; exact src.write apart _ _)
      (by omega)
    have kept (h : Frame) (away : h ≠ f) : m₁ h = s.mem h := by
      rw [stored]
      funext i
      exact write_of_frame_ne _ away
    refine ⟨m, ?_, fun h away => (frame h away).trans (kept h away), fun r bound => ?_⟩
    · rw [memcpy, src.loadByte (by omega), ok_bind, copied, ok_bind, next, next, returned]
      rfl
    · rw [bytes r bound, setMem_mem, kept g other]
      by_cases here : r = q
      · rw [if_neg (by omega), if_pos (by omega), here, stored, byteOf_write (by omega) (by omega),
          if_pos rfl]
      · have before : byteOf (m₁ f) r = byteOf (s.mem f) r := by
          rw [stored, byteOf_write (by omega) bound, if_neg here]
        rw [before]
        by_cases behind : q + 1 ≤ r ∧ r < q + 1 + num
        · rw [if_pos behind, if_pos (by omega)]
        · rw [if_neg behind, if_neg (by omega)]

theorem virtToPhys_of_shows (selfMap : s.SelfMapped) (shows : s.Shows p g f) :
    s.virtToPhys p = .ok (frameAddr g) := by
  obtain ⟨e, found, rfl⟩ := shows.page
  have offset : p &&& 0xFFF#32 = 0#32 := by simpa [isPageAligned] using shows.aligned
  rw [virtToPhys_of_lookup selfMap found, offset, BitVec.add_zero,
    show ~~~0xFFF#32 = (0xFFFFF000 : BitVec 32) by decide, pageMask_eq, frameOf_eq_address]

/-! ### The new directory -/

/-- The kernel directory is loaded, `g_kernel_page_dir` points to a page that shows it, and
`paging_structure_alloc` has a slot. -/
structure CloneReady (s : PagingState) (kernelPageDir : BitVec 32) : Prop where
  slot : s.SlotReady
  aligned : isPageAligned kernelPageDir = true
  table : Uses pagingFormat s.mem s.dir (dirIndex kernelPageDir) s.kernelTable
  page : (s.mem s.kernelTable (tableIndex kernelPageDir)).present = true ∧
    (s.mem s.kernelTable (tableIndex kernelPageDir)).address = s.dir

theorem CloneReady.shows (ready : s.CloneReady c) {f : Frame}
    (free : s.bitmap.testBit f.toNat = false) :
    (s.withStructure s.kernelTable f).Shows s.placementHeap f f ∧
      (s.withStructure s.kernelTable f).Shows c s.dir f := by
  obtain ⟨apart, other⟩ := ready.slot.busy f free
  have slot := ready.slot.slot
  have found := withStructure_lookup slot apart other
  have directory (i : BitVec 10) : (s.withStructure s.kernelTable f).mem s.dir i = s.mem s.dir i :=
    withStructure_mem (Ne.symm slot.apart) (Ne.symm apart) i
  have uses {i : BitVec 10} (uses : Uses pagingFormat s.mem s.dir i s.kernelTable) :
      Uses pagingFormat (s.withStructure s.kernelTable f).mem s.dir i s.kernelTable ∧
        ¬Uses pagingFormat (s.withStructure s.kernelTable f).mem s.dir i f := by
    unfold Uses at *
    rw [directory]
    exact ⟨uses, fun same => other (same.2.symm.trans uses.2)⟩
  refine ⟨⟨ready.slot.aligned, ⟨_, found, ?_⟩, (uses slot.uses).2⟩,
    ⟨ready.aligned, ⟨_, ?_, ready.page.2⟩, (uses ready.table).2⟩⟩
  · rw [Entry.address_mapped, frameOf_frameAddr]
  · -- The page of the directory is there, so it is not the slot.
    have different : tableIndex c ≠ tableIndex s.placementHeap := by
      intro same
      have here := ready.page.1
      rw [same, ready.slot.empty] at here
      cases here
    exact (lookup_eq_some (uses ready.table).1).mpr
      ⟨ready.page.1, withStructure_mem_slots other different⟩

/-- The entry that a new directory has for itself. -/
def ownEntry (f : Frame) : Entry := (((0 : Entry).setPresent true).setRw true).setAddress f

theorem setOwnEntry_eq (shows : s.Shows p f f) (selfMap : s.SelfMapped) (apart : s.dir ≠ f)
    (empty : s.mem f 1023 = 0) :
    setOwnEntry p s = .ok (s.setMem (write s.mem f 1023 (ownEntry f))) := by
  have update {s : PagingState} (shows : s.Shows p f f) (change : Entry → Entry) :
      s.updateWord (p + 4 * 1023) change =
        .ok (s.setMem (write s.mem f 1023 (change (s.mem f 1023)))) :=
    shows.updateWord (q := 4092) (by decide) change
  have second := shows.write apart 1023 ((0 : Entry).setPresent true)
  have third := shows.write apart 1023 (((0 : Entry).setPresent true).setRw true)
  have selfMap' := selfMap.write_table (Ne.symm apart) 1023 (((0 : Entry).setPresent true).setRw true)
  rw [setOwnEntry, update shows, ok_bind, empty, update second, ok_bind]
  simp only [setMem_mem, write_self, write_write, setMem_setMem]
  rw [virtToPhys_of_shows selfMap' third, ok_bind, update third]
  simp only [setMem_mem, write_self, write_write, setMem_setMem, frameOf_frameAddr]
  rfl

/-- What `buildPageDir` leaves in the new frame. -/
structure Built (s : PagingState) (f : Frame) (s' : PagingState) : Prop where
  dir : s'.dir = s.dir
  directory : s'.mem s.dir = s.mem s.dir
  page : s'.Shows s.placementHeap f f
  bytes : ∀ r < 4092, byteOf (s'.mem f) r =
    if 3072 ≤ r ∧ r < 3327 then byteOf (s.mem s.dir) r else 0
  own : s'.mem f 1023 = ownEntry f

theorem buildPageDir_of_least (depth : Nat) (ready : s.CloneReady c)
    (least : IsLeast s.bitmap.clearBits f.toNat) :
    ∃ s', buildPageDir depth c s = .ok (s.placementHeap, s') ∧ s.Built f s' := by
  have slot := ready.slot
  obtain ⟨apart, other⟩ := slot.busy f least.1.2
  obtain ⟨dest, src⟩ := ready.shows least.1.2
  have placed : pagingStructureAlloc depth s =
      .ok (s.placementHeap, s.withStructure s.kernelTable f) :=
    (pagingStructureAlloc_iff slot.bound slot.selfMap slot.slot slot.busy).mpr
      ⟨slot.aligned, slot.empty, rfl, f, least, rfl⟩
  have selfMap := slot.selfMap.withStructure slot.slot.apart apart
  have directory : (s.withStructure s.kernelTable f).mem s.dir = s.mem s.dir :=
    funext (withStructure_mem (Ne.symm slot.slot.apart) (Ne.symm apart))
  have zero : (s.withStructure s.kernelTable f).mem f = fun _ => 0 := funext fun _ => fill_self _
  have dir : (s.withStructure s.kernelTable f).dir = s.dir := rfl
  generalize s.withStructure s.kernelTable f = t at *
  have apart' : t.dir ≠ f := dir ▸ Ne.symm apart
  obtain ⟨m, copied, frame, bytes⟩ := memcpy_spec (q := 3072) apart'
    (Ne.symm apart) dest src 255 (by decide)
  have selfMap' : (t.setMem m).SelfMapped := by
    unfold SelfMapped Uses
    rw [setMem_mem, setMem_dir, frame _ apart']
    exact selfMap
  have dest' := dest.congr apart' frame
  -- the 255 bytes of memcpy end before the last entry, which is still zero when it is checked
  have empty : m f 1023 = 0 := by
    refine Entry.eq_of_bytes fun k inside => ?_
    have last : (1023 : BitVec 10).toNat = 1023 := rfl
    rw [← byteOf_word (m f) 1023 inside, last, bytes _ (by omega), if_neg (by omega), zero]
    exact byteOf_word (fun _ => 0) 1023 inside
  refine ⟨(t.setMem m).setMem (write m f 1023 (ownEntry f)), ?_, dir, ?_, dest'.write apart' _ _, fun r bound => ?_, write_self _⟩
  · rw [buildPageDir, placed, ok_bind]
    show (memcpy 255 t (s.placementHeap + 3072#32) (c + 3072#32) >>= _) = _
    rw [copied, ok_bind, setOwnEntry_eq dest' selfMap' apart' empty, ok_bind, setMem_mem]
  · rw [← directory]
    exact (funext fun i => write_of_frame_ne m (Ne.symm apart)).trans (frame _ (Ne.symm apart))
  · -- The last entry is behind the bytes in question.
    have other : BitVec.ofNat 10 (r / 4) ≠ 1023 := by
      intro same
      have index := congrArg BitVec.toNat same
      rw [BitVec.toNat_ofNat] at index
      change _ = 1023 at index
      omega
    have kept : byteOf (write m f 1023 (ownEntry f) f) r = byteOf (m f) r := by
      rw [byteOf, write_of_index_ne _ other, byteOf]
    refine kept.trans ?_
    rw [bytes r (by omega), directory, zero]
    refine if_congr Iff.rfl rfl ?_
    exact Entry.byte_zero _

/-- A directory that shares the upper part of the one that is loaded, and has nothing in the
lower part. -/
structure SharesKernel (s : PagingState) (f : Frame) : Prop where
  entries : ∀ i : BitVec 10, 768 ≤ i.toNat → i.toNat < 1023 → s.mem f i = s.mem s.dir i
  translates : ∀ v : BitVec 32, 0xC0000000 ≤ v → v < 0xFFC00000 →
    PageTable.lookup pagingFormat s.mem f (pageOf v) = s.lookup (pageOf v)
  own : Uses pagingFormat s.mem f 1023 f
  user : ∀ i : BitVec 10, i.toNat < 768 → (s.mem f i).present = false

/-- 255 bytes are all there is to copy: the directory entries behind them are zero. -/
def TailClear (s : PagingState) : Prop :=
  (s.mem s.dir 831).byte 3 = 0 ∧
    ∀ i : BitVec 10, 832 ≤ i.toNat → i.toNat < 1023 → s.mem s.dir i = 0

variable {s' : PagingState}

theorem Built.byte (built : s.Built f s') {i : BitVec 10} (before : i.toNat < 1023) {k : Nat}
    (inside : k < 4) : (s'.mem f i).byte k =
      if 3072 ≤ 4 * i.toNat + k ∧ 4 * i.toNat + k < 3327 then (s.mem s.dir i).byte k else 0 := by
  rw [← byteOf_word (s'.mem f) i inside, built.bytes _ (by omega), byteOf_word _ i inside]

/-- The entries that 255 bytes do not reach are zero. -/
theorem Built.entry_zero (built : s.Built f s') {i : BitVec 10} (before : i.toNat < 1023)
    (outside : i.toNat < 768 ∨ 832 ≤ i.toNat) : s'.mem f i = 0 := by
  refine Entry.eq_of_bytes fun k inside => ?_
  rw [built.byte before inside, if_neg (by omega), Entry.byte_zero]

theorem ownEntry_uses {m : PhysMem} (own : m f 1023 = ownEntry f) :
    Uses pagingFormat m f 1023 f := by
  unfold Uses pagingFormat
  rw [own]
  simp [ownEntry]

theorem Built.sharesKernel_iff (built : s.Built f s') : s'.SharesKernel f ↔ s.TailClear := by
  constructor
  · rintro ⟨entries, -, -, -⟩
    simp only [built.dir, built.directory] at entries
    refine ⟨?_, fun i first last => ?_⟩
    · rw [← entries 831 (by decide) (by decide), built.byte (by decide) (by decide),
        if_neg (by decide)]
    · rw [← entries i (by omega) last, built.entry_zero last (.inr first)]
  · rintro ⟨byte, clear⟩
    have entries (i : BitVec 10) (first : 768 ≤ i.toNat) (last : i.toNat < 1023) :
        s'.mem f i = s'.mem s'.dir i := by
      rw [built.dir, built.directory]
      refine Entry.eq_of_bytes fun k inside => ?_
      rw [built.byte last inside]
      split
      next => rfl
      next beyond =>
        -- the last byte of entry 831, or an entry behind it
        by_cases tail : 832 ≤ i.toNat
        · rw [clear i tail last, Entry.byte_zero]
        · obtain rfl : i = 831 := BitVec.eq_of_toNat_eq (show i.toNat = 831 by omega)
          obtain rfl : k = 3 := by
            have index : (831 : BitVec 10).toNat = 831 := rfl
            omega
          exact byte.symm
    refine ⟨entries, fun v low high => ?_, ownEntry_uses built.own, fun i user => ?_⟩
    · have lower : 0xC0000000#32 ≤ v := low
      have index := toNat_dirIndex v
      have last := dirIndex_ne_last high
      have small : (dirIndex v).toNat ≠ 1023 := fun same => last (BitVec.eq_of_toNat_eq same)
      have same := entries (dirIndex v) (by bv_omega) (by have := (dirIndex v).isLt; omega)
      show PageTable.lookup _ _ _ (dirIndex v, tableIndex v) =
        PageTable.lookup _ _ _ (dirIndex v, tableIndex v)
      rw [PageTable.lookup, PageTable.lookup, same]
    · rw [built.entry_zero (by omega) (.inl user)]
      rfl

end PagingState

/-- `spawn_init`, as far as it acts on the address space: the directory of the new process,
and a page for its stack -/
def spawnInitSpace (depth : Nat) (kernelPageDir : BitVec 32) (s : PagingState) :
    Except Panic (BitVec 32 × PagingState) := do
  let (pgdir, s) ← buildPageDir depth kernelPageDir s
  -- Grab a blank page for use as a stack and stick it somewhere
  let (pte, bitmap) ← pageAlloc s.bitmap (some 0)
  match pte with
  | none => .error (.msg "out of memory")
  | some pte =>
    let s ← PagingState.pageMap depth { s with bitmap := bitmap } (frameAddr pte.address)
      (kheapStart - pageSize - pageSize) true false
    .ok (pgdir, s)

/-- A directory that `clone_page_dir` returns, or that `spawn_init` makes, and the state at
that moment. -/
inductive NewPageDir (depth : Nat) (kernelPageDir : BitVec 32) (s : PagingState) :
    BitVec 32 → PagingState → Prop
  | clone {pde : BitVec 32} {s' : PagingState}
      (returned : clonePageDir depth kernelPageDir none s = .ok (pde, s')) :
      NewPageDir depth kernelPageDir s pde s'
  | spawn {pde : BitVec 32} {s' t : PagingState}
      (built : buildPageDir depth kernelPageDir s = .ok (pde, s'))
      (returned : spawnInitSpace depth kernelPageDir s = .ok (pde, t)) :
      NewPageDir depth kernelPageDir s pde s'

theorem NewPageDir.built {depth : Nat} {kernelPageDir pde : BitVec 32} {s s' : PagingState}
    (new : NewPageDir depth kernelPageDir s pde s') :
    buildPageDir depth kernelPageDir s = .ok (pde, s') := by
  cases new with
  | clone returned =>
    obtain ⟨⟨pde', t⟩, built, checked⟩ := bind_ok_iff.mp returned
    obtain ⟨_, -, same⟩ := bind_ok_iff.mp checked
    cases same
    exact built
  | spawn built => exact built

theorem buildPageDir_shares {depth : Nat} {kernelPageDir pde : BitVec 32} {s s' : PagingState}
    (ready : s.CloneReady kernelPageDir)
    (returned : buildPageDir depth kernelPageDir s = .ok (pde, s')) :
    ∃ e, s'.lookup (pageOf pde) = some e ∧ (s'.SharesKernel e.address ↔ s.TailClear) := by
  obtain ⟨⟨ret, t⟩, placed, -⟩ := bind_ok_iff.mp returned
  obtain ⟨-, -, -, f, least, -⟩ := (PagingState.pagingStructureAlloc_iff ready.slot.bound
    ready.slot.selfMap ready.slot.slot ready.slot.busy).mp placed
  obtain ⟨s'', returned', built⟩ := PagingState.buildPageDir_of_least depth ready least
  obtain ⟨rfl, rfl⟩ : s.placementHeap = pde ∧ s'' = s' := by
    rw [returned'] at returned
    cases returned
    exact ⟨rfl, rfl⟩
  obtain ⟨e, found, rfl⟩ := built.page.page
  exact ⟨e, found, built.sharesKernel_iff⟩

/-- A new directory shares the kernel's part of the address space exactly when the kernel has
no entries that the copied bytes do not reach. -/
theorem newPageDir_shares_iff (depth : Nat) (kernelPageDir pde : BitVec 32) (s s' : PagingState)
    (ready : s.CloneReady kernelPageDir) (new : NewPageDir depth kernelPageDir s pde s') :
    ∃ e, s'.lookup (pageOf pde) = some e ∧ (s'.SharesKernel e.address ↔ s.TailClear) :=
  buildPageDir_shares ready new.built

/-! ### After any run -/

namespace PagingState

variable {s s' : PagingState} {c : BitVec 32}

/-- The page at `c` is that of the loaded directory, through the table of the kernel. -/
structure KernelPage (s : PagingState) (c : BitVec 32) : Prop where
  aligned : isPageAligned c = true
  dirIndex : dirIndex c = 768
  present : (s.mem s.kernelTable (tableIndex c)).present = true
  address : (s.mem s.kernelTable (tableIndex c)).address = s.dir

theorem KernelPage.keep (page : s.KernelPage c) (dir : s'.dir = s.dir)
    (kernel : s'.mem s.dir 768 = s.mem s.dir 768)
    (entry : s'.mem s.kernelTable (tableIndex c) = s.mem s.kernelTable (tableIndex c)) :
    s'.KernelPage c := by
  have table : s'.kernelTable = s.kernelTable := by
    unfold kernelTable
    rw [dir, kernel]
  refine ⟨page.aligned, page.dirIndex, ?_, ?_⟩
  · rw [table, entry]
    exact page.present
  · rw [table, entry, dir]
    exact page.address

theorem KernelPage.cloneReady (page : s.KernelPage c) (inv : s.Placement)
    (room : s.placementHeap < 0xC0400000) : s.CloneReady c where
  slot := inv.slotReady room
  aligned := page.aligned
  table := by
    rw [page.dirIndex]
    exact ⟨inv.tables.kernel, rfl⟩
  page := ⟨page.present, page.address⟩

end PagingState

open PagingState in
/-- No step of a run takes the page of the directory away. -/
theorem PlacementStep.kernelPage {s s' : PagingState} {e : PlacementEvent} {c : BitVec 32}
    (inv : s.Placement) (step : PlacementStep s e s') (page : s.KernelPage c) :
    s'.KernelPage c := by
  have away := inv.tables.kernelTable_ne_dir
  have busy {f : Frame} (free : s.bitmap.testBit f.toNat = false) : f ≠ s.dir ∧ s.kernelTable ≠ f :=
    ⟨(inv.tables.busy free).1, fun same =>
      (inv.tables.busy free).2 768 ⟨inv.tables.kernel, same⟩⟩
  -- A slot of the placement heap is empty before it is taken.
  have different (room : s.placementHeap < 0xC0400000) :
      tableIndex c ≠ tableIndex s.placementHeap := by
    intro same
    have present := page.present
    rw [same, inv.slotEmpty room] at present
    cases present
  cases step with
  | map caller returned =>
    have room := inv.pageMap_room caller returned
    have mapped := pageMap_cases inv.tables (caller.dirIndex_ne 1023 (by decide))
      (room.imp_right fun room => (inv.slot_toNat room).1) returned
    cases mapped with
    | @entry table here allowed absent =>
      have apart := caller.kernelTable_ne inv.tables here
      exact page.keep rfl (write_of_frame_ne s.mem (Ne.symm here.apart))
        (write_of_frame_ne s.mem apart)
    | @table f absent allowed least slot =>
      have room := room.resolve_left (by simp [absent])
      obtain ⟨apart, kernel⟩ := busy least.1.2
      refine page.keep rfl ?_ ?_
      · rw [setMem_mem, write_of_frame_ne _ (Ne.symm apart), withTable_mem_dir away apart,
          if_neg (Ne.symm (caller.dirIndex_ne 768 (by decide)))]
      · rw [setMem_mem, write_of_frame_ne _ kernel]
        exact withTable_mem_slots away (Ne.symm kernel) (different room)
  | place returned =>
    by_cases room : s.placementHeap < 0xC0400000
    · have ready := inv.slotReady room
      obtain ⟨-, -, -, f, least, rfl⟩ :=
        (pagingStructureAlloc_iff ready.bound ready.selfMap ready.slot ready.busy).mp returned
      obtain ⟨apart, kernel⟩ := busy least.1.2
      exact page.keep rfl (withStructure_mem (Ne.symm away) (Ne.symm apart) 768)
        (withStructure_mem_slots (Ne.symm kernel) (different room))
    · exact ((inv.heapFull room).stops returned).elim
  | alloc => exact page.keep rfl rfl rfl

theorem BootTables.kernelPage {image : BootImage} {m : PhysMem} (boot : BootTables image m)
    (bitmap : Bitmap) : (BootTables.state image m bitmap).KernelPage image.pageDir := by
  have bounds := image.bounds
  have aligned := image.dir_aligned
  have frames := image.frames_toNat.1
  have last := image.realKernelEnd_toNat
  have index : (tableIndex image.pageDir).toNat = image.dirFrame.toNat := by
    rw [toNat_tableIndex]
    omega
  have kernel : (BootTables.state image m bitmap).kernelTable = image.tableFrame := by
    show (m image.dirFrame 768).address = _
    rw [boot.directory, if_pos (.inr rfl), address_bootEntry]
  have entry : m image.tableFrame (tableIndex image.pageDir) = bootEntry image.dirFrame := by
    rw [boot.table, if_pos (by unfold BootImage.lastPage; omega), index, bootEntry]
    congr 1
    apply BitVec.eq_of_toNat_eq
    rw [frameAddr_toNat, BitVec.toNat_ofNat]
    omega
  refine ⟨isPageAligned_iff.mpr aligned, dirIndex_high (BitVec.le_def.mpr ?_) (BitVec.lt_def.mpr ?_),
    ?_, ?_⟩
  · show 0xC0000000 ≤ image.pageDir.toNat
    omega
  · show image.pageDir.toNat < 0xC0400000
    omega
  · rw [kernel]
    show (m image.tableFrame (tableIndex image.pageDir)).present = true
    rw [entry, present_bootEntry]
  · rw [kernel]
    show (m image.tableFrame (tableIndex image.pageDir)).address = image.dirFrame
    rw [entry, address_bootEntry]

/-- In every state that a run on the tables of `boot.S` reaches, `g_kernel_page_dir` points to
the loaded directory. -/
theorem BootTables.run_cloneReady {image : BootImage} {m : PhysMem} (boot : BootTables image m)
    {bitmap : Bitmap} (inUse : KernelInUse image.toKernelImage bitmap)
    (zero : bitmap.testBit 0 = true) {events : List PlacementEvent} {s : PagingState}
    (run : Run.From PlacementStep (BootTables.state image m bitmap) events s)
    (room : s.placementHeap < 0xC0400000) : s.CloneReady image.pageDir := by
  have kept := run.invariant (fun _ s => s.Placement ∧ s.KernelPage image.pageDir)
    ⟨boot.placement inUse zero, boot.kernelPage bitmap⟩
    fun _ _ _ _ _ inv step => ⟨step.inv inv.1, step.kernelPage inv.1 inv.2⟩
  exact kept.2.cloneReady kept.1 room

theorem clonePageDir_returns (depth : Nat) {c : BitVec 32} {s : PagingState}
    (ready : s.CloneReady c) (some : s.bitmap.clearBits.Nonempty) :
    ∃ pde s', clonePageDir depth c none s = .ok (pde, s') := by
  obtain ⟨f, least⟩ := PagingState.exists_least_frame ready.slot.bound some
  obtain ⟨s', returned, -⟩ := PagingState.buildPageDir_of_least depth ready least
  refine ⟨s.placementHeap, s', bind_ok_iff.mpr ⟨_, returned, ?_⟩⟩
  exact bind_ok_iff.mpr ⟨(), kassert_ok.mpr ready.slot.aligned, rfl⟩

theorem lowInUse_zero : lowInUse.testBit 0 = true := (lowInUse_testBit 0).trans (by decide)

/-- After the first `page_map` into the kernel heap, a new directory lacks the heap. -/
theorem heapMapped_lost : ∃ m s pde s',
    initBootstrapPaging 1024 smallBoot (fun _ _ => 0) = .ok m ∧
    (BootTables.state smallBoot m lowInUse).pageMap 1 0x100000 kheapStart true false = .ok s ∧
    clonePageDir 0 smallBoot.pageDir none s = .ok (pde, s') ∧
    ∀ e, s'.lookup (pageOf pde) = some e → ¬s'.SharesKernel e.address := by
  obtain ⟨m, returned, boot⟩ := smallBoot_tables
  have absent : (m smallBoot.dirFrame (dirIndex kheapStart)).present = false := by
    rw [boot.directory, if_neg (by decide), if_neg (by decide)]
    rfl
  obtain ⟨s, mapped, mapping⟩ :=
    smallBoot_pageMap boot (v := kheapStart) (by decide) (by decide) absent
  have ready : s.CloneReady smallBoot.pageDir := by
    refine boot.run_cloneReady lowInUse_kernel lowInUse_zero
      (.single (.map ⟨by decide, by decide⟩ mapping)) ?_
    rw [mapped.heap, if_neg (by rw [show (BootTables.state smallBoot m lowInUse).mem
      (BootTables.state smallBoot m lowInUse).dir (dirIndex kheapStart) =
        m smallBoot.dirFrame (dirIndex kheapStart) from rfl, absent]; decide)]
    show pagingAllocatorInit smallImage + 0x1000 < 0xC0400000
    decide
  -- one frame of the free ones is taken
  have some : s.bitmap.clearBits.Nonempty := by
    have inside : 1025 < lowInUse.size := by decide
    refine ⟨1025, ?_⟩
    cases mapped with
    | entry => exact ⟨inside, (lowInUse_testBit 1025).trans (by decide)⟩
    | table absent allowed least slot =>
      refine ⟨inside, (Bitmap.testBit_setBit lowInUse _ _).trans ?_⟩
      rw [least.unique lowInUse_least, lowInUse_testBit]
      decide
  obtain ⟨pde, s', cloned⟩ := clonePageDir_returns 0 ready some
  refine ⟨m, s, pde, s', returned, mapping, cloned, fun e found shared => ?_⟩
  obtain ⟨e', found', shares⟩ := buildPageDir_shares ready (NewPageDir.clone cloned).built
  obtain rfl := Option.some.inj (found.symm.trans found')
  obtain ⟨old, mappedPage⟩ := mapped.lookup_self (boot.tables lowInUse_kernel)
  have present := (lookup_some mappedPage).1.1
  have clear : s.mem s.dir 832 = 0 := (shares.mp shared).2 832 (by decide) (by decide)
  rw [show (pageOf kheapStart).1 = 832 by decide, clear] at present
  cases present

/-- Before that, nothing is lost. -/
theorem smallBoot_shared : ∃ m pde s',
    initBootstrapPaging 1024 smallBoot (fun _ _ => 0) = .ok m ∧
    clonePageDir 0 smallBoot.pageDir none (BootTables.state smallBoot m lowInUse) = .ok (pde, s') ∧
    ∃ e, s'.lookup (pageOf pde) = some e ∧ s'.SharesKernel e.address := by
  obtain ⟨m, returned, boot⟩ := smallBoot_tables
  have ready : (BootTables.state smallBoot m lowInUse).CloneReady smallBoot.pageDir := by
    refine boot.run_cloneReady lowInUse_kernel lowInUse_zero .nil ?_
    show pagingAllocatorInit smallImage < 0xC0400000
    decide
  obtain ⟨pde, s', cloned⟩ := clonePageDir_returns 0 ready ⟨_, lowInUse_least.1⟩
  obtain ⟨e, found, shares⟩ := newPageDir_shares_iff 0 smallBoot.pageDir pde _ s' ready
    (.clone cloned)
  refine ⟨m, pde, s', returned, cloned, e, found, shares.mpr ⟨?_, fun i first last => ?_⟩⟩
  · show (m smallBoot.dirFrame 831).byte 3 = 0
    rw [boot.directory, if_neg (by decide), if_neg (by decide)]
    exact Entry.byte_zero 3
  · show m smallBoot.dirFrame i = 0
    rw [boot.directory, if_neg, if_neg]
    · rintro rfl
      exact absurd last (by decide)
    · rintro (rfl | rfl)
      · exact absurd first (by decide)
      · exact absurd first (by decide)

end Treeos
