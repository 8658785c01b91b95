import Mathlib.Data.Set.Card
import Mathlib.Order.Interval.Finset.Nat
import Treeos.Pmm.Accesses
import Treeos.Vmm.HeapBytes

/-!
# When `liballoc_alloc` returns

A request is met as long as there are frames for its pages and for the table of the heap, and
the heap stays below its maximal size. Otherwise the kernel stops with one of two messages.
-/
namespace Treeos

open PageTable PagingState KernelHeap

/-- There is a table for the heap, or a slot for it, and nothing is mapped behind the heap. -/
structure HeapReady (s₀ : PagingState) : Prop where
  slot : s₀.HasSlot kheapStart
  behind : s₀.lookup (pageOf (kheapStart + kheapMaxSize)) = none

/-- The number of frames that are free. -/
noncomputable def Bitmap.freeCount (bm : Bitmap) : Nat := bm.clearBits.ncard

/-- The frames that a table of the heap needs, if it has none. -/
def KernelHeap.tableCount (h : KernelHeap) : Nat :=
  if (h.paging.mem h.paging.dir (dirIndex kheapStart)).present then 0 else 1

/-- There are frames for `count` pages and for a table, and room in the heap. -/
def KernelHeap.Meets (h : KernelHeap) (count : Nat) : Prop :=
  count + h.tableCount ≤ h.paging.bitmap.freeCount ∧ h.kheap.size.toNat + 4096 * count ≤ 0x100000

/-- Why `liballoc_alloc` does not give out `count` pages, and what the kernel says then. -/
inductive KernelHeap.Refuses (h : KernelHeap) (count : Nat) : Panic → Prop
  | noFrames (few : h.paging.bitmap.freeCount < count + h.tableCount) :
      h.Refuses count (.msg "out of memory")
  | noRoom (large : 0x100000 < h.kheap.size.toNat + 4096 * count) :
      h.Refuses count (.msg "maximum kernel heap size exceeded")

variable {s₀ s s' : PagingState} {h h' : KernelHeap} {depth count : Nat} {bm : Bitmap} {bit : Nat}
variable {physaddr v : BitVec 32} {rw user : Bool}

theorem KernelHeap.Refuses.not_meets {e : Panic} (refused : h.Refuses count e) :
    ¬h.Meets count := by
  rintro ⟨frames, room⟩
  cases refused <;> omega

theorem KernelHeap.Refuses.mono {e : Panic} {n : Nat} (refused : h.Refuses count e)
    (more : count ≤ n) : h.Refuses n e := by
  cases refused with
  | noFrames few => exact .noFrames (few.trans_le (Nat.add_le_add_right more _))
  | noRoom large =>
    exact .noRoom (large.trans_le (Nat.add_le_add_left (Nat.mul_le_mul_left 4096 more) _))

theorem Bitmap.clearBits_finite (bm : Bitmap) : bm.clearBits.Finite :=
  (Set.finite_lt_nat bm.size).subset fun _ clear => clear.1

theorem Bitmap.freeCount_eq_zero_iff : bm.freeCount = 0 ↔ bm.clearBits = ∅ :=
  Set.ncard_eq_zero bm.clearBits_finite

/-- A range of frames that are all free -/
theorem Bitmap.le_freeCount (low count : Nat)
    (free : ∀ f, low ≤ f → f < low + count → f ∈ bm.clearBits) : count ≤ bm.freeCount := by
  have inside : (↑(Finset.Ico low (low + count)) : Set Nat) ⊆ bm.clearBits := by
    intro f member
    rw [Finset.coe_Ico, Set.mem_Ico] at member
    exact free f member.1 member.2
  have many := Set.ncard_le_ncard inside bm.clearBits_finite
  rw [Set.ncard_coe_finset, Nat.card_Ico, Nat.add_sub_cancel_left] at many
  exact many

/-- A frame that is taken was one of the free ones. -/
theorem Bitmap.freeCount_setBit (clear : bit ∈ bm.clearBits) :
    (bm.setBit bit).freeCount + 1 = bm.freeCount := by
  have some := (Set.ncard_pos bm.clearBits_finite).mpr ⟨bit, clear⟩
  have less := Set.ncard_sdiff_singleton_of_mem clear
  unfold Bitmap.freeCount
  rw [clearBits_setBit, less]
  omega

/-- An unmapped page is mapped if there is a table for it, or a frame for one. -/
theorem PagingState.KernelSpace.pageMapped (space : s.KernelSpace) (page : CallerPage v)
    (slot : s.HasSlot v) (allowed : s.MapAllowed physaddr v)
    (unmapped : s.lookup (pageOf v) = none)
    (frames : (s.mem s.dir (dirIndex v)).present = true ∨ s.bitmap.clearBits.Nonempty) :
    ∃ s', s.PageMapped physaddr v rw user s' := by
  have tables := space.tables
  cases present : (s.mem s.dir (dirIndex v)).present with
  | true =>
    have table := tables.tableAt (page.dirIndex_ne 1023 (by decide)) present
    refine ⟨_, .entry table allowed ?_⟩
    by_contra here
    have found : s.lookup (pageOf v) = some _ :=
      (lookup_eq_some table.uses).mpr ⟨Bool.not_eq_false _ ▸ here, rfl⟩
    rw [unmapped] at found
    cases found
  | false =>
    obtain ⟨f, least⟩ := exists_least_frame tables.bound (frames.resolve_left (by simp [present]))
    have room := slot.resolve_left (by simp [present])
    exact ⟨_, .table present allowed least (space.placement.slotEmpty room)⟩

/-- A new table takes a frame. -/
theorem PagingState.PageMapped.freeCount (mapped : s.PageMapped physaddr v rw user s') :
    s'.bitmap.freeCount + (if (s.mem s.dir (dirIndex v)).present then 0 else 1) =
      s.bitmap.freeCount := by
  cases mapped with
  | entry here allowed absent =>
    have present : (s.mem s.dir (dirIndex v)).present = true := here.uses.1
    rw [if_pos present]
    rfl
  | @table f absent allowed least slot =>
    rw [if_neg (by simp [absent])]
    exact Bitmap.freeCount_setBit least.1

/-- What the loop body of `liballoc_alloc` does, by what is left of the frames and the heap. -/
inductive PageEnds (h : KernelHeap) : Except Panic KernelHeap → Prop
  | grown {h' : KernelHeap} (frames : h'.paging.bitmap.freeCount + (1 + h.tableCount) =
        h.paging.bitmap.freeCount) (size : h'.kheap.size.toNat = h.kheap.size.toNat + 4096)
      (room : h.kheap.size.toNat + 4096 ≤ 0x100000) (table : h'.tableCount = 0) :
      PageEnds h (.ok h')
  | refused {e : Panic} (refused : h.Refuses 1 e) : PageEnds h (.error e)

/-- The size is looked at after the page has been mapped. -/
theorem Leased.pageEnds {leases : List Lease} (inv : Leased s₀ h leases)
    (frames : s'.bitmap.freeCount + (1 + h.tableCount) = h.paging.bitmap.freeCount)
    (present : (s'.mem s'.dir (dirIndex kheapStart)).present = true) :
    PageEnds h (do
      panicIf (kheapMaxSize < h.kheap.size + 0x1000) "maximum kernel heap size exceeded"
      .ok { h with paging := s', kheap := { h.kheap with size := h.kheap.size + 0x1000 } }) := by
  have small := inv.size.1
  have grown : (h.kheap.size + 0x1000).toNat = h.kheap.size.toNat + 4096 := by
    rw [BitVec.toNat_add]
    show (_ + 4096) % 2 ^ 32 = _
    omega
  by_cases fits : h.kheap.size.toNat + 4096 ≤ 0x100000
  · have passed : decide (kheapMaxSize < h.kheap.size + 0x1000) = false := by
      rw [decide_eq_false_iff_not, BitVec.lt_def, grown]
      exact Nat.not_lt.mpr fits
    rw [passed]
    refine .grown frames grown fits ?_
    unfold KernelHeap.tableCount
    rw [if_pos present]
  · have exceeded : decide (kheapMaxSize < h.kheap.size + 0x1000) = true := by
      rw [decide_eq_true_iff, BitVec.lt_def, grown]
      exact Nat.lt_of_not_le fits
    rw [exceeded]
    exact .refused (.noRoom (Nat.lt_of_not_le fits))

theorem HeapGrown.pageEnds (inv : HeapGrown s₀ h) (depth : Nat) (ready : HeapReady s₀) :
    PageEnds h (h.allocPage (depth + 1)) := by
  obtain ⟨leases, leased⟩ := inv.leased
  obtain ⟨page, index, aligned⟩ := leased.nextPage
  have unmapped := inv.next_unmapped leased ready.behind
  have bound := leased.space.tables.bound
  unfold KernelHeap.allocPage
  by_cases some : h.paging.bitmap.clearBits.Nonempty
  · obtain ⟨f, least⟩ := exists_least_frame bound some
    obtain ⟨pte, taken, frame⟩ := pageAlloc_of_least bound least 0
    have space := (KernelStep.call (.alloc taken)).inv leased.space
    have taken' := Bitmap.freeCount_setBit least.1
    rw [taken, ok_bind]
    dsimp only
    generalize inState :
      ({ h.paging with bitmap := h.paging.bitmap.setBit f.toNat } : PagingState) = t at space
    have bitmap : t.bitmap = h.paging.bitmap.setBit f.toNat := by rw [← inState]
    have entry : t.mem t.dir (dirIndex kheapStart) =
        h.paging.mem h.paging.dir (dirIndex kheapStart) := by rw [← inState]
    have allowed : t.MapAllowed (frameAddr pte.address) (h.kheap.base + h.kheap.size) := by
      refine ⟨isPageAligned_frameAddr _, aligned, ?_⟩
      rw [frameAddr_shift, frame, bitmap]
      exact h.paging.bitmap.testBit_setBit_self _
    have slot : t.HasSlot (h.kheap.base + h.kheap.size) := by
      unfold HasSlot
      rw [index, ← inState]
      exact inv.slot
    have unmapped' : t.lookup (pageOf (h.kheap.base + h.kheap.size)) = none := by
      rw [← inState]
      exact unmapped
    by_cases frames : (t.mem t.dir (dirIndex (h.kheap.base + h.kheap.size))).present = true ∨
        t.bitmap.clearBits.Nonempty
    · obtain ⟨s', mapped⟩ : ∃ s', t.PageMapped (frameAddr pte.address)
          (h.kheap.base + h.kheap.size) true false s' :=
        space.pageMapped page slot allowed unmapped' frames
      have inside := slot.imp_right fun room => (space.placement.slot_toNat room).1
      have returned := mapped.returned space.tables (page.dirIndex_ne 1023 (by decide))
        space.placement.aligned inside depth
      rw [returned, ok_bind]
      have count := mapped.freeCount
      rw [index, entry, bitmap] at count
      refine leased.pageEnds ?_ ?_
      · unfold KernelHeap.tableCount
        omega
      · obtain ⟨e, found⟩ := mapped.lookup_self space.tables
        rw [← index]
        exact (lookup_some found).1.1
    · obtain ⟨absent, full⟩ := not_or.mp frames
      rw [space.pageMap_full page (Bool.not_eq_true _ ▸ absent) allowed
        (Set.not_nonempty_iff_eq_empty.mp full) depth]
      refine .refused (.noFrames ?_)
      have none := Bitmap.freeCount_eq_zero_iff.mpr (Set.not_nonempty_iff_eq_empty.mp full)
      rw [bitmap] at none
      rw [index, entry] at absent
      unfold KernelHeap.tableCount
      rw [if_neg absent]
      omega
  · have full := Set.not_nonempty_iff_eq_empty.mp some
    obtain ⟨bm, none⟩ := (@pageAlloc_none_iff _ 0 bound).mpr full
    rw [none]
    refine .refused (.noFrames ?_)
    rw [Bitmap.freeCount_eq_zero_iff.mpr full]
    omega

theorem HeapGrown.allocPages_ends (inv : HeapGrown s₀ h) (depth : Nat) (ready : HeapReady s₀)
    (count : Nat) :
    (∃ h', h.allocPages (depth + 1) count = .ok h' ∧ (0 < count → h.Meets count)) ∨
      ∃ e, h.allocPages (depth + 1) count = .error e ∧ h.Refuses count e := by
  induction count generalizing h with
  | zero => exact .inl ⟨h, rfl, nofun⟩
  | succ count ih =>
    have page := inv.pageEnds depth ready
    unfold KernelHeap.allocPages
    generalize inState : h.allocPage (depth + 1) = result at page
    cases page with
    | @grown h₁ frames size room table =>
      rcases ih (inv.allocPage inState) with ⟨h', rest, meets⟩ | ⟨e, stopped, refused⟩
      · refine .inl ⟨h', rest, fun _ => ?_⟩
        unfold KernelHeap.Meets at meets ⊢
        by_cases more : 0 < count
        · obtain ⟨frames', size'⟩ := meets more
          omega
        · omega
      · refine .inr ⟨e, stopped, ?_⟩
        cases refused with
        | noFrames few =>
          have more : h.paging.bitmap.freeCount < count + 1 + h.tableCount := by omega
          exact .noFrames more
        | noRoom large =>
          have more : 0x100000 < h.kheap.size.toNat + 4096 * (count + 1) := by omega
          exact .noRoom more
    | @refused e refused =>
      exact .inr ⟨e, rfl, refused.mono (Nat.le_add_left 1 count)⟩

/-- Pages take a frame each, and the first ones take another one if the heap has no table. -/
theorem HeapGrown.allocPages_frames (inv : HeapGrown s₀ h) (ready : HeapReady s₀)
    (returned : h.allocPages (depth + 1) count = .ok h') :
    h'.paging.bitmap.freeCount + count + h.tableCount =
      h.paging.bitmap.freeCount + h'.tableCount := by
  induction count generalizing h with
  | zero =>
    cases returned
    rfl
  | succ count ih =>
    obtain ⟨h₁, first, rest⟩ := bind_ok_iff.mp returned
    have page := inv.pageEnds depth ready
    rw [first] at page
    cases page with
    | grown frames size room table =>
      have others := ih (inv.allocPage first) rest
      omega

/-- A request returns exactly when there are frames and room for it, and stops with one of the
two messages otherwise. -/
theorem HeapGrown.liballocAlloc_ends (inv : HeapGrown s₀ h) (depth : Nat) (ready : HeapReady s₀)
    {pages : BitVec 32} (some : pages ≠ 0) :
    (∃ r, h.liballocAlloc (depth + 1) pages = .ok r ∧ h.Meets pages.toNat) ∨
      ∃ e, h.liballocAlloc (depth + 1) pages = .error e ∧ h.Refuses pages.toNat e := by
  unfold KernelHeap.liballocAlloc
  rw [if_neg some]
  have count : 0 < pages.toNat := Nat.pos_of_ne_zero fun zero => some (BitVec.eq_of_toNat_eq zero)
  rcases inv.allocPages_ends depth ready pages.toNat with
    ⟨h', looped, meets⟩ | ⟨e, stopped, refused⟩
  · exact .inl ⟨_, bind_ok_iff.mpr ⟨h', looped, rfl⟩, meets count⟩
  · exact .inr ⟨e, bind_error_iff.mpr (.inl stopped), refused⟩

/-! ### Stores and `liballoc_free` -/

/-- The directory, the placement heap and the pages outside of the heap are the same. -/
structure SameOutside (s s' : PagingState) : Prop where
  entry : ∀ i, s'.mem s'.dir i = s.mem s.dir i
  placementHeap : s'.placementHeap = s.placementHeap
  other : ∀ w, CallerPage w → ¬HeapAddress w → s'.lookup (pageOf w) = s.lookup (pageOf w)

theorem SameOutside.refl (s : PagingState) : SameOutside s s :=
  ⟨fun _ => rfl, rfl, fun _ _ _ => rfl⟩

theorem SameOutside.trans {t : PagingState} (first : SameOutside s s') (second : SameOutside s' t) :
    SameOutside s t := by
  refine ⟨fun i => (second.entry i).trans (first.entry i),
    second.placementHeap.trans first.placementHeap, fun w caller outside => ?_⟩
  rw [second.other w caller outside, first.other w caller outside]

theorem HeapGrown.keep (inv : HeapGrown s₀ h) {leases : List Lease} (leased : Leased s₀ h' leases)
    (same : SameOutside h.paging h'.paging) : HeapGrown s₀ h' := by
  refine ⟨⟨leases, leased⟩, ?_, fun w caller outside => ?_⟩
  · rw [same.entry, same.placementHeap]
    exact inv.table
  · rw [same.other w caller outside, inv.other w caller outside]

theorem Leased.store_outside (start : s₀.KernelSpace) {leases : List Lease} {l : Lease}
    (inv : Leased s₀ h leases) (member : l ∈ leases) (i : BitVec 10) (w : Entry) :
    SameOutside h.paging (h.paging.setMem (write h.paging.mem l.frame i w)) := by
  obtain ⟨-, lookups⟩ := inv.store start member i w
  have apart : h.paging.dir ≠ l.frame := fun same =>
    inv.unused start member 1023 inv.space.tables.selfMap.1
      (inv.space.tables.selfMap.2.trans same)
  exact ⟨fun j => write_of_frame_ne _ apart, rfl, fun w _ _ => lookups _⟩

theorem Leased.freePage_outside {leases : List Lease} {l : Lease}
    (inv : Leased s₀ h (l :: leases)) (returned : h.freePage l.page = .ok h') :
    SameOutside h.paging h'.paging := by
  have address := inv.heapAddress List.mem_cons_self
  have page := address.callerPage
  obtain ⟨table, s₁, here, -, rfl, rfl⟩ := inv.freePage_cases returned
  refine ⟨fun i => write_of_frame_ne _ (Ne.symm here.apart), rfl, fun w caller outside => ?_⟩
  refine inv.space.tables.lookup_other here fun same => outside ?_
  exact address.samePage (aliases_high caller.low_le page.low_le same).symm

theorem Leased.freePages_outside (start : s₀.KernelSpace) {leases ended : List Lease}
    {block : BitVec 32} (inv : Leased s₀ h (ended ++ leases))
    (pages : ended.map Lease.page = pagesFrom block count)
    (returned : KernelHeap.freePages block count h = .ok h') :
    SameOutside h.paging h'.paging := by
  refine inv.freePages_rel start (R := fun h h' => SameOutside h.paging h'.paging) ?_ ?_ ?_ pages
    returned
  · intro h
    exact .refl _
  · intro h₁ h₂ h₃ first second
    exact first.trans second
  · intro h₁ h₂ l rest inv' _ freed
    exact inv'.freePage_outside freed

theorem HeapGrown.free {t : HeapHistory} (inv : HeapGrown s₀ t.heap) (start : s₀.KernelSpace)
    (history : HeapInv s₀ t) {b : Block} {r : BitVec 32} (member : b ∈ t.live)
    (returned : t.heap.liballocFree b.start b.pages = .ok (r, h')) : HeapGrown s₀ h' := by
  have order : t.live.Perm (b :: t.live.erase b) := List.perm_cons_erase member
  have leased : Leased s₀ t.heap (b.leases ++ (t.live.erase b).flatMap Block.leases) :=
    history.leased.perm (order.flatMap_right _)
  have shape := history.shape b (List.mem_append_left _ member)
  have looped := freePages_of_liballocFree returned
  obtain ⟨leased', -, -⟩ := leased.freePages start shape looped
  exact inv.keep leased' (leased.freePages_outside start shape looped)

/-- Before the first call. -/
theorem HeapReady.grown_empty (ready : HeapReady s₀) (start : s₀.KernelSpace)
    (unmapped : ∀ v, HeapAddress v → s₀.lookup (pageOf v) = none) :
    HeapGrown s₀ (emptyHeap s₀).heap := by
  refine ⟨⟨[], leased_empty start unmapped⟩, ?_, fun _ _ _ => rfl⟩
  rcases ready.slot with present | room
  · exact .inl ⟨present, Nat.le_add_right _ _⟩
  · exact .inr ⟨room, rfl⟩

end Treeos
