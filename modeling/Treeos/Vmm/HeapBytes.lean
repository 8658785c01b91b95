import Treeos.Proc.PageDir
import Treeos.Vmm.HeapFree
import Treeos.Vmm.HeapUse

/-!
# What is in the heap pages

A page of the heap is in the frame of its lease, and neither `liballoc_alloc` nor
`liballoc_free` changes what the frames of the other pages hold.
-/
namespace Treeos

open PageTable PagingState KernelHeap

variable {s₀ : PagingState} {h h' : KernelHeap} {leases ended : List Lease} {l : Lease}
variable {depth count : Nat} {v w block : BitVec 32} {b : BitVec 8}

theorem PagingState.loadByte_of_lookup {s : PagingState} {e : Entry}
    (found : s.lookup (pageOf v) = some e) :
    s.loadByte v = .ok ((s.mem e.address (wordIndex v)).byte (v &&& 3).toNat) := by
  unfold PagingState.loadByte
  rw [loadWord_of_lookup found, ok_bind]

theorem PagingState.loadByte_of_none {s : PagingState} (absent : s.lookup (pageOf v) = none) :
    s.loadByte v = .error (.pageFault v) := by
  unfold PagingState.loadByte
  rw [loadWord_of_none absent]
  rfl

theorem PagingState.storeByte_of_lookup {s : PagingState} {e : Entry}
    (found : s.lookup (pageOf v) = some e) :
    s.storeByte v b = .ok (s.setMem (write s.mem e.address (wordIndex v)
      ((s.mem e.address (wordIndex v)).setByte (v &&& 3).toNat b))) := by
  unfold PagingState.storeByte updateWord
  rw [loadWord_of_lookup found, ok_bind, storeWord_of_lookup found]

theorem toNat_and_3 (v : BitVec 32) : (v &&& 3).toNat = v.toNat % 4 := by
  rw [BitVec.toNat_and]
  exact Nat.and_two_pow_sub_one_eq_mod v.toNat 2

/-- An address is its page, the word in it, and the byte in the word. -/
theorem address_eq (page : pageOf v = pageOf w) (word : wordIndex v = wordIndex w)
    (byte : (v &&& 3).toNat = (w &&& 3).toNat) : v = w := by
  have index := congrArg BitVec.toNat word
  rw [toNat_wordIndex, toNat_wordIndex] at index
  rw [toNat_and_3, toNat_and_3] at byte
  rw [pageOf_eq_iff] at page
  apply BitVec.eq_of_toNat_eq
  omega

/-- The byte at `v`, which is in the page of a lease. -/
theorem Leased.loadByte (inv : Leased s₀ h leases) (member : l ∈ leases)
    (page : pageOf v = pageOf l.page) :
    h.paging.loadByte v = .ok ((h.paging.mem l.frame (wordIndex v)).byte (v &&& 3).toNat) := by
  obtain ⟨e, found, frame, -⟩ := inv.mapped l member
  rw [← page] at found
  rw [loadByte_of_lookup found, frame]

theorem Leased.storeByte (inv : Leased s₀ h leases) (member : l ∈ leases)
    (page : pageOf v = pageOf l.page) : h.paging.storeByte v b =
      .ok (h.paging.setMem (write h.paging.mem l.frame (wordIndex v)
        ((h.paging.mem l.frame (wordIndex v)).setByte (v &&& 3).toNat b))) := by
  obtain ⟨e, found, frame, -⟩ := inv.mapped l member
  rw [← page] at found
  rw [storeByte_of_lookup found, frame]

/-! ### `liballoc_alloc` -/

/-- `page_map` writes to its tables only. -/
theorem PagingState.PageMapped.mem_other {s s' : PagingState} {physaddr : BitVec 32}
    {rw user : Bool} {f : Frame} (mapped : s.PageMapped physaddr v rw user s') (tables : s.Tables)
    (used : s.bitmap.testBit f.toNat = true)
    (unused : ∀ i, (s.mem s.dir i).present = true → (s.mem s.dir i).address ≠ f) :
    s'.mem f = s.mem f := by
  have kernel : f ≠ s.kernelTable := (unused 768 tables.kernel).symm
  have dir : f ≠ s.dir := fun same =>
    unused 1023 tables.selfMap.1 (tables.selfMap.2.trans same.symm)
  funext i
  cases mapped with
  | @entry table here allowed absent =>
    apply write_of_frame_ne
    intro same
    exact unused _ here.uses.1 (here.uses.2.trans same.symm)
  | @table g absent allowed least slot =>
    have other : f ≠ g := by
      rintro rfl
      have clear := least.1.2
      rw [used] at clear
      cases clear
    show write (s.withTable v s.kernelTable g).mem g _ _ f i = _
    rw [write_of_frame_ne _ other]
    show fill (write (write s.mem s.dir _ _) s.kernelTable _ _) g 0 f i = _
    rw [fill_of_ne _ other, write_of_frame_ne _ kernel, write_of_frame_ne _ dir]

/-- A new page leaves the frames of the others alone. -/
theorem Leased.allocPage_mem (start : s₀.KernelSpace) (inv : Leased s₀ h leases)
    (returned : h.allocPage depth = .ok h') (member : l ∈ leases) :
    h'.paging.mem l.frame = h.paging.mem l.frame := by
  obtain ⟨f, t, s', least, taken, step, mapping, fits, rfl⟩ :=
    allocPage_cases returned inv.space.tables.bound
  obtain ⟨-, -, address⟩ := inv.next_inside fits
  have page := address.callerPage
  have space : t.KernelSpace := (KernelStep.call step).inv inv.space
  have inside := space.placement.pageMap_room page mapping
  have mapped := pageMap_cases space.tables (page.dirIndex_ne 1023 (by decide))
    (inside.imp_right fun room => (space.placement.slot_toNat room).1) mapping
  have used : t.bitmap.testBit l.frame.toNat = true := by
    rw [taken]
    show (h.paging.bitmap.setBit f.toNat).testBit _ = true
    rw [Bitmap.testBit_setBit, (inv.bits _).mpr (.inr (.inl ⟨l, member, rfl⟩)), Bool.or_true]
  have unused := inv.unused start member
  have kept := mapped.mem_other space.tables used (by rw [taken]; exact unused)
  rw [taken] at kept
  exact kept

theorem Leased.allocPages_mem (start : s₀.KernelSpace) (inv : Leased s₀ h leases)
    (returned : h.allocPages depth count = .ok h') (member : l ∈ leases) :
    h'.paging.mem l.frame = h.paging.mem l.frame := by
  induction count generalizing h leases with
  | zero =>
    cases returned
    rfl
  | succ count ih =>
    obtain ⟨h₁, first, rest⟩ := bind_ok_iff.mp returned
    obtain ⟨f, leased, -⟩ := inv.allocPage first
    rw [ih leased rest (List.mem_cons_of_mem _ member)]
    exact inv.allocPage_mem start first member

theorem allocPages_of_liballocAlloc {pages : BitVec 32} (some : pages ≠ 0)
    (returned : h.liballocAlloc depth pages = .ok (block, h')) :
    h.allocPages depth pages.toNat = .ok h' := by
  unfold liballocAlloc at returned
  rw [if_neg some] at returned
  obtain ⟨h₁, looped, done⟩ := bind_ok_iff.mp returned
  cases done
  exact looped

/-! ### `liballoc_free` -/

theorem Leased.freePage_mem (start : s₀.KernelSpace) {l' : Lease}
    (inv : Leased s₀ h (l :: leases)) (returned : h.freePage l.page = .ok h')
    (member : l' ∈ leases) : h'.paging.mem l'.frame = h.paging.mem l'.frame := by
  obtain ⟨table, s₁, here, -, rfl, rfl⟩ := inv.freePage_cases returned
  have unused := inv.unused start (List.mem_cons_of_mem _ member)
  funext i
  apply write_of_frame_ne
  intro same
  exact unused _ here.uses.1 (here.uses.2.trans same.symm)

/-- What each page that the loop frees keeps, the loop keeps. -/
theorem Leased.freePages_rel (start : s₀.KernelSpace) {R : KernelHeap → KernelHeap → Prop}
    (refl : ∀ h, R h h) (trans : ∀ h₁ h₂ h₃, R h₁ h₂ → R h₂ h₃ → R h₁ h₃)
    (each : ∀ h₁ h₂ l rest, Leased s₀ h₁ (l :: rest) → leases ⊆ rest →
      h₁.freePage l.page = .ok h₂ → R h₁ h₂)
    (inv : Leased s₀ h (ended ++ leases)) (pages : ended.map Lease.page = pagesFrom block count)
    (returned : KernelHeap.freePages block count h = .ok h') : R h h' := by
  induction count generalizing h ended with
  | zero =>
    cases returned
    exact refl _
  | succ count ih =>
    rw [pagesFrom_snoc, List.map_eq_append_iff] at pages
    obtain ⟨front, last, rfl, before, single⟩ := pages
    obtain ⟨l', rfl, here⟩ := List.map_eq_singleton_iff.mp single
    obtain ⟨h₁, first, rest⟩ := bind_ok_iff.mp returned
    rw [← here] at first
    have order : (front ++ [l'] ++ leases).Perm (l' :: (front ++ leases)) := by
      rw [List.append_assoc]
      exact List.perm_middle
    have inv' := inv.perm order
    obtain ⟨leased, -, -⟩ := inv'.freePage start first
    exact trans h h₁ h' (each h h₁ l' _ inv' (List.subset_append_right _ _) first)
      (ih leased before rest)

theorem Leased.freePages_mem (start : s₀.KernelSpace) (inv : Leased s₀ h (ended ++ leases))
    (pages : ended.map Lease.page = pagesFrom block count)
    (returned : KernelHeap.freePages block count h = .ok h') :
    ∀ l ∈ leases, h'.paging.mem l.frame = h.paging.mem l.frame := by
  refine inv.freePages_rel start (R := fun h h' => ∀ l ∈ leases,
    h'.paging.mem l.frame = h.paging.mem l.frame) ?_ ?_ ?_ pages returned
  · intro h l _
    rfl
  · intro h₁ h₂ h₃ first second l member
    rw [second l member, first l member]
  · intro h₁ h₂ l rest inv' subset freed l' member
    exact inv'.freePage_mem start freed (subset member)

/-- A call that returns has been through its loop. -/
theorem freePages_of_liballocFree {pages r : BitVec 32}
    (returned : h.liballocFree block pages = .ok (r, h')) :
    KernelHeap.freePages block pages.toNat h = .ok h' := by
  unfold liballocFree at returned
  obtain ⟨-, returned⟩ := kassert_bind_ok_iff.mp returned
  obtain ⟨-, returned⟩ := kassert_bind_ok_iff.mp returned
  split at returned
  next zero =>
    cases returned
    rw [zero]
    rfl
  next =>
    obtain ⟨-, returned⟩ := panicIf_bind_ok_iff.mp returned
    obtain ⟨h₁, looped, done⟩ := bind_ok_iff.mp returned
    cases done
    exact looped

/-- The other blocks hold what they held. -/
theorem HeapInv.free_mem {t : HeapHistory} (start : s₀.KernelSpace) (inv : HeapInv s₀ t)
    {b : Block} {r : BitVec 32} (member : b ∈ t.live)
    (returned : t.heap.liballocFree b.start b.pages = .ok (r, h'))
    (other : l ∈ (t.live.erase b).flatMap Block.leases) :
    h'.paging.mem l.frame = t.heap.paging.mem l.frame := by
  have order : t.live.Perm (b :: t.live.erase b) := List.perm_cons_erase member
  have leased : Leased s₀ t.heap (b.leases ++ (t.live.erase b).flatMap Block.leases) :=
    inv.leased.perm (order.flatMap_right _)
  exact leased.freePages_mem start (inv.shape b (List.mem_append_left _ member))
    (freePages_of_liballocFree returned) l other

/-- A block that has been allocated can be freed. -/
theorem HeapInv.free_returns {t : HeapHistory} (inv : HeapInv s₀ t) {b : Block}
    (member : b ∈ t.live) (some : b.pages ≠ 0) :
    ∃ r h', t.heap.liballocFree b.start b.pages = .ok (r, h') := by
  have listed := List.mem_append_left t.freed member
  have count : 0 < b.pages.toNat := Nat.pos_of_ne_zero fun zero => some (BitVec.eq_of_toNat_eq zero)
  have sound := inv.leased.sound
  obtain ⟨l₀, lease₀, page₀, value₀⟩ := inv.block listed 0 count
  have whole := inv.leased.size.2
  have base : kheapStart.toNat = 0xD0000000 := rfl
  have heap : (t.heap.kheap.base + t.heap.kheap.size).toNat =
      kheapStart.toNat + t.heap.kheap.size.toNat := inv.leased.next
  obtain ⟨aligned₀, low₀, high₀⟩ := inv.inside b listed l₀ lease₀
  have first : l₀.page = b.start := by
    rw [page₀]
    exact BitVec.add_zero _
  rw [first] at aligned₀ low₀ high₀
  have nonzero : b.start ≠ 0 := by
    intro zero
    rw [zero] at low₀
    exact absurd low₀ (by decide)
  have passed : ¬t.heap.kheap.base + t.heap.kheap.size < b.start := by
    rw [BitVec.lt_def, heap]
    omega
  have each (k : Nat) (small : k < b.pages.toNat) :
      t.heap.InHeap (blockPage b.start k) ∧
        t.heap.paging.lookup (pageOf (blockPage b.start k)) ≠ none := by
    obtain ⟨l, lease, page, value⟩ := inv.block listed k small
    obtain ⟨aligned, low, high⟩ := inv.inside b listed l lease
    rw [isPageAligned_iff] at aligned
    obtain ⟨e, found, -⟩ := inv.leased.mapped l (List.mem_flatMap.mpr ⟨b, member, lease⟩)
    constructor
    · unfold InHeap blockPage
      rw [← page, inv.leased.base]
      constructor <;> omega
    · unfold blockPage
      rw [← page, found]
      nofun
  obtain ⟨h', looped⟩ := (freePages_inside_iff sound aligned₀ fun k small => (each k small).1).mpr
    fun k small => (each k small).2
  refine ⟨0, h', ?_⟩
  rw [(liballocFree_loop aligned₀ nonzero some passed).1]
  exact bind_ok_iff.mpr ⟨h', looped, rfl⟩

/-! ### A page that is freed again -/

theorem smallBoot_free {m : PhysMem} (boot : BootTables smallBoot m) : ∃ t,
    Run.From HeapStep (emptyHeap (BootTables.state smallBoot m lowInUse))
      [.alloc 1 kheapStart, .free kheapStart 1] t ∧ t.live = [] ∧ t.freed.map Block.pages = [1] := by
  have start := boot.kernelSpace lowInUse_kernel lowInUse_zero
  obtain ⟨h, allocated⟩ := smallBoot_alloc boot
  have inv := (emptyHeap_inv start fun v inside => boot.unmapped lowInUse inside.callerPage).alloc
    allocated
  have some : (1 : BitVec 32) ≠ 0 := by decide
  obtain ⟨r, h', freed⟩ := inv.free_returns List.mem_cons_self some
  refine ⟨_, (Run.From.single (.alloc allocated)).snoc _ (.free List.mem_cons_self freed), ?_, rfl⟩
  exact List.erase_cons_head _ []

/-- The heap owns nothing of it. -/
theorem smallBoot_owned : ∃ m t, initBootstrapPaging 1024 smallBoot (fun _ _ => 0) = .ok m ∧
    Run.From HeapStep (emptyHeap (BootTables.state smallBoot m lowInUse))
      [.alloc 1 kheapStart, .free kheapStart 1] t ∧
    HeapOwned (BootTables.state smallBoot m lowInUse) t := by
  obtain ⟨m, returned, owned⟩ := kernelHeap_owned smallBoot 1024 (Nat.le_refl 1024)
    (fun _ _ => 0) (fun _ => ⟨rfl, rfl⟩) lowInUse lowInUse_kernel lowInUse_zero
  obtain ⟨m', returned', boot⟩ := smallBoot_tables
  obtain rfl : m = m' := Except.ok.inj (returned.symm.trans returned')
  obtain ⟨t, run, -⟩ := smallBoot_free boot
  exact ⟨m, t, returned, run, owned [] _ .nil (fun v none => absurd none List.not_mem_nil) _ _ run⟩

end Treeos
