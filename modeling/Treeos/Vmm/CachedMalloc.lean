import Treeos.Vmm.CachedHeap

/-!
# liballoc on a processor with a translation cache

`liballoc_alloc`, `liballoc_free` and the loads and stores of bytes as programs for a processor
that caches translations. Such a processor keeps the promises of the hooks that liballoc relies on.
-/
namespace Treeos

open PageTable PagingState KernelHeap Tlb Cached ByteMemory Liballoc
open ObjectStore (Object Call Allowed)

/-- The variables of `vmm/kernel_heap.c`. -/
structure HeapVars where
  kheap : Heap
  returned : List (BitVec 32 × Frame × Bool)

abbrev KernelState := State Frame (BitVec 10) Entry (KernelVars HeapVars)

abbrev KernelCaches := Caches (BitVec 10) Entry

def KernelHeap.cached (h : KernelHeap) : KernelState := h.paging.cached ⟨h.kheap, h.returned⟩

/-- The heap that the state of a program stands for. -/
def KernelHeap.ofState (u : KernelState) : KernelHeap where
  paging :=
    { mem := u.mem, dir := u.dir, bitmap := u.vars.bitmap, placementHeap := u.vars.placementHeap,
      structures := u.vars.structures }
  kheap := u.vars.heap.kheap
  returned := u.vars.heap.returned

@[simp] theorem ofState_cached (h : KernelHeap) : KernelHeap.ofState h.cached = h := rfl

namespace Cached

def loadByte (v : BitVec 32) : KernelProg HeapVars (BitVec 8) := do
  let w ← loadWord v
  .done (w.byte (v &&& 3).toNat)

def storeByte (v : BitVec 32) (b : BitVec 8) : KernelProg HeapVars Unit :=
  updateWord v (·.setByte (v &&& 3).toNat b)

/-- The new size of the heap -/
def setSize (x : KernelVars HeapVars) (size : BitVec 32) : KernelProg HeapVars Unit := do
  ofExcept (panicIf (kheapMaxSize < size) "maximum kernel heap size exceeded")
  assignVars { x with heap := { x.heap with kheap := { x.heap.kheap with size := size } } }

/-- The loop body of `liballoc_alloc` once it has the frame of `pte` for the page at `vaddr` -/
def mapNext (depth : Nat) (pte : Entry) (vaddr : BitVec 32) : KernelProg HeapVars Unit := do
  pageMap depth (frameAddr pte.address) vaddr true false
  let x ← readVars
  setSize x (x.heap.kheap.size + 0x1000)

/-- The loop body of `liballoc_alloc` -/
def allocPage (depth : Nat) : KernelProg HeapVars Unit := do
  -- Grab a free physical page
  let pte ← takeFrame
  match pte with
  | none => .stop (.msg "out of memory")
  | some pte => do
    let x ← readVars
    mapNext depth pte (x.heap.kheap.base + x.heap.kheap.size)

def allocPages (depth : Nat) : Nat → KernelProg HeapVars Unit
  | 0 => .done ()
  | pages + 1 => do
    allocPage depth
    allocPages depth pages

/-- `liballoc_alloc` -/
def liballocAlloc (depth : Nat) (pages : BitVec 32) : KernelProg HeapVars (BitVec 32) :=
  -- allocating zero pages
  if pages = 0 then .done 0
  else do
    let x ← readVars
    allocPages depth pages.toNat
    .done (x.heap.kheap.base + x.heap.kheap.size)

/-- `page_free`, and what is noted about it -/
def giveBack (vaddr : BitVec 32) (pte : Entry) : KernelProg HeapVars Unit := do
  let x ← readVars
  let bitmap ← ofExcept (pageFree x.bitmap (some pte))
  let inUse := x.bitmap.testBit pte.address.toNat
  assignVars { x with
    bitmap := bitmap
    heap := { x.heap with returned := (vaddr, pte.address, inUse) :: x.heap.returned } }

/-- The loop body of `liballoc_free` -/
def freePage (vaddr : BitVec 32) : KernelProg HeapVars Unit := do
  let paddr ← virtToPhys vaddr
  pageUnmap vaddr
  giveBack vaddr (Entry.setAddress 0 (frameOf paddr))

/-- The loop of `liballoc_free`, from the last page to the first. -/
def freePages (base : BitVec 32) : Nat → KernelProg HeapVars Unit
  | 0 => .done ()
  | pages + 1 => do
    freePage (base + BitVec.ofNat 32 (4096 * pages))
    freePages base pages

/-- `liballoc_free` -/
def liballocFree (block pages : BitVec 32) : KernelProg HeapVars (BitVec 32) := do
  ofExcept (kassert (block ≠ 0) "block")
  ofExcept (kassert (isPageAligned block) "IS_PAGE_ALIGNED(block)")
  -- freeing zero pages
  if pages = 0 then .done (-1)
  else do
    let x ← readVars
    ofExcept (panicIf (x.heap.kheap.base + x.heap.kheap.size < block)
      "freeing block outside range of kernel heap")
    freePages block pages.toNat
    .done 0

/-! ### Without a cache -/

variable {h h' : KernelHeap} {v : BitVec 32} {depth : Nat}

theorem run_loadByte : (loadByte v).run kernelMmu h.cached =
    h.paging.loadByte v >>= fun b => .ok (b, h.cached) := by
  unfold loadByte PagingState.loadByte KernelHeap.cached
  simp only [Prog.run_bind, run_loadWord, run_done, bind_assoc, ok_bind]

theorem run_storeByte (b : BitVec 8) : (storeByte v b).run kernelMmu h.cached =
    h.paging.storeByte v b >>= fun s => .ok ((), KernelHeap.cached { h with paging := s }) :=
  run_updateWord _

theorem run_allocPage : (allocPage depth).run kernelMmu h.cached =
    h.allocPage depth >>= fun h' => .ok ((), h'.cached) := by
  unfold allocPage KernelHeap.allocPage KernelHeap.cached
  simp only [Prog.run_bind, run_takeFrame, bind_assoc, ok_bind]
  refine bind_congr fun taken => ?_
  obtain ⟨pte, bitmap⟩ := taken
  cases pte with
  | none => rfl
  | some pte =>
    unfold mapNext setSize
    simp only [Prog.run_bind, run_readVars, run_ofExcept, maps_pageMap depth _ _ _ _ _ _, varsOf,
      bind_assoc, ok_bind]
    rfl

theorem run_allocPages (count : Nat) : (allocPages depth count).run kernelMmu h.cached =
    h.allocPages depth count >>= fun h' => .ok ((), h'.cached) := by
  induction count generalizing h with
  | zero => rfl
  | succ count ih =>
    unfold allocPages KernelHeap.allocPages
    simp only [Prog.run_bind, run_allocPage, ih, bind_assoc, ok_bind]

theorem run_liballocAlloc (pages : BitVec 32) :
    (liballocAlloc depth pages).run kernelMmu h.cached =
      h.liballocAlloc depth pages >>= fun r => .ok (r.1, r.2.cached) := by
  unfold liballocAlloc KernelHeap.liballocAlloc
  split
  · rfl
  · have read : (readVars : KernelProg HeapVars _).run kernelMmu h.cached =
        .ok (varsOf h.paging ⟨h.kheap, h.returned⟩, h.cached) := rfl
    simp only [Prog.run_bind, read, run_allocPages, bind_assoc, ok_bind]
    rfl

theorem run_freePage : (freePage v).run kernelMmu h.cached =
    h.freePage v >>= fun h' => .ok ((), h'.cached) := by
  unfold freePage KernelHeap.freePage KernelHeap.cached giveBack
  simp only [Prog.run_bind, run_virtToPhys, run_pageUnmap, run_readVars, run_ofExcept, varsOf,
    bind_assoc, ok_bind]
  rfl

theorem run_freePages (base : BitVec 32) (count : Nat) :
    (freePages base count).run kernelMmu h.cached =
      KernelHeap.freePages base count h >>= fun h' => .ok ((), h'.cached) := by
  induction count generalizing h with
  | zero => rfl
  | succ count ih =>
    unfold freePages KernelHeap.freePages
    simp only [Prog.run_bind, run_freePage, ih, bind_assoc, ok_bind]

theorem run_liballocFree (block pages : BitVec 32) :
    (liballocFree block pages).run kernelMmu h.cached =
      h.liballocFree block pages >>= fun r => .ok (r.1, r.2.cached) := by
  have read : (readVars : KernelProg HeapVars _).run kernelMmu h.cached =
      .ok (varsOf h.paging ⟨h.kheap, h.returned⟩, h.cached) := rfl
  have check {α : Type} (x : Except Panic α) : (ofExcept x).run kernelMmu h.cached =
      x >>= fun a => .ok (a, h.cached) := run_ofExcept x
  unfold liballocFree KernelHeap.liballocFree
  simp only [Prog.run_bind, check, bind_assoc, ok_bind]
  refine bind_congr fun _ => ?_
  refine bind_congr fun _ => ?_
  split
  · rfl
  · simp only [Prog.run_bind, read, check, run_freePages, varsOf, bind_assoc, ok_bind]
    rfl

end Cached

/-! ### With caches -/

variable {s s' : PagingState} {s₀ : PagingState} {leases : List Lease} {l : Lease}
variable {physaddr v : BitVec 32} {rw user : Bool} {fills : Set Page} {h h' : KernelHeap}
variable {depth : Nat}

/-- `page_map` leaves the pages whose tables are there among themselves. -/
theorem PagingState.PageMapped.steadyPages (mapped : s.PageMapped physaddr v rw user s')
    (space : s.KernelSpace) (page : CallerPage v) (slot : s.HasSlot v) :
    s.steadyPages ⊆ s'.steadyPages := by
  have tables := space.tables
  obtain ⟨dir, kept⟩ := mapped.keepsTables tables
  have entry {i : BitVec 10} (present : (s.mem s.dir i).present = true) :
      (s'.mem s'.dir i).present = true := by
    rw [kept i present]
    exact present
  rintro q ⟨present, table, found⟩
  refine ⟨entry present, fun last => entry (table last), fun low => ?_⟩
  -- a page of entry 0 that is mapped stays mapped
  by_contra gone
  have inside := slot.imp_right fun room => (space.placement.slot_toNat room).1
  have changed : s'.lookup q ≠ s.lookup q := by
    rw [gone]
    exact (found low).symm
  rcases mapped.changes tables inside changed with ⟨twin, -⟩ | ⟨absent, slot' | window⟩
  · rw [low] at twin
    rcases twin with same | ⟨-, kernel⟩ | ⟨impossible, -⟩
    · exact page.dirIndex_ne 0 (by decide) same.symm
    · exact page.dirIndex_ne 768 (by decide) kernel
    · exact absurd impossible (by decide)
  · have room := slot.resolve_left (by simp [absent])
    refine found low (tables.lookup_lowSlot (space.placement.slotEmpty room) q ?_)
    exact Prod.ext low slot'.2
  · rw [window] at low
    exact last_ne_zero low

theorem hidden_setSize (apart : ∀ page ∈ fills, page ∉ (∅ : Set Page)) (x : KernelVars HeapVars)
    (size : BitVec 32) (u : KernelState) : Hidden kernelMmu fills ∅ ∅ (setSize x size) u := by
  unfold setSize
  refine Hidden.bind (hidden_ofExcept apart _ u) fun _ u _ => ?_
  exact hidden_assign (hidden_done apart ())

theorem hidden_mapNext {x : HeapVars} (space : s.KernelSpace) (page : CallerPage v)
    (slot : s.HasSlot v) (steady : fills ⊆ s.steadyPages) (depth : Nat) (pte : Entry) :
    Hidden kernelMmu fills ∅ ∅ (mapNext (depth + 1) pte v) (s.cached x) := by
  have apart : ∀ page ∈ fills, page ∉ (∅ : Set Page) := fun _ _ => id
  unfold mapNext
  refine (space.hidden_pageMap page slot steady depth).bind fun _ u _ => ?_
  refine Hidden.bind ?_ ?_
  · exact hidden_readVars apart u
  · intro x u _
    exact hidden_setSize apart x _ u

/-- A frame is taken for the page that `liballoc_alloc` maps next. -/
theorem hidden_allocPage (inv : HeapGrown s₀ h) (steady : fills ⊆ h.paging.steadyPages) :
    Hidden kernelMmu fills ∅ ∅ (Cached.allocPage (depth + 1)) h.cached := by
  have apart : ∀ page ∈ fills, page ∉ (∅ : Set Page) := fun _ _ => id
  obtain ⟨leases, leased⟩ := inv.leased
  obtain ⟨page, index, -⟩ := leased.nextPage
  have bound := leased.space.tables.bound
  unfold Cached.allocPage
  refine (hidden_takeFrame apart _).bind fun taken u ran => ?_
  unfold KernelHeap.cached at ran
  rw [run_takeFrame] at ran
  obtain ⟨⟨pte, bitmap⟩, answer, same⟩ := bind_ok_iff.mp ran
  cases same
  cases pte with
  | none => exact hidden_stop _
  | some pte =>
    have space := (KernelStep.call (.alloc answer)).inv leased.space
    have slot : ({ h.paging with bitmap := bitmap } : PagingState).HasSlot
        (h.kheap.base + h.kheap.size) := by
      unfold HasSlot
      rw [index]
      exact inv.slot
    refine (hidden_readVars apart _).bind fun x u ran => ?_
    cases ran
    exact hidden_mapNext space page slot steady depth pte

theorem hidden_allocPages (inv : HeapGrown s₀ h) (steady : fills ⊆ h.paging.steadyPages)
    (count : Nat) :
    Hidden kernelMmu fills ∅ ∅ (Cached.allocPages (depth + 1) count) h.cached := by
  induction count generalizing h with
  | zero => exact hidden_done (fun _ _ => id) ()
  | succ count ih =>
    unfold Cached.allocPages
    refine (hidden_allocPage inv steady).bind fun _ u ran => ?_
    rw [run_allocPage] at ran
    obtain ⟨h', returned, same⟩ := bind_ok_iff.mp ran
    cases same
    refine ih (inv.allocPage returned) (steady.trans ?_)
    -- the page that has been mapped has left the others among themselves
    obtain ⟨leases, leased⟩ := inv.leased
    obtain ⟨page, index, -⟩ := leased.nextPage
    obtain ⟨f, t, s', least, taken, step, mapping, fits, rfl⟩ :=
      allocPage_cases returned leased.space.tables.bound
    have space : t.KernelSpace := (KernelStep.call step).inv leased.space
    have room := space.placement.pageMap_room page mapping
    have mapped := pageMap_cases space.tables (page.dirIndex_ne 1023 (by decide))
      (room.imp_right fun room => (space.placement.slot_toNat room).1) mapping
    have kept := mapped.steadyPages space page room
    rw [taken] at kept
    exact kept

theorem hidden_liballocAlloc (inv : HeapGrown s₀ h) (steady : fills ⊆ h.paging.steadyPages)
    (pages : BitVec 32) :
    Hidden kernelMmu fills ∅ ∅ (Cached.liballocAlloc (depth + 1) pages) h.cached := by
  have apart : ∀ page ∈ fills, page ∉ (∅ : Set Page) := fun _ _ => id
  unfold Cached.liballocAlloc
  split
  · exact hidden_done apart _
  · refine (hidden_readVars apart _).bind fun x u ran => ?_
    cases ran
    refine Hidden.bind (hidden_allocPages inv steady pages.toNat) fun _ u _ => ?_
    exact hidden_done apart _

theorem hidden_freePage (leased : Leased s₀ h leases) (member : l ∈ leases) :
    Hidden kernelMmu fills ∅ ∅ (Cached.freePage l.page) h.cached := by
  have apart : ∀ page ∈ fills, page ∉ (∅ : Set Page) := fun _ _ => id
  have page := (leased.heapAddress member).callerPage
  unfold Cached.freePage
  refine (hidden_virtToPhys apart windows_empty windows_empty _).bind fun paddr u ran => ?_
  unfold KernelHeap.cached at ran
  rw [run_virtToPhys] at ran
  obtain ⟨_, -, same⟩ := bind_ok_iff.mp ran
  cases same
  refine (leased.space.tables.hidden_pageUnmap page).bind fun _ u _ => ?_
  unfold giveBack
  refine (hidden_readVars apart u).bind fun x u _ => ?_
  exact (hidden_ofExcept apart _ u).bind fun _ u _ => hidden_assign (hidden_done apart ())

/-- The pages of a block go from the last to the first. -/
theorem hidden_freePages (start : s₀.KernelSpace) {block : BitVec 32} {count : Nat}
    {ended : List Lease} (inv : Leased s₀ h (ended ++ leases))
    (pages : ended.map Lease.page = pagesFrom block count) :
    Hidden kernelMmu fills ∅ ∅ (Cached.freePages block count) h.cached := by
  induction count generalizing h ended with
  | zero => exact hidden_done (fun _ _ => id) ()
  | succ count ih =>
    rw [pagesFrom_snoc] at pages
    obtain ⟨front, back, rfl, shape, last⟩ := List.map_eq_append_iff.mp pages
    obtain ⟨l, rfl, page⟩ := List.map_eq_singleton_iff.mp last
    have listed : Leased s₀ h (l :: (front ++ leases)) := by
      refine inv.perm ?_
      rw [List.append_assoc]
      exact List.perm_middle
    unfold Cached.freePages
    rw [← page]
    refine (hidden_freePage listed List.mem_cons_self).bind fun _ u ran => ?_
    rw [run_freePage] at ran
    obtain ⟨h', returned, same⟩ := bind_ok_iff.mp ran
    cases same
    exact ih (listed.freePage start returned).1 shape

theorem hidden_liballocFree (start : s₀.KernelSpace) {live freed : List Block} {b : Block}
    (inv : HeapInv s₀ ⟨h, live, freed⟩) (member : b ∈ live) :
    Hidden kernelMmu fills ∅ ∅ (Cached.liballocFree b.start b.pages) h.cached := by
  have apart : ∀ page ∈ fills, page ∉ (∅ : Set Page) := fun _ _ => id
  have order : live.Perm (b :: live.erase b) := List.perm_cons_erase member
  have leased : Leased s₀ h (b.leases ++ (live.erase b).flatMap Block.leases) :=
    inv.leased.perm (order.flatMap_right _)
  have check {α : Type} (x : Except Panic α) (a : α) (u : KernelState)
      (ran : (ofExcept x).run kernelMmu h.cached = .ok (a, u)) : u = h.cached := by
    cases x <;> cases ran
    rfl
  unfold Cached.liballocFree
  refine (hidden_ofExcept apart _ _).bind fun _ u ran => ?_
  obtain rfl := check _ _ _ ran
  refine (hidden_ofExcept apart _ _).bind fun _ u ran => ?_
  obtain rfl := check _ _ _ ran
  split
  · exact hidden_done apart _
  · refine (hidden_readVars apart _).bind fun x u ran => ?_
    cases ran
    refine (hidden_ofExcept apart _ _).bind fun _ u ran => ?_
    obtain rfl := check _ _ _ ran
    refine (hidden_freePages start leased (inv.shape b (List.mem_append_left _ member))).bind ?_
    exact fun _ u _ => hidden_done apart _

theorem hidden_loadByte (h : KernelHeap) (v : BitVec 32) :
    Hidden kernelMmu fills ∅ ∅ (Cached.loadByte v) h.cached := by
  have apart : ∀ page ∈ fills, page ∉ (∅ : Set Page) := fun _ _ => id
  exact (hidden_loadWord apart (Set.notMem_empty _) (Set.notMem_empty _) _).bind
    fun w u _ => hidden_done apart _

/-- A store to a frame that is no table changes no translation. -/
theorem hidden_storeByte (start : s₀.KernelSpace) (leased : Leased s₀ h leases)
    (member : l ∈ leases) (page : pageOf v = pageOf l.page) (b : BitVec 8) :
    Hidden kernelMmu fills ∅ ∅ (Cached.storeByte v b) h.cached := by
  have apart : ∀ page ∈ fills, page ∉ (∅ : Set Page) := fun _ _ => id
  obtain ⟨e, found, frame, -⟩ := leased.mapped l member
  rw [← page] at found
  have unused (i : BitVec 10) : ¬Uses pagingFormat h.paging.mem h.paging.dir i l.frame :=
    fun uses => leased.unused start member i uses.1 uses.2
  have noDir : l.frame ≠ h.paging.dir := by
    intro same
    refine unused 1023 ?_
    rw [same]
    exact leased.space.tables.selfMap
  -- no directory entry uses the frame, so no store to it changes a translation
  have lookups (q : Page) (i : BitVec 10) (w : Entry) :
      (h.paging.setMem (write h.paging.mem l.frame i w)).lookup q = h.paging.lookup q :=
    lookup_write_of_not (Ne.symm noDir) fun uses => unused q.1 uses.1
  have inside : WordIn h.paging v l.frame := fun w => ⟨e, (lookups _ _ w).trans found, frame⟩
  have keeps (w : Entry) : Keeps kernelMmu ∅ h.cached
      ((h.paging.setMem (write h.paging.mem l.frame (wordIndex v) w)).cached
        ⟨h.kheap, h.returned⟩) :=
    ⟨fun q _ => lookups q _ w, fun i j _ => write_of_frame_ne h.paging.mem (Ne.symm noDir)⟩
  unfold KernelHeap.cached
  rw [← h.paging.setMem_write_same l.frame (wordIndex v)]
  exact inside.hidden_updateWord apart (Set.notMem_empty _) (Set.notMem_empty _) keeps _ _

/-! ### The hooks -/

variable {live freed : List Block} {c c' c₀ : KernelCaches} {t : KernelHeap × KernelCaches}

/-- A processor makes one of the runs that a program has. -/
structure Processor where
  run : {α : Type} → KernelProg HeapVars α → KernelHeap → KernelCaches →
    Except Panic (α × KernelState × KernelCaches)
  runs : ∀ {α : Type} (p : KernelProg HeapVars α) (h : KernelHeap) (c : KernelCaches),
    Runs kernelMmu h.paging.steadyPages p h.cached c (run p h c)

theorem exists_processor : Nonempty Processor := by
  have every (α : Type) (p : KernelProg HeapVars α) (h : KernelHeap) (c : KernelCaches) :=
    exists_runs kernelMmu h.paging.steadyPages p h.cached c
  choose run runs using every
  exact ⟨⟨fun {α} => run α, fun {α} => runs α⟩⟩

/-- Memory as the processor shows it, and the heap. What a load leaves in the caches may be
filled in by the next call. -/
def cachedHooks (P : Processor) (depth : Nat) : Hooks (KernelHeap × KernelCaches) where
  load8 t v := do
    let r ← P.run (Cached.loadByte v) t.1 t.2
    .ok r.1
  store8 t v b := do
    let r ← P.run (Cached.storeByte v b) t.1 t.2
    .ok (ofState r.2.1, r.2.2)
  liballocAlloc t pages := do
    let r ← P.run (Cached.liballocAlloc depth pages) t.1 t.2
    .ok (r.1, ofState r.2.1, r.2.2)
  liballocFree t block pages := do
    let r ← P.run (Cached.liballocFree block pages) t.1 t.2
    .ok (r.1, ofState r.2.1, r.2.2)

/-- The processor ends a hidden program as the machine without caches does. -/
theorem Processor.ends (P : Processor) {α : Type} {p : KernelProg HeapVars α}
    (hidden : Hidden kernelMmu h.paging.steadyPages ∅ ∅ p h.cached)
    (coherent : Coherent kernelMmu h.cached c) :
    (∃ a u c', p.run kernelMmu h.cached = .ok (a, u) ∧ P.run p h c = .ok (a, u, c') ∧
      Coherent kernelMmu u c') ∨
    ∃ e, p.run kernelMmu h.cached = .error e ∧ P.run p h c = .error e :=
  hidden.ends coherent (P.runs p h c)

/-- What is computed without caches is computed by the processor. -/
theorem Processor.of_ok (P : Processor) {α : Type} {p : KernelProg HeapVars α} {a : α}
    (hidden : Hidden kernelMmu h.paging.steadyPages ∅ ∅ p h.cached)
    (coherent : Coherent kernelMmu h.cached c)
    (computed : p.run kernelMmu h.cached = .ok (a, h'.cached)) :
    ∃ c', P.run p h c = .ok (a, h'.cached, c') ∧ Coherent kernelMmu h'.cached c' := by
  rcases P.ends hidden coherent with ⟨a', u, c', model, ran, kept⟩ | ⟨e, model, -⟩
  · cases computed.symm.trans model
    exact ⟨c', ran, kept⟩
  · cases computed.symm.trans model

/-- What the processor computes is computed without caches. -/
theorem Processor.to_ok (P : Processor) {α : Type} {p : KernelProg HeapVars α} {a : α}
    {u : KernelState} (hidden : Hidden kernelMmu h.paging.steadyPages ∅ ∅ p h.cached)
    (coherent : Coherent kernelMmu h.cached c) (ran : P.run p h c = .ok (a, u, c')) :
    p.run kernelMmu h.cached = .ok (a, u) ∧ Coherent kernelMmu u c' := by
  rcases P.ends hidden coherent with ⟨a', u', c'', model, ran', kept⟩ | ⟨e, -, ran'⟩
  · cases ran.symm.trans ran'
    exact ⟨model, kept⟩
  · cases ran.symm.trans ran'

theorem cachedHooks_load (P : Processor) (coherent : Coherent kernelMmu t.1.cached t.2)
    (depth : Nat) (v : BitVec 32) :
    (cachedHooks P depth).load8 t v = t.1.paging.loadByte v := by
  show (P.run (Cached.loadByte v) t.1 t.2 >>= fun r => .ok r.1) = _
  rcases P.ends (hidden_loadByte t.1 v) coherent with ⟨b, u, c', model, ran, -⟩ | ⟨e, model, ran⟩
  · rw [run_loadByte] at model
    obtain ⟨b', loaded, same⟩ := bind_ok_iff.mp model
    cases same
    rw [ran, loaded]
    rfl
  · rw [run_loadByte] at model
    rcases bind_error_iff.mp model with faulted | ⟨b, -, impossible⟩
    · rw [ran, faulted]
      rfl
    · cases impossible

/-- The areas that are owned, while the caches say what the tables say. -/
def OwnsCached (s₀ : PagingState) (t : KernelHeap × KernelCaches) (areas : List PageArea) : Prop :=
  OwnsBlocks s₀ t.1 areas ∧ Coherent kernelMmu t.1.cached t.2

/-- The bytes of the heap -/
def cachedView (t : KernelHeap × KernelCaches) : Memory := heapView t.1

/-- A processor with caches keeps what liballoc relies on: also there the bytes of a block that
has been given back fault. -/
theorem cachedHooks_lawful (start : s₀.KernelSpace) (ready : HeapReady s₀) (P : Processor)
    (depth : Nat) : (cachedHooks P (depth + 1)).Lawful (OwnsCached s₀) cachedView where
  sound owns := (kernelHooks_lawful start depth).sound owns.1
  apart owns := (kernelHooks_lawful start depth).apart owns.1
  perm owns same := ⟨(kernelHooks_lawful start depth).perm owns.1 same, owns.2⟩
  load owns member inside := by
    rw [cachedHooks_load P owns.2]
    exact (kernelHooks_lawful start depth).load owns.1 member inside
  store := by
    intro t areas a v owns member inside b
    obtain ⟨h', done, kept, value⟩ := (kernelHooks_lawful start depth).store owns.1 member inside b
    obtain ⟨s', stored, same⟩ := bind_ok_iff.mp done
    cases same
    obtain ⟨live, freed, blk, ⟨inv, some, -⟩, -, here, rfl⟩ := owns.1.block member
    obtain ⟨-, l, lease, page⟩ := inv.lease here (some blk here) inside
    have hidden : Hidden kernelMmu t.1.paging.steadyPages ∅ ∅ (Cached.storeByte v b) t.1.cached :=
      hidden_storeByte start inv.leased (List.mem_flatMap.mpr ⟨blk, here, lease⟩) page b
    have computed : (Cached.storeByte v b).run kernelMmu t.1.cached =
        .ok ((), KernelHeap.cached { t.1 with paging := s' }) := by
      rw [run_storeByte, stored]
      rfl
    obtain ⟨c', ran, coherent⟩ := P.of_ok hidden owns.2 computed
    exact ⟨({ t.1 with paging := s' }, c'), bind_ok_iff.mpr ⟨_, ran, rfl⟩, ⟨kept, coherent⟩, value⟩
  alloc := by
    intro t areas pages block t' owns some returned
    obtain ⟨⟨a, u, c'⟩, ran, same⟩ := bind_ok_iff.mp returned
    cases same
    obtain ⟨live, freed, state, -⟩ := owns.1
    have hidden : Hidden kernelMmu t.1.paging.steadyPages ∅ ∅
        (Cached.liballocAlloc (depth + 1) pages) t.1.cached :=
      hidden_liballocAlloc (state.grown ready) subset_rfl pages
    obtain ⟨model, coherent⟩ := P.to_ok hidden owns.2 ran
    rw [run_liballocAlloc] at model
    obtain ⟨⟨block, h'⟩, computed, same⟩ := bind_ok_iff.mp model
    cases same
    obtain ⟨kept, value⟩ := (kernelHooks_lawful start depth).alloc owns.1 some computed
    exact ⟨⟨kept, coherent⟩, value⟩
  free := by
    intro t a areas owns
    obtain ⟨r, h', returned, kept, same, gone⟩ := (kernelHooks_lawful start depth).free owns.1
    obtain ⟨live, freed, b, ⟨inv, some, -⟩, -, here, rfl⟩ := owns.1.block List.mem_cons_self
    have hidden : Hidden kernelMmu t.1.paging.steadyPages ∅ ∅
        (Cached.liballocFree b.start b.pages) t.1.cached := hidden_liballocFree start inv here
    have computed : (Cached.liballocFree b.start b.pages).run kernelMmu t.1.cached =
        .ok (r, h'.cached) := by
      have returned' : t.1.liballocFree b.start b.pages = .ok (r, h') := returned
      rw [run_liballocFree, returned']
      rfl
    obtain ⟨c', ran, coherent⟩ := P.of_ok hidden owns.2 computed
    refine ⟨r, (h', c'), bind_ok_iff.mpr ⟨_, ran, rfl⟩, ⟨kept, coherent⟩, same, fun x inside => ?_⟩
    exact (cachedHooks_load P coherent _ x).trans (gone x inside)

/-- A request that stops the processor stops without caches, too. -/
theorem cachedHooks_stops {P : Processor} (grown : HeapGrown s₀ t.1)
    (coherent : Coherent kernelMmu t.1.cached t.2) {pages : BitVec 32} {e : Panic}
    (stopped : (cachedHooks P (depth + 1)).liballocAlloc t pages = .error e) :
    t.1.liballocAlloc (depth + 1) pages = .error e := by
  have hidden : Hidden kernelMmu t.1.paging.steadyPages ∅ ∅
      (Cached.liballocAlloc (depth + 1) pages) t.1.cached :=
    hidden_liballocAlloc grown subset_rfl pages
  rcases bind_error_iff.mp stopped with run | ⟨_, -, impossible⟩
  · rcases P.ends hidden coherent with ⟨_, _, _, -, ran, -⟩ | ⟨e', model, ran⟩
    · cases run.symm.trans ran
    · cases run.symm.trans ran
      rw [run_liballocAlloc] at model
      rcases bind_error_iff.mp model with failed | ⟨_, -, impossible⟩
      · exact failed
      · cases impossible
  · cases impossible

/-! ### The objects of the kernel -/

/-- Calls of liballoc on a processor with caches, in a kernel that has booted. -/
structure CachedRun (s₀ : PagingState) (P : Processor) (depth fuel : Nat) (flag : Bool)
    (history : List (Call × BitVec 32)) (t : Liballoc (KernelHeap × KernelCaches) × List Object) :
    Prop where
  booted : Booted s₀
  ready : HeapReady s₀
  calls : ∃ c₀ : KernelCaches, Coherent kernelMmu (emptyHeap s₀).heap.cached c₀ ∧
    Run.From (CallerStep (cachedHooks P (depth + 1)) fuel)
      (.initial ((emptyHeap s₀).heap, c₀) flag, []) history t
  enough : 3 * history.length + 3 ≤ fuel

variable {P : Processor} {fuel : Nat} {flag : Bool} {history : List (Call × BitVec 32)}
variable {r : Liballoc (KernelHeap × KernelCaches) × List Object}

theorem CachedRun.law (run : CachedRun s₀ P depth fuel flag history r) :
    (cachedHooks P (depth + 1)).Lawful (OwnsCached s₀) cachedView :=
  cachedHooks_lawful run.booted.kernelSpace run.ready P depth

theorem CachedRun.inv (run : CachedRun s₀ P depth fuel flag history r) :
    ∃ majors, RunInv (OwnsCached s₀) cachedView flag history.length r.1 majors r.2 := by
  obtain ⟨c₀, coherent, calls⟩ := run.calls
  exact run_inv run.law ⟨run.booted.owns, coherent⟩ calls run.enough

/-- A call that stops has asked for pages that the heap does not have. -/
theorem CachedRun.stops (run : CachedRun s₀ P depth fuel flag history r) {call : Call}
    (allowed : Allowed r.2 call) (small : SmallCall call) :
    (∃ q s', r.1.call (cachedHooks P (depth + 1)) fuel call = .ok (q, s') ∧
      s'.interruptFlag = flag) ∨
    ∃ e, r.1.call (cachedHooks P (depth + 1)) fuel call = .error e ∧
      r.1.host.1.Refuses (pagesFor (BitVec.ofNat 32 call.size + 32)).toNat e := by
  obtain ⟨majors, inv⟩ := run.inv
  have ends := call_backs run.law inv.backs allowed small (inv.enough run.enough)
  have request := small.request
  generalize r.1.call (cachedHooks P (depth + 1)) fuel call = result at *
  cases ends with
  | returns backs count same => exact .inl ⟨_, _, rfl, same.trans inv.flag⟩
  | @stops e full stopped =>
    -- the request for pages has stopped, and without caches it would have stopped, too
    obtain ⟨⟨live, freed, state, -⟩, coherent⟩ := inv.backs.layout.owns
    have grown := state.grown run.ready
    have ends := grown.liballocAlloc_ends depth run.ready (pagesFor_ne_zero request)
    rw [cachedHooks_stops grown coherent stopped] at ends
    rcases ends with ⟨_, returned, -⟩ | ⟨e', same, refused⟩
    · cases returned
    · cases same
      exact .inr ⟨e, rfl, refused⟩

theorem smallBoot_cachedRun : ∃ s₀ P, 40 ≤ s₀.bitmap.freeCount ∧
    CachedRun s₀ P 0 9 true [] (.initial ((emptyHeap s₀).heap, emptyCaches) true, []) := by
  obtain ⟨s₀, booted, ready, frames⟩ := smallBoot_booted
  obtain ⟨P⟩ := exists_processor
  refine ⟨s₀, P, frames, booted, ready, ⟨emptyCaches, coherent_empty, .nil⟩, ?_⟩
  show 3 * 0 + 3 ≤ 9
  decide

/-- The first object of the kernel. -/
theorem smallBoot_cachedMalloc : ∃ s₀ P q r, CachedRun s₀ P 0 9 true [(.malloc 100, q)] r ∧
    r.2 = [⟨q, List.replicate 100 none⟩] := by
  obtain ⟨s₀, P, frames, run⟩ := smallBoot_cachedRun
  have small : SmallCall (.malloc 100) := by
    unfold SmallCall
    decide
  have allowed : Allowed [] (.malloc 100) := trivial
  rcases run.stops allowed small with ⟨q, s', returned, -⟩ | ⟨e, -, refused⟩
  · obtain ⟨booted, ready, ⟨c₀, coherent, calls⟩, -⟩ := run
    refine ⟨s₀, P, q, _, ⟨booted, ready, ⟨emptyCaches, coherent_empty,
      .single (.call allowed small returned)⟩, ?_⟩, rfl⟩
    show 3 * 1 + 3 ≤ 9
    decide
  · refine absurd ⟨?_, ?_⟩ refused.not_meets
    · have pages : (pagesFor (100 + 32)).toNat = 16 := by decide
      have table : (emptyHeap s₀).heap.tableCount ≤ 1 := by
        unfold KernelHeap.tableCount
        split <;> decide
      show (pagesFor (100 + 32)).toNat + (emptyHeap s₀).heap.tableCount ≤ s₀.bitmap.freeCount
      omega
    · show 0 + 4096 * (pagesFor (100 + 32)).toNat ≤ 0x100000
      decide

/-- After every sequence of calls the objects are those of the history, and the processor loads
from them what has been written to them. -/
theorem cached_objects (run : CachedRun s₀ P depth fuel flag history r) :
    r.2 = objectsOf history ∧ ObjectStore.Sound 16 r.2 ∧
      ∀ o ∈ r.2, ∀ i < o.bytes.length, HeapAddress (o.ptr + BitVec.ofNat 32 i) ∧
        ∃ b, (cachedHooks P (depth + 1)).load8 r.1.host (o.ptr + BitVec.ofNat 32 i) = .ok b ∧
          ∀ b', o.bytes[i]? = some (some b') → b = b' := by
  have law := run.law
  obtain ⟨majors, backs, -, -⟩ := run.inv
  obtain ⟨c₀, -, calls⟩ := run.calls
  refine ⟨run_objects calls, backs.sound law.toGrowing, fun o member i bound => ?_⟩
  obtain ⟨M, there, -, -, -, payload⟩ := backs.payload member bound
  have inside := (backs.layout.sound M there).payload_subset payload
  have listed : M.area ∈ majors.map Major.area := List.mem_map.mpr ⟨M, there, rfl⟩
  have owns := backs.layout.owns
  refine ⟨owns.1.heapAddress listed inside, _, law.load owns listed inside, fun b' known => ?_⟩
  exact backs.holds o member i b' known

theorem smallBoot_cachedObjects : ∃ s₀ P q r, CachedRun s₀ P 0 9 true [(.malloc 100, q)] r ∧
    r.2 = [⟨q, List.replicate 100 none⟩] ∧ ObjectStore.Sound 16 r.2 := by
  obtain ⟨s₀, P, q, r, run, same⟩ := smallBoot_cachedMalloc
  exact ⟨s₀, P, q, r, run, same, (cached_objects run).2.1⟩

/-- The next call returns, or there are not enough frames, or no room in the heap, for a new
block. -/
theorem cached_progress (run : CachedRun s₀ P depth fuel flag history r) {call : Call}
    (allowed : Allowed r.2 call) (small : SmallCall call) :
    (∃ q s', r.1.call (cachedHooks P (depth + 1)) fuel call = .ok (q, s') ∧
      s'.interruptFlag = flag) ∨
    ∃ e, r.1.call (cachedHooks P (depth + 1)) fuel call = .error e ∧
      r.1.host.1.Refuses (pagesFor (BitVec.ofNat 32 call.size + 32)).toNat e :=
  run.stops allowed small

theorem smallBoot_cachedProgress : ∃ s₀ P q r, CachedRun s₀ P 0 9 true [(.malloc 100, q)] r ∧
    ((∃ p s', r.1.call (cachedHooks P 1) 9 (.realloc q 2000) = .ok (p, s') ∧
      s'.interruptFlag = true) ∨
    ∃ e, r.1.call (cachedHooks P 1) 9 (.realloc q 2000) = .error e ∧
      r.1.host.1.Refuses (pagesFor (2000 + 32)).toNat e) := by
  obtain ⟨s₀, P, q, r, run, same⟩ := smallBoot_cachedMalloc
  have small : SmallCall (.realloc q 2000) := (by decide : 2000 + 80 < 2 ^ 32)
  have allowed : Allowed r.2 (.realloc q 2000) := by
    rw [same]
    exact .inr ⟨_, List.mem_cons_self, rfl⟩
  exact ⟨s₀, P, q, r, run, cached_progress run allowed small⟩

end Treeos
