import Treeos.Module.Accesses

/-!
# How many frames are taken

Until the modules are mapped, a frame goes to each page of the heap and to each table that
the directory lacks. Which tables these are depends on the addresses only.
-/
namespace Treeos

open ByteMemory PageTable PagingState KernelHeap

/-- The entries of the directory that are present -/
structure Tabled (s : PagingState) (entries : Finset (BitVec 10)) : Prop where
  space : s.KernelSpace
  present : ∀ i, (s.mem s.dir i).present = true ↔ i ∈ entries

/-- The accesses take a frame for each new entry, and for as many pages. -/
def TakenFor (accesses : List BitAccess) (entries entries' : Finset (BitVec 10)) (pages : Nat) :
    Prop :=
  (takenFrames accesses).length + entries.card = entries'.card + pages

variable {first rest : List BitAccess} {entries entries' later : Finset (BitVec 10)}
  {pages others : Nat}

theorem takenFor_nil : TakenFor [] entries entries 0 := Nat.zero_add _

theorem TakenFor.append (some : TakenFor first entries entries' pages)
    (more : TakenFor rest entries' later others) :
    TakenFor (first ++ rest) entries later (pages + others) := by
  unfold TakenFor takenFrames at *
  rw [List.filterMap_append, List.length_append]
  omega

theorem dirIndices_append (before behind : List (BitVec 32)) :
    dirIndices (before ++ behind) = dirIndices before ∪ dirIndices behind := by
  rw [dirIndices, List.map_append, List.toFinset_append]
  rfl

variable {s s' s₀ : PagingState} {v physaddr : BitVec 32} {rw user : Bool} {depth : Nat}
  {h h' : KernelHeap} {leases : List Lease}

/-! ### `page_map` -/

/-- `page_map` takes a frame when it needs a table. -/
theorem Tabled.pageMap (tabled : Tabled s entries) (page : CallerPage v)
    (returned : s.pageMap depth physaddr v rw user = .ok s') :
    Tabled s' (insert (dirIndex v) entries) ∧
      TakenFor (pageMapAccesses depth s physaddr v) entries (insert (dirIndex v) entries) 0 := by
  have tables := tabled.space.tables
  have last : dirIndex v ≠ 1023 := page.dirIndex_ne 1023 (by decide)
  have inside := (tabled.space.placement.pageMap_room page returned).imp_right fun room =>
    (tabled.space.placement.slot_toNat room).1
  have mapped := pageMap_cases tables last inside returned
  refine ⟨⟨(KernelStep.call (.map page returned)).inv tabled.space, fun i => ?_⟩, ?_⟩
  · rw [mapped.present tables, tabled.present, Finset.mem_insert]
  cases mapped with
  | entry here allowed absent =>
    rw [pageMapAccesses_present tables.selfMap here.uses.1,
      Finset.insert_eq_of_mem ((tabled.present _).mp here.uses.1)]
    exact Nat.zero_add _
  | table absent allowed least slot =>
    have heap : dirIndex s.placementHeap = 768 := inside.resolve_left (by simp [absent])
    have new : dirIndex v ∉ entries := by
      rw [← tabled.present, absent]
      exact Bool.false_ne_true
    cases depth with
    | zero =>
      obtain ⟨-, t, stopped, -⟩ := (pageMapWith_absent_iff tables.selfMap absent).mp returned
      unfold newDirEntry at stopped
      rw [markDirEntry_eq tables.selfMap last, ok_bind] at stopped
      cases stopped
    | succ depth =>
      rw [pageMapAccesses_absent tables last absent heap least, TakenFor,
        Finset.card_insert_of_notMem new]
      exact Nat.add_comm 1 _

/-! ### Loops -/

section Loops

variable {σ ι : Type} {step : σ → ι → Except Panic σ} {accesses : σ → ι → List BitAccess}

/-- What the steps of a loop take, together -/
theorem loopAccesses_taken (inv : σ → Finset (BitVec 10) → Prop) (mapped : ι → List (BitVec 32))
    (count : ι → Nat) {is : List ι} (each : ∀ i ∈ is, ∀ s s' entries, inv s entries →
      step s i = .ok s' → inv s' (entries ∪ dirIndices (mapped i)) ∧
        TakenFor (accesses s i) entries (entries ∪ dirIndices (mapped i)) (count i))
    {s s' : σ} (start : inv s entries) (done : is.foldlM step s = .ok s') :
    inv s' (entries ∪ dirIndices (is.flatMap mapped)) ∧
      TakenFor (loopAccesses step accesses is s) entries
        (entries ∪ dirIndices (is.flatMap mapped)) (is.map count).sum := by
  induction is generalizing s entries with
  | nil =>
    cases done
    have same : entries ∪ dirIndices [] = entries := Finset.union_empty entries
    exact ⟨same.symm ▸ start, same.symm ▸ takenFor_nil⟩
  | cons i is ih =>
    rw [List.foldlM_cons] at done
    obtain ⟨t, here, done⟩ := bind_ok_iff.mp done
    obtain ⟨kept, taken⟩ := each i List.mem_cons_self s t entries start here
    obtain ⟨kept', taken'⟩ :=
      ih (fun j member => each j (List.mem_cons_of_mem _ member)) kept done
    rw [loopAccesses, here, List.flatMap_cons, dirIndices_append, ← Finset.union_assoc]
    exact ⟨kept', taken.append taken'⟩

end Loops

/-- What a loop of `page_map` calls takes -/
theorem Tabled.pageMaps {ι : Type} (phys virt : ι → BitVec 32) {is : List ι}
    (callers : ∀ i ∈ is, CallerPage (virt i)) (tabled : Tabled s entries)
    (done : is.foldlM (fun s i => s.pageMap depth (phys i) (virt i) rw user) s = .ok s') :
    Tabled s' (entries ∪ dirIndices (is.map virt)) ∧
      TakenFor (loopAccesses (fun s i => s.pageMap depth (phys i) (virt i) rw user)
        (fun s i => pageMapAccesses depth s (phys i) (virt i)) is s) entries
        (entries ∪ dirIndices (is.map virt)) 0 := by
  have each (i : ι) (member : i ∈ is) (t t' : PagingState) (entries : Finset (BitVec 10))
      (ready : Tabled t entries)
      (mapped : t.pageMap depth (phys i) (virt i) rw user = .ok t') :
      Tabled t' (entries ∪ dirIndices [virt i]) ∧
        TakenFor (pageMapAccesses depth t (phys i) (virt i)) entries
          (entries ∪ dirIndices [virt i]) 0 := by
    have one : entries ∪ dirIndices [virt i] = insert (dirIndex (virt i)) entries :=
      Finset.union_singleton _ _
    rw [one]
    exact ready.pageMap (callers i member) mapped
  have looped := loopAccesses_taken Tabled (fun i => [virt i]) (fun _ => 0) each tabled done
  rw [← List.map_eq_flatMap, List.map_const', List.sum_replicate_nat, Nat.mul_zero] at looped
  exact looped

/-! ### The heap -/

-- every page of the heap has the same directory entry
def heapMapped (pages : Nat) : List (BitVec 32) := if pages = 0 then [] else [kheapStart]

def HeapUse.mapped (use : HeapUse) : List (BitVec 32) := heapMapped use.requested

theorem Leased.allocPage_taken (inv : Leased s₀ h leases) (tabled : Tabled h.paging entries)
    (done : h.allocPage depth = .ok h') :
    Tabled h'.paging (insert (dirIndex kheapStart) entries) ∧
      TakenFor (allocPageAccesses depth h) entries (insert (dirIndex kheapStart) entries) 1 := by
  have bound := inv.space.tables.bound
  obtain ⟨f, t, s', least, here, step, mapping, -, rfl⟩ := allocPage_cases done bound
  obtain ⟨page, index, -⟩ := inv.nextPage
  have ready : Tabled t entries := by
    refine ⟨(KernelStep.call step).inv inv.space, fun i => ?_⟩
    rw [here]
    exact tabled.present i
  obtain ⟨kept, taken⟩ := ready.pageMap page mapping
  rw [index] at kept taken
  rw [allocPageAccesses, newPageAccesses_of_least bound least, ← here]
  refine ⟨kept, ?_⟩
  unfold TakenFor at *
  show (takenFrames _).length + 1 + _ = _
  omega

theorem Leased.allocPages_taken {count : Nat} (inv : Leased s₀ h leases)
    (tabled : Tabled h.paging entries) (done : h.allocPages depth count = .ok h') :
    ((∃ leases', Leased s₀ h' leases') ∧
        Tabled h'.paging (entries ∪ dirIndices (heapMapped count))) ∧
      TakenFor (allocPagesAccesses depth count h) entries
        (entries ∪ dirIndices (heapMapped count)) count := by
  induction count generalizing h leases entries with
  | zero =>
    cases done
    have same : entries ∪ dirIndices (heapMapped 0) = entries := Finset.union_empty entries
    rw [same]
    exact ⟨⟨⟨leases, inv⟩, tabled⟩, takenFor_nil⟩
  | succ count ih =>
    obtain ⟨g, first, done⟩ := bind_ok_iff.mp done
    obtain ⟨f, inv', -⟩ := inv.allocPage first
    obtain ⟨tabled', taken⟩ := inv.allocPage_taken tabled first
    obtain ⟨kept, taken'⟩ := ih inv' tabled' done
    have same : insert (dirIndex kheapStart) entries ∪ dirIndices (heapMapped count) =
        entries ∪ dirIndices (heapMapped (count + 1)) := by
      have one : dirIndices (heapMapped (count + 1)) = {dirIndex kheapStart} := rfl
      rw [one, Finset.union_singleton]
      refine Finset.union_eq_left.mpr ?_
      cases count with
      | zero => exact Finset.empty_subset _
      | succ count => exact Finset.singleton_subset_iff.mpr (Finset.mem_insert_self _ _)
    rw [same] at kept taken'
    have both := taken.append taken'
    rw [Nat.add_comm 1] at both
    rw [allocPagesAccesses, first]
    exact ⟨kept, both⟩

theorem HeapUse.run_taken (start : s₀.KernelSpace) {use : HeapUse}
    (own : ∀ v w, use = .store v w → HeapAddress v) (inv : Leased s₀ h leases)
    (tabled : Tabled h.paging entries) (done : use.run depth h = .ok h') :
    ((∃ leases', Leased s₀ h' leases') ∧ Tabled h'.paging (entries ∪ dirIndices use.mapped)) ∧
      TakenFor (use.accesses depth h) entries (entries ∪ dirIndices use.mapped) use.requested := by
  cases use with
  | request pages =>
    obtain ⟨⟨block, g⟩, allocated, done⟩ := bind_ok_iff.mp done
    cases done
    rw [liballocAlloc] at allocated
    split at allocated
    next zero =>
      rw [zero]
      cases allocated
      have looped : h.allocPages depth 0 = .ok h := rfl
      exact inv.allocPages_taken tabled looped
    next =>
      obtain ⟨g, looped, allocated⟩ := bind_ok_iff.mp allocated
      cases allocated
      exact inv.allocPages_taken tabled looped
  | load v =>
    obtain ⟨_, -, done⟩ := bind_ok_iff.mp done
    cases done
    exact ⟨⟨⟨leases, inv⟩, (Finset.union_empty entries).symm ▸ tabled⟩,
      (Finset.union_empty entries).symm ▸ takenFor_nil⟩
  | store v w =>
    obtain ⟨t, stored, done⟩ := bind_ok_iff.mp done
    cases done
    obtain ⟨kept, -, -, entry⟩ := inv.storeWord start (own v w rfl) stored
    have same : Tabled t entries := by
      refine ⟨kept.space, fun i => ?_⟩
      rw [entry]
      exact tabled.present i
    exact ⟨⟨⟨leases, kept⟩, (Finset.union_empty entries).symm ▸ same⟩,
      (Finset.union_empty entries).symm ▸ takenFor_nil⟩

theorem HeapUse.run_size (start : s₀.KernelSpace) {use : HeapUse}
    (own : ∀ v w, use = .store v w → HeapAddress v) (inv : Leased s₀ h leases)
    (done : use.run depth h = .ok h') : (∃ leases', Leased s₀ h' leases') ∧
      h'.kheap.size.toNat = h.kheap.size.toNat + 4096 * use.requested := by
  cases use with
  | request pages =>
    obtain ⟨⟨block, g⟩, allocated, done⟩ := bind_ok_iff.mp done
    cases done
    refine ⟨?_, inv.liballocAlloc_size allocated⟩
    by_cases zero : pages = 0
    · unfold liballocAlloc at allocated
      rw [if_pos zero] at allocated
      cases allocated
      exact ⟨leases, inv⟩
    · obtain ⟨new, inv', -⟩ := inv.allocPages (allocPages_of_liballocAlloc zero allocated)
      exact ⟨_, inv'⟩
  | load v =>
    obtain ⟨_, -, done⟩ := bind_ok_iff.mp done
    cases done
    exact ⟨⟨leases, inv⟩, rfl⟩
  | store v w =>
    obtain ⟨t, stored, done⟩ := bind_ok_iff.mp done
    cases done
    exact ⟨⟨leases, (inv.storeWord start (own v w rfl) stored).1⟩, rfl⟩

/-- What has been requested is what the heap has grown by. -/
theorem heapUses_size (start : s₀.KernelSpace) {uses : List HeapUse}
    (own : ∀ v w, .store v w ∈ uses → HeapAddress v) (inv : Leased s₀ h leases)
    (done : uses.foldlM (HeapUse.run depth) h = .ok h') : h'.kheap.size.toNat =
      h.kheap.size.toNat + 4096 * (uses.map HeapUse.requested).sum := by
  induction uses generalizing h leases with
  | nil =>
    cases done
    rfl
  | cons use uses ih =>
    rw [List.foldlM_cons] at done
    obtain ⟨g, first, rest⟩ := bind_ok_iff.mp done
    obtain ⟨⟨leases', inv'⟩, size⟩ :=
      HeapUse.run_size start (fun v w same => own v w (same ▸ List.mem_cons_self)) inv first
    have more := ih (fun v w member => own v w (List.mem_cons_of_mem _ member)) inv' rest
    rw [List.map_cons, List.sum_cons]
    omega

theorem dirIndices_heapUses (uses : List HeapUse) : dirIndices (uses.flatMap HeapUse.mapped) =
    dirIndices (heapMapped (uses.map HeapUse.requested).sum) := by
  induction uses with
  | nil => rfl
  | cons use uses ih =>
    rw [List.flatMap_cons, dirIndices_append, ih, List.map_cons, List.sum_cons, HeapUse.mapped,
      heapMapped, heapMapped, heapMapped]
    by_cases first : use.requested = 0 <;>
      by_cases rest : (uses.map HeapUse.requested).sum = 0 <;> simp [first, rest, dirIndices]

/-! ### The modules -/

theorem moduleTableFrom_taken {m : Memory} {count : Nat} {mod offset : BitVec 32}
    {table : List ModuleEntry} (tabled : Tabled s entries)
    (callers : ∀ v ∈ windowPages (windowsFrom (modulesFrom m count mod) offset), CallerPage v)
    (done : moduleTableFrom depth m count mod offset s = .ok (table, s')) :
    Tabled s' (entries ∪
        dirIndices (windowPages (windowsFrom (modulesFrom m count mod) offset))) ∧
      TakenFor (moduleTableFromAccesses depth m count mod offset s) entries
        (entries ∪ dirIndices (windowPages (windowsFrom (modulesFrom m count mod) offset))) 0 := by
  induction count generalizing mod offset s entries table with
  | zero =>
    cases done
    have same : entries ∪ dirIndices [] = entries := Finset.union_empty entries
    exact ⟨same.symm ▸ tabled, same.symm ▸ takenFor_nil⟩
  | succ count ih =>
    obtain ⟨w, here⟩ : ∃ w : Window, w = ⟨⟨load32 m mod, load32 m (mod + 4)⟩, offset⟩ := ⟨_, rfl⟩
    have split := windowsFrom_succ m count mod offset here
    obtain ⟨_, -, done⟩ := bind_ok_iff.mp done
    obtain ⟨t, mapped, done⟩ := bind_ok_iff.mp done
    obtain ⟨⟨others, u⟩, rest, done⟩ := bind_ok_iff.mp done
    cases done
    rw [split, windowPages_cons, List.forall_mem_append] at callers
    rw [split, windowPages_cons, dirIndices_append, ← Finset.union_assoc,
      moduleTableFromAccesses, mapped]
    have page (k : Nat) (member : k ∈ List.range (w.module.windowSize >>> 12).toNat) :
        CallerPage (w.call k).virt :=
      callers.1 _ (List.mem_map.mpr ⟨_, List.mem_map_of_mem member, rfl⟩)
    subst here
    obtain ⟨kept, taken⟩ := tabled.pageMaps _ _ page mapped
    rw [Window.calls, List.map_map]
    -- a table that the first window added is present for the others
    obtain ⟨kept', taken'⟩ := ih kept callers.2 rest
    exact ⟨kept', taken.append taken'⟩

/-- The addresses that `module_table_init` maps, and those of the heap that `kcalloc` maps -/
def moduleTablePages (m : Memory) (mbi : MultibootInfo) : List (BitVec 32) :=
  if mbi.modsCount = 0 then [] else kheapStart :: windowPages (windowsFrom (mbi.modules m) 0)

-- the pages of the heap that `kcalloc` asks for
def heapPagesNeeded (mbi : MultibootInfo) : Nat :=
  if mbi.modsCount = 0 then 0 else kcallocPages mbi.modsCount 16

/-- What `module_table_init` takes when it returns -/
theorem moduleTableInit_taken {fuel : Nat} {flag : Bool} {m : Memory} {mbi : MultibootInfo}
    {uses : List HeapUse} {result : ModuleTable × KernelHeap} (start : s.KernelSpace)
    (unmapped : ∀ v, HeapAddress v → s.lookup (pageOf v) = none)
    (behind : s.lookup (pageOf (kheapStart + kheapMaxSize)) = none) (tabled : Tabled s entries)
    (small : mbi.modsCount.toNat * 16 + 80 < 2 ^ 32) (enough : 3 ≤ fuel)
    (callers : ∀ v ∈ windowPages (windowsFrom (mbi.modules m) 0), CallerPage v)
    (made : KcallocUses (kernelKcalloc (depth + 1) fuel flag) (depth + 1) mbi (emptyHeap s).heap
      uses)
    (done : moduleTableInit (kernelKcalloc (depth + 1) fuel flag) (depth + 1) m mbi
      (emptyHeap s).heap = .ok result) :
    TakenFor (moduleTableInitAccesses (depth + 1) m mbi uses (emptyHeap s).heap) entries
      (entries ∪ dirIndices (moduleTablePages m mbi)) (heapPagesNeeded mbi) := by
  have inv := leased_empty start unmapped
  rw [moduleTableInit] at done
  rw [moduleTableInitAccesses, moduleTablePages, heapPagesNeeded]
  split at done
  next none =>
    rw [if_pos none, if_pos none, if_pos none]
    exact (Finset.union_empty entries).symm ▸ takenFor_nil
  next some =>
    obtain ⟨⟨block, g⟩, allocated, done⟩ := bind_ok_iff.mp done
    obtain ⟨⟨records, t⟩, mapped, -⟩ := bind_ok_iff.mp done
    have ran : uses.foldlM (HeapUse.run (depth + 1)) (emptyHeap s).heap = .ok g := by
      rw [← made.run some, allocated]
      rfl
    -- all that kcalloc requests is its one block
    have pages : (uses.map HeapUse.requested).sum = kcallocPages mbi.modsCount 16 := by
      have called := kernelKcalloc_done start unmapped behind small enough allocated
      have size : g.kheap.size.toNat = 0 + 4096 * kcallocPages mbi.modsCount 16 := called.size
      have size' : g.kheap.size.toNat = 0 + 4096 * (uses.map HeapUse.requested).sum :=
        heapUses_size start made.own inv ran
      omega
    have mapping : dirIndices (uses.flatMap HeapUse.mapped) = dirIndices [kheapStart] := by
      have many : kcallocPages mbi.modsCount 16 ≠ 0 := fun zero =>
        kcalloc_some small (BitVec.eq_of_toNat_eq zero)
      rw [dirIndices_heapUses, pages, heapMapped, if_neg many]
    rw [if_neg some, if_neg some, if_neg some, ran, ← List.singleton_append, dirIndices_append,
      ← Finset.union_assoc, ← mapping, ← pages]
    have each (use : HeapUse) (member : use ∈ uses) (h h' : KernelHeap)
        (entries : Finset (BitVec 10))
        (ready : (∃ leases, Leased s h leases) ∧ Tabled h.paging entries)
        (done : use.run (depth + 1) h = .ok h') :
        ((∃ leases', Leased s h' leases') ∧ Tabled h'.paging (entries ∪ dirIndices use.mapped)) ∧
          TakenFor (use.accesses (depth + 1) h) entries (entries ∪ dirIndices use.mapped)
            use.requested := by
      obtain ⟨⟨leases, inv⟩, tabled⟩ := ready
      exact HeapUse.run_taken start (fun v w store => made.own v w (store ▸ member)) inv tabled
        done
    obtain ⟨⟨-, grown⟩, taken⟩ := loopAccesses_taken
      (fun h entries => (∃ leases, Leased s h leases) ∧ Tabled h.paging entries)
      HeapUse.mapped HeapUse.requested each ⟨⟨_, inv⟩, tabled⟩ ran
    exact taken.append (moduleTableFrom_taken grown callers mapped).2

end Treeos
