import Treeos.Pmm.CachedRuns

/-!
# What `page_unmap` leaves in the caches

The entries 0 and 768 of the directory share the table of the kernel, so a page of the first
4 MiB has a twin in the kernel. `page_unmap` takes both from the tables, and flushes only the
address that it is given.
-/
namespace Treeos

open PageTable PagingState Tlb Cached

variable {H : Type} {s s' : PagingState} {heap : H} {v : BitVec 32} {f : Frame}
variable {fills : Set Page} {c : Caches (BitVec 10) Entry}

/-- The page of the kernel that is translated by the same entry as a page of the first 4 MiB. -/
def kernelTwin (v : BitVec 32) : Page := (768, tableIndex v)

/-! ### The twin is not flushed -/

theorem leaves_pageUnmap {page : Page} (other : pageOf v ≠ page) :
    (Cached.pageUnmap v : KernelProg H Unit).Leaves kernelMmu page := by
  have clear : (clearEntry v : KernelProg H Unit).Leaves kernelMmu page := by
    unfold clearEntry
    refine Prog.Leaves.bind ?_ fun _ pde => ?_
    · cases panicIf (!isPageAligned v) "virtual address is not page-aligned" with
      | ok a => trivial
      | error e => trivial
    · change Prog.Leaves kernelMmu page (if pde.present = true then _ else _)
      split
      · intro pte
        change Prog.Leaves kernelMmu page (if pte.present = true then _ else _)
        split
        · trivial
        · trivial
      · trivial
  exact clear.bind fun _ => ⟨other, trivial⟩

theorem pageOf_ne_twin (low : dirIndex v = 0) : pageOf v ≠ kernelTwin v := by
  intro same
  have entry : dirIndex v = 768 := congrArg Prod.fst same
  rw [low] at entry
  exact absurd entry (by decide)

/-! ### Only the twin may be stale -/

theorem EntryKeeps.twin (tables : s.Tables) (low : dirIndex v = 0)
    (uses : Uses pagingFormat s.mem s.dir (dirIndex v) f) :
    EntryKeeps H (insert (pageOf v) {kernelTwin v}) s v f := by
  have table : f ≠ s.dir := by
    have apart := tables.table_ne_dir (by rw [low]; decide) uses.1
    rw [show (s.mem s.dir (dirIndex v)).address = f from uses.2] at apart
    exact apart
  -- the entry of the table translates the page itself and its twin
  refine .of_uses table fun page other used same => other ?_
  rcases (tables.uses_iff uses).mp used with own | ⟨-, kernel⟩ | ⟨kernel, -⟩
  · exact .inl (Prod.ext own same)
  · rw [low] at kernel
    exact absurd kernel (by decide)
  · exact .inr (Prod.ext kernel same)

theorem windows_twin (low : dirIndex v = 0) : Windows v (insert (pageOf v) {kernelTwin v}) := by
  have last : (1023 : BitVec 10) ≠ dirIndex v := by
    rw [low]
    decide
  constructor
  · rintro (same | same)
    · exact last (congrArg Prod.fst same)
    · exact last_ne_kernel (congrArg Prod.fst same)
  · rintro (same | same)
    · exact last (congrArg Prod.fst same)
    · exact last_ne_kernel (congrArg Prod.fst same)

/-- `page_unmap` for a page of the first 4 MiB. -/
theorem PagingState.Tables.hidden_lowUnmap (tables : s.Tables) (low : dirIndex v = 0) :
    Hidden kernelMmu fills {kernelTwin v} ∅ (Cached.pageUnmap v) (s.cached heap) := by
  have apart : ∀ page ∈ fills, page ∉ (∅ : Set Page) := fun _ _ => id
  refine Hidden.flushed apart ?_
  exact hidden_clearEntry tables.selfMap (fun f uses => .twin tables low uses) apart
    (windows_twin low) windows_empty

/-! ### The twin in the tables -/

theorem lookup_shared (shared : s.mem s.dir 0 = s.mem s.dir 768) (j : BitVec 10) :
    s.lookup (768, j) = s.lookup (0, j) := by
  unfold PagingState.lookup PageTable.lookup
  dsimp only
  rw [shared]

/-- `page_unmap` takes both pages from the tables. -/
theorem PagingState.Tables.lookup_twin (tables : s.Tables) (low : dirIndex v = 0)
    (returned : s.pageUnmap v = .ok s') :
    s.lookup (kernelTwin v) ≠ none ∧ s'.lookup (kernelTwin v) = none := by
  obtain ⟨table, here, -, present, rfl⟩ := pageUnmap_cases tables (by rw [low]; decide) returned
  have before : s.lookup (dirIndex v, tableIndex v) = _ := lookup_of_uses here.uses
  have after : (s.setMem (write s.mem table (tableIndex v) 0)).lookup (dirIndex v, tableIndex v) =
      _ := lookup_of_uses (here.write (tableIndex v) 0).uses
  rw [low] at before after
  constructor
  · rw [kernelTwin, lookup_shared tables.shared, before]
    exact ne_of_eq_of_ne (if_pos present) (Option.some_ne_none _)
  · rw [kernelTwin, lookup_shared, after]
    · refine if_neg ?_
      show ¬(write s.mem table (tableIndex v) 0 table (tableIndex v)).present = true
      rw [write_self]
      decide
    · show write s.mem table (tableIndex v) 0 s.dir 0 = write s.mem table (tableIndex v) 0 s.dir 768
      rw [write_of_frame_ne s.mem (Ne.symm here.apart),
        write_of_frame_ne s.mem (Ne.symm here.apart), tables.shared]

/-- One of the runs of `page_unmap` keeps the translation of the twin. -/
theorem PagingState.Tables.runs_lowUnmap (tables : s.Tables) (low : dirIndex v = 0)
    (returned : s.pageUnmap v = .ok s') (steady : s.steadyPages ⊆ fills)
    (c : Caches (BitVec 10) Entry) :
    ∃ e c', Runs kernelMmu fills (Cached.pageUnmap v) (s.cached heap) c
      (.ok ((), s'.cached heap, c')) ∧ c'.pages (kernelTwin v) = some e := by
  obtain ⟨e, found⟩ := Option.ne_none_iff_exists'.mp (tables.lookup_twin low returned).1
  have filled := steady (tables.mapped_steady (Option.ne_none_iff_exists'.mpr ⟨e, found⟩))
  have leaves : (Cached.pageUnmap v : KernelProg H Unit).Leaves kernelMmu (kernelTwin v) :=
    leaves_pageUnmap (pageOf_ne_twin low)
  have ran : (Cached.pageUnmap v).run kernelMmu (s.cached heap) = .ok ((), s'.cached heap) := by
    rw [run_pageUnmap, returned, ok_bind]
  have aligned : isPageAligned v = true := (pageUnmap_cases tables (by rw [low]; decide)
    returned).choose_spec.2.1
  -- the first access is the load of the directory entry, and it may fill in the twin
  unfold Cached.pageUnmap clearEntry at leaves ran ⊢
  rw [show panicIf (!isPageAligned v) "virtual address is not page-aligned" = .ok () by
    rw [aligned]; rfl] at leaves ran ⊢
  exact ⟨e, leaves.runs_load ran (.inr filled) found⟩

/-- Every run of `page_unmap` ends with caches that are right about all other pages. -/
theorem PagingState.Tables.ends_lowUnmap (tables : s.Tables) (low : dirIndex v = 0)
    (returned : s.pageUnmap v = .ok s') (coherent : Coherent kernelMmu (s.cached heap) c)
    {r : Except Panic (Unit × State Frame (BitVec 10) Entry (KernelVars H) ×
      Caches (BitVec 10) Entry)}
    (runs : Runs kernelMmu fills (Cached.pageUnmap v) (s.cached heap) c r) :
    ∃ c', r = .ok ((), s'.cached heap, c') ∧
      CoherentOff kernelMmu {kernelTwin v} (s'.cached heap) c' := by
  rcases (tables.hidden_lowUnmap low).ends (coherent.mono (Set.empty_subset _)) runs with
    ⟨a, u, c', ran, ended, kept⟩ | ⟨e, ran, -⟩
  · rw [run_pageUnmap, returned, ok_bind] at ran
    cases ran
    exact ⟨c', ended, kept⟩
  · rw [run_pageUnmap, returned, ok_bind] at ran
    cases ran

/-- The entry of a mapped page can be cleared. -/
theorem PagingState.Tables.pageUnmap_mapped (tables : s.Tables) (aligned : isPageAligned v = true)
    (mapped : ∃ e, s.lookup (pageOf v) = some e) : ∃ s', s.pageUnmap v = .ok s' := by
  obtain ⟨e, found⟩ := mapped
  obtain ⟨uses, here, present⟩ := lookup_some found
  have word : (s.mem s.dir (dirIndex v)).present = true := uses.1
  have entry : (s.mem (s.mem s.dir (dirIndex v)).address (tableIndex v)).present = true := by
    rw [← here] at present
    exact present
  unfold pageUnmap
  rw [aligned, tables.selfMap.loadWord_pde]
  show ∃ s', (if (s.mem s.dir (dirIndex v)).present = true then _ else _) = _
  rw [if_pos word, tables.selfMap.loadWord_pte ⟨word, rfl⟩]
  show ∃ s', (if (s.mem (s.mem s.dir (dirIndex v)).address (tableIndex v)).present = true
    then _ else _) = _
  rw [if_pos entry, tables.selfMap.storeWord_pte ⟨word, rfl⟩]
  exact ⟨_, rfl⟩

end Treeos
