import Treeos.Pmm.StaleTwin
import Treeos.Vmm.KernelObjects

/-!
# The kernel heap on a processor with a translation cache

From the page tables of the boot code on, the calls of the memory manager end as they do when
every access walks the tables.
-/
namespace Treeos

open PageTable PagingState Tlb Cached

variable {H : Type} {heap : H} {s₀ s s' : PagingState} {c₀ c : Caches (BitVec 10) Entry}
variable {depth : Nat} {v : BitVec 32}

/-- Caches that hold nothing. -/
def emptyCaches : Caches (BitVec 10) Entry := ⟨fun _ => none, fun _ => none⟩

/-- After any sequence of `page_map`, `page_unmap` and `page_alloc` calls the address space is
what they compute without a cache, every access is translated as its tables say, and the next
call ends alike on both processors, also where it panics. -/
theorem cached_paging (booted : Booted s₀) (coherent : Coherent kernelMmu (s₀.cached heap) c₀)
    {calls : List PagingCall} (run : Run.From (CachedStep depth heap) (s₀, c₀) calls (s, c)) :
    calls.foldlM (fun s call => call.run depth s) s₀ = .ok s ∧
      (∀ page e, Access kernelMmu (s.cached heap) c page e → e = s.lookup page) ∧
      ∀ call : PagingCall, call.Allowed s → ∀ r,
        Runs kernelMmu s.steadyPages (call.prog depth) (s.cached heap) c r →
          call.Ends depth s heap r := by
  have inv := run_cachedInv booted.kernelSpace coherent run
  refine ⟨inv.computed, fun page e access => ?_, fun call allowed r runs => ?_⟩
  · exact inv.coherent.access (Set.notMem_empty page) access
  · exact PagingCall.ends inv.space allowed inv.coherent runs

/-- A page is mapped on the processor, and then unmapped. -/
theorem smallBoot_cachedPaging : ∃ s₀ s c, Booted s₀ ∧
    Run.From (CachedStep 0 ()) (s₀, emptyCaches) [.map 0 kheapStart true false] (s, c) ∧
    let call : PagingCall := .unmap kheapStart
    (∃ r, Runs kernelMmu s.steadyPages (call.prog 0) (s.cached ()) c r) ∧
      ∀ r, Runs kernelMmu s.steadyPages (call.prog 0) (s.cached ()) c r → call.Ends 0 s () r := by
  obtain ⟨s₀, booted, ready, frames⟩ := smallBoot_booted
  have space := booted.kernelSpace
  have page : CallerPage kheapStart := ⟨by decide, by decide⟩
  have allowed : s₀.MapAllowed 0 kheapStart := ⟨by decide, by decide, space.placement.zero⟩
  have unmapped : s₀.lookup (pageOf kheapStart) = none :=
    booted.unmapped ⟨by decide, by decide⟩
  have call : (PagingCall.map 0 kheapStart true false).Allowed s₀ := ⟨page, ready.slot⟩
  obtain ⟨r, runs⟩ := exists_runs kernelMmu s₀.steadyPages
    ((PagingCall.map 0 kheapStart true false).prog 0) (s₀.cached ()) emptyCaches
  have ends := PagingCall.ends space call coherent_empty runs
  rcases space.pageMap_total page ready.slot allowed unmapped 0 with
    ⟨s, -, returned⟩ | ⟨-, -, full⟩
  · cases r with
    | error e => cases returned.symm.trans ends
    | ok result =>
      obtain ⟨⟨⟩, u, c⟩ := result
      obtain ⟨s', -, rfl, -⟩ := ends
      have run := Run.From.single (CachedStep.call call runs)
      obtain ⟨-, -, next⟩ := cached_paging booted coherent_empty run
      exact ⟨s₀, s', c, booted, run, exists_runs _ _ _ _ _, next (.unmap kheapStart) page⟩
  · rw [Bitmap.freeCount_eq_zero_iff.mpr full] at frames
    exact absurd frames (by decide)

/-- A `page_unmap` of a page of the first 4 MiB that returns after such a run ends there too as
without a cache. Afterwards only the page of the kernel that shared its entry may be translated
otherwise than the tables say, and in one of the runs it still is, although it is mapped no
more. -/
theorem cached_lowUnmap (booted : Booted s₀) (coherent : Coherent kernelMmu (s₀.cached heap) c₀)
    {calls : List PagingCall} (run : Run.From (CachedStep depth heap) (s₀, c₀) calls (s, c))
    (low : dirIndex v = 0) (returned : s.pageUnmap v = .ok s') :
    (∀ r, Runs kernelMmu s.steadyPages (Cached.pageUnmap v) (s.cached heap) c r →
      ∃ c', r = .ok ((), s'.cached heap, c') ∧ ∀ page ≠ kernelTwin v, ∀ e,
        Access kernelMmu (s'.cached heap) c' page e → e = s'.lookup page) ∧
      s'.lookup (kernelTwin v) = none ∧
      ∃ e c', Runs kernelMmu s.steadyPages (Cached.pageUnmap v) (s.cached heap) c
        (.ok ((), s'.cached heap, c')) ∧
        Access kernelMmu (s'.cached heap) c' (kernelTwin v) (some e) := by
  have inv := run_cachedInv booted.kernelSpace coherent run
  have tables := inv.space.tables
  refine ⟨fun r runs => ?_, (tables.lookup_twin low returned).2, ?_⟩
  · obtain ⟨c', ended, kept⟩ := tables.ends_lowUnmap low returned inv.coherent runs
    exact ⟨c', ended, fun page other e access => kept.access other access⟩
  · obtain ⟨e, c', runs, cached⟩ := tables.runs_lowUnmap low returned subset_rfl c
    exact ⟨e, c', runs, .hit cached⟩

theorem smallBoot_lowUnmap : ∃ s₀ s', Booted s₀ ∧ s₀.pageUnmap 0xB8000 = .ok s' ∧
    s'.lookup (kernelTwin 0xB8000) = none ∧
    ∃ e c', Runs kernelMmu s₀.steadyPages (Cached.pageUnmap 0xB8000) (s₀.cached ()) emptyCaches
      (.ok ((), s'.cached (), c')) ∧
      Access kernelMmu (s'.cached ()) c' (kernelTwin 0xB8000) (some e) := by
  obtain ⟨m, started, boot⟩ := smallBoot_tables
  have clean : ∀ i : BitVec 10, (0 : Entry) = 0 ∧ (0 : Entry) = 0 := fun _ => ⟨rfl, rfl⟩
  have booted : Booted (BootTables.state smallBoot m lowInUse) :=
    .run (Nat.le_refl 1024) clean started lowInUse_kernel lowInUse_zero .nil nofun
  have mapped : (BootTables.state smallBoot m lowInUse).lookup (pageOf 0xB8000) =
      some (bootEntry (BitVec.ofNat 20 0xB8)) :=
    (boot.lookup_iff (by decide)).mpr ⟨0xB8, by decide, by decide, by decide, rfl⟩
  obtain ⟨s', returned⟩ := booted.kernelSpace.tables.pageUnmap_mapped (by decide) ⟨_, mapped⟩
  have nothing : Run.From (CachedStep 1 ()) (BootTables.state smallBoot m lowInUse, emptyCaches) []
    (BootTables.state smallBoot m lowInUse, emptyCaches) := .nil
  obtain ⟨-, gone, stale⟩ := cached_lowUnmap booted coherent_empty nothing (by decide) returned
  exact ⟨_, s', booted, returned, gone, stale⟩

end Treeos
