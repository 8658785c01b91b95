import Mathlib.Tactic.Common

/-!
# Where the kernel is

The symbols of `linker.ld` that the memory manager uses.
-/
namespace Treeos

/-- `g_kernel_high_offset` -/
def kernHighOffset : BitVec 32 := 0xC0000000

/-- `g_kernel_boot_addr` -/
def kernBootAddr : BitVec 32 := 0x100000

-- where the kernel heap is
def kheapStart : BitVec 32 := 0xD0000000
def kheapMaxSize : BitVec 32 := 0x100000

/-- The kernel from `KERN_START` to `KERN_END`, as addresses in the higher half. -/
structure KernelImage where
  kernStart : BitVec 32
  kernEnd : BitVec 32
  start_le : kernHighOffset ≤ kernStart
  end_le : kernStart ≤ kernEnd

namespace KernelImage

variable (image : KernelImage)

def realKernelStart : BitVec 32 := image.kernStart - kernHighOffset
def realKernelEnd : BitVec 32 := image.kernEnd - kernHighOffset

theorem real_le : image.realKernelStart.toNat ≤ image.realKernelEnd.toNat := by
  have start := image.start_le
  have stop := image.end_le
  unfold realKernelStart realKernelEnd
  bv_omega

end KernelImage

/-- An image that `boot.S` can start: the bootstrap page directory, the table behind it and
the 16 KiB stack behind that are part of it, and it ends below 4 MiB. -/
structure BootImage extends KernelImage where
  -- `g_real_kernel_page_dir`
  pageDir : BitVec 32
  pageDir_aligned : pageDir &&& 0xFFF = 0
  boot_le : kernBootAddr + kernHighOffset ≤ kernStart
  pageDir_le : kernStart ≤ pageDir
  stack_le : pageDir.toNat + 0x6000 ≤ kernEnd.toNat
  kernEnd_lt : kernEnd < 0xC0400000

-- `g_real_kernel_page_table`
def BootImage.pageTable (image : BootImage) : BitVec 32 := image.pageDir + 0x1000

/-- `paging_allocator_init`: the value of `placement_heap`. -/
def pagingAllocatorInit (image : KernelImage) : BitVec 32 :=
  (image.kernEnd &&& 0xFFFFF000) + 0x1000

end Treeos
