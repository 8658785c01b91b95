import Treeos.Lib.X86

/-!
# The interrupt stub

`int_handler_stub` up to the call of the handler, and `int_handler_stub_resume`. The
words in between are a `struct thread_context` without its last two members.
-/
namespace Treeos

open ByteMemory X86

def kernCodeSelector : BitVec 16 := 0x8
def kernDataSelector : BitVec 16 := 0x10

-- `ASM_ISR_IRQ`, which jumps to the stub
def isrIrq (s : Machine) (intNum : BitVec 32) : Machine := (s.push 0xDEADBEEF).push intNum

-- pushal, then ds, es, fs and gs
def saveContext (s : Machine) : Machine :=
  (((s.pushal.pushSeg s.cpu.ds).pushSeg s.cpu.es).pushSeg s.cpu.fs).pushSeg s.cpu.gs

def loadKernelSegments (s : Machine) : Machine :=
  { s with cpu := { s.cpu with eax := (s.cpu.eax &&& 0xFFFF0000#32) ||| 0x10#32,
                               ds := kernDataSelector, es := kernDataSelector,
                               fs := kernDataSelector, gs := kernDataSelector } }

-- ebp is where the stack frame of the interrupt starts, with the interrupt number on top.
def findHandler (s : Machine) (handlerTable : BitVec 32) : Machine :=
  let ebp := s.cpu.esp + 48
  let esi := load32 s.mem ebp
  { s with cpu := { s.cpu with ebp := ebp, esi := esi, eax := handlerTable,
                               ebx := load32 s.mem (handlerTable + 4 * esi) } }

/-- An IRQ, from the interrupted instruction to the call of its handler. -/
def stubEntry (s : Machine) (intNum handlerTable : BitVec 32) : Machine :=
  let s := saveContext (isrIrq (s.interrupt kernCodeSelector) intNum)
  let s := findHandler (loadKernelSegments s) handlerTable
  -- pushl %esp: the argument of the handler
  s.push s.cpu.esp

/-- `int_handler_stub_resume` -/
def resume (s : Machine) : Machine :=
  let (gs, s) := s.pop
  let (fs, s) := s.pop
  let (es, s) := s.pop
  let (ds, s) := s.pop
  let s : Machine := { s with cpu := { s.cpu with gs := gs.setWidth 16, fs := fs.setWidth 16,
                                                  es := es.setWidth 16, ds := ds.setWidth 16 } }
  let s := s.popal
  -- the interrupt number and the error code
  let s := s.setEsp (s.cpu.esp + 8)
  s.iret

/-- The first 17 words of a `struct thread_context`: the registers `r`, and the words
that nothing reads back. -/
def contextWords (r : Cpu) (esp intNum errorCode : BitVec 32) : List (BitVec 32) :=
  [r.gs.setWidth 32, r.fs.setWidth 32, r.es.setWidth 32, r.ds.setWidth 32,
   r.edi, r.esi, r.ebp, esp, r.ebx, r.edx, r.ecx, r.eax,
   intNum, errorCode, r.eip, r.cs.setWidth 32, r.eflags]

/-- `sizeof(struct thread_context) - 8` -/
def contextSize : Nat := 68

/-- The frame at `context` belongs to a process with registers `r`. -/
def FrameHolds (m : Memory) (context : BitVec 32) (r : Cpu) : Prop :=
  (∃ esp intNum errorCode, Words m context (contextWords r esp intNum errorCode)) ∧
    r.esp = context + BitVec.ofNat 32 contextSize

theorem FrameHolds.congr {m m' : Memory} {context : BitVec 32} {r : Cpu}
    (holds : FrameHolds m context r) (same : ∀ x ∈ Span context contextSize, m' x = m x) :
    FrameHolds m' context r := by
  obtain ⟨⟨esp, intNum, errorCode, words⟩, top⟩ := holds
  exact ⟨⟨esp, intNum, errorCode, words.congr same⟩, top⟩

-- `pushal` pushes esp as it is after five pushes.
def pushedWords (r : Cpu) (intNum : BitVec 32) : List (BitVec 32) :=
  (contextWords r (r.esp - 4 - 4 - 4 - 4 - 4) intNum 0xDEADBEEF).reverse

/-- The processor and the stub push a whole context. -/
theorem saveContext_eq (s : Machine) (intNum : BitVec 32) :
    (saveContext (isrIrq (s.interrupt kernCodeSelector) intNum)).mem =
        (s.pushes (pushedWords s.cpu intNum)).mem ∧
      (saveContext (isrIrq (s.interrupt kernCodeSelector) intNum)).cpu.esp =
        (s.pushes (pushedWords s.cpu intNum)).cpu.esp := by
  constructor <;>
    simp [saveContext, isrIrq, Machine.interrupt, Machine.pushes, pushedWords, contextWords,
      Machine.pushal, Machine.pushSeg, Machine.push]

theorem pushedWords_length (r : Cpu) (intNum : BitVec 32) : (pushedWords r intNum).length = 17 :=
  rfl

/-- Where the context of an interrupted machine will be. -/
def contextOf (s : Machine) : BitVec 32 := s.cpu.esp - BitVec.ofNat 32 contextSize

theorem pushes_context (s : Machine) (intNum : BitVec 32) :
    (s.pushes (pushedWords s.cpu intNum)).cpu.esp = contextOf s :=
  s.pushes_esp _

theorem pushes_words (s : Machine) (intNum : BitVec 32) :
    Words (s.pushes (pushedWords s.cpu intNum)).mem (contextOf s)
      (contextWords s.cpu (s.cpu.esp - 4 - 4 - 4 - 4 - 4) intNum 0xDEADBEEF) := by
  have nothing : Words s.mem s.cpu.esp [] := trivial
  have words := Machine.pushes_words nothing (show 4 * ((pushedWords s.cpu intNum).length + 0) ≤ _
    by rw [pushedWords_length]; decide)
  rw [pushes_context, List.append_nil] at words
  rwa [pushedWords, List.reverse_reverse] at words

theorem pushes_frame (s : Machine) (intNum : BitVec 32) :
    FrameHolds (s.pushes (pushedWords s.cpu intNum)).mem (contextOf s) s.cpu :=
  ⟨⟨_, _, _, pushes_words s intNum⟩, by rw [contextOf, BitVec.sub_add_cancel]⟩

/-- At the call of the handler the context is complete, its address is the argument, and
nothing but the 72 bytes below the old stack pointer has changed. -/
theorem stubEntry_spec (s : Machine) (intNum handlerTable : BitVec 32) :
    (stubEntry s intNum handlerTable).cpu.esp = contextOf s - 4 ∧
      load32 (stubEntry s intNum handlerTable).mem (contextOf s - 4) = contextOf s ∧
      FrameHolds (stubEntry s intNum handlerTable).mem (contextOf s) s.cpu ∧
      ∀ x ∉ Span (contextOf s - 4) (4 + contextSize),
        (stubEntry s intNum handlerTable).mem x = s.mem x := by
  have ⟨mem, esp⟩ := saveContext_eq s intNum
  rw [pushes_context] at esp
  have pushed : (stubEntry s intNum handlerTable).mem =
      store32 (s.pushes (pushedWords s.cpu intNum)).mem (contextOf s - 4) (contextOf s) := by
    rw [← mem, ← esp]
    rfl
  refine ⟨by rw [← esp]; rfl, by rw [pushed, load32_store32], ?_, fun x outside => ?_⟩
  · rw [pushed]
    refine (pushes_frame s intNum).congr fun x inside => store32_of_not_mem ?_
    rw [mem_span] at *
    unfold contextSize at inside
    bv_omega
  · rw [mem_span] at outside
    unfold contextSize at outside
    rw [pushed, store32_of_not_mem (by rw [mem_span]; bv_omega),
      s.pushes_mem _ (by rw [pushedWords_length]; decide)]
    rw [pushes_context, mem_span, pushedWords_length]
    bv_omega

/-- ebx holds the table entry of the interrupt number. -/
theorem stubEntry_handler (s : Machine) (intNum handlerTable : BitVec 32) :
    (stubEntry s intNum handlerTable).cpu.ebx =
      load32 (s.pushes (pushedWords s.cpu intNum)).mem (handlerTable + 4 * intNum) := by
  have ⟨mem, esp⟩ := saveContext_eq s intNum
  rw [pushes_context] at esp
  have number : load32 (s.pushes (pushedWords s.cpu intNum)).mem (contextOf s + 48) = intNum :=
    (pushes_words s intNum).load (i := 12) (by simp [contextWords])
  have entered : (stubEntry s intNum handlerTable).cpu.ebx =
      load32 (saveContext (isrIrq (s.interrupt kernCodeSelector) intNum)).mem (handlerTable + 4 *
        load32 (saveContext (isrIrq (s.interrupt kernCodeSelector) intNum)).mem
          ((saveContext (isrIrq (s.interrupt kernCodeSelector) intNum)).cpu.esp + 48)) := rfl
  rw [entered, mem, esp, number]

/-- The resume path gives back the registers of the frame that esp points to. -/
theorem resume_frame {s : Machine} {r : Cpu} (holds : FrameHolds s.mem s.cpu.esp r) :
    resume s = ⟨r, s.mem⟩ := by
  obtain ⟨⟨esp, intNum, errorCode, words⟩, top⟩ := holds
  simp only [contextWords, Words, and_true] at words
  obtain ⟨gs, fs, es, ds, edi, esi, ebp, -, ebx, edx, ecx, eax, -, -, eip, cs, eflags⟩ := words
  have skip (x : BitVec 32) : x + 8 = x + 4 + 4 := by bv_omega
  simp only [resume, Machine.pop, Machine.popal, Machine.iret, Machine.setEsp, skip, gs, fs, es, ds,
    edi, esi, ebp, ebx, edx, ecx, eax, eip, cs, eflags]
  have esp' : s.cpu.esp + 4 + 4 + 4 + 4 + 4 + 4 + 4 + 4 + 4 + 4 + 4 + 4 + 4 + 4 + 4 + 4 + 4 =
      r.esp := by
    rw [top]
    unfold contextSize
    bv_omega
  rw [esp']
  congr 1
  ext <;> simp

end Treeos
