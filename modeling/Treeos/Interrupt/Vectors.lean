import Treeos.Interrupt.Stub

/-!
# The vectors

The entry points of all vectors, with the frames that the processor pushes for them, and the
`struct thread_context` that the handler gets. An interrupt of user code changes the stack.
-/
namespace Treeos

open ByteMemory X86

-- the ring of a code selector
def ring (selector : BitVec 16) : BitVec 16 := selector &&& 3

/-- A machine with what a change of rings involves: ss, and the stack pointer of ring 0 in the
task state segment. -/
structure RingMachine extends Machine where
  ss : BitVec 16
  esp0 : BitVec 32

/-- The vectors for which the processor pushes an error code. -/
def errorVectors : List Nat := [8, 10, 11, 12, 13, 14, 17]

namespace RingMachine

/-- The stack of ring 0, with the old one saved on it. -/
def kernelStack (s : RingMachine) : RingMachine :=
  if ring s.cpu.cs = 0 then s
  else ⟨((s.setEsp s.esp0).pushSeg s.ss).push s.cpu.esp, kernDataSelector, s.esp0⟩

/-- What the processor does on an interrupt through an interrupt gate. -/
def interrupt (s : RingMachine) (errorCode : Option (BitVec 32)) : RingMachine :=
  let s := s.kernelStack
  let m := s.toMachine.interrupt kernCodeSelector
  { s with toMachine := errorCode.elim m m.push }

def iret (s : RingMachine) : RingMachine :=
  let m := s.toMachine.iret
  if ring m.cpu.cs = 0 then { s with toMachine := m }
  else
    let (esp, m) := m.pop
    let (ss, m) := m.pop
    { s with toMachine := m.setEsp esp, ss := ss.setWidth 16 }

end RingMachine

/-! ### The entry points -/

/-- The macros of `interrupt_asm.S`, with their arguments. -/
inductive Stub where
  | isrNoErrCode (inum : Nat)
  | isrErrCode (inum : Nat)
  | isrIrq (irqnum inum : Nat)

inductive StubLabel where
  | isr (inum : Nat)
  | irq (irqnum : Nat)
deriving DecidableEq

def Stub.label : Stub → StubLabel
  | isrNoErrCode inum => .isr inum
  | isrErrCode inum => .isr inum
  | isrIrq irqnum _ => .irq irqnum

/-- What an entry point pushes before it jumps to `int_handler_stub`. -/
def Stub.enter (s : Machine) : Stub → Machine
  | isrNoErrCode inum => (s.push 0xDEADBEEF).push (BitVec.ofNat 32 inum)
  | isrErrCode inum => s.push (BitVec.ofNat 32 inum)
  | isrIrq _ inum => Treeos.isrIrq s (BitVec.ofNat 32 inum)

/-- The entry points of `interrupt_asm.S`. -/
def stubs : List Stub :=
  [.isrNoErrCode 0, .isrNoErrCode 1, .isrNoErrCode 2, .isrNoErrCode 3, .isrNoErrCode 4,
   .isrNoErrCode 5, .isrNoErrCode 6, .isrNoErrCode 7, .isrErrCode 8, .isrNoErrCode 9,
   .isrErrCode 10, .isrErrCode 11, .isrErrCode 12, .isrErrCode 13, .isrErrCode 14,
   .isrNoErrCode 15, .isrNoErrCode 16, .isrNoErrCode 17, .isrNoErrCode 18, .isrNoErrCode 19,
   .isrNoErrCode 20, .isrNoErrCode 21, .isrNoErrCode 22, .isrNoErrCode 23, .isrNoErrCode 24,
   .isrNoErrCode 25, .isrNoErrCode 26, .isrNoErrCode 27, .isrNoErrCode 28, .isrNoErrCode 29,
   .isrNoErrCode 30, .isrNoErrCode 31, .isrIrq 0 32, .isrIrq 1 33, .isrIrq 2 34, .isrIrq 3 35,
   .isrIrq 4 36, .isrIrq 5 37, .isrIrq 6 38, .isrIrq 7 39, .isrIrq 8 40, .isrIrq 9 41,
   .isrIrq 10 42, .isrIrq 11 43, .isrIrq 12 44, .isrIrq 13 45, .isrIrq 14 46, .isrIrq 15 47,
   .isrNoErrCode 48]

/-- The gates that `fill_idt` sets. -/
def fillIdt : List (Nat × StubLabel) :=
  [(0, .isr 0), (1, .isr 1), (2, .isr 2), (3, .isr 3), (4, .isr 4), (5, .isr 5), (6, .isr 6),
   (7, .isr 7), (8, .isr 8), (9, .isr 9), (10, .isr 10), (11, .isr 11), (12, .isr 12),
   (13, .isr 13), (14, .isr 14), (15, .isr 15), (16, .isr 16), (17, .isr 17), (18, .isr 18),
   (19, .isr 19), (20, .isr 20), (21, .isr 21), (22, .isr 22), (23, .isr 23), (24, .isr 24),
   (25, .isr 25), (26, .isr 26), (27, .isr 27), (28, .isr 28), (29, .isr 29), (30, .isr 30),
   (31, .isr 31), (32, .irq 0), (33, .irq 1), (34, .irq 2), (35, .irq 3), (36, .irq 4),
   (37, .irq 5), (38, .irq 6), (39, .irq 7), (40, .irq 8), (41, .irq 9), (42, .irq 10),
   (43, .irq 11), (44, .irq 12), (45, .irq 13), (46, .irq 14), (47, .irq 15), (48, .isr 48)]

/-- The entry point of a vector. -/
def gateStub (vector : Nat) : Option Stub := do
  let label ← fillIdt.lookup vector
  stubs.find? fun stub => stub.label = label

/-- An interrupt, from the interrupted instruction to the call of the handler. -/
def handlerCall (s : RingMachine) (stub : Stub) (errorCode : Option (BitVec 32))
    (handlerTable : BitVec 32) : RingMachine :=
  let s := s.interrupt errorCode
  let m := saveContext (stub.enter s.toMachine)
  let m := findHandler (loadKernelSegments m) handlerTable
  -- pushl %esp: the argument of the handler
  { s with toMachine := m.push m.cpu.esp }

-- the first half of `int_handler_stub_resume`
def restoreContext (s : Machine) : Machine :=
  let (gs, s) := s.pop
  let (fs, s) := s.pop
  let (es, s) := s.pop
  let (ds, s) := s.pop
  let s : Machine := { s with cpu := { s.cpu with gs := gs.setWidth 16, fs := fs.setWidth 16,
                                                  es := es.setWidth 16, ds := ds.setWidth 16 } }
  let s := s.popal
  s.setEsp (s.cpu.esp + 8)

theorem resume_eq (s : Machine) : resume s = (restoreContext s).iret := rfl

/-- `int_handler_stub_resume`, to any ring -/
def RingMachine.resume (s : RingMachine) : RingMachine :=
  { s with toMachine := restoreContext s.toMachine }.iret

/-- `struct thread_context` -/
structure ThreadContext where
  gs : BitVec 32
  fs : BitVec 32
  es : BitVec 32
  ds : BitVec 32
  edi : BitVec 32
  esi : BitVec 32
  ebp : BitVec 32
  esp : BitVec 32
  ebx : BitVec 32
  edx : BitVec 32
  ecx : BitVec 32
  eax : BitVec 32
  intNum : BitVec 32
  errorCode : BitVec 32
  eip : BitVec 32
  cs : BitVec 32
  eflags : BitVec 32
  userEsp : BitVec 32
  userSs : BitVec 32

def contextAt (m : Memory) (a : BitVec 32) : ThreadContext where
  gs := load32 m a
  fs := load32 m (a + 4)
  es := load32 m (a + 8)
  ds := load32 m (a + 12)
  edi := load32 m (a + 16)
  esi := load32 m (a + 20)
  ebp := load32 m (a + 24)
  esp := load32 m (a + 28)
  ebx := load32 m (a + 32)
  edx := load32 m (a + 36)
  ecx := load32 m (a + 40)
  eax := load32 m (a + 44)
  intNum := load32 m (a + 48)
  errorCode := load32 m (a + 52)
  eip := load32 m (a + 56)
  cs := load32 m (a + 60)
  eflags := load32 m (a + 64)
  userEsp := load32 m (a + 68)
  userSs := load32 m (a + 72)

/-! ### The context of an interrupt -/

/-- The context at `context` describes the interrupted machine. -/
structure Describes (c : ThreadContext) (context : BitVec 32) (s : RingMachine) (vector : Nat)
    (errorCode : Option (BitVec 32)) : Prop where
  segments : c.gs = s.cpu.gs.setWidth 32 ∧ c.fs = s.cpu.fs.setWidth 32 ∧
    c.es = s.cpu.es.setWidth 32 ∧ c.ds = s.cpu.ds.setWidth 32
  general : c.edi = s.cpu.edi ∧ c.esi = s.cpu.esi ∧ c.ebp = s.cpu.ebp ∧ c.ebx = s.cpu.ebx ∧
    c.edx = s.cpu.edx ∧ c.ecx = s.cpu.ecx ∧ c.eax = s.cpu.eax
  -- pushal pushes the stack pointer as it finds it, below the frame of the interrupt.
  esp : c.esp = context + 48
  number : c.intNum = BitVec.ofNat 32 vector
  error : c.errorCode = errorCode.getD 0xDEADBEEF
  frame : c.eip = s.cpu.eip ∧ c.cs = s.cpu.cs.setWidth 32 ∧ c.eflags = s.cpu.eflags
  user : ring s.cpu.cs ≠ 0 → c.userEsp = s.cpu.esp ∧ c.userSs = s.ss.setWidth 32

/-- The words that the interrupt pushes, the last one first. -/
def frameWords (s : RingMachine) (esp intNum errorCode : BitVec 32) : List (BitVec 32) :=
  contextWords s.cpu esp intNum errorCode ++
    if ring s.cpu.cs = 0 then [] else [s.cpu.esp, s.ss.setWidth 32]

/-- The stack that they are pushed to. -/
def RingMachine.frameBase (s : RingMachine) : Machine :=
  if ring s.cpu.cs = 0 then s.toMachine else s.setEsp s.esp0

def frameSize (s : RingMachine) : Nat := if ring s.cpu.cs = 0 then 68 else 76

def RingMachine.context (s : RingMachine) : BitVec 32 :=
  s.frameBase.cpu.esp - BitVec.ofNat 32 (frameSize s)

/-- The handler has returned: its stack is gone and the context is as it was. -/
structure Returned (s called t : RingMachine) : Prop where
  esp : t.cpu.esp = called.cpu.esp + 4
  ss : t.ss = called.ss
  kept : ∀ x ∈ Span s.context (frameSize s), t.mem x = called.mem x

variable {s : RingMachine} {stub : Stub} {vector : Nat} {errorCode : Option (BitVec 32)}
  {handlerTable : BitVec 32}

theorem frameWords_length (s : RingMachine) (esp intNum errorCode : BitVec 32) :
    4 * (frameWords s esp intNum errorCode).length = frameSize s := by
  unfold frameWords frameSize
  split <;> rfl

/-- The words that an entry point pushes. -/
def Stub.words : Stub → List (BitVec 32)
  | isrNoErrCode inum => [0xDEADBEEF, BitVec.ofNat 32 inum]
  | isrErrCode inum => [BitVec.ofNat 32 inum]
  | isrIrq _ inum => [0xDEADBEEF, BitVec.ofNat 32 inum]

theorem Stub.enter_eq (m : Machine) (stub : Stub) : stub.enter m = m.pushes stub.words := by
  cases stub <;> rfl

/-- What a gate must lead to: one word for the vectors with an error code, otherwise two. -/
def Stub.Fits (vector : Nat) (stub : Stub) : Prop :=
  stub.words = if vector ∈ errorVectors then [BitVec.ofNat 32 vector]
    else [0xDEADBEEF, BitVec.ofNat 32 vector]

instance (vector : Nat) (stub : Stub) : Decidable (stub.Fits vector) :=
  inferInstanceAs (Decidable (_ = _))

/-- All entry points fit their gates, except for 17. -/
theorem gateStub_fits (gate : gateStub vector = some stub) (other : vector ≠ 17) :
    stub.Fits vector := by
  have all : fillIdt.all (fun gate => decide (gate.1 = 17) ||
      (stubs.find? fun stub => stub.label = gate.2).all fun stub => decide (stub.Fits gate.1)) =
      true := by decide
  obtain ⟨label, found, here⟩ := Option.bind_eq_some_iff.mp gate
  obtain ⟨front, back, split, -⟩ := List.lookup_eq_some_iff.mp found
  have member : (vector, label) ∈ fillIdt := by
    rw [split]
    exact List.mem_append_right _ List.mem_cons_self
  have fits := List.all_eq_true.mp all _ member
  simpa [other, here] using fits

theorem frame_words (gate : gateStub vector = some stub) (other : vector ≠ 17)
    (pushes : errorCode.isSome ↔ vector ∈ errorVectors) :
    errorCode.toList ++ stub.words =
      [errorCode.getD 0xDEADBEEF, BitVec.ofNat 32 vector] := by
  have fits := gateStub_fits gate other
  unfold Stub.Fits at fits
  rw [fits]
  cases errorCode with
  | none => rw [if_neg fun member => absurd (pushes.mpr member) (by simp)]; rfl
  | some code => rw [if_pos (pushes.mp rfl)]; rfl

theorem enter_frame (gate : gateStub vector = some stub) (other : vector ≠ 17)
    (pushes : errorCode.isSome ↔ vector ∈ errorVectors) :
    stub.enter (s.interrupt errorCode).toMachine =
      ((s.kernelStack.toMachine.interrupt kernCodeSelector).push
        (errorCode.getD 0xDEADBEEF)).push (BitVec.ofNat 32 vector) := by
  have words := frame_words gate other pushes
  have code : (s.interrupt errorCode).toMachine =
      (s.kernelStack.toMachine.interrupt kernCodeSelector).pushes errorCode.toList := by
    cases errorCode <;> rfl
  rw [stub.enter_eq, code, ← Machine.pushes_append, words]
  rfl

theorem saveContext_esp (m : Machine) : (saveContext m).cpu.esp = m.cpu.esp - 48 := by
  simp only [saveContext, Machine.pushal, Machine.pushSeg, Machine.push]
  generalize m.cpu.esp = esp
  bv_omega

theorem push_esp (m : Machine) (v : BitVec 32) : (m.push v).cpu.esp = m.cpu.esp - 4 := rfl

theorem interrupt_esp (m : Machine) (selector : BitVec 16) :
    (m.interrupt selector).cpu.esp = m.cpu.esp - 12 := by
  simp only [Machine.interrupt, Machine.pushSeg, Machine.push]
  generalize m.cpu.esp = esp
  bv_omega

theorem kernelStack_esp (s : RingMachine) :
    s.kernelStack.cpu.esp = s.context + BitVec.ofNat 32 68 := by
  unfold RingMachine.kernelStack RingMachine.context RingMachine.frameBase frameSize
  split
  · rw [BitVec.sub_add_cancel]
  · simp only [Machine.setEsp, Machine.pushSeg, Machine.push]
    generalize s.esp0 = esp
    bv_omega

/-- The processor, the entry point and the stub push a whole context. -/
theorem saveContext_frame (gate : gateStub vector = some stub) (other : vector ≠ 17)
    (pushes : errorCode.isSome ↔ vector ∈ errorVectors) :
    (saveContext (stub.enter (s.interrupt errorCode).toMachine)).cpu.esp = s.context ∧
      (saveContext (stub.enter (s.interrupt errorCode).toMachine)).mem =
        (s.frameBase.pushes (frameWords s (s.context + 48) (BitVec.ofNat 32 vector)
          (errorCode.getD 0xDEADBEEF)).reverse).mem := by
  rw [enter_frame gate other pushes]
  have top := kernelStack_esp s
  have places (a : BitVec 32) : a + BitVec.ofNat 32 68 - 12 - 4 - 4 - 48 = a ∧
      a + BitVec.ofNat 32 68 - 4 - 4 - 4 - 4 - 4 = a + 48 := by
    constructor <;> bv_omega
  constructor
  · rw [saveContext_esp, push_esp, push_esp, interrupt_esp, top]
    exact (places _).1
  · rw [← (places _).2, ← top]
    clear top places
    unfold RingMachine.kernelStack RingMachine.frameBase frameWords
    split
    · simp [saveContext, Machine.interrupt, Machine.pushes, contextWords, Machine.pushal,
        Machine.pushSeg, Machine.push]
    · simp [saveContext, Machine.interrupt, Machine.pushes, contextWords, Machine.pushal,
        Machine.pushSeg, Machine.push, Machine.setEsp]

theorem frame_words_hold (s : RingMachine) (esp intNum errorCode : BitVec 32) :
    Words (s.frameBase.pushes (frameWords s esp intNum errorCode).reverse).mem s.context
      (frameWords s esp intNum errorCode) := by
  have nothing : Words s.frameBase.mem s.frameBase.cpu.esp [] := trivial
  have size := frameWords_length s esp intNum errorCode
  have small : frameSize s ≤ 76 := by
    unfold frameSize
    split <;> omega
  have words := Machine.pushes_words nothing
    (show 4 * ((frameWords s esp intNum errorCode).reverse.length + 0) ≤ 2 ^ 32 by
      rw [List.length_reverse]
      omega)
  rw [Machine.pushes_esp, List.length_reverse, size, List.append_nil, List.reverse_reverse] at words
  exact words

/-- A whole frame describes the machine. -/
theorem describes_of_words {m : Memory} {context : BitVec 32}
    (words : Words m context (frameWords s (context + 48) (BitVec.ofNat 32 vector)
      (errorCode.getD 0xDEADBEEF))) :
    Describes (contextAt m context) context s vector errorCode := by
  unfold frameWords contextWords at words
  have word {i : Nat} (bound : i < 17) := words.load (i := i)
    (by rw [List.length_append]; exact Nat.lt_add_right _ bound)
  have first := word (show 0 < 17 by decide)
  rw [Nat.mul_zero, BitVec.ofNat_eq_ofNat, BitVec.add_zero] at first
  refine ⟨⟨first, word (i := 1) (by decide), word (i := 2) (by decide), word (i := 3) (by decide)⟩,
    ⟨word (i := 4) (by decide), word (i := 5) (by decide), word (i := 6) (by decide),
      word (i := 8) (by decide), word (i := 9) (by decide), word (i := 10) (by decide),
      word (i := 11) (by decide)⟩, word (i := 7) (by decide), word (i := 12) (by decide),
    word (i := 13) (by decide), ⟨word (i := 14) (by decide), word (i := 15) (by decide),
      word (i := 16) (by decide)⟩, fun user => ?_⟩
  rw [if_neg user] at words
  exact ⟨words.load (i := 17) (show 17 < 19 by decide), words.load (i := 18) (show 18 < 19 by decide)⟩

/-- The resume path leads back to the interrupted machine. -/
theorem resume_words {t : RingMachine} {esp intNum code : BitVec 32}
    (words : Words t.mem t.cpu.esp (frameWords s esp intNum code))
    (top : t.cpu.esp = s.context) (ss : t.ss = s.kernelStack.ss) :
    t.resume = ⟨⟨s.cpu, t.mem⟩, s.ss, t.esp0⟩ := by
  -- up to the stack pointer, `iret` finds the frame of an interrupt of its own ring
  have inner : resume t.toMachine =
      ⟨{ s.cpu with esp := t.cpu.esp + BitVec.ofNat 32 contextSize }, t.mem⟩ := by
    refine resume_frame ⟨⟨esp, intNum, code, ?_⟩, rfl⟩
    unfold frameWords at words
    exact words.left
  unfold RingMachine.resume RingMachine.iret
  rw [← resume_eq, inner]
  unfold RingMachine.kernelStack at ss
  unfold RingMachine.context RingMachine.frameBase frameSize at top
  unfold frameWords at words
  by_cases kernel : ring s.cpu.cs = 0
  · rw [if_pos kernel] at ss
    rw [if_pos kernel, if_pos kernel] at top
    have back : t.cpu.esp + BitVec.ofNat 32 contextSize = s.cpu.esp := by
      rw [top]
      exact BitVec.sub_add_cancel _ _
    rw [back, if_pos kernel, ss]
  · rw [if_neg kernel] at words
    have user : load32 t.mem (t.cpu.esp + BitVec.ofNat 32 contextSize) = s.cpu.esp :=
      words.load (i := 17) (show 17 < 19 by decide)
    have stack : load32 t.mem (t.cpu.esp + BitVec.ofNat 32 contextSize + 4) = s.ss.setWidth 32 := by
      rw [BitVec.add_assoc]
      exact words.load (i := 18) (show 18 < 19 by decide)
    rw [if_neg kernel]
    simp only [Machine.pop, Machine.setEsp, user, stack, BitVec.setWidth_setWidth_of_le, Nat.reduceLeDiff]
    simp

/-- Every field of the context, except for that of esp, describes the interrupted machine, and
a handler that returns leads back to it. -/
theorem handlerCall_context (s : RingMachine) (vector : Nat) (stub : Stub)
    (gate : gateStub vector = some stub) (other : vector ≠ 17) (errorCode : Option (BitVec 32))
    (pushes : errorCode.isSome ↔ vector ∈ errorVectors) (handlerTable : BitVec 32) :
    let called := handlerCall s stub errorCode handlerTable
    load32 called.mem called.cpu.esp = s.context ∧
      Describes (contextAt called.mem s.context) s.context s vector errorCode ∧
      (∀ x ∉ Span (s.context - 4) (4 + frameSize s), called.mem x = s.mem x) ∧
      ∀ t, Returned s called t → t.resume = ⟨⟨s.cpu, t.mem⟩, s.ss, t.esp0⟩ := by
  intro called
  have ⟨esp, mem⟩ := saveContext_frame (s := s) gate other pushes
  have top : called.cpu.esp = s.context - 4 := by
    rw [← esp]
    rfl
  have pushed : called.mem = store32 (s.frameBase.pushes (frameWords s (s.context + 48)
      (BitVec.ofNat 32 vector) (errorCode.getD 0xDEADBEEF)).reverse).mem (s.context - 4)
      s.context := by
    rw [← mem, ← esp]
    rfl
  have length := frameWords_length s (s.context + 48) (BitVec.ofNat 32 vector)
    (errorCode.getD 0xDEADBEEF)
  have small : frameSize s ≤ 76 := by
    unfold frameSize
    split <;> omega
  -- the argument of the handler is stored below the context
  have words : Words called.mem s.context (frameWords s (s.context + 48) (BitVec.ofNat 32 vector)
      (errorCode.getD 0xDEADBEEF)) := by
    rw [pushed]
    refine (frame_words_hold s _ _ _).congr fun x inside => store32_of_not_mem ?_
    rw [length] at inside
    rw [mem_span] at *
    clear pushed top mem esp gate pushes
    bv_omega
  refine ⟨by rw [top, pushed, load32_store32], describes_of_words words, fun x outside => ?_, ?_⟩
  · have base : s.frameBase.mem = s.mem := by
      unfold RingMachine.frameBase
      split <;> rfl
    have inside : x ∉ Span s.context (frameSize s) ∧ x ∉ Span (s.context - 4) 4 := by
      rw [mem_span] at outside
      rw [mem_span, mem_span]
      clear words pushed top mem esp gate pushes length
      constructor <;> bv_omega
    rw [pushed, store32_of_not_mem inside.2, Machine.pushes_mem _ _ (by
      rw [List.length_reverse]; omega), base]
    rw [Machine.pushes_esp, List.length_reverse, length]
    exact inside.1
  · intro t returned
    have here : t.cpu.esp = s.context := by
      rw [returned.esp, top]
      exact BitVec.sub_add_cancel _ _
    have back : Words t.mem t.cpu.esp (frameWords s (s.context + 48) (BitVec.ofNat 32 vector)
        (errorCode.getD 0xDEADBEEF)) := by
      rw [here]
      refine words.congr fun x inside => returned.kept x ?_
      rwa [length] at inside
    exact resume_words back here returned.ss

/-- A machine in ring 0 whose stack ends at 0x2000. -/
def ring0Machine : RingMachine where
  cpu := ⟨1, 2, 3, 4, 0x2000, 5, 6, 7, 0x1234, 0x202, 0x8, 0x10, 0x10, 0x10, 0x10⟩
  mem := fun _ => 0
  ss := 0x10
  esp0 := 0

/-- A division error does not save the interrupted esp, and for an alignment check the error
code is taken for eip. -/
theorem ring0Machine_context :
    (gateStub 0 = some (.isrNoErrCode 0) ∧
      (contextAt (handlerCall ring0Machine (.isrNoErrCode 0) none 0).mem
        (load32 (handlerCall ring0Machine (.isrNoErrCode 0) none 0).mem
          (handlerCall ring0Machine (.isrNoErrCode 0) none 0).cpu.esp)).esp ≠
        ring0Machine.cpu.esp) ∧
    (gateStub 17 = some (.isrNoErrCode 17) ∧
      (contextAt (handlerCall ring0Machine (.isrNoErrCode 17) (some 0) 0).mem
        (load32 (handlerCall ring0Machine (.isrNoErrCode 17) (some 0) 0).mem
          (handlerCall ring0Machine (.isrNoErrCode 17) (some 0) 0).cpu.esp)).eip ≠
        ring0Machine.cpu.eip) := by
  refine ⟨⟨rfl, ?_⟩, rfl, ?_⟩ <;> decide +kernel

/-- The context of a page fault. -/
theorem ring0Machine_pageFault :
    Describes (contextAt (handlerCall ring0Machine (.isrErrCode 14) (some 2) 0).mem
      ring0Machine.context) ring0Machine.context ring0Machine 14 (some 2) :=
  (handlerCall_context ring0Machine 14 (.isrErrCode 14) rfl (by decide) (some 2) (by decide) 0).2.1

end Treeos
