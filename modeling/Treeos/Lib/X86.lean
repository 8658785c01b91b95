import Treeos.Lib.ByteMemory

/-!
# A fragment of the i386

The registers of a processor in ring 0 and the instructions that push and pop them.
What arithmetic does to the flags is left out.
-/
namespace X86

open ByteMemory

@[ext] structure Cpu where
  eax : BitVec 32
  ecx : BitVec 32
  edx : BitVec 32
  ebx : BitVec 32
  esp : BitVec 32
  ebp : BitVec 32
  esi : BitVec 32
  edi : BitVec 32
  eip : BitVec 32
  eflags : BitVec 32
  cs : BitVec 16
  ds : BitVec 16
  es : BitVec 16
  fs : BitVec 16
  gs : BitVec 16

structure Machine where
  cpu : Cpu
  mem : Memory

namespace Machine

def setEsp (s : Machine) (esp : BitVec 32) : Machine := { s with cpu := { s.cpu with esp := esp } }

def push (s : Machine) (v : BitVec 32) : Machine where
  cpu := { s.cpu with esp := s.cpu.esp - 4 }
  mem := store32 s.mem (s.cpu.esp - 4) v

def pop (s : Machine) : BitVec 32 × Machine := (load32 s.mem s.cpu.esp, s.setEsp (s.cpu.esp + 4))

-- A segment register is pushed as a zero-extended word.
def pushSeg (s : Machine) (selector : BitVec 16) : Machine := s.push (selector.setWidth 32)

def pushal (s : Machine) : Machine :=
  let esp := s.cpu.esp
  let s := (((s.push s.cpu.eax).push s.cpu.ecx).push s.cpu.edx).push s.cpu.ebx
  (((s.push esp).push s.cpu.ebp).push s.cpu.esi).push s.cpu.edi

-- The word in the place of esp is skipped.
def popal (s : Machine) : Machine :=
  let (edi, s) := s.pop
  let (esi, s) := s.pop
  let (ebp, s) := s.pop
  let (_, s) := s.pop
  let (ebx, s) := s.pop
  let (edx, s) := s.pop
  let (ecx, s) := s.pop
  let (eax, s) := s.pop
  { s with cpu := { s.cpu with eax := eax, ecx := ecx, edx := edx, ebx := ebx, ebp := ebp,
                               esi := esi, edi := edi } }

/-- What the processor does on an interrupt through an interrupt gate of its own ring. -/
def interrupt (s : Machine) (selector : BitVec 16) : Machine :=
  let s := ((s.push s.cpu.eflags).pushSeg s.cpu.cs).push s.cpu.eip
  -- IF, TF, NT, RF and VM are cleared.
  { s with cpu := { s.cpu with cs := selector, eflags := s.cpu.eflags &&& ~~~0x34300#32 } }

/-- `iret` to the same ring -/
def iret (s : Machine) : Machine :=
  let (eip, s) := s.pop
  let (cs, s) := s.pop
  let (eflags, s) := s.pop
  { s with cpu := { s.cpu with eip := eip, cs := cs.setWidth 16, eflags := eflags } }

/-- The words of `vs` pushed one after the other. -/
def pushes (s : Machine) (vs : List (BitVec 32)) : Machine := vs.foldl push s

theorem pushes_cons (s : Machine) (v : BitVec 32) (vs : List (BitVec 32)) :
    s.pushes (v :: vs) = (s.push v).pushes vs := rfl

theorem pushes_append (s : Machine) (vs us : List (BitVec 32)) :
    s.pushes (vs ++ us) = (s.pushes vs).pushes us := List.foldl_append

theorem push_words {s : Machine} {ws : List (BitVec 32)} (words : Words s.mem s.cpu.esp ws)
    (v : BitVec 32) (fits : 4 * (ws.length + 1) ≤ 2 ^ 32) :
    Words (s.push v).mem (s.push v).cpu.esp (v :: ws) := words.push v fits

/-- The stack holds what was pushed, the last word first. -/
theorem pushes_words {s : Machine} {vs ws : List (BitVec 32)} (words : Words s.mem s.cpu.esp ws)
    (fits : 4 * (vs.length + ws.length) ≤ 2 ^ 32) :
    Words (s.pushes vs).mem (s.pushes vs).cpu.esp (vs.reverse ++ ws) := by
  induction vs generalizing s ws with
  | nil => exact words
  | cons v vs ih =>
    rw [List.length_cons] at fits
    have pushed := push_words words v (by omega)
    rw [pushes_cons, List.reverse_cons, List.append_assoc, List.singleton_append]
    exact ih pushed (by rw [List.length_cons]; omega)

theorem pushes_esp (s : Machine) (vs : List (BitVec 32)) :
    (s.pushes vs).cpu.esp = s.cpu.esp - BitVec.ofNat 32 (4 * vs.length) := by
  induction vs generalizing s with
  | nil => simp [pushes]
  | cons v vs ih =>
    rw [pushes_cons, ih, List.length_cons, Nat.mul_succ, BitVec.ofNat_add]
    simp only [push]
    bv_omega

/-- Pushes change the words they push only. -/
theorem pushes_mem (s : Machine) (vs : List (BitVec 32)) (fits : 4 * vs.length ≤ 2 ^ 32)
    {x : BitVec 32} (outside : x ∉ Span (s.pushes vs).cpu.esp (4 * vs.length)) :
    (s.pushes vs).mem x = s.mem x := by
  induction vs generalizing s with
  | nil => rfl
  | cons v vs ih =>
    rw [pushes_esp, mem_span, List.length_cons] at outside
    rw [List.length_cons] at fits
    rw [pushes_cons, ih (s.push v) (by omega)]
    · refine store32_of_not_mem ?_
      rw [mem_span]
      bv_omega
    · rw [pushes_esp, mem_span]
      simp only [push]
      bv_omega

end Machine

end X86
