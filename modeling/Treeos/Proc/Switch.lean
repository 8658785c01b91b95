import Treeos.Interrupt.Stub
import Treeos.Pmm.Layout
import Treeos.Proc.Turns

/-!
# Switching between processes

The machine under the scheduler. The scheduler's C functions are those of
`Proc/Scheduler.lean`, whose variables a memory represents at the offsets of the C
structures; the assembly around them reads and writes that memory.
-/
namespace Treeos

open ByteMemory X86 Sched

/-- Addresses of the scheduler's variables and structures. -/
structure KernelMap where
  currentProcess : BitVec 32
  processQueue : BitVec 32
  switchProcesses : BitVec 32
  preemptionEnabled : BitVec 32
  handlerTable : BitVec 32
  kernelIdleTask : BitVec 32
  procs : Set ProcRef
  -- the thread structure that belongs to a process
  thread : ProcRef → ThreadRef
  initTask : ProcRef

def pageSize : BitVec 32 := 0x1000

def address (r : Nat) : BitVec 32 := BitVec.ofNat 32 r

/-- A pointer in memory; NULL is 0. -/
def pointer : Option Nat → BitVec 32
  | none => 0
  | some r => address r

namespace KernelMap

variable (K : KernelMap)

/-- The bytes of the scheduler's variables other than `g_switch_processes`. -/
def fields : Set (BitVec 32) := {x |
  (∃ p ∈ K.procs, x ∈ Span (address p) 20 ∨ x ∈ Span (address (K.thread p)) 12) ∨
  x ∈ Span K.currentProcess 4 ∨ x ∈ Span K.processQueue 4 ∨ x = K.preemptionEnabled}

/-- A memory that holds the scheduler state `s`. -/
structure Represents (m : Memory) (s : Sched) : Prop where
  thread : ∀ p ∈ K.procs, load32 m (address p) = address (s.proc p).thread
  pgdir : ∀ p ∈ K.procs, load32 m (address p + 4) = (s.proc p).pgdir
  flags : ∀ p ∈ K.procs, m (address p + 8) = (s.proc p).flags
  quantum : ∀ p ∈ K.procs, load32 m (address p + 12) = (s.proc p).quantum
  next : ∀ p ∈ K.procs, load32 m (address p + 16) = pointer (s.proc p).next
  context : ∀ p ∈ K.procs, load32 m (address (K.thread p)) = (s.thread (K.thread p)).context
  owner : ∀ p ∈ K.procs, load32 m (address (K.thread p) + 4) =
    pointer (s.thread (K.thread p)).owner
  processQueue : load32 m K.processQueue = pointer s.processQueue
  currentProcess : load32 m K.currentProcess = pointer s.currentProcess
  preemptionEnabled : m K.preemptionEnabled = if s.preemptionEnabled then 1 else 0
  switchProcesses : m K.switchProcesses = if s.switchProcesses then 1 else 0

end KernelMap

/-- Whom a byte of memory belongs to. -/
inductive Owner where
  | stack (p : ProcRef)
  | scheduler
  | free

/-- `spawn_init` puts the context of the first process here. -/
def spawnContext : BitVec 32 := kheapStart - pageSize - BitVec.ofNat 32 contextSize

/-- A memory layout in which the stacks of the processes and the scheduler's structures
are disjoint, and `g_switch_processes` has only padding in its word. -/
structure Kernel extends KernelMap where
  owner : BitVec 32 → Owner
  nonNull : ∀ p ∈ procs, address p ≠ 0
  ownThread : ∀ p ∈ procs, ∀ q ∈ procs, thread p = thread q → p = q
  fields_owner : ∀ x ∈ toKernelMap.fields, owner x = .scheduler
  switch_owner : owner switchProcesses = .scheduler
  padding : ∀ x ∈ Span switchProcesses 4, x ∉ toKernelMap.fields ∧ ∀ p, owner x ≠ .stack p
  initTask_mem : initTask ∈ procs
  initStack : ∀ x ∈ Span spawnContext contextSize, owner x = .stack initTask

/-- The machine, the scheduler state its memory represents, and whether `spawn_init` has
built its frame. -/
structure SwitchState where
  machine : Machine
  sched : Sched
  spawned : Bool

namespace Kernel

variable (K : Kernel)

/-- What code that runs on the stack of `p` may write outside `kept`. -/
def Writes (p : ProcRef) (kept : Set (BitVec 32)) (m m' : Memory) : Prop :=
  ∀ x, m' x ≠ m x → x ∉ kept ∧
    (K.owner x = .stack p ∨ K.owner x = .scheduler ∨ K.owner x = .free)

/-- A call of a C function, from the machine before to the machine after it: eax, ecx and
edx are scratch registers. -/
structure CallReturns (p : ProcRef) (kept : Set (BitVec 32)) (s s' : Machine) : Prop where
  esp : s'.cpu.esp = s.cpu.esp
  preserved : s'.cpu.ebx = s.cpu.ebx ∧ s'.cpu.ebp = s.cpu.ebp ∧ s'.cpu.esi = s.cpu.esi ∧
    s'.cpu.edi = s.cpu.edi
  writes : K.Writes p kept s.mem s'.mem

-- `addl $4, %esp` after a call
def dropArgument (s : Machine) : Machine := s.setEsp (s.cpu.esp + 4)

-- `pushl %esp`
def pushEsp (s : Machine) : Machine := s.push s.cpu.esp

/-- `scheduler_advance_stage2`, up to the jump to the resume path -/
def advanceStage2 (s : Machine) : Machine :=
  let eax := load32 s.mem K.currentProcess
  -- the thread is the first member of the process, the context that of the thread
  let edx := load32 s.mem eax
  let esp := load32 s.mem edx
  { cpu := { s.cpu with eax := eax, edx := edx, esp := esp }
    mem := store32 s.mem K.switchProcesses 0 }

/-- The `struct thread_context` that `spawn_init` copies to the new stack. -/
def spawnWords (eflags : BitVec 32) : List (BitVec 32) :=
  [0x10, 0x10, 0x10, 0x10, 0, 0, 0, spawnContext + 28, 0, 0, 0, 0, 0, 0, K.kernelIdleTask, 0x8,
   eflags ||| 0x200]

/-- What `spawn_init` does to the scheduler's structures before it adds the process. -/
def spawnInit (pgdir : BitVec 32) (s : Sched) : Sched :=
  let s := s.setProc K.initTask
    { s.proc K.initTask with pgdir := pgdir, quantum := defaultQuantum,
                             thread := K.thread K.initTask }
  let t := (s.proc K.initTask).thread
  let s : Sched := { s with thread := Function.update s.thread t
                                        { s.thread t with owner := some K.initTask } }
  s.setContext K.initTask spawnContext

end Kernel

/-- What happened, with the registers that an interrupt found and those it left behind. -/
inductive SwitchEvent where
  | exec
  | spawn (eflags : BitVec 32)
  | add
  | interrupt (before after : Cpu)
  | switch (p : ProcRef) (before : Cpu) (q : ProcRef) (after : Cpu)

/-- The current process runs, spawns the first process or is interrupted. -/
inductive SwitchStep (K : Kernel) : SwitchState → SwitchEvent → SwitchState → Prop
  -- any code of the process, `process_yield` included
  | exec {st : SwitchState} {t : Machine} {sched : Sched} {p : ProcRef}
      (current : st.sched.currentProcess = some p)
      (own : sched = st.sched ∨ processYield st.sched = .ok sched)
      (writes : K.Writes p ∅ st.machine.mem t.mem) (represents : K.Represents t.mem sched) :
      SwitchStep K st .exec ⟨t, sched, st.spawned⟩
  -- `spawn_init` up to its call of `scheduler_add_process`
  | spawn {st : SwitchState} {t : Machine} {pgdir eflags : BitVec 32} {p : ProcRef}
      (current : st.sched.currentProcess = some p) (once : st.spawned = false)
      (copied : Words t.mem spawnContext (K.spawnWords eflags))
      (writes : ∀ x, t.mem x ≠ st.machine.mem x → x ∈ Span spawnContext contextSize ∨
        K.owner x = .stack p ∨ K.owner x = .scheduler ∨ K.owner x = .free)
      (represents : K.Represents t.mem (K.spawnInit pgdir st.sched)) :
      SwitchStep K st (.spawn eflags) ⟨t, K.spawnInit pgdir st.sched, true⟩
  | add {st : SwitchState} {t : Machine} {sched : Sched} {p : ProcRef} {fuel : Nat} {ret : Bool}
      (current : st.sched.currentProcess = some p) (spawned : st.spawned = true)
      (returned : schedulerAddProcess fuel st.sched (some K.initTask) = .ok (ret, sched))
      (writes : K.Writes p ∅ st.machine.mem t.mem) (represents : K.Represents t.mem sched) :
      SwitchStep K st .add ⟨t, sched, st.spawned⟩
  -- an interrupt whose handler asks for no switch
  | interrupt {st : SwitchState} {t : Machine} {sched : Sched} {p : ProcRef} {intNum : BitVec 32}
      (current : st.sched.currentProcess = some p)
      (room : ∀ x ∈ Span (contextOf st.machine - 4) (4 + contextSize), K.owner x = .stack p)
      (handled : K.CallReturns p (Span (contextOf st.machine) contextSize)
        (stubEntry st.machine intNum K.handlerTable) t)
      (ticked : sched = st.sched ∨ schedulerTick st.sched = .ok sched)
      (represents : K.Represents t.mem sched)
      (stays : load32 t.mem K.preemptionEnabled = 0 ∨ load32 t.mem K.switchProcesses = 0) :
      SwitchStep K st (.interrupt st.machine.cpu (resume (Kernel.dropArgument t)).cpu)
        ⟨resume (Kernel.dropArgument t), sched, st.spawned⟩
  -- an interrupt that ends in another process
  | switch {st : SwitchState} {t u : Machine} {sched sched' : Sched} {p q : ProcRef}
      {intNum : BitVec 32} (current : st.sched.currentProcess = some p)
      (room : ∀ x ∈ Span (contextOf st.machine - 4) (4 + contextSize), K.owner x = .stack p)
      (handled : K.CallReturns p (Span (contextOf st.machine) contextSize)
        (stubEntry st.machine intNum K.handlerTable) t)
      (ticked : sched = st.sched ∨ schedulerTick st.sched = .ok sched)
      (represents : K.Represents t.mem sched)
      (switches : load32 t.mem K.preemptionEnabled ≠ 0 ∧ load32 t.mem K.switchProcesses ≠ 0)
      (keepsContext : (sched.proc p).flags &&& procFreeThreadContext = 0)
      (called : K.CallReturns p (Span (contextOf st.machine) contextSize)
        (Kernel.pushEsp (Kernel.dropArgument t)) u)
      (advanced : schedulerAdvanceStage1
        (load32 (Kernel.pushEsp (Kernel.dropArgument t)).mem
          (Kernel.pushEsp (Kernel.dropArgument t)).cpu.esp) sched = .ok sched')
      (represents' : K.Represents u.mem sched') (target : sched'.currentProcess = some q) :
      SwitchStep K st
        (.switch p st.machine.cpu q (resume (K.advanceStage2 (Kernel.dropArgument u))).cpu)
        ⟨resume (K.advanceStage2 (Kernel.dropArgument u)), schedulerAdvanceStage2 .padded sched',
          st.spawned⟩

/-- The registers with which a process that `spawn_init` built starts. -/
def Kernel.spawnCpu (K : Kernel) (eflags : BitVec 32) : Cpu where
  eax := 0
  ecx := 0
  edx := 0
  ebx := 0
  esp := kheapStart - pageSize
  ebp := 0
  esi := 0
  edi := 0
  eip := K.kernelIdleTask
  eflags := eflags ||| 0x200
  cs := kernCodeSelector
  ds := kernDataSelector
  es := kernDataSelector
  fs := kernDataSelector
  gs := kernDataSelector

/-- What an event changes in the registers that each process will resume with. -/
def Kernel.record (K : Kernel) (saved : ProcRef → Cpu) : SwitchEvent → ProcRef → Cpu
  | .spawn eflags => Function.update saved K.initTask (K.spawnCpu eflags)
  | .switch p before _ _ => Function.update saved p before
  | _ => saved

/-- The registers of each process when it was last interrupted and left, or spawned. -/
def Kernel.savedAfter (K : Kernel) (saved : ProcRef → Cpu) (events : List SwitchEvent) :
    ProcRef → Cpu :=
  events.foldl K.record saved

/-- An interrupt gives a process exactly its own registers back. -/
def Kernel.Restores (K : Kernel) (saved : ProcRef → Cpu) : SwitchEvent → Prop
  | .interrupt before after => after = before
  | .switch p before q after => after = K.record saved (.switch p before q after) q
  | _ => True

/-- A process that is not running: its thread points to a frame with its registers. -/
structure Kernel.Suspended (K : Kernel) (m : Memory) (s : Sched) (q : ProcRef) (r : Cpu) : Prop where
  thread : (s.proc q).thread = K.thread q
  frame : FrameHolds m (s.thread (K.thread q)).context r
  stack : ∀ x ∈ Span (s.thread (K.thread q)).context contextSize, K.owner x = .stack q

/-- Process `p` of the queue `xs` runs, and the others are suspended with the registers
`saved`, as is a spawned process that has not been added yet. -/
structure SwitchInv (K : Kernel) (saved : ProcRef → Cpu) (xs : List ProcRef) (p : ProcRef)
    (st : SwitchState) : Prop where
  represents : K.Represents st.machine.mem st.sched
  queue : st.sched.IsQueue xs
  member : p ∈ xs
  current : st.sched.currentProcess = some p
  known : ∀ q ∈ xs, q ∈ K.procs
  running : (st.sched.proc p).thread = K.thread p
  suspended : ∀ q ∈ xs, q ≠ p → K.Suspended st.machine.mem st.sched q (saved q)
  absent : st.spawned = false → K.initTask ∉ xs
  unlinked : K.initTask ∉ xs → st.sched.next K.initTask = none
  pending : st.spawned = true → K.initTask ∉ xs →
    K.Suspended st.machine.mem st.sched K.initTask (saved K.initTask)

/-! ### What stays the same -/

/-- Scheduler calls that leave the queue, the current process and the threads alone. -/
structure SameLinks (s s' : Sched) : Prop where
  next : s'.next = s.next
  processQueue : s'.processQueue = s.processQueue
  currentProcess : s'.currentProcess = s.currentProcess
  procThread : ∀ q, (s'.proc q).thread = (s.proc q).thread
  thread : s'.thread = s.thread

theorem SameLinks.refl (s : Sched) : SameLinks s s := ⟨rfl, rfl, rfl, fun _ => rfl, rfl⟩

theorem sameLinks_yield {s s' : Sched} (own : s' = s ∨ processYield s = .ok s') :
    SameLinks s s' := by
  rcases own with rfl | returned
  · exact .refl s'
  · obtain ⟨p, -, rfl⟩ := processYield_cases returned
    refine ⟨by simp, rfl, rfl, fun q => ?_, rfl⟩
    by_cases same : q = p <;> simp [setFlags, setProc, same]

theorem sameLinks_tick {s s' : Sched} (ticked : s' = s ∨ schedulerTick s = .ok s') :
    SameLinks s s' := by
  rcases ticked with rfl | returned
  · exact .refl s'
  · obtain ⟨p, flag, -, rfl⟩ := schedulerTick_cases returned
    refine ⟨by simp, rfl, rfl, fun q => ?_, rfl⟩
    by_cases same : q = p <;> simp [setQuantum, setProc, setSwitchProcesses, same]

variable {K : Kernel}

theorem Kernel.Writes.stack {p q : ProcRef} {kept : Set (BitVec 32)} {m m' : Memory}
    (writes : K.Writes p kept m m') (other : q ≠ p) {x : BitVec 32} (owner : K.owner x = .stack q) :
    m' x = m x := by
  by_contra changed
  obtain ⟨-, mine | rest | rest⟩ := writes x changed
  · rw [owner] at mine
    exact other (Owner.stack.inj mine)
  · rw [owner] at rest
    cases rest
  · rw [owner] at rest
    cases rest

theorem Kernel.Writes.kept {p : ProcRef} {kept : Set (BitVec 32)} {m m' : Memory}
    (writes : K.Writes p kept m m') {x : BitVec 32} (inside : x ∈ kept) : m' x = m x := by
  by_contra changed
  exact (writes x changed).1 inside

/-- A suspended process depends on its own stack and thread. -/
theorem Kernel.Suspended.congr {m m' : Memory} {s s' : Sched} {q : ProcRef} {r : Cpu}
    (suspended : K.Suspended m s q r) (stack : ∀ x, K.owner x = .stack q → m' x = m x)
    (thread : (s'.proc q).thread = (s.proc q).thread)
    (context : (s'.thread (K.thread q)).context = (s.thread (K.thread q)).context) :
    K.Suspended m' s' q r := by
  refine ⟨thread.trans suspended.thread, ?_, by rw [context]; exact suspended.stack⟩
  rw [context]
  exact suspended.frame.congr fun x inside => stack x (suspended.stack x inside)

/-- Code on the stack of the running process keeps everything else in place. -/
theorem SwitchInv.runs {saved : ProcRef → Cpu} {xs : List ProcRef} {p : ProcRef}
    {st : SwitchState} (inv : SwitchInv K saved xs p st) {t : Machine} {sched : Sched}
    (links : SameLinks st.sched sched) (represents : K.Represents t.mem sched)
    (otherStacks : ∀ q ≠ p, ∀ x, K.owner x = .stack q → t.mem x = st.machine.mem x) :
    SwitchInv K saved xs p ⟨t, sched, st.spawned⟩ where
  represents := represents
  queue := inv.queue.congr links.next links.processQueue
  member := inv.member
  current := links.currentProcess.trans inv.current
  known := inv.known
  running := (links.procThread p).trans inv.running
  suspended q queued other :=
    (inv.suspended q queued other).congr (otherStacks q other) (links.procThread q) (by rw [links.thread])
  absent := inv.absent
  unlinked absent := by rw [links.next]; exact inv.unlinked absent
  pending spawned absent := by
    have other : K.initTask ≠ p := fun same => absent (same ▸ inv.member)
    exact (inv.pending spawned absent).congr (otherStacks _ other) (links.procThread _)
      (by rw [links.thread])

/-! ### The interrupt -/

/-- From the interrupted instruction to the return of the handler the other stacks stay as
they are, and the context of the interrupted process is complete. -/
theorem handled_frame {s t : Machine} {p : ProcRef} {intNum : BitVec 32}
    (room : ∀ x ∈ Span (contextOf s - 4) (4 + contextSize), K.owner x = .stack p)
    (handled : K.CallReturns p (Span (contextOf s) contextSize)
      (stubEntry s intNum K.handlerTable) t) :
    (Kernel.dropArgument t).cpu.esp = contextOf s ∧ FrameHolds t.mem (contextOf s) s.cpu ∧
      ∀ q ≠ p, ∀ x, K.owner x = .stack q → t.mem x = s.mem x := by
  obtain ⟨esp, -, frame, outside⟩ := stubEntry_spec s intNum K.handlerTable
  refine ⟨?_, frame.congr fun x inside => handled.writes.kept inside, fun q other x owner => ?_⟩
  · have kept := handled.esp
    rw [esp] at kept
    show t.cpu.esp + 4 = contextOf s
    rw [kept, BitVec.sub_add_cancel]
  · rw [handled.writes.stack other owner]
    refine outside x fun inside => ?_
    have mine := room x inside
    rw [owner] at mine
    exact other (Owner.stack.inj mine)

/-- The call of `scheduler_advance_stage1` gets the context as its argument and keeps it. -/
theorem called_frame {t u : Machine} {p : ProcRef} {context : BitVec 32} {r : Cpu}
    (esp : (Kernel.dropArgument t).cpu.esp = context) (frame : FrameHolds t.mem context r)
    (room : ∀ x ∈ Span (context - 4) (4 + contextSize), K.owner x = .stack p)
    (called : K.CallReturns p (Span context contextSize)
      (Kernel.pushEsp (Kernel.dropArgument t)) u) :
    load32 (Kernel.pushEsp (Kernel.dropArgument t)).mem
        (Kernel.pushEsp (Kernel.dropArgument t)).cpu.esp = context ∧
      FrameHolds u.mem context r ∧
      ∀ q ≠ p, ∀ x, K.owner x = .stack q → u.mem x = t.mem x := by
  have pushed : (Kernel.pushEsp (Kernel.dropArgument t)).mem =
      store32 t.mem (context - 4) context := by rw [← esp]; rfl
  have below : (Kernel.pushEsp (Kernel.dropArgument t)).cpu.esp = context - 4 := by
    rw [← esp]; rfl
  have inside : Span (context - 4) 4 ⊆ Span (context - 4) (4 + contextSize) :=
    span_mono (by decide)
  refine ⟨by rw [pushed, below, load32_store32], ?_, fun q other x owner => ?_⟩
  · refine frame.congr fun x member => ?_
    rw [called.writes.kept member, pushed]
    refine store32_of_not_mem ?_
    rw [mem_span] at *
    unfold contextSize at member
    bv_omega
  · rw [called.writes.stack other owner, pushed]
    refine store32_of_not_mem fun member => ?_
    have mine := room x (inside member)
    rw [owner] at mine
    exact other (Owner.stack.inj mine)

/-! ### The switch -/

theorem KernelMap.span_fields (K : KernelMap) {p : ProcRef} (member : p ∈ K.procs) {d : BitVec 32}
    (inside : 4 + d.toNat ≤ 20) : Span (address p + d) 4 ⊆ K.fields := fun _ here =>
  .inl ⟨p, member, .inl (span_mono inside (span_shift d here))⟩

theorem KernelMap.span_thread (K : KernelMap) {p : ProcRef} (member : p ∈ K.procs) {d : BitVec 32}
    (inside : 4 + d.toNat ≤ 12) : Span (address (K.thread p) + d) 4 ⊆ K.fields := fun _ here =>
  .inl ⟨p, member, .inr (span_mono inside (span_shift d here))⟩

/-- The scheduler's variables but for the switch flag are in `fields`. -/
theorem KernelMap.Represents.setSwitch {K : KernelMap} {m m' : Memory} {s : Sched} {value : Bool}
    (represents : K.Represents m s) (same : ∀ x ∈ K.fields, m' x = m x)
    (flag : m' K.switchProcesses = if value then 1 else 0) :
    K.Represents m' (s.setSwitchProcesses value) := by
  have word {a : BitVec 32} (inside : Span a 4 ⊆ K.fields) : load32 m' a = load32 m a :=
    load32_congr fun x here => same x (inside here)
  have procWord {p : ProcRef} (member : p ∈ K.procs) (d : BitVec 32) (inside : 4 + d.toNat ≤ 20) :
      load32 m' (address p + d) = load32 m (address p + d) := word (K.span_fields member inside)
  have threadWord {p : ProcRef} (member : p ∈ K.procs) (d : BitVec 32)
      (inside : 4 + d.toNat ≤ 12) :
      load32 m' (address (K.thread p) + d) = load32 m (address (K.thread p) + d) :=
    word (K.span_thread member inside)
  refine ⟨fun p member => ?_, fun p member => ?_, fun p member => ?_, fun p member => ?_,
    fun p member => ?_, fun p member => ?_, fun p member => ?_, ?_, ?_, ?_, flag⟩
  · rw [← BitVec.add_zero (address p), procWord member 0#32 (by decide), BitVec.add_zero]
    exact represents.thread p member
  · rw [procWord member 4 (by decide)]
    exact represents.pgdir p member
  · have inside : address p + 8 ∈ K.fields :=
      .inl ⟨p, member, .inl (by rw [mem_span]; bv_omega)⟩
    rw [same _ inside]
    exact represents.flags p member
  · rw [procWord member 12 (by decide)]
    exact represents.quantum p member
  · rw [procWord member 16 (by decide)]
    exact represents.next p member
  · rw [← BitVec.add_zero (address (K.thread p)), threadWord member 0#32 (by decide),
      BitVec.add_zero]
    exact represents.context p member
  · rw [threadWord member 4 (by decide)]
    exact represents.owner p member
  · rw [word fun x here => .inr (.inr (.inl here))]
    exact represents.processQueue
  · rw [word fun x here => .inr (.inl here)]
    exact represents.currentProcess
  · rw [same _ (.inr (.inr (.inr rfl)))]
    exact represents.preemptionEnabled

theorem store32_switch (K : Kernel) (m : Memory) :
    store32 m K.switchProcesses 0 K.switchProcesses = 0 := by
  have byte := store32_byte (m := m) (a := K.switchProcesses) 0 0#32 (by decide)
  rw [BitVec.add_zero] at byte
  exact byte

/-- The assembly of the second stage is `schedulerAdvanceStage2`: its store clears the
switch flag and only padding beside it. -/
theorem Kernel.advanceStage2_represents {m : Memory} {cpu : Cpu} {s : Sched}
    (represents : K.Represents m s) :
    K.Represents (K.advanceStage2 ⟨cpu, m⟩).mem (schedulerAdvanceStage2 .padded s) := by
  refine represents.setSwitch (fun x inside => store32_of_not_mem fun near => ?_)
    (store32_switch K m)
  exact (K.padding x near).1 inside

theorem Kernel.advanceStage2_stack {m : Memory} {cpu : Cpu} {q : ProcRef} {x : BitVec 32}
    (owner : K.owner x = .stack q) : (K.advanceStage2 ⟨cpu, m⟩).mem x = m x :=
  store32_of_not_mem fun near => (K.padding x near).2 q owner

/-- The assembly loads esp from the context of the current process. -/
theorem Kernel.advanceStage2_esp {m : Memory} {cpu : Cpu} {s : Sched} {q : ProcRef}
    (represents : K.Represents m s) (member : q ∈ K.procs) (current : s.currentProcess = some q)
    (thread : (s.proc q).thread = K.thread q) :
    (K.advanceStage2 ⟨cpu, m⟩).cpu.esp = (s.thread (K.thread q)).context := by
  have first : load32 m K.currentProcess = address q := by
    rw [represents.currentProcess, current]
    rfl
  have second : load32 m (address q) = address (K.thread q) := by
    rw [represents.thread q member, thread]
  show load32 m (load32 m (load32 m K.currentProcess)) = _
  rw [first, second, represents.context q member]

/-- The scheduler after a whole switch away from `p`. -/
def Sched.switched (s : Sched) (p : ProcRef) (context : BitVec 32) : Sched :=
  (((s.setFlags p (stage1Flags (s.proc p).flags)).setContext p context).setCurrentProcess
    (s.following p)).setSwitchProcesses false

theorem advanced_eq {s s' : Sched} {p : ProcRef} {context : BitVec 32}
    (current : s.currentProcess = some p)
    (advanced : schedulerAdvanceStage1 context s = .ok s') :
    schedulerAdvanceStage2 .padded s' = s.switched p context := by
  have whole : contextSwitch .padded context s = .ok (s.switched p context) :=
    contextSwitch_eq context current
  rw [contextSwitch, advanced, ok_bind] at whole
  exact Except.ok.inj whole

theorem switched_procThread (s : Sched) (p q : ProcRef) (context : BitVec 32) :
    ((s.switched p context).proc q).thread = (s.proc q).thread := by
  by_cases same : q = p <;>
    simp [switched, setFlags, setProc, setContext, setCurrentProcess, setSwitchProcesses, same]

theorem switched_thread (s : Sched) (p : ProcRef) (context : BitVec 32) :
    (s.switched p context).thread = Function.update s.thread (s.proc p).thread
      { s.thread (s.proc p).thread with context := context } := by
  simp [switched, setFlags, setProc, setContext, setCurrentProcess, setSwitchProcesses]

/-- Only the thread of the process that is left gets another context. -/
theorem switched_context_of_ne {s : Sched} {p q : ProcRef} {context : BitVec 32}
    (running : (s.proc p).thread = K.thread p) (first : p ∈ K.procs) (second : q ∈ K.procs)
    (other : q ≠ p) : ((s.switched p context).thread (K.thread q)).context =
      (s.thread (K.thread q)).context := by
  have apart : K.thread q ≠ (s.proc p).thread := by
    rw [running]
    exact fun same => other (K.ownThread q second p first same)
  rw [switched_thread, Function.update_of_ne apart]

/-- After the two stages every queued process is suspended, the one that was interrupted
with the registers `r` of its frame. -/
theorem SwitchInv.all_suspended {saved : ProcRef → Cpu} {xs : List ProcRef} {p : ProcRef}
    {st : SwitchState} (inv : SwitchInv K saved xs p st) {context : BitVec 32} {r : Cpu}
    {m : Memory} (frame : FrameHolds m context r)
    (own : ∀ x ∈ Span context contextSize, K.owner x = .stack p)
    (otherStacks : ∀ q ≠ p, ∀ x, K.owner x = .stack q → m x = st.machine.mem x) {q : ProcRef}
    (member : q ∈ K.procs)
    (suspended : q ≠ p → K.Suspended st.machine.mem st.sched q (saved q)) :
    K.Suspended m (st.sched.switched p context) q (Function.update saved p r q) := by
  have first := inv.known p inv.member
  by_cases same : q = p
  · subst same
    have context_eq : ((st.sched.switched q context).thread (K.thread q)).context = context := by
      rw [switched_thread, inv.running, Function.update_self]
    rw [Function.update_self]
    refine ⟨(switched_procThread _ _ _ _).trans inv.running, ?_, ?_⟩
    · rwa [context_eq]
    · rwa [context_eq]
  · rw [Function.update_of_ne same]
    exact (suspended same).congr (otherStacks q same) (switched_procThread _ _ _ _)
      (switched_context_of_ne inv.running first member same)

/-- The second stage resumes the next process with its own registers. -/
theorem SwitchInv.stage2 {saved : ProcRef → Cpu} {xs : List ProcRef} {p q : ProcRef}
    {st : SwitchState} (inv : SwitchInv K saved xs p st) {context : BitVec 32} {r : Cpu}
    {sched' : Sched} {u : Machine} (frame : FrameHolds u.mem context r)
    (own : ∀ x ∈ Span context contextSize, K.owner x = .stack p)
    (otherStacks : ∀ q ≠ p, ∀ x, K.owner x = .stack q → u.mem x = st.machine.mem x)
    (advanced : schedulerAdvanceStage1 context st.sched = .ok sched')
    (represents : K.Represents u.mem sched') (target : sched'.currentProcess = some q) :
    SwitchInv K (Function.update saved p r) xs q
        ⟨resume (K.advanceStage2 u), schedulerAdvanceStage2 .padded sched', st.spawned⟩ ∧
      (resume (K.advanceStage2 u)).cpu = Function.update saved p r q := by
  obtain ⟨cpu, mem⟩ := u
  have whole := advanced_eq inv.current advanced
  have represents' : K.Represents (K.advanceStage2 ⟨cpu, mem⟩).mem
      (schedulerAdvanceStage2 .padded sched') := K.advanceStage2_represents represents
  -- The queue's next process is the target.
  have following := inv.queue.following inv.member
  obtain rfl : xs.next p inv.member = q := by
    have current : (schedulerAdvanceStage2 .padded sched').currentProcess = some q := target
    rw [whole] at current
    exact Option.some.inj (following.symm.trans current)
  have queued := List.next_mem xs p inv.member
  have stack2 : ∀ q, ∀ x, K.owner x = .stack q → (K.advanceStage2 ⟨cpu, mem⟩).mem x = mem x :=
    fun q x owner => K.advanceStage2_stack owner
  have frame2 : FrameHolds (K.advanceStage2 ⟨cpu, mem⟩).mem context r :=
    frame.congr fun x inside => stack2 p x (own x inside)
  have all {q : ProcRef} (member : q ∈ K.procs)
      (suspended : q ≠ p → K.Suspended st.machine.mem st.sched q (saved q)) :=
    inv.all_suspended frame2 own
      (fun q other x owner => (stack2 q x owner).trans (otherStacks q other x owner)) member suspended
  have resumed := all (inv.known _ queued) (inv.suspended _ queued)
  have esp : (K.advanceStage2 ⟨cpu, mem⟩).cpu.esp =
      ((st.sched.switched p context).thread (K.thread (xs.next p inv.member))).context := by
    have loaded : (K.advanceStage2 ⟨cpu, mem⟩).cpu.esp =
        (sched'.thread (K.thread (xs.next p inv.member))).context :=
      K.advanceStage2_esp represents (inv.known _ queued) target (by
        rw [show sched'.proc = (schedulerAdvanceStage2 .padded sched').proc from rfl, whole]
        exact resumed.thread)
    rw [loaded, ← whole]
    rfl
  have machine := resume_frame (s := K.advanceStage2 ⟨cpu, mem⟩) (esp ▸ resumed.frame)
  refine ⟨?_, by rw [machine]⟩
  rw [machine, whole]
  rw [whole] at represents'
  refine ⟨represents', inv.queue.congr (by simp [switched]) rfl, queued, following, inv.known,
    resumed.thread, fun q member _ => all (inv.known q member) (inv.suspended q member),
    inv.absent, fun absent => ?_, fun spawned absent => ?_⟩
  · rw [show (st.sched.switched p context).next = st.sched.next by simp [switched]]
    exact inv.unlinked absent
  · exact all K.initTask_mem fun _ => inv.pending spawned absent

/-! ### Spawning -/

/-- The hand-built frame is one of a process interrupted at `kernel_idle_task`, with an
empty stack. -/
theorem spawnWords_frame {m : Memory} {eflags : BitVec 32}
    (copied : Words m spawnContext (K.spawnWords eflags)) :
    FrameHolds m spawnContext (K.spawnCpu eflags) :=
  ⟨⟨_, _, _, copied⟩, show kheapStart - pageSize = _ by decide⟩

theorem spawnInit_next (pgdir : BitVec 32) (s : Sched) : (K.spawnInit pgdir s).next = s.next := by
  funext q
  by_cases same : q = K.initTask <;>
    simp [Kernel.spawnInit, next, setContext, setProc, same]

theorem spawnInit_procThread {q : ProcRef} (other : q ≠ K.initTask) (pgdir : BitVec 32)
    (s : Sched) : ((K.spawnInit pgdir s).proc q).thread = (s.proc q).thread := by
  simp [Kernel.spawnInit, setContext, setProc, other]

theorem spawnInit_context (pgdir : BitVec 32) (s : Sched) :
    ((K.spawnInit pgdir s).proc K.initTask).thread = K.thread K.initTask ∧
      ((K.spawnInit pgdir s).thread (K.thread K.initTask)).context = spawnContext := by
  constructor <;> simp [Kernel.spawnInit, setContext, setProc]

theorem spawnInit_thread {q : ProcRef} (member : q ∈ K.procs) (other : q ≠ K.initTask)
    (pgdir : BitVec 32) (s : Sched) :
    (K.spawnInit pgdir s).thread (K.thread q) = s.thread (K.thread q) := by
  have apart : K.thread q ≠ K.thread K.initTask := fun same =>
    other (K.ownThread q member _ K.initTask_mem same)
  simp [Kernel.spawnInit, setContext, setProc, apart]

theorem addProcess_threads {s s' : Sched} {p : ProcRef}
    (shape : s' = s ∨ s' = s.setProcessQueue (some p) ∨ ∃ node, s' = s.setNext node (some p)) :
    s'.currentProcess = s.currentProcess ∧ s'.thread = s.thread ∧
      ∀ q, (s'.proc q).thread = (s.proc q).thread := by
  rcases shape with rfl | rfl | ⟨node, rfl⟩
  · exact ⟨rfl, rfl, fun _ => rfl⟩
  · exact ⟨rfl, rfl, fun _ => rfl⟩
  · refine ⟨rfl, rfl, fun q => ?_⟩
    by_cases same : q = node <;> simp [setNext, setProc, same]

/-- `spawn_init` leaves the queued processes alone, and a context on the stack that it builds. -/
theorem SwitchInv.spawn {saved : ProcRef → Cpu} {xs : List ProcRef} {p : ProcRef}
    {st : SwitchState} (inv : SwitchInv K saved xs p st) {pgdir eflags : BitVec 32} {t : Machine}
    (once : st.spawned = false) (copied : Words t.mem spawnContext (K.spawnWords eflags))
    (writes : ∀ x, t.mem x ≠ st.machine.mem x → x ∈ Span spawnContext contextSize ∨
      K.owner x = .stack p ∨ K.owner x = .scheduler ∨ K.owner x = .free)
    (represents : K.Represents t.mem (K.spawnInit pgdir st.sched)) :
    SwitchInv K (K.record saved (.spawn eflags)) xs p ⟨t, K.spawnInit pgdir st.sched, true⟩ := by
  have absent := inv.absent once
  have unlinked := inv.unlinked absent
  have other : ∀ q ∈ xs, q ≠ K.initTask := fun q member same => absent (same ▸ member)
  refine ⟨represents, inv.queue.congr (spawnInit_next _ _) rfl, inv.member, inv.current,
    inv.known, ?_, fun q member apart => ?_, (fun old => nomatch old), fun _ => ?_, fun _ _ => ?_⟩
  · rw [spawnInit_procThread (other p inv.member)]
    exact inv.running
  · rw [Kernel.record, Function.update_of_ne (other q member)]
    refine (inv.suspended q member apart).congr (fun x owner => ?_)
      (spawnInit_procThread (other q member) _ _)
      (by rw [spawnInit_thread (inv.known q member) (other q member)])
    -- a byte of a suspended stack is neither in the new context nor written by the process
    by_contra changed
    rcases writes x changed with new | rest
    · have mine := K.initStack x new
      rw [owner] at mine
      exact other q member (Owner.stack.inj mine)
    · simp [owner, apart] at rest
  · rw [spawnInit_next]
    exact unlinked
  · obtain ⟨thread, context⟩ := spawnInit_context (K := K) pgdir st.sched
    rw [Kernel.record, Function.update_self]
    exact ⟨thread, by rw [context]; exact spawnWords_frame copied, by
      rw [context]; exact K.initStack⟩

/-- Adding the spawned process puts it among the suspended ones. -/
theorem SwitchInv.add {saved : ProcRef → Cpu} {xs : List ProcRef} {p : ProcRef}
    {st : SwitchState} (inv : SwitchInv K saved xs p st) (spawned : st.spawned = true)
    {fuel : Nat} {ret : Bool} {sched : Sched} {t : Machine}
    (returned : schedulerAddProcess fuel st.sched (some K.initTask) = .ok (ret, sched))
    (writes : K.Writes p ∅ st.machine.mem t.mem) (represents : K.Represents t.mem sched) :
    SwitchInv K saved (enqueue xs K.initTask) p ⟨t, sched, st.spawned⟩ := by
  obtain ⟨s', answer, queue, -, shape⟩ := schedulerAddProcess_spec inv.queue inv.unlinked
    (Nat.le_max_right fuel xs.length)
  rw [schedulerAddProcess_mono returned (Nat.le_max_left fuel xs.length)] at answer
  cases answer
  have ⟨current, thread, procThread⟩ := addProcess_threads shape
  have kept {q : ProcRef} {r : Cpu} (other : q ≠ p)
      (suspended : K.Suspended st.machine.mem st.sched q r) : K.Suspended t.mem sched q r :=
    suspended.congr (fun x owner => writes.stack other owner) (procThread q) (by rw [thread])
  have added : K.initTask ∈ enqueue xs K.initTask := by
    unfold enqueue
    split
    next old => exact old
    next => simp
  refine ⟨represents, queue, mem_enqueue inv.member, current.trans inv.current, ?_,
    (procThread p).trans inv.running, fun q member other => ?_, fun old => ?_,
    fun absent => absurd added absent, fun _ absent => absurd added absent⟩
  · intro q member
    unfold enqueue at member
    split at member
    · exact inv.known q member
    · rcases List.mem_append.mp member with old | new
      · exact inv.known q old
      · exact List.mem_singleton.mp new ▸ K.initTask_mem
  · by_cases old : q ∈ xs
    · exact kept other (inv.suspended q old other)
    · obtain rfl : q = K.initTask := by
        unfold enqueue at member
        split at member
        · exact absurd member old
        · exact List.mem_singleton.mp ((List.mem_append.mp member).resolve_left old)
      exact kept other (inv.pending spawned old)
  · rw [spawned] at old
    cases old

/-! ### Runs -/

/-- One step keeps the invariant for the registers it records, and restores what an
interrupt found or what was recorded before. -/
theorem SwitchStep.inv {saved : ProcRef → Cpu} {xs : List ProcRef} {p : ProcRef}
    {st st' : SwitchState} {e : SwitchEvent} (inv : SwitchInv K saved xs p st)
    (step : SwitchStep K st e st') :
    (∃ xs' p', SwitchInv K (K.record saved e) xs' p' st') ∧ K.Restores saved e := by
  cases step with
  | @exec t sched p' current own writes represents =>
    obtain rfl : p = p' := Option.some.inj (inv.current.symm.trans current)
    exact ⟨⟨xs, p, inv.runs (sameLinks_yield own) represents fun q other x owner =>
      writes.stack other owner⟩, trivial⟩
  | @spawn t pgdir eflags p' current once copied writes represents =>
    obtain rfl : p = p' := Option.some.inj (inv.current.symm.trans current)
    exact ⟨⟨xs, p, inv.spawn once copied writes represents⟩, trivial⟩
  | @add t sched p' fuel ret current spawned returned writes represents =>
    obtain rfl : p = p' := Option.some.inj (inv.current.symm.trans current)
    exact ⟨⟨_, p, inv.add spawned returned writes represents⟩, trivial⟩
  | @interrupt t sched p' intNum current room handled ticked represents stays =>
    obtain rfl : p = p' := Option.some.inj (inv.current.symm.trans current)
    have ⟨esp, frame, otherStacks⟩ := handled_frame room handled
    have machine := resume_frame (s := Kernel.dropArgument t) (r := st.machine.cpu) (by
      rw [esp]; exact frame)
    rw [machine]
    exact ⟨⟨xs, p, inv.runs (sameLinks_tick ticked) represents otherStacks⟩, rfl⟩
  | @switch t u sched sched' p' q intNum current room handled ticked represents switches
      keepsContext called advanced represents' target =>
    obtain rfl : p = p' := Option.some.inj (inv.current.symm.trans current)
    have ⟨esp, frame, otherStacks⟩ := handled_frame room handled
    have ⟨argument, frame', otherStacks'⟩ := called_frame esp frame room called
    have ticking := inv.runs (t := t) (sameLinks_tick ticked) represents otherStacks
    rw [argument] at advanced
    have own : ∀ x ∈ Span (contextOf st.machine) contextSize, K.owner x = .stack p := by
      intro x inside
      refine room x ?_
      rw [mem_span] at *
      unfold contextSize at *
      bv_omega
    have ⟨next, restored⟩ := ticking.stage2 (u := Kernel.dropArgument u) frame' own otherStacks'
      advanced represents' target
    exact ⟨⟨xs, q, next⟩, restored⟩

theorem Kernel.savedAfter_snoc (K : Kernel) (saved : ProcRef → Cpu) (events : List SwitchEvent)
    (e : SwitchEvent) : K.savedAfter saved (events ++ [e]) = K.record (K.savedAfter saved events) e :=
  List.foldl_append

theorem run_switchInv {saved : ProcRef → Cpu} {xs : List ProcRef} {p : ProcRef}
    {init st : SwitchState} (start : SwitchInv K saved xs p init) {events : List SwitchEvent}
    (run : Run.From (SwitchStep K) init events st) :
    ∃ xs' p', SwitchInv K (K.savedAfter saved events) xs' p' st := by
  refine run.invariant (fun events st => ∃ xs' p', SwitchInv K (K.savedAfter saved events) xs' p' st)
    ⟨xs, p, start⟩ ?_
  rintro events st e st' _ ⟨xs', p', inv⟩ step
  rw [K.savedAfter_snoc]
  exact (step.inv inv).1

/-- Every event of a run restores what was saved before it. -/
theorem run_restores {saved : ProcRef → Cpu} {xs : List ProcRef} {p : ProcRef}
    {init st : SwitchState} (start : SwitchInv K saved xs p init) {events : List SwitchEvent}
    (run : Run.From (SwitchStep K) init events st) :
    ∀ before e after, events = before ++ e :: after → K.Restores (K.savedAfter saved before) e := by
  induction run with
  | nil => simp
  | @snoc events s s' last front step ih =>
    intro before e after split
    rcases List.eq_nil_or_concat after with rfl | ⟨rest, f, rfl⟩
    · obtain ⟨rfl, same⟩ := List.append_inj' split rfl
      cases same
      obtain ⟨xs', p', inv⟩ := run_switchInv start front
      exact (step.inv inv).2
    · rw [List.concat_eq_append, ← List.cons_append, ← List.append_assoc] at split
      exact ih before e rest (List.append_inj' split rfl).1

/-- Until it is switched away from, the first process keeps the registers it was built
with. -/
theorem savedAfter_spawned (K : Kernel) (saved : ProcRef → Cpu) {events : List SwitchEvent}
    (first : ∀ before q after, .switch K.initTask before q after ∉ events)
    (spawned : ∃ eflags, saved K.initTask = K.spawnCpu eflags) :
    ∃ eflags, K.savedAfter saved events K.initTask = K.spawnCpu eflags := by
  induction events generalizing saved with
  | nil => exact spawned
  | cons e events ih =>
    refine ih (K.record saved e) (fun before q after member => first before q after (List.mem_cons_of_mem e member)) ?_
    cases e with
    | spawn eflags => exact ⟨eflags, Function.update_self _ _ _⟩
    | switch p before q after =>
      have other : K.initTask ≠ p := fun same => first before q after (by simp [same])
      obtain ⟨eflags, old⟩ := spawned
      exact ⟨eflags, (Function.update_of_ne other _ _).trans old⟩
    | exec => exact spawned
    | add => exact spawned
    | interrupt before after => exact spawned

/-- Over every run of any number of processes, an interrupt that switches to a process
gives it back exactly the registers with which it was left, an interrupt that does not
switch gives the same process its own, and the process that `spawn_init` built starts at
`kernel_idle_task` with its stack pointer at `KHEAP_START - PAGE_SIZE`. -/
theorem switch_restores (K : Kernel) (saved : ProcRef → Cpu) (xs : List ProcRef) (p : ProcRef)
    (init : SwitchState) (start : SwitchInv K saved xs p init) (events : List SwitchEvent)
    (st : SwitchState) (run : Run.From (SwitchStep K) init events st) :
    (∀ before r r' after, events = before ++ .interrupt r r' :: after → r' = r) ∧
    (∀ before q r q' r' after, events = before ++ .switch q r q' r' :: after →
      r' = Function.update (K.savedAfter saved before) q r q') ∧
    ∀ before eflags middle q r r' after,
      events = before ++ .spawn eflags :: middle ++ .switch q r K.initTask r' :: after →
      (∀ a q' b, .switch K.initTask a q' b ∉ middle) → q ≠ K.initTask →
      r'.eip = K.kernelIdleTask ∧ r'.esp = kheapStart - pageSize := by
  have restores := run_restores start run
  refine ⟨fun before r r' after split => restores before _ after split,
    fun before q r q' r' after split => restores before _ after split, ?_⟩
  intro before eflags middle q r r' after split first other
  have restored : r' = Function.update (K.savedAfter saved (before ++ .spawn eflags :: middle)) q r
      K.initTask := restores _ _ after split
  have built : ∃ flags, K.savedAfter saved (before ++ [.spawn eflags]) K.initTask =
      K.spawnCpu flags := by
    refine ⟨eflags, ?_⟩
    rw [K.savedAfter_snoc]
    exact Function.update_self _ _ _
  obtain ⟨eflags', same⟩ := savedAfter_spawned K _ first built
  have whole : K.savedAfter (K.savedAfter saved (before ++ [.spawn eflags])) middle =
      K.savedAfter saved (before ++ .spawn eflags :: middle) := by
    rw [List.append_cons before (.spawn eflags) middle]
    exact List.foldl_append.symm
  rw [Function.update_of_ne (Ne.symm other), ← whole, same] at restored
  rw [restored]
  exact ⟨rfl, rfl⟩

/-- The system task alone, as `init_system_task` leaves it. -/
theorem initSystemTask_switchInv {s s' : Sched} {task : ProcRef} {machine : Machine}
    (returned : initSystemTask s task (K.thread task) = .ok s') (member : task ∈ K.procs)
    (other : K.initTask ≠ task) (unlinked : s.next K.initTask = none)
    (represents : K.Represents machine.mem s') (saved : ProcRef → Cpu) :
    SwitchInv K saved [task] task ⟨machine, s', false⟩ := by
  cases returned
  refine ⟨represents, ⟨rfl, ?_⟩, by simp, rfl, by simpa using member, ?_, ?_, fun _ => ?_, fun _ => ?_,
    nofun⟩
  · simp [next, setProc, setCurrentProcess, setProcessQueue, zeroProcess]
  · simp [setProc, setCurrentProcess, setProcessQueue]
  · rintro q queued apart
    exact absurd (List.mem_singleton.mp queued) apart
  · simpa using other
  · simpa [next, setProc, setCurrentProcess, setProcessQueue, schedulerInit, other] using unlinked

/-! ### A switch to the first process -/

/-- Two processes with their stacks at 0x8000 and below the kernel heap. -/
def smallMap : KernelMap where
  currentProcess := 0x100
  processQueue := 0x104
  preemptionEnabled := 0x108
  switchProcesses := 0x10C
  handlerTable := 0x200
  kernelIdleTask := 0x777
  procs := {p | p = 0x1000 ∨ p = 0x1100}
  thread p := p + 0x80
  initTask := 0x1100

def smallOwner (x : BitVec 32) : Owner :=
  if x.toNat < 0x2000 then if 0x10C < x.toNat ∧ x.toNat < 0x110 then .free else .scheduler
  else if x.toNat < 0x9000 then .stack 0x1000
  else .stack 0x1100

theorem smallMap_fields {x : BitVec 32} (inside : x ∈ smallMap.fields) :
    x.toNat < 0x10C ∨ 0x1000 ≤ x.toNat ∧ x.toNat < 0x1200 := by
  rcases inside with ⟨p, rfl | rfl, near | near⟩ | near | near | rfl
  all_goals
    first
      | rw [mem_span] at near
      | skip
    simp only [smallMap, address] at *
    bv_omega

def smallKernel : Kernel where
  toKernelMap := smallMap
  owner := smallOwner
  nonNull := by rintro p (rfl | rfl) <;> decide
  ownThread p _ q _ same := Nat.add_right_cancel same
  fields_owner x inside := by
    have place := smallMap_fields inside
    rw [smallOwner, if_pos (by omega), if_neg (by omega)]
  switch_owner := rfl
  padding x near := by
    rw [mem_span] at near
    simp only [smallMap] at near
    refine ⟨fun inside => ?_, fun p => ?_⟩
    · have place := smallMap_fields inside
      bv_omega
    · rw [smallOwner, if_pos (by bv_omega)]
      split <;> simp
  initTask_mem := .inr rfl
  initStack x near := by
    rw [mem_span] at near
    rw [smallOwner, if_neg, if_neg]
    · rfl
    all_goals
      simp only [spawnContext, kheapStart, pageSize, contextSize] at near
      bv_omega

def smallSched : Sched where
  proc p := if p = 0x1000 then ⟨0x1080, 0, 0, defaultQuantum, some 0x1100⟩
    else ⟨0x1180, 0, 0, defaultQuantum, none⟩
  thread t := if t = 0x1080 then ⟨0x8FBC, some 0x1000, none⟩ else ⟨spawnContext, some 0x1100, none⟩
  processQueue := some 0x1000
  currentProcess := some 0x1000
  preemptionEnabled := true
  switchProcesses := true

def smallVariables : Memory :=
  [(0x100, 0x1000), (0x104, 0x1000), (0x108, 1), (0x10C, 1), (0x1000, 0x1080), (0x100C, 100),
    (0x1010, 0x1100), (0x1080, 0x8FBC), (0x1084, 0x1000), (0x1100, 0x1180), (0x110C, 100),
    (0x1180, spawnContext), (0x1184, 0x1100)].foldl (fun m w => store32 m w.1 w.2) fun _ => 0

/-- The system task is about to be interrupted; the frame of the first process is built. -/
def smallMachine : Machine where
  cpu := { smallKernel.spawnCpu 0 with esp := 0x9000 }
  mem := ((Machine.mk (smallKernel.spawnCpu 0) smallVariables).pushes
    (smallKernel.spawnWords 0).reverse).mem

-- The variables of a concrete memory can be compared with a scheduler state one by one.
theorem smallMap_represents {m : Memory} {s : Sched}
    (procs : ∀ p ∈ [0x1000, 0x1100], load32 m (address p) = address (s.proc p).thread ∧
      load32 m (address p + 4) = (s.proc p).pgdir ∧ m (address p + 8) = (s.proc p).flags ∧
      load32 m (address p + 12) = (s.proc p).quantum ∧
      load32 m (address p + 16) = pointer (s.proc p).next ∧
      load32 m (address (p + 0x80)) = (s.thread (p + 0x80)).context ∧
      load32 m (address (p + 0x80) + 4) = pointer (s.thread (p + 0x80)).owner)
    (globals : load32 m 0x104 = pointer s.processQueue ∧
      load32 m 0x100 = pointer s.currentProcess ∧
      m 0x108 = (if s.preemptionEnabled then 1 else 0) ∧
      m 0x10C = if s.switchProcesses then 1 else 0) : smallMap.Represents m s := by
  have proc {p : ProcRef} (member : p ∈ smallMap.procs) := procs p (by simpa [smallMap] using member)
  obtain ⟨processQueue, currentProcess, preemptionEnabled, switchProcesses⟩ := globals
  exact {
    thread := fun p member => (proc member).1
    pgdir := fun p member => (proc member).2.1
    flags := fun p member => (proc member).2.2.1
    quantum := fun p member => (proc member).2.2.2.1
    next := fun p member => (proc member).2.2.2.2.1
    context := fun p member => (proc member).2.2.2.2.2.1
    owner := fun p member => (proc member).2.2.2.2.2.2
    processQueue, currentProcess, preemptionEnabled, switchProcesses }

/-- The interrupted machine at the return of its handler. -/
def smallHandled : Machine := stubEntry smallMachine 32 smallKernel.handlerTable

-- The store to `g_current_process` changes its second byte.
def smallSwitched : Machine where
  cpu := (Kernel.pushEsp (Kernel.dropArgument smallHandled)).cpu
  mem := store8 (Kernel.pushEsp (Kernel.dropArgument smallHandled)).mem 0x101 0x11

def smallAdvanced : Sched :=
  ((smallSched.setFlags 0x1000 0).setContext 0x1000 0x8FBC).setCurrentProcess (some 0x1100)

theorem smallKernel_switchInv : SwitchInv smallKernel (fun _ => smallKernel.spawnCpu 0)
    [0x1000, 0x1100] 0x1000 ⟨smallMachine, smallSched, true⟩ where
  represents := smallMap_represents (by decide +kernel) (by decide +kernel)
  queue := ⟨rfl, rfl, rfl⟩
  member := by simp
  current := rfl
  known q queued := by simpa [smallKernel, smallMap] using queued
  running := rfl
  suspended q queued other := by
    obtain rfl : q = 0x1100 := by simpa [other] using queued
    refine ⟨rfl, spawnWords_frame ?_, smallKernel.initStack⟩
    have nothing : Words smallVariables (kheapStart - pageSize) [] := trivial
    have words := @Machine.pushes_words ⟨smallKernel.spawnCpu 0, smallVariables⟩
      (smallKernel.spawnWords 0).reverse _ nothing (by decide)
    rwa [List.append_nil, List.reverse_reverse] at words
  absent := nofun
  unlinked absent := absurd (by simp [smallKernel, smallMap]) absent
  pending _ absent := absurd (by simp [smallKernel, smallMap]) absent

/-- The interrupt of the system task switches to the first process. -/
theorem smallKernel_switches : Run.From (SwitchStep smallKernel) ⟨smallMachine, smallSched, true⟩
    [.switch 0x1000 smallMachine.cpu 0x1100
      (resume (smallKernel.advanceStage2 (Kernel.dropArgument smallSwitched))).cpu]
    ⟨resume (smallKernel.advanceStage2 (Kernel.dropArgument smallSwitched)),
      schedulerAdvanceStage2 .padded smallAdvanced, true⟩ := by
  refine Run.From.single (@SwitchStep.switch _ _ smallHandled _ smallSched _ _ _ 32 rfl ?_ ?_ (.inl rfl) ?_ ?_ rfl ?_ rfl ?_ rfl)
  · intro x near
    rw [mem_span] at near
    simp only [smallMachine, contextOf, contextSize] at near
    show smallOwner x = .stack 0x1000
    rw [smallOwner, if_neg (by bv_omega), if_pos (by bv_omega)]
  · exact ⟨rfl, ⟨rfl, rfl, rfl, rfl⟩, fun x changed => absurd rfl changed⟩
  · exact smallMap_represents (by decide +kernel) (by decide +kernel)
  · exact ⟨by decide +kernel, by decide +kernel⟩
  · refine ⟨rfl, ⟨rfl, rfl, rfl, rfl⟩, fun x changed => ?_⟩
    have place : x = 0x101 := by
      by_contra apart
      exact changed (store8_of_ne apart)
    subst place
    exact ⟨by rw [mem_span]; decide +kernel, .inr (.inl rfl)⟩
  · exact smallMap_represents (by decide +kernel) (by decide +kernel)

theorem smallKernel_restored :
    (resume (smallKernel.advanceStage2 (Kernel.dropArgument smallSwitched))).cpu =
      smallKernel.spawnCpu 0 :=
  (switch_restores smallKernel (fun _ => smallKernel.spawnCpu 0) [0x1000, 0x1100] 0x1000
    ⟨smallMachine, smallSched, true⟩ smallKernel_switchInv _ _ smallKernel_switches).2.1
    [] _ _ _ _ [] rfl

end Treeos
