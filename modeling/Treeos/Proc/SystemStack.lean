import Treeos.Proc.Switch

/-!
# The stack of the system task

`init_system_task` builds a temporary thread context and `scheduler_bootstrap_thread`
enters it. `boot.S` places `g_real_kernel_page_table` right below `g_kernel_stack_bottom`.
-/
namespace Treeos

open ByteMemory X86

/-- Which structure a byte of memory belongs to. -/
inductive Area where
  | tasks
  | threads
  | processQueue
  | currentProcess
  | stack
  | other
deriving DecidableEq

def kernelStackSize : Nat := 0x4000
def processSize : Nat := 20
def threadSize : Nat := 12
def numTasks : Nat := 2

/-- The addresses that `init_system_task` and `scheduler_bootstrap_thread` use. `context`
is the variable `c`, on the stack that `init_system_task` runs on. -/
structure SystemTask where
  stackBottom : BitVec 32
  kernelTasks : BitVec 32
  kernelThreads : BitVec 32
  processQueue : BitVec 32
  preemptionEnabled : BitVec 32
  currentProcess : BitVec 32
  context : BitVec 32
  kernelSystemTask : BitVec 32
  area : BitVec 32 → Area
  tasks_area : ∀ x ∈ Span kernelTasks (processSize * numTasks), area x = .tasks
  threads_area : ∀ x ∈ Span kernelThreads (threadSize * numTasks), area x = .threads
  queue_area : ∀ x ∈ Span processQueue 4, area x = .processQueue
  preemption_area : area preemptionEnabled = .other
  current_area : ∀ x ∈ Span currentProcess 4, area x = .currentProcess
  stack_area : ∀ x ∈ Span stackBottom kernelStackSize, area x = .stack
  -- `struct thread_context` has 19 words
  context_fits : (context - stackBottom).toNat + 76 ≤ kernelStackSize

-- `memset` with the value 0
def memsetZero (m : Memory) (a : BitVec 32) (n : Nat) : Memory :=
  fun x => if (x - a).toNat < n then 0 else m x

namespace SystemTask

variable (S : SystemTask)

/-- `[g_kernel_stack_bottom, g_kernel_stack_top)` -/
def kernelStack : Set (BitVec 32) := Span S.stackBottom kernelStackSize

def realKernelPageTable : BitVec 32 := S.stackBottom - 0x1000

/-- `scheduler_init`, without the handler it registers -/
def schedulerInit (m : Memory) : Memory :=
  store8 (store32 m S.processQueue 0) S.preemptionEnabled 1

/-- The walk of `scheduler_add_process` along the queue: its last node, unless `p` is a
later node than the first. -/
def lastNode (m : Memory) (p : BitVec 32) : Nat → BitVec 32 → Option (BitVec 32)
  | 0, _ => none
  | fuel + 1, node =>
    if load32 m (node + 16) = 0 then some node
    else if load32 m (node + 16) = p then none
    else lastNode m p fuel (load32 m (node + 16))

/-- `scheduler_add_process`; the walk may take `fuel` steps. -/
def addProcess (fuel : Nat) (m : Memory) (p : BitVec 32) : Memory :=
  if load32 m S.processQueue = 0 then store32 m S.processQueue p
  else if load32 m S.processQueue = p then m
  else
    match lastNode m p fuel (load32 m S.processQueue) with
    | none => m
    | some node => store32 m (node + 16) p

/-- The temporary thread context. Its other members stay uninitialised. -/
def buildContext (eflags : BitVec 32) (m : Memory) : Memory :=
  let m := store32 m (S.context + 28) S.stackBottom
  let m := store32 m (S.context + 56) S.kernelSystemTask
  let m := store32 m (S.context + 60) 0x8
  let m := store32 m S.context 0x10
  let m := store32 m (S.context + 4) 0x10
  let m := store32 m (S.context + 8) 0x10
  let m := store32 m (S.context + 12) 0x10
  store32 m (S.context + 64) (eflags ||| 0x200)

/-- `init_system_task` before it adds the task to the scheduler. SYSTEM is the first of the
kernel's tasks. -/
def buildTask (eflags : BitVec 32) (m : Memory) : Memory :=
  let m := memsetZero m S.kernelTasks (processSize * numTasks)
  let m := store32 m (S.kernelTasks + 4) 0xFFFFF000
  let m := store32 m (S.kernelTasks + 12) defaultQuantum
  let m := memsetZero m S.kernelThreads (threadSize * numTasks)
  let m := store32 m S.kernelTasks S.kernelThreads
  let m := store32 m (S.kernelThreads + 4) S.kernelTasks
  let m := store32 m S.kernelThreads S.context
  S.buildContext eflags m

/-- `init_system_task` up to the call of `scheduler_bootstrap_thread` -/
def initSystemTask (fuel : Nat) (eflags : BitVec 32) (m : Memory) : Memory :=
  S.addProcess fuel (S.buildTask eflags m) S.kernelTasks

end SystemTask

/-- A machine with the addresses of the words that its stack pushes have written. -/
structure StackState where
  machine : Machine
  written : List (BitVec 32)

namespace StackState

def push (t : StackState) (v : BitVec 32) : StackState :=
  ⟨t.machine.push v, t.written ++ [t.machine.cpu.esp - 4]⟩

/-- The addresses of `n` words pushed below `esp` -/
def places (esp : BitVec 32) (n : Nat) : List (BitVec 32) :=
  (List.range n).map fun i => esp - BitVec.ofNat 32 (4 * (i + 1))

/-- An IRQ up to the call of its handler: the frame of the processor, the stub's 14 words
and the handler's argument. -/
def interrupt (t : StackState) (intNum handlerTable : BitVec 32) : StackState :=
  ⟨stubEntry t.machine intNum handlerTable, t.written ++ places t.machine.cpu.esp 18⟩

/-- `addl $4, %esp` and `int_handler_stub_resume` -/
def resume (t : StackState) : StackState :=
  { t with machine := Treeos.resume (Kernel.dropArgument t.machine) }

end StackState

namespace SystemTask

variable (S : SystemTask)

/-- `scheduler_bootstrap_thread` up to the load of the new stack pointer. The argument is
above the return address. -/
def loadContext (s : Machine) : Machine :=
  -- cli
  let s : Machine := { s with cpu := { s.cpu with eflags := s.cpu.eflags &&& ~~~0x200#32 } }
  let s := s.setEsp (s.cpu.esp + 4)
  let eax := load32 s.mem s.cpu.esp
  let mem := store32 s.mem S.currentProcess eax
  let edx := load32 mem eax
  let ebp := load32 mem edx
  ⟨{ s.cpu with eax := eax, edx := edx, ebp := ebp, esp := load32 mem (ebp + 28) }, mem⟩

/-- The rest of `scheduler_bootstrap_thread`: the frame for the `iret` into the thread. -/
def enterThread (s : Machine) : StackState :=
  -- pushfl, popl %eax, orl $0x200, %eax, pushl %eax
  let t := StackState.push ⟨s, []⟩ s.cpu.eflags
  let (eax, s) := t.machine.pop
  let s : Machine := { s with cpu := { s.cpu with eax := eax ||| 0x200 } }
  let t := StackState.push ⟨s, t.written⟩ s.cpu.eax
  -- cs and eip
  let t := t.push (load32 t.machine.mem (s.cpu.ebp + 60))
  let t := t.push (load32 t.machine.mem (s.cpu.ebp + 56))
  ⟨t.machine.iret, t.written⟩

def bootstrapThread (s : Machine) : StackState := enterThread (S.loadContext s)

/-- `scheduler_init`, then `init_system_task` on the boot stack, up to the first instruction
of the system task. -/
def start (fuel : Nat) (returnAddress : BitVec 32) (s : Machine) : StackState :=
  let s : Machine := { s with mem := S.initSystemTask fuel s.cpu.eflags (S.schedulerInit s.mem) }
  S.bootstrapThread ((s.push S.kernelTasks).push returnAddress)

/-- How far the stack has grown below `g_kernel_stack_bottom`, where it starts. -/
def depth (t : StackState) : Nat := (S.stackBottom - t.machine.cpu.esp).toNat

end SystemTask

inductive StackEvent where
  | push (v : BitVec 32)
  | pop
  | interrupt (intNum handlerTable : BitVec 32)
  | resume
  | other

/-- The system task and the interrupts on its stack, at a depth of at most 16 KiB. -/
inductive StackStep (S : SystemTask) : StackState → StackEvent → StackState → Prop
  | push (t : StackState) (v : BitVec 32) (fits : S.depth t + 4 ≤ kernelStackSize) :
      StackStep S t (.push v) (t.push v)
  | pop (t : StackState) (pushed : 4 ≤ S.depth t) :
      StackStep S t .pop { t with machine := t.machine.pop.2 }
  | interrupt (t : StackState) (intNum handlerTable : BitVec 32)
      (fits : S.depth t + 72 ≤ kernelStackSize) :
      StackStep S t (.interrupt intNum handlerTable) (t.interrupt intNum handlerTable)
  | resume (t : StackState) (pushed : 72 ≤ S.depth t) : StackStep S t .resume t.resume
  -- what neither pushes nor pops
  | other (t : StackState) (machine : Machine) (same : machine.cpu.esp = t.machine.cpu.esp) :
      StackStep S t .other { t with machine := machine }

namespace SystemTask

variable (S : SystemTask) {m : Memory} {x : BitVec 32}

/-! ### The context that `init_system_task` builds -/

theorem context_area (inside : x ∈ Span S.context 76) : S.area x = .stack := by
  refine S.stack_area x ?_
  have fits := S.context_fits
  rw [mem_span, kernelStackSize] at *
  bv_omega

/-- A store to a structure does not reach the other areas. -/
theorem store_of_area {base d v : BitVec 32} {n : Nat} {A : Area}
    (within : ∀ y ∈ Span base n, S.area y = A) (fits : 4 + d.toNat ≤ n) (apart : S.area x ≠ A) :
    store32 m (base + d) v x = m x :=
  store32_of_not_mem fun inside => apart (within x (span_mono fits (span_shift d inside)))

theorem store_base_of_area {base v : BitVec 32} {n : Nat} {A : Area}
    (within : ∀ y ∈ Span base n, S.area y = A) (fits : 4 ≤ n) (apart : S.area x ≠ A) :
    store32 m base v x = m x :=
  store32_of_not_mem fun inside => apart (within x (span_mono fits inside))

theorem memset_of_area {base : BitVec 32} {n : Nat} {A : Area}
    (within : ∀ y ∈ Span base n, S.area y = A) (apart : S.area x ≠ A) :
    memsetZero m base n x = m x :=
  if_neg fun inside => apart (within x inside)

/-- A load from one member of a structure after a store to another one. -/
theorem load_store_member {base d e v : BitVec 32}
    (apart : d.toNat + 4 ≤ e.toNat ∨ e.toNat + 4 ≤ d.toNat)
    (small : d.toNat < 2 ^ 16 ∧ e.toNat < 2 ^ 16) :
    load32 (store32 m (base + d) v) (base + e) = load32 m (base + e) := by
  refine load32_congr fun x inside => store32_of_not_mem ?_
  rw [mem_span] at *
  bv_omega

theorem buildContext_words (eflags : BitVec 32) :
    load32 (S.buildContext eflags m) (S.context + 28) = S.stackBottom ∧
      load32 (S.buildContext eflags m) (S.context + 56) = S.kernelSystemTask ∧
      load32 (S.buildContext eflags m) (S.context + 60) = 8 := by
  have base (m : Memory) (v : BitVec 32) :
      store32 m S.context v = store32 m (S.context + 0#32) v := by rw [BitVec.add_zero]
  simp only [buildContext, base]
  refine ⟨?_, ?_, ?_⟩
  · repeat rw [load_store_member (by decide) (by decide)]
    exact load32_store32 _
  · repeat rw [load_store_member (by decide) (by decide)]
    exact load32_store32 _
  · repeat rw [load_store_member (by decide) (by decide)]
    exact load32_store32 _

theorem buildContext_of_area (eflags : BitVec 32) (stack : S.area x ≠ .stack) :
    S.buildContext eflags m x = m x := by
  have member (m : Memory) (d v : BitVec 32) (fits : 4 + d.toNat ≤ 76) :
      store32 m (S.context + d) v x = m x :=
    S.store_of_area (fun _ => S.context_area) fits stack
  simp only [buildContext]
  rw [member _ _ _ (by decide), member _ _ _ (by decide), member _ _ _ (by decide),
    member _ _ _ (by decide), S.store_base_of_area (fun _ => S.context_area) (by decide) stack,
    member _ _ _ (by decide), member _ _ _ (by decide), member _ _ _ (by decide)]

theorem load_of_area {m' : Memory} {base : BitVec 32} {n : Nat} {A : Area}
    (within : ∀ y ∈ Span base n, S.area y = A) (fits : 4 ≤ n)
    (same : ∀ x, S.area x = A → m' x = m x) : load32 m' base = load32 m base :=
  load32_congr fun x inside => same x (within x (span_mono fits inside))

theorem buildTask_words (eflags : BitVec 32) :
    load32 (S.buildTask eflags m) S.kernelTasks = S.kernelThreads ∧
      load32 (S.buildTask eflags m) S.kernelThreads = S.context := by
  simp only [buildTask]
  constructor
  · -- the later stores, the last one first
    rw [S.load_of_area S.tasks_area (by decide) fun x own =>
        S.buildContext_of_area eflags (by simp [own]),
      S.load_of_area S.tasks_area (by decide) fun x own =>
        S.store_base_of_area S.threads_area (by decide) (by simp [own]),
      S.load_of_area S.tasks_area (by decide) fun x own =>
        S.store_of_area S.threads_area (by decide) (by simp [own])]
    exact load32_store32 _
  · rw [S.load_of_area S.threads_area (by decide) fun x own =>
        S.buildContext_of_area eflags (by simp [own])]
    exact load32_store32 _

theorem buildTask_of_area (eflags : BitVec 32) (tasks : S.area x ≠ .tasks)
    (threads : S.area x ≠ .threads) (stack : S.area x ≠ .stack) :
    S.buildTask eflags m x = m x := by
  simp only [buildTask]
  rw [S.buildContext_of_area _ stack,
    S.store_base_of_area S.threads_area (by decide) threads,
    S.store_of_area S.threads_area (by decide) threads,
    S.store_base_of_area S.tasks_area (by decide) tasks,
    S.memset_of_area S.threads_area threads,
    S.store_of_area S.tasks_area (by decide) tasks,
    S.store_of_area S.tasks_area (by decide) tasks,
    S.memset_of_area S.tasks_area tasks]

/-- The queue is empty after `scheduler_init`, so the task becomes its head. -/
theorem initSystemTask_eq (fuel : Nat) (eflags : BitVec 32) :
    S.initSystemTask fuel eflags (S.schedulerInit m) =
      store32 (S.buildTask eflags (S.schedulerInit m)) S.processQueue S.kernelTasks := by
  have empty : load32 (S.buildTask eflags (S.schedulerInit m)) S.processQueue = 0#32 := by
    rw [S.load_of_area S.queue_area (by decide) fun x own => S.buildTask_of_area eflags
        (by simp [own]) (by simp [own]) (by simp [own]),
      schedulerInit,
      S.load_of_area S.queue_area (by decide) fun x own => store8_of_ne fun same => by
        rw [same, S.preemption_area] at own
        cases own]
    exact load32_store32 _
  rw [initSystemTask, addProcess]
  exact if_pos empty

/-! ### The bootstrap -/

/-- What `scheduler_bootstrap_thread` finds through its argument. -/
structure Ready (s : Machine) : Prop where
  argument : load32 s.mem (s.cpu.esp + 4) = S.kernelTasks
  thread : load32 s.mem S.kernelTasks = S.kernelThreads
  context : load32 s.mem S.kernelThreads = S.context
  esp : load32 s.mem (S.context + 28) = S.stackBottom
  eip : load32 s.mem (S.context + 56) = S.kernelSystemTask
  cs : load32 s.mem (S.context + 60) = 8

variable {S} {s : Machine}

theorem Ready.loadContext (ready : S.Ready s) :
    (S.loadContext s).cpu.esp = S.stackBottom ∧ (S.loadContext s).cpu.ebp = S.context ∧
      (S.loadContext s).cpu.eflags = s.cpu.eflags &&& ~~~0x200#32 ∧
      load32 (S.loadContext s).mem (S.context + 56) = S.kernelSystemTask ∧
      load32 (S.loadContext s).mem (S.context + 60) = 8 := by
  have stored {x : BitVec 32} (apart : S.area x ≠ .currentProcess) :
      store32 s.mem S.currentProcess S.kernelTasks x = s.mem x :=
    S.store_base_of_area S.current_area (by decide) apart
  have thread : load32 (store32 s.mem S.currentProcess S.kernelTasks) S.kernelTasks =
      S.kernelThreads :=
    (S.load_of_area S.tasks_area (by decide) fun x own => stored (by simp [own])).trans ready.thread
  have context : load32 (store32 s.mem S.currentProcess S.kernelTasks) S.kernelThreads =
      S.context :=
    (S.load_of_area S.threads_area (by decide) fun x own => stored (by simp [own])).trans
      ready.context
  have member (d : BitVec 32) (fits : 4 + d.toNat ≤ 76) :
      load32 (store32 s.mem S.currentProcess S.kernelTasks) (S.context + d) =
        load32 s.mem (S.context + d) :=
    load32_congr fun x inside => stored (by
      simp [S.context_area (span_mono fits (span_shift d inside))])
  have loaded : S.loadContext s =
      ⟨{ s.cpu with eflags := s.cpu.eflags &&& ~~~0x200#32, eax := S.kernelTasks,
                    edx := S.kernelThreads, ebp := S.context, esp := S.stackBottom },
        store32 s.mem S.currentProcess S.kernelTasks⟩ := by
    simp only [SystemTask.loadContext, Machine.setEsp, ready.argument, thread, context,
      member 28 (by decide), ready.esp]
  rw [loaded]
  exact ⟨rfl, rfl, rfl, (member 56 (by decide)).trans ready.eip,
    (member 60 (by decide)).trans ready.cs⟩

/-- The frame for the `iret` overwrites the words below the stack. -/
theorem enterThread_spec (esp : s.cpu.esp = S.stackBottom) (ebp : s.cpu.ebp = S.context)
    (eip : load32 s.mem (S.context + 56) = S.kernelSystemTask)
    (cs : load32 s.mem (S.context + 60) = 8) :
    (enterThread s).machine.cpu.esp = S.stackBottom ∧
      (enterThread s).written = [S.stackBottom - 4, S.stackBottom - 4, S.stackBottom - 4 - 4,
        S.stackBottom - 4 - 4 - 4] ∧
      Words (enterThread s).machine.mem (S.stackBottom - 4 - 4 - 4)
        [S.kernelSystemTask, 8, s.cpu.eflags ||| 0x200] := by
  -- The members of the context lie above the words pushed so far.
  have member {m : Memory} {a v d : BitVec 32} (below : 4 ≤ (S.stackBottom - a).toNat)
      (near : (S.stackBottom - a).toNat ≤ 8) (fits : 4 + d.toNat ≤ 76) :
      load32 (store32 m a v) (S.context + d) = load32 m (S.context + d) := by
    have inside := S.context_fits
    refine load32_congr fun x near => store32_of_not_mem ?_
    rw [mem_span, kernelStackSize] at *
    bv_omega
  have first : (S.stackBottom - (S.stackBottom - 4)).toNat = 4 := by bv_omega
  have second : (S.stackBottom - (S.stackBottom - 4 - 4)).toNat = 8 := by bv_omega
  simp only [enterThread, StackState.push, Machine.push, Machine.pop, Machine.setEsp,
    Machine.iret, load32_store32, esp, ebp, BitVec.sub_add_cancel]
  rw [member (by omega) (by omega) (by decide), member (by omega) (by omega) (by decide),
    member (by omega) (by omega) (by decide), member (by omega) (by omega) (by decide),
    member (by omega) (by omega) (by decide), eip, cs]
  refine ⟨trivial, rfl, ?_⟩
  have nothing : Words (store32 s.mem (S.stackBottom - 4) s.cpu.eflags) S.stackBottom [] := trivial
  exact ((nothing.push _ (by decide)).push _ (by simp)).push _ (by simp)

/-- The call on the boot stack, below the temporary context, is ready. -/
theorem call_ready (fuel : Nat) (returnAddress : BitVec 32)
    (room : 8 ≤ (s.cpu.esp - S.stackBottom).toNat)
    (below : (s.cpu.esp - S.stackBottom).toNat ≤ (S.context - S.stackBottom).toNat) :
    S.Ready ((Machine.push ⟨s.cpu, S.initSystemTask fuel s.cpu.eflags (S.schedulerInit s.mem)⟩
      S.kernelTasks).push returnAddress) := by
  have inside := S.context_fits
  rw [kernelStackSize] at inside
  -- The two words are on the stack, below the context.
  have pushed {m : Memory} {a v x : BitVec 32}
      (under : (a - S.stackBottom).toNat + 4 ≤ (S.context - S.stackBottom).toNat)
      (apart : S.area x ≠ .stack) : store32 m a v x = m x := by
    refine S.store_base_of_area (n := 4) (fun y near => S.stack_area y ?_) (by decide) apart
    rw [mem_span, kernelStackSize] at *
    bv_omega
  have member {m : Memory} {a v d : BitVec 32}
      (under : (a - S.stackBottom).toNat + 4 ≤ (S.context - S.stackBottom).toNat)
      (fits : 4 + d.toNat ≤ 76) :
      load32 (store32 m a v) (S.context + d) = load32 m (S.context + d) := by
    refine load32_congr fun x near => store32_of_not_mem ?_
    rw [mem_span] at *
    bv_omega
  have first : (s.cpu.esp - 4 - S.stackBottom).toNat + 4 = (s.cpu.esp - S.stackBottom).toNat := by
    bv_omega
  have second : (s.cpu.esp - 4 - 4 - S.stackBottom).toNat + 8 =
      (s.cpu.esp - S.stackBottom).toNat := by bv_omega
  have stored {m : Memory} {x : BitVec 32} (apart : S.area x ≠ .stack)
      (other : S.area x ≠ .processQueue) : store32 (store32 (store32 m S.processQueue S.kernelTasks)
        (s.cpu.esp - 4) S.kernelTasks) (s.cpu.esp - 4 - 4) returnAddress x = m x := by
    rw [pushed (by omega) apart, pushed (by omega) apart,
      S.store_base_of_area S.queue_area (by decide) other]
  have context {m : Memory} {d : BitVec 32} (fits : 4 + d.toNat ≤ 76) :
      load32 (store32 (store32 (store32 m S.processQueue S.kernelTasks)
        (s.cpu.esp - 4) S.kernelTasks) (s.cpu.esp - 4 - 4) returnAddress) (S.context + d) =
      load32 m (S.context + d) := by
    rw [member (by omega) fits, member (by omega) fits]
    refine load32_congr fun x near => S.store_base_of_area S.queue_area (by decide) ?_
    simp [S.context_area (span_mono fits (span_shift d near))]
  have words := S.buildTask_words (m := S.schedulerInit s.mem) s.cpu.eflags
  rw [initSystemTask_eq]
  simp only [Machine.push]
  constructor
  · have nothing {m : Memory} : Words m s.cpu.esp [] := trivial
    exact ((nothing.push S.kernelTasks (by decide)).push returnAddress (by simp)).2.1
  · exact (S.load_of_area S.tasks_area (by decide) fun x own =>
      stored (by simp [own]) (by simp [own])).trans words.1
  · exact (S.load_of_area S.threads_area (by decide) fun x own =>
      stored (by simp [own]) (by simp [own])).trans words.2
  · exact (context (by decide)).trans (S.buildContext_words s.cpu.eflags).1
  · exact (context (by decide)).trans (S.buildContext_words s.cpu.eflags).2.1
  · exact (context (by decide)).trans (S.buildContext_words s.cpu.eflags).2.2

/-- The system task starts with an empty stack, after three words below it. -/
theorem start_spec (fuel : Nat) (returnAddress : BitVec 32)
    (room : 8 ≤ (s.cpu.esp - S.stackBottom).toNat)
    (below : (s.cpu.esp - S.stackBottom).toNat ≤ (S.context - S.stackBottom).toNat) :
    (S.start fuel returnAddress s).machine.cpu.esp = S.stackBottom ∧
      (S.start fuel returnAddress s).written = [S.stackBottom - 4, S.stackBottom - 4,
        S.stackBottom - 4 - 4, S.stackBottom - 4 - 4 - 4] ∧
      Words (S.start fuel returnAddress s).machine.mem (S.stackBottom - 4 - 4 - 4)
        [S.kernelSystemTask, 8, (s.cpu.eflags &&& ~~~0x200#32) ||| 0x200] := by
  obtain ⟨esp, ebp, eflags, eip, cs⟩ := (call_ready fuel returnAddress
    room below).loadContext
  have entered := enterThread_spec esp ebp eip cs
  rw [eflags] at entered
  exact entered

/-! ### Runs of the system task -/

variable (S)

/-- Where a stack of 16 KiB goes that starts at `g_kernel_stack_bottom`. -/
def grownStack : Set (BitVec 32) :=
  Span (S.stackBottom - BitVec.ofNat 32 kernelStackSize) kernelStackSize

/-- Every word written so far lies in the kernel stack. -/
def Confined (t : StackState) : Prop := ∀ a ∈ t.written, Span a 4 ⊆ S.kernelStack

/-- No word written so far has a byte of an entry of `g_real_kernel_page_table`. -/
def SparesTable (t : StackState) : Prop :=
  ∀ a ∈ t.written, ∀ x ∈ Span a 4, x ∉ Span S.realKernelPageTable 0x1000

structure Below (t : StackState) : Prop where
  depth : S.depth t ≤ kernelStackSize
  written : ∀ a ∈ t.written, Span a 4 ⊆ S.grownStack
  first : S.stackBottom - 4 ∈ t.written

variable {S} {t t' : StackState} {a : BitVec 32}

theorem word_below (above : 4 ≤ (S.stackBottom - a).toNat)
    (fits : (S.stackBottom - a).toNat ≤ kernelStackSize) : Span a 4 ⊆ S.grownStack := by
  intro x inside
  rw [grownStack]
  rw [mem_span, kernelStackSize] at *
  bv_omega

theorem places_below {n : Nat} (fits : S.depth t + 4 * n ≤ kernelStackSize)
    (place : a ∈ StackState.places t.machine.cpu.esp n) : Span a 4 ⊆ S.grownStack := by
  obtain ⟨i, bound, rfl⟩ := List.mem_map.mp place
  rw [List.mem_range] at bound
  rw [depth, kernelStackSize] at fits
  apply word_below
  · bv_omega
  · rw [kernelStackSize]
    bv_omega

theorem resume_esp (t : StackState) : t.resume.machine.cpu.esp = t.machine.cpu.esp + 72 := by
  simp only [StackState.resume, Treeos.resume, Kernel.dropArgument, Machine.pop, Machine.popal,
    Machine.iret, Machine.setEsp]
  bv_omega

theorem Below.write (kept : S.Below t) (ws : List (BitVec 32))
    (more : ∀ a ∈ ws, Span a 4 ⊆ S.grownStack) (same : t'.written = t.written ++ ws)
    (deep : S.depth t' ≤ kernelStackSize) : S.Below t' := by
  refine ⟨deep, fun a place => ?_, ?_⟩
  · rw [same, List.mem_append] at place
    exact place.elim (kept.written a) (more a)
  · rw [same]
    exact List.mem_append_left _ kept.first

/-- What any step of the system task keeps. -/
theorem StackStep.below {e : StackEvent} (step : StackStep S t e t') (kept : S.Below t) :
    S.Below t' := by
  have deep := kept.depth
  rw [depth, kernelStackSize] at deep
  -- a step writes words below the bottom of the stack, or none
  cases step with
  | push v fits =>
    rw [depth, kernelStackSize] at fits
    refine kept.write [t.machine.cpu.esp - 4] (fun a place => ?_) rfl ?_
    · rw [List.mem_singleton.mp place]
      apply word_below
      · bv_omega
      · rw [kernelStackSize]
        bv_omega
    · rw [depth, kernelStackSize]
      show (S.stackBottom - (t.machine.cpu.esp - 4)).toNat ≤ _
      bv_omega
  | pop pushed =>
    rw [depth] at pushed
    refine kept.write [] (fun a place => absurd place List.not_mem_nil)
      (List.append_nil _).symm ?_
    rw [depth, kernelStackSize]
    show (S.stackBottom - (t.machine.cpu.esp + 4)).toNat ≤ _
    bv_omega
  | interrupt intNum handlerTable fits =>
    refine kept.write _ (fun a place => places_below (n := 18) fits place) rfl ?_
    rw [depth, kernelStackSize] at *
    rw [StackState.interrupt, (stubEntry_spec _ _ _).1, contextOf, contextSize]
    bv_omega
  | resume pushed =>
    rw [depth] at pushed
    refine kept.write [] (fun a place => absurd place List.not_mem_nil)
      (List.append_nil _).symm ?_
    rw [depth, kernelStackSize, resume_esp]
    bv_omega
  | other machine same =>
    refine kept.write [] (fun a place => absurd place List.not_mem_nil)
      (List.append_nil _).symm ?_
    rw [depth, kernelStackSize]
    show (S.stackBottom - machine.cpu.esp).toNat ≤ _
    rw [same]
    exact deep

theorem start_below (fuel : Nat) (returnAddress : BitVec 32)
    (room : 8 ≤ (s.cpu.esp - S.stackBottom).toNat)
    (below : (s.cpu.esp - S.stackBottom).toNat ≤ (S.context - S.stackBottom).toNat) :
    S.Below (S.start fuel returnAddress s) := by
  obtain ⟨esp, written, -⟩ := start_spec fuel returnAddress room below
  refine ⟨?_, fun a place => ?_, ?_⟩
  · rw [depth, esp, BitVec.sub_self]
    exact Nat.zero_le _
  · rw [written] at place
    simp only [List.mem_cons, List.not_mem_nil, or_false] at place
    apply word_below
    · bv_omega
    · rw [kernelStackSize]
      bv_omega
  · rw [written]
    exact List.mem_cons_self

theorem not_confined (first : S.stackBottom - 4 ∈ t.written) : ¬S.Confined t := by
  intro confined
  have inside : S.stackBottom - 4 ∈ S.kernelStack := confined _ first (by
    rw [mem_span]
    bv_omega)
  rw [kernelStack, mem_span, kernelStackSize] at inside
  bv_omega

/-- In every run of the system task all words pushed lie below `g_kernel_stack_bottom`. The
first ones are the last three entries of `g_real_kernel_page_table`. -/
theorem systemTask_pushes_below (S : SystemTask) (fuel : Nat) (returnAddress : BitVec 32)
    (s : Machine) (room : 8 ≤ (s.cpu.esp - S.stackBottom).toNat)
    (below : (s.cpu.esp - S.stackBottom).toNat ≤ (S.context - S.stackBottom).toNat)
    {es : List StackEvent} {t : StackState}
    (run : Run.From (StackStep S) (S.start fuel returnAddress s) es t) :
    ¬S.Confined t ∧ ¬S.SparesTable t ∧ (∀ a ∈ t.written, Span a 4 ⊆ S.grownStack) ∧
      Words (S.start fuel returnAddress s).machine.mem (S.realKernelPageTable + 4 * 1021)
        [S.kernelSystemTask, 8, (s.cpu.eflags &&& ~~~0x200#32) ||| 0x200] := by
  have kept : S.Below t := run.invariant (fun _ t => S.Below t) (start_below fuel returnAddress room below)
    fun _ _ _ _ _ kept step => StackStep.below step kept
  have own : S.stackBottom - 4 ∈ Span (S.stackBottom - 4) 4 := by
    rw [mem_span]
    bv_omega
  refine ⟨not_confined kept.first, fun spares => ?_, kept.written, ?_⟩
  · refine spares _ kept.first _ own ?_
    rw [realKernelPageTable, mem_span]
    bv_omega
  · obtain ⟨-, -, words⟩ := start_spec fuel returnAddress room below
    have entry : S.realKernelPageTable + 4 * 1021 = S.stackBottom - 4 - 4 - 4 := by
      rw [realKernelPageTable]
      bv_omega
    rw [entry]
    exact words

end SystemTask

-- a kernel linked at 0xC0100000, with `g_kernel_stack_bottom` at 0xC0110000
def bootTask : SystemTask where
  stackBottom := 0xC0110000
  kernelTasks := 0xC0120000
  kernelThreads := 0xC0121000
  processQueue := 0xC0122000
  preemptionEnabled := 0xC0123000
  currentProcess := 0xC0124000
  context := 0xC0113F00
  kernelSystemTask := 0xC0101000
  area x :=
    if x.toNat < 0xC0110000 then .other
    else if x.toNat < 0xC0120000 then .stack
    else if x.toNat < 0xC0121000 then .tasks
    else if x.toNat < 0xC0122000 then .threads
    else if x.toNat < 0xC0123000 then .processQueue
    else if x.toNat < 0xC0124000 then .other
    else .currentProcess
  tasks_area := by
    intro x inside
    rw [mem_span, processSize, numTasks] at inside
    rw [if_neg (by bv_omega), if_neg (by bv_omega), if_pos (by bv_omega)]
  threads_area := by
    intro x inside
    rw [mem_span, threadSize, numTasks] at inside
    rw [if_neg (by bv_omega), if_neg (by bv_omega), if_neg (by bv_omega), if_pos (by bv_omega)]
  queue_area := by
    intro x inside
    rw [mem_span] at inside
    rw [if_neg (by bv_omega), if_neg (by bv_omega), if_neg (by bv_omega), if_neg (by bv_omega),
      if_pos (by bv_omega)]
  preemption_area := by decide
  current_area := by
    intro x inside
    rw [mem_span] at inside
    rw [if_neg (by bv_omega), if_neg (by bv_omega), if_neg (by bv_omega), if_neg (by bv_omega),
      if_neg (by bv_omega), if_neg (by bv_omega)]
  stack_area := by
    intro x inside
    rw [mem_span, kernelStackSize] at inside
    rw [if_neg (by bv_omega), if_pos (by bv_omega)]
  context_fits := by decide

def bootMachine : Machine :=
  ⟨⟨0, 0, 0, 0, 0xC0113E00, 0, 0, 0, 0, 0, 0x8, 0x10, 0x10, 0x10, 0x10⟩, fun _ => 0⟩

/-- The bootstrap alone leaves the stack, and puts the address of `kernel_system_task` into
an empty page table entry. -/
theorem bootTask_overwrites :
    ¬bootTask.Confined (bootTask.start 0 0 bootMachine) ∧
      load32 bootMachine.mem 0xC010FFF4 = 0 ∧
      load32 (bootTask.start 0 0 bootMachine).machine.mem 0xC010FFF4 = 0xC0101000 := by
  obtain ⟨-, written, words⟩ := SystemTask.start_spec (S := bootTask) (s := bootMachine)
    0 0 (by decide) (by decide)
  refine ⟨SystemTask.not_confined ?_, by decide, words.1⟩
  rw [written]
  exact List.mem_cons_self

theorem bootTask_run : ¬bootTask.Confined ((bootTask.start 0 0 bootMachine).push 7) :=
  (SystemTask.systemTask_pushes_below bootTask 0 0 bootMachine (by decide) (by decide)
    (.single (.push _ 7 (by
      rw [SystemTask.depth, (SystemTask.start_spec 0 0 (by decide) (by decide)).1]
      decide)))).1

end Treeos
