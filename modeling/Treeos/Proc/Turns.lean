import Treeos.Lib.RoundRobin
import Treeos.Proc.Queue

/-!
# Turns of the queued processes

Over every run after start-up the current process is queued, switches return and pass round the
queue, and only the current process can have asked to yield: as long as
`scheduler_advance_stage2` stores into no pointer of the scheduler.
-/
namespace Treeos

open Sched

/-- A `struct process` after `memset` or `kcalloc`. -/
def zeroProcess : Process := ⟨0, 0#32, 0#8, 0#32, none⟩

/-- `init_system_task` as far as the scheduler sees it: the task, with its thread, is
queued alone and `scheduler_bootstrap_thread` makes it current. -/
def initSystemTask (s : Sched) (task : ProcRef) (thread : ThreadRef) : Except Panic Sched := do
  let s := (schedulerInit s).setProc task
    { zeroProcess with pgdir := 0xFFFFF000#32, quantum := defaultQuantum, thread := thread }
  let (_, s) ← schedulerAddProcess 0 s (some task)
  .ok (s.setCurrentProcess (some task))

/-- The scheduler after start-up. Process structures are zeroed when they are made, and
only `process_yield` sets the yield flag. -/
structure StartUp (s : Sched) (task : ProcRef) : Prop where
  queue : s.IsQueue [task]
  current : s.currentProcess = some task
  unflagged : ∀ p, (s.proc p).flags &&& procDebugYield = 0

theorem initSystemTask_startUp (s : Sched) (task : ProcRef) (thread : ThreadRef)
    (zeroed : ∀ p, (s.proc p).flags = 0) :
    ∃ s', initSystemTask s task thread = .ok s' ∧ StartUp s' task := by
  refine ⟨_, rfl, ⟨⟨rfl, ?_⟩, rfl, fun p => ?_⟩⟩
  · simp [next, setProc, setCurrentProcess, setProcessQueue, zeroProcess]
  · by_cases same : p = task <;>
      simp [setProc, setCurrentProcess, setProcessQueue, schedulerInit, same, zeroProcess, zeroed]

/-- Following the queue from a queued process is its successor in the cycle. -/
theorem Sched.IsQueue.following {s : Sched} {xs : List ProcRef} (queue : s.IsQueue xs) {p : ProcRef}
    (member : p ∈ xs) : s.following p = some (xs.next p member) := by
  obtain ⟨i, bound, rfl⟩ := List.getElem_of_mem member
  have link : s.next xs[i] = xs[i + 1]? := Linked.Chain.next_getElem queue bound
  have head : s.processQueue = xs[0]? := Linked.Chain.head_eq queue
  rw [List.next_getElem xs queue.nodup i bound, Sched.following, link]
  rcases Nat.lt_or_ge (i + 1) xs.length with inside | wraps
  · simp [inside, Nat.mod_eq_of_lt inside]
  · have last : xs.length = i + 1 := by omega
    simp [last, head]

/-- What holds between steps: the queue, its current member, and nobody else's flag. -/
structure Rotating (s : Sched) (xs : List ProcRef) (p : ProcRef) : Prop where
  queue : s.IsQueue xs
  member : p ∈ xs
  current : s.currentProcess = some p
  unflagged : ∀ q ≠ p, (s.proc q).flags &&& procDebugYield = 0

/-- The processes that the switches of a history made current, in order. -/
def switchTargets (events : List SchedEvent) : List ProcRef :=
  events.filterMap fun
    | .switch target => target
    | _ => none

def SchedEvent.isAdd : SchedEvent → Bool
  | .add _ _ => true
  | _ => false

theorem mem_enqueue {xs : List ProcRef} {p q : ProcRef} (member : p ∈ xs) : p ∈ enqueue xs q := by
  unfold enqueue
  split
  · exact member
  · exact List.mem_append_left _ member

theorem setNext_flags (s : Sched) (node q : ProcRef) (link : Option ProcRef) :
    ((s.setNext node link).proc q).flags = (s.proc q).flags := by
  by_cases same : q = node <;> simp [setNext, setProc, same]

variable {places : FlagPlaces}

/-- One step keeps a rotating scheduler rotating. A switch is one turn in the cycle of
the queue; nothing else changes the current process. -/
theorem SchedStep.rotating {s s' : Sched} {e : SchedEvent} {xs : List ProcRef} {p : ProcRef}
    (keeps : places.KeepsQueue ∧ places.KeepsCurrent) (inv : Rotating s xs p)
    (step : SchedStep places s e s') :
    (switchTargets [e] = [] ∧ Rotating s' (e.enqueue xs) p) ∨
    ∃ q, switchTargets [e] = [q] ∧ e.enqueue xs = xs ∧ RoundRobin.Turn xs p q q ∧
      Rotating s' xs q := by
  -- the queue is kept by any step; what is left are the current process and the flags
  have queue := step.queue keeps.1 inv.queue
  cases step with
  | @add _ fuel p' ret clean returned =>
    have new : p' ∉ xs → s.next p' = none := fun absent =>
      clean fun queued => absent (inv.queue.queued_iff.mp queued)
    obtain ⟨t, answer, -, -, shape⟩ := schedulerAddProcess_spec inv.queue new
      (Nat.le_max_right fuel xs.length)
    rw [schedulerAddProcess_mono returned (Nat.le_max_left fuel xs.length)] at answer
    cases answer
    refine .inl ⟨rfl, queue, mem_enqueue inv.member, ?_, fun q other => ?_⟩
    · rcases shape with rfl | rfl | ⟨node, rfl⟩ <;> exact inv.current
    · rcases shape with rfl | rfl | ⟨node, rfl⟩
      · exact inv.unflagged q other
      · exact inv.unflagged q other
      · rw [setNext_flags]
        exact inv.unflagged q other
  | tick returned =>
    obtain ⟨p', flag, current, rfl⟩ := schedulerTick_cases returned
    obtain rfl : p = p' := Option.some.inj (inv.current.symm.trans current)
    refine .inl ⟨rfl, queue, inv.member, current, fun q other => ?_⟩
    have untouched := inv.unflagged q other
    simpa [setQuantum, setProc, setSwitchProcesses, other] using untouched
  | yield returned =>
    obtain ⟨p', current, rfl⟩ := processYield_cases returned
    obtain rfl : p = p' := Option.some.inj (inv.current.symm.trans current)
    refine .inl ⟨rfl, queue, inv.member, current, fun q other => ?_⟩
    have untouched := inv.unflagged q other
    simpa [setFlags, setProc, other] using untouched
  | switch returned =>
    obtain ⟨p', current, rfl⟩ := contextSwitch_cases returned
    obtain rfl : p = p' := Option.some.inj (inv.current.symm.trans current)
    have target := inv.queue.following inv.member
    have current' (t : Sched) : (schedulerAdvanceStage2 places
        (t.setCurrentProcess (s.following p))).currentProcess = some (xs.next p inv.member) := by
      rw [schedulerAdvanceStage2_currentProcess, keeps.2.stored]
      exact target
    refine .inr ⟨xs.next p inv.member, ?_, rfl, .pass inv.member, queue,
      List.next_mem _ _ inv.member, current' _, fun q _ => ?_⟩
    · rw [current']
      rfl
    · rw [schedulerAdvanceStage2_proc]
      by_cases same : q = p
      · subst same
        simpa [setFlags, setProc, setContext, setCurrentProcess] using
          stage1Flags_yield (s.proc q).flags
      · have untouched := inv.unflagged q same
        simpa [setFlags, setProc, setContext, setCurrentProcess, same] using untouched

theorem switchTargets_append (front back : List SchedEvent) :
    switchTargets (front ++ back) = switchTargets front ++ switchTargets back :=
  List.filterMap_append

/-- The queue after start-up with `task` and a history of events. -/
def queueAfter (task : ProcRef) (events : List SchedEvent) : List ProcRef :=
  events.foldl SchedEvent.enqueue [task]

theorem run_rotating {init s : Sched} {task : ProcRef}
    (keeps : places.KeepsQueue ∧ places.KeepsCurrent) (start : StartUp init task)
    {events : List SchedEvent} (run : Run.From (SchedStep places) init events s) :
    ∃ p, Rotating s (queueAfter task events) p := by
  refine run.invariant (fun events s => ∃ p, Rotating s (queueAfter task events) p)
    ⟨task, start.queue, by simp [queueAfter], start.current, fun q _ => start.unflagged q⟩ ?_
  rintro events s e s' _ ⟨p, inv⟩ step
  rw [queueAfter, List.foldl_append]
  rcases step.rotating keeps inv with ⟨_, next⟩ | ⟨q, _, same, _, next⟩
  · exact ⟨p, next⟩
  · refine ⟨q, ?_⟩
    change Rotating s' (e.enqueue (queueAfter task events)) q
    rwa [same]

/-- A run without additions takes its turns in the cycle of the queue. -/
theorem run_turns {s t : Sched} {xs : List ProcRef} {p : ProcRef}
    (keeps : places.KeepsQueue ∧ places.KeepsCurrent) (inv : Rotating s xs p)
    {events : List SchedEvent} (noAdd : ∀ e ∈ events, e.isAdd = false)
    (run : Run.From (SchedStep places) s events t) :
    ∃ q, Rotating t xs q ∧ Run.From (RoundRobin.Turn xs) p (switchTargets events) q := by
  induction run with
  | nil => exact ⟨p, inv, .nil⟩
  | @snoc events t t' e before last ih =>
    obtain ⟨q, here, turns⟩ := ih fun e' member => noAdd e' (List.mem_append_left _ member)
    have kept : e.enqueue xs = xs := by
      have plain := noAdd e (by simp)
      cases e <;> first | rfl | cases plain
    rw [switchTargets_append]
    rcases last.rotating keeps here with ⟨none, next⟩ | ⟨q', one, _, turn, next⟩
    · exact ⟨q, kept ▸ next, by simpa [none] using turns⟩
    · exact ⟨q', next, one ▸ turns.snoc _ turn⟩

/-- A tick and a yield return, too. -/
theorem schedulerTick_returns {s : Sched} {xs : List ProcRef} {p : ProcRef} (queue : s.IsQueue xs)
    (member : p ∈ xs) (current : s.currentProcess = some p) : ∃ s', schedulerTick s = .ok s' := by
  have head : s.processQueue = xs[0]? := Linked.Chain.head_eq queue
  obtain ⟨node, first⟩ : ∃ node, xs[0]? = some node :=
    ⟨_, List.getElem?_eq_getElem (List.length_pos_of_mem member)⟩
  unfold schedulerTick
  simp only [current, setQuantum_processQueue, head, first]
  split
  · split <;> exact ⟨_, rfl⟩
  · exact ⟨_, rfl⟩

theorem processYield_returns {s : Sched} {p : ProcRef} (current : s.currentProcess = some p) :
    ∃ s', processYield s = .ok s' :=
  ⟨_, by simp only [processYield, current]; rfl⟩

/-- The current process is queued; ticks, yields and switches return; as many switches as there
are processes make each of them current exactly once and come back to the first; and no other
queued process has its yield flag set. -/
structure Rotates (places : FlagPlaces) (xs : List ProcRef) (s : Sched) : Prop where
  queue : s.IsQueue xs
  current : ∃ p ∈ xs, s.currentProcess = some p ∧
    ∀ q ∈ xs, q ≠ p → (s.proc q).flags &&& procDebugYield = 0
  returns : (∃ t, schedulerTick s = .ok t) ∧ (∃ t, processYield s = .ok t) ∧
    ∀ context, ∃ t, contextSwitch places context s = .ok t
  turns : ∀ later t, Run.From (SchedStep places) s later t → (∀ e ∈ later, e.isAdd = false) →
    (switchTargets later).length = xs.length →
    (switchTargets later).Perm xs ∧ t.currentProcess = s.currentProcess

theorem Rotating.rotates {s : Sched} {xs : List ProcRef} {p : ProcRef}
    (keeps : places.KeepsQueue ∧ places.KeepsCurrent) (inv : Rotating s xs p) :
    Rotates places xs s where
  queue := inv.queue
  current := ⟨p, inv.member, inv.current, fun q _ other => inv.unflagged q other⟩
  returns := ⟨schedulerTick_returns inv.queue inv.member inv.current,
    processYield_returns inv.current, fun context => ⟨_, contextSwitch_eq context inv.current⟩⟩
  turns := by
    intro later t run noAdd round
    obtain ⟨q, after, turns⟩ := run_turns keeps inv noAdd run
    obtain ⟨perm, rfl⟩ := RoundRobin.full_round inv.queue.nodup inv.member turns round
    exact ⟨perm, after.current.trans inv.current.symm⟩

/-- One switch away from the system task -/
theorem oneTask_run (places : FlagPlaces) (task : ProcRef) (thread : ThreadRef) :
    ∃ init s, initSystemTask blankSched task thread = .ok init ∧ StartUp init task ∧
      Run.From (SchedStep places) init [.switch s.currentProcess] s ∧
      s.processQueue = places.queueStored (some task) ∧
      s.currentProcess = places.currentStored (some task) := by
  obtain ⟨init, returned, start⟩ := initSystemTask_startUp blankSched task thread fun _ => rfl
  have head : init.processQueue = some task := start.queue.1
  have target : init.following task = some task := by
    rw [start.queue.following (List.mem_singleton.mpr rfl), List.next_singleton]
  refine ⟨init, _, returned, start, .single (.switch (contextSwitch_eq 0 start.current)), ?_, ?_⟩
  · exact schedulerAdvanceStage2_processQueue.trans (congrArg places.queueStored head)
  · exact schedulerAdvanceStage2_currentProcess.trans (congrArg places.currentStored target)

end Treeos
