import Treeos.Interrupt.Vectors
import Treeos.Klibc.Sprintf

/-!
# The report of a fault

The handlers of exceptions build a message and hand it to `_panic_r`, which puts it in front
of the registers. All of this is written into buffers of `MAX_PANIC_BUF` bytes with calls of
`sprintf` that know nothing of their size.
-/
namespace Treeos

open Buffer

def maxPanicBuf : Nat := 512

/-- The calls of `sprintf` in `strcat_registers` -/
def registerLines (context : ThreadContext) : List (String × List (BitVec 32)) :=
  [("  eax=%x ebx=%x ecx=%x edx=%x\n", [context.eax, context.ebx, context.ecx, context.edx]),
   ("  ebp=%x esi=%x edi=%x\n", [context.ebp, context.esi, context.edi]),
   ("  ds=%x es=%x fs=%x gs=%x\n", [context.ds, context.es, context.fs, context.gs]),
   ("  cs:eip=%x:%x\n", [context.cs, context.eip]),
   ("  ss:esp=%x:%x\n", [context.userSs, context.esp]),
   ("  eflags=%x\n", [context.eflags]),
   ("  int=%d err=%x\n", [context.intNum, context.errorCode])]

/-- `pos += sprintf(buf + pos, ...)`, line after line. The local buffer of `vsprintf` starts
with other contents in each call. -/
def sprintfLines (garbage : Nat → Nat → BitVec 8) :
    List (String × List (BitVec 32)) → Object → Nat → Option (Object × Nat)
  | [], buf, pos => some (buf, pos)
  | line :: lines, buf, pos => do
    let (buf, ret) ← sprintf buf pos line.1 (line.2.map .word) (garbage 0)
    sprintfLines (fun i => garbage (i + 1)) lines buf (pos + ret)

/-- `strcat_registers` -/
def strcatRegisters (buf : Object) (context : ThreadContext) (garbage : Nat → Nat → BitVec 8) :
    Option Object := do
  -- `while (*(buf + pos) != '\0') pos++;` is the loop of `strlen`
  let pos ← strlen buf
  let (buf, _) ← sprintfLines garbage (registerLines context) buf pos
  some buf

/-- `_panic_r`, up to the output of its buffer, which was `static` before. -/
def panicR (file : String) (line : BitVec 32) (msg : Object) (context : ThreadContext)
    (static : Nat → BitVec 8) (garbage : Nat → Nat → BitVec 8) : Option Object := do
  let msgBuf := (⟨maxPanicBuf, static⟩ : Object).put 0 (List.replicate maxPanicBuf 0)
  let (msgBuf, _) ← sprintf msgBuf 0 "panic (%s:%d): %s\n"
    [.pointer (Printer.literal file), .word line, .pointer msg] (garbage 0)
  strcatRegisters msgBuf context fun i => garbage (i + 1)

/-- The buffers of a handler and of `_panic_r` -/
structure FaultReport where
  message : Object
  report : Object

def errorMsg : List String :=
  ["divide by zero",
   "debugger (this shouldn't EVER be fired)",
   "non-maskable interrupt",
   "breakpoint",
   "overflow",
   "range exceeded for BOUND instruction",
   "invalid/undefined opcode",
   "device not available (no math coprocessor?)",
   "double fault",
   "coprocessor segment overflow (this shouldn't EVER be fired)",
   "invalid TSS",
   "segment not present",
   "stack-segment fault",
   "general protection fault",
   "page fault",
   "Intel reserved (this shouldn't EVER be fired)",
   "x87 FPU floating-point error",
   "alignment check fault",
   "machine check fault",
   "SIMD floating-point exception",
   "virtualization/EPT exception"]

-- the calls of `sprintf` in `unexpected_int_handler`
def unexpectedMessage (intNum : BitVec 32) (msgBuf : Object) (garbage : Nat → BitVec 8) :
    Option (Object × Nat) :=
  if intNum ≤ 20 then do
    let text ← errorMsg[intNum.toNat]?
    sprintf msgBuf 0 "unhandled interrupt %d: %s"
      [.word intNum, .pointer (Printer.literal text)] garbage
  else if intNum < 32 then do
    -- All these are Intel-reserved, so just reuse the int15 string
    let text ← errorMsg[15]?
    sprintf msgBuf 0 "unhandled interrupt %d: %s"
      [.word intNum, .pointer (Printer.literal text)] garbage
  else sprintf msgBuf 0 "unhandled interrupt %d" [.word intNum] garbage

/-- `unexpected_int_handler`. Its buffer starts with the contents `stack`. -/
def unexpectedIntHandler (context : ThreadContext) (stack static : Nat → BitVec 8)
    (garbage : Nat → Nat → BitVec 8) : Option FaultReport := do
  let (msgBuf, _) ← unexpectedMessage context.intNum ⟨maxPanicBuf, stack⟩ (garbage 0)
  let report ← panicR "kernel/arch/i386/interrupt.c" 358 msgBuf context static
    fun i => garbage (i + 1)
  some ⟨msgBuf, report⟩

/-- `page_fault_int_handler` -/
def pageFaultIntHandler (cr2 : BitVec 32) (context : ThreadContext) (stack static : Nat → BitVec 8)
    (garbage : Nat → Nat → BitVec 8) : Option FaultReport := do
  let msgBuf : Object := ⟨maxPanicBuf, stack⟩
  let (msgBuf, _) ← sprintf msgBuf 0 "page fault at address %p" [.word cr2] (garbage 0)
  let report ← panicR "kernel/arch/i386/pmm/pmm.c" 169 msgBuf context static
    fun i => garbage (i + 1)
  some ⟨msgBuf, report⟩

/-! ### Line after line -/

variable {b : Object} {sofar text : List (BitVec 8)} {values : List Value}

/-- The text of a format in the source is a string. -/
structure Renderable (format : String) (values : List Value) : Prop where
  string : (Printer.literal format).Holds 0 (format.toList.map ch)
  bytes : noBytes (format.toList.map ch) = true
  strings : Strings values

theorem Renderable.text_ne_zero {format : String} (renderable : Renderable format values)
    (rendered : render (format.toList.map ch) values = some (text, [])) : ∀ c ∈ text, c ≠ 0 :=
  (renders_of_render rendered).text_ne_zero renderable.string.text_ne_zero renderable.bytes
    renderable.strings

theorem strings_words (ws : List (BitVec 32)) : Strings (ws.map .word) := by
  intro cs member
  obtain ⟨w, -, same⟩ := List.mem_map.mp member
  cases same

/-- The first text of a buffer -/
theorem sprintf_first {format : String} {args : List Arg} (renderable : Renderable format values)
    (kinds : List.Forall₂ ArgHolds args values)
    (rendered : render (format.toList.map ch) values = some (text, []))
    (room : text.length < b.size) (garbage : Nat → BitVec 8) :
    ∃ buf, sprintf b 0 format args garbage = some (buf, text.length) ∧ buf.Holds 0 text ∧
      buf.size = b.size := by
  have inside : 0 + text.length < b.size := by rwa [Nat.zero_add]
  exact ⟨_, sprintf_renders renderable.string kinds rendered inside garbage,
    Object.holds_put inside (renderable.text_ne_zero rendered), rfl⟩

/-- A text behind the one that the buffer holds -/
theorem sprintf_appends {format : String} {args : List Arg} (holds : b.Holds 0 sofar)
    (renderable : Renderable format values) (kinds : List.Forall₂ ArgHolds args values)
    (rendered : render (format.toList.map ch) values = some (text, []))
    (room : sofar.length + text.length < b.size) (garbage : Nat → BitVec 8) :
    ∃ buf, sprintf b sofar.length format args garbage = some (buf, text.length) ∧
      buf.Holds 0 (sofar ++ text) ∧ buf.size = b.size := by
  have grown := holds.append (renderable.text_ne_zero rendered) (by rwa [Nat.zero_add])
  rw [Nat.zero_add] at grown
  exact ⟨_, sprintf_renders renderable.string kinds rendered room garbage, grown, rfl⟩

/-- The text of a call of `sprintf` with numbers only -/
def LineText (line : String × List (BitVec 32)) (text : List (BitVec 8)) : Prop :=
  render (line.1.toList.map ch) (line.2.map .word) = some (text, [])

def lineBound (line : String × List (BitVec 32)) : Nat :=
  textBound (line.1.toList.map ch) (line.2.map .word)

def linesBound : List (String × List (BitVec 32)) → Nat
  | [] => 0
  | line :: lines => lineBound line + linesBound lines

theorem argHolds_words (ws : List (BitVec 32)) :
    List.Forall₂ ArgHolds (ws.map .word) (ws.map .word) := by
  induction ws with
  | nil => exact .nil
  | cons w ws ih => exact .cons (.word w) ih

variable {lines : List (String × List (BitVec 32))} {texts : List (List (BitVec 8))}

theorem sprintfLines_appends (rendered : List.Forall₂ LineText lines texts)
    (renderable : ∀ line ∈ lines, Renderable line.1 (line.2.map .word))
    (holds : b.Holds 0 sofar) (room : sofar.length + texts.flatten.length < b.size)
    (garbage : Nat → Nat → BitVec 8) :
    ∃ buf, sprintfLines garbage lines b sofar.length =
        some (buf, sofar.length + texts.flatten.length) ∧
      buf.Holds 0 (sofar ++ texts.flatten) ∧ buf.size = b.size := by
  induction rendered generalizing b sofar garbage with
  | nil =>
    refine ⟨b, rfl, ?_, rfl⟩
    rwa [List.flatten_nil, List.append_nil]
  | @cons line text lines texts first rest ih =>
    rw [List.flatten_cons, List.length_append] at room
    obtain ⟨buf, printed, grown, size⟩ := sprintf_appends holds
      (renderable line List.mem_cons_self) (argHolds_words line.2) first (by omega) (garbage 0)
    obtain ⟨buf', loop, whole, size'⟩ := ih
      (fun line member => renderable line (List.mem_cons_of_mem _ member)) grown
      (by rw [List.length_append, size]; omega) fun i => garbage (i + 1)
    refine ⟨buf', ?_, ?_, size'.trans size⟩
    · rw [List.length_append] at loop
      rw [sprintfLines, printed]
      simp only [Option.bind_eq_bind, Option.bind_some]
      rw [loop, List.flatten_cons, List.length_append, Nat.add_assoc]
    · rwa [List.flatten_cons, ← List.append_assoc]

theorem linesText_length (rendered : List.Forall₂ LineText lines texts) :
    texts.flatten.length ≤ linesBound lines := by
  induction rendered with
  | nil => exact Nat.le_refl 0
  | @cons line text lines texts first rest ih =>
    have shorter : text.length ≤ lineBound line := (renders_of_render first).length_le
    rw [List.flatten_cons, List.length_append, linesBound]
    omega

/-! ### The registers -/

/-- The lines are formats for numbers, with a number for each directive. -/
theorem registerLines_formats (context : ThreadContext) : ∀ line ∈ registerLines context,
    (Printer.literal line.1).Holds 0 (line.1.toList.map ch) ∧
      noBytes (line.1.toList.map ch) = true ∧ noStrings (line.1.toList.map ch) = true ∧
      line.2.length = argCount (line.1.toList.map ch) := by
  simp only [registerLines, List.forall_mem_cons, List.length_cons, List.length_nil]
  refine ⟨?_, ?_, ?_, ?_, ?_, ?_, ?_, List.forall_mem_nil _⟩ <;> decide

theorem registerLines_renderable (context : ThreadContext) :
    ∀ line ∈ registerLines context, Renderable line.1 (line.2.map .word) := by
  intro line member
  obtain ⟨string, bytes, -, -⟩ := registerLines_formats context line member
  exact ⟨string, bytes, strings_words line.2⟩

theorem linesText (numbers : ∀ line ∈ lines, noStrings (line.1.toList.map ch) = true ∧
    line.2.length = argCount (line.1.toList.map ch)) :
    ∃ texts, List.Forall₂ LineText lines texts := by
  induction lines with
  | nil => exact ⟨[], .nil⟩
  | cons line lines ih =>
    obtain ⟨format, rest⟩ := List.forall_mem_cons.mp numbers
    obtain ⟨text, first⟩ := render_words format.1 format.2
    obtain ⟨texts, others⟩ := ih rest
    exact ⟨text :: texts, .cons first others⟩

theorem lineBound_eq (line : String × List (BitVec 32)) : lineBound line =
    textBound (line.1.toList.map ch) (List.replicate line.2.length (.word 0)) :=
  textBound_words line.2

theorem registerLines_bound (context : ThreadContext) :
    linesBound (registerLines context) = 282 := by
  simp only [registerLines, linesBound, lineBound_eq, List.length_cons, List.length_nil]
  decide

/-- `strcat_registers` puts the lines behind the text of the buffer. -/
theorem strcatRegisters_appends (context : ThreadContext) (holds : b.Holds 0 sofar)
    (room : sofar.length + 282 < b.size) (garbage : Nat → Nat → BitVec 8) :
    ∃ texts buf, List.Forall₂ LineText (registerLines context) texts ∧
      strcatRegisters b context garbage = some buf ∧ buf.Holds 0 (sofar ++ texts.flatten) ∧
      buf.size = b.size := by
  obtain ⟨texts, rendered⟩ := linesText fun line member =>
    (registerLines_formats context line member).2.2
  have long := linesText_length rendered
  rw [registerLines_bound] at long
  obtain ⟨buf, printed, grown, size⟩ := sprintfLines_appends rendered
    (registerLines_renderable context) holds (by omega) garbage
  have length := strlenLoop_eq holds holds.length_lt
  rw [Nat.zero_add] at length
  refine ⟨texts, buf, rendered, ?_, grown, size⟩
  simp only [strcatRegisters, strlen, length, printed, Option.bind_eq_bind, Option.bind_some]

/-! ### Reports -/

/-- The report of `_panic_r` on a message, with the registers behind it. -/
def Reports (file : String) (line : BitVec 32) (context : ThreadContext)
    (msg report : List (BitVec 8)) : Prop :=
  ∃ first texts, render ("panic (%s:%d): %s\n".toList.map ch)
      [.text (file.toList.map ch), .word line, .text msg] = some (first, []) ∧
    List.Forall₂ LineText (registerLines context) texts ∧ report = first ++ texts.flatten

theorem render_panic (file msg : List (BitVec 8)) (line : BitVec 32) :
    render ("panic (%s:%d): %s\n".toList.map ch) [.text file, .word line, .text msg] =
      some ("panic (".toList.map ch ++ (file ++ (ch ':' :: (signedNumeral line ++
        ("): ".toList.map ch ++ (msg ++ [ch '\n']))))), []) := by
  rfl

theorem panicR_reports {file : String} {message : Object} {msg : List (BitVec 8)}
    (name : (Printer.literal file).Holds 0 (file.toList.map ch)) (holds : message.Holds 0 msg)
    (short : file.toList.length + msg.length + 305 < maxPanicBuf) (line : BitVec 32)
    (context : ThreadContext) (static : Nat → BitVec 8) (garbage : Nat → Nat → BitVec 8) :
    ∃ report text, panicR file line message context static garbage = some report ∧
      report.Holds 0 text ∧ report.size = maxPanicBuf ∧ Reports file line context msg text := by
  have strings : Strings [.text (file.toList.map ch), .word line, .text msg] := by
    intro cs member
    simp only [List.mem_cons, Value.text.injEq, List.not_mem_nil, or_false, reduceCtorEq,
      false_or] at member
    rcases member with rfl | rfl
    · exact name.text_ne_zero
    · exact holds.text_ne_zero
  have renderable : Renderable "panic (%s:%d): %s\n"
      [.text (file.toList.map ch), .word line, .text msg] := ⟨by decide, by decide, strings⟩
  obtain ⟨first, rendered⟩ : ∃ first, render ("panic (%s:%d): %s\n".toList.map ch)
      [.text (file.toList.map ch), .word line, .text msg] = some (first, []) :=
    ⟨_, render_panic _ _ _⟩
  -- the first line is the file, the message and 23 characters at most
  have long : first.length ≤ file.toList.length + msg.length + 23 := by
    have digits := signedNumeral_le line
    rw [render_panic] at rendered
    cases rendered
    simp only [List.length_append, List.length_cons, List.length_map, List.length_nil]
    have front : "panic (".toList.length = 7 := by decide
    have behind : "): ".toList.length = 3 := by decide
    omega
  have room : first.length < maxPanicBuf := by omega
  obtain ⟨buf, printed, text, size⟩ := sprintf_first
    (b := (⟨maxPanicBuf, static⟩ : Object).put 0 (List.replicate maxPanicBuf 0)) renderable
    (.cons (.text name) (.cons (.word line) (.cons (.text holds) .nil))) rendered room (garbage 0)
  rw [Object.size_put] at size
  dsimp only at size
  obtain ⟨texts, report, lines, appended, whole, size'⟩ := strcatRegisters_appends context text
    (by rw [size]; omega) fun i => garbage (i + 1)
  refine ⟨report, first ++ texts.flatten, ?_, whole, size'.trans size, first, texts, rendered,
    lines, rfl⟩
  simp only [panicR, printed, Option.bind_eq_bind, Option.bind_some]
  exact appended

/-- The message and the report are strings inside of their buffers, and the report is the one
that the source says. -/
def FaultReport.Fits (r : FaultReport) (file : String) (line : BitVec 32)
    (context : ThreadContext) : Prop :=
  ∃ msg text, r.message.size = 512 ∧ r.message.Holds 0 msg ∧ msg.length + 1 ≤ 512 ∧
    r.report.size = 512 ∧ r.report.Holds 0 text ∧ text.length + 1 ≤ 512 ∧
    Reports file line context msg text

theorem errorMsg_strings : ∀ text ∈ errorMsg,
    (Printer.literal text).Holds 0 (text.toList.map ch) ∧ text.toList.length ≤ 59 := by
  have checked : errorMsg.all (fun text =>
      (text.toList.map ch).all (· ≠ 0) && decide (text.toList.length ≤ 59)) = true := by decide
  intro text member
  obtain ⟨chars, short⟩ := Bool.and_eq_true_iff.mp (List.all_eq_true.mp checked text member)
  refine ⟨Printer.literal_holds fun c inside => ?_, of_decide_eq_true short⟩
  exact of_decide_eq_true (List.all_eq_true.mp chars c inside)

/-- A message for an interrupt with a text -/
theorem message_named {text : String} (string : (Printer.literal text).Holds 0 (text.toList.map ch))
    (short : text.toList.length ≤ 59) (intNum : BitVec 32) (stack garbage : Nat → BitVec 8) :
    ∃ buf msg, sprintf ⟨maxPanicBuf, stack⟩ 0 "unhandled interrupt %d: %s"
        [.word intNum, .pointer (Printer.literal text)] garbage = some (buf, msg.length) ∧
      buf.Holds 0 msg ∧ buf.size = maxPanicBuf ∧ msg.length ≤ 92 := by
  have strings : Strings [.word intNum, .text (text.toList.map ch)] := by
    intro cs member
    simp only [List.mem_cons, Value.text.injEq, List.not_mem_nil, or_false, reduceCtorEq,
      false_or] at member
    exact member ▸ string.text_ne_zero
  have renderable : Renderable "unhandled interrupt %d: %s"
      [.word intNum, .text (text.toList.map ch)] := ⟨by decide, by decide, strings⟩
  have rendered : render ("unhandled interrupt %d: %s".toList.map ch)
      [.word intNum, .text (text.toList.map ch)] =
        some ("unhandled interrupt ".toList.map ch ++ (signedNumeral intNum ++
          (": ".toList.map ch ++ (text.toList.map ch ++ []))), []) := by
    rfl
  have long : ("unhandled interrupt ".toList.map ch ++ (signedNumeral intNum ++
      (": ".toList.map ch ++ (text.toList.map ch ++ [])))).length ≤ 92 := by
    have digits := signedNumeral_le intNum
    have front : "unhandled interrupt ".toList.length = 20 := by decide
    have colon : ": ".toList.length = 2 := by decide
    simp only [List.length_append, List.length_map, List.length_nil]
    omega
  have buffer : 92 < maxPanicBuf := by decide
  obtain ⟨buf, printed, text, size⟩ := sprintf_first (b := ⟨maxPanicBuf, stack⟩) renderable
    (.cons (.word intNum) (.cons (.text string) .nil)) rendered
    (Nat.lt_of_le_of_lt long buffer) garbage
  exact ⟨buf, _, printed, text, size, long⟩

/-- A message with a number only -/
theorem message_number {format : String}
    (string : (Printer.literal format).Holds 0 (format.toList.map ch))
    (bytes : noBytes (format.toList.map ch) = true)
    (numbers : noStrings (format.toList.map ch) = true)
    (count : argCount (format.toList.map ch) = 1)
    (short : textBound (format.toList.map ch) [.word 0] ≤ 92) (w : BitVec 32)
    (stack garbage : Nat → BitVec 8) :
    ∃ buf msg, sprintf ⟨maxPanicBuf, stack⟩ 0 format [.word w] garbage = some (buf, msg.length) ∧
      buf.Holds 0 msg ∧ buf.size = maxPanicBuf ∧ msg.length ≤ 92 := by
  have one : [w].length = argCount (format.toList.map ch) := count.symm
  obtain ⟨msg, rendered⟩ := render_words numbers one
  have long := (renders_of_render rendered).length_le
  rw [textBound_words] at long
  have fits : msg.length ≤ 92 := Nat.le_trans long short
  have buffer : 92 < maxPanicBuf := by decide
  obtain ⟨buf, printed, text, size⟩ := sprintf_first (b := ⟨maxPanicBuf, stack⟩)
    ⟨string, bytes, strings_words [w]⟩ (argHolds_words [w]) rendered
    (Nat.lt_of_le_of_lt fits buffer) garbage
  exact ⟨buf, msg, printed, text, size, fits⟩

/-- `unexpected_int_handler` finds a text for each vector that has one, and its message is
short. -/
theorem unexpectedMessage_short (intNum : BitVec 32) (stack garbage : Nat → BitVec 8) :
    ∃ buf msg, unexpectedMessage intNum ⟨maxPanicBuf, stack⟩ garbage = some (buf, msg.length) ∧
      buf.Holds 0 msg ∧ buf.size = maxPanicBuf ∧ msg.length ≤ 92 := by
  rw [unexpectedMessage]
  split
  next known =>
    have inside : intNum.toNat < errorMsg.length := by
      have bound : intNum.toNat ≤ 20 := known
      have entries : errorMsg.length = 21 := by decide
      omega
    obtain ⟨string, short⟩ := errorMsg_strings _ (List.getElem_mem inside)
    rw [List.getElem?_eq_getElem inside]
    exact message_named string short intNum stack garbage
  split
  next reserved =>
    have inside : 15 < errorMsg.length := by decide
    obtain ⟨string, short⟩ := errorMsg_strings _ (List.getElem_mem inside)
    exact message_named string short intNum stack garbage
  · exact message_number (by decide) (by decide) (by decide) (by decide) (by decide) _ _ _

/-- Whatever the context and the address, the handlers and `_panic_r` stay inside of their
buffers and of `error_msg`, and the report is complete. -/
theorem faultReports_fit (context : ThreadContext) (cr2 : BitVec 32)
    (stack static : Nat → BitVec 8) (garbage : Nat → Nat → BitVec 8) :
    (∃ r, unexpectedIntHandler context stack static garbage = some r ∧
      r.Fits "kernel/arch/i386/interrupt.c" 358 context) ∧
    (∃ r, pageFaultIntHandler cr2 context stack static garbage = some r ∧
      r.Fits "kernel/arch/i386/pmm/pmm.c" 169 context) := by
  have interruptName : (Printer.literal "kernel/arch/i386/interrupt.c").Holds 0
      ("kernel/arch/i386/interrupt.c".toList.map ch) := by decide
  have pmmName : (Printer.literal "kernel/arch/i386/pmm/pmm.c").Holds 0
      ("kernel/arch/i386/pmm/pmm.c".toList.map ch) := by decide
  have interruptShort : "kernel/arch/i386/interrupt.c".toList.length ≤ 28 := by decide
  have pmmShort : "kernel/arch/i386/pmm/pmm.c".toList.length ≤ 28 := by decide
  have buffer : maxPanicBuf = 512 := rfl
  constructor
  · obtain ⟨message, msg, printed, holds, size, short⟩ :=
      unexpectedMessage_short context.intNum stack (garbage 0)
    obtain ⟨report, text, panicked, whole, size', reports⟩ := panicR_reports interruptName holds
      (by omega) 358 context static fun i => garbage (i + 1)
    refine ⟨⟨message, report⟩, ?_, msg, text, size, holds, by omega, size', whole, ?_, reports⟩
    · rw [unexpectedIntHandler, printed]
      simp only [Option.bind_eq_bind, Option.bind_some, panicked]
    · have inside := whole.length_lt
      rwa [size'] at inside
  · have string : (Printer.literal "page fault at address %p").Holds 0
        ("page fault at address %p".toList.map ch) := by decide
    obtain ⟨message, msg, printed, holds, size, short⟩ := message_number string (by decide)
      (by decide) (by decide) (by decide) cr2 stack (garbage 0)
    obtain ⟨report, text, panicked, whole, size', reports⟩ := panicR_reports pmmName holds
      (by omega) 169 context static fun i => garbage (i + 1)
    refine ⟨⟨message, report⟩, ?_, msg, text, size, holds, by omega, size', whole, ?_, reports⟩
    · rw [pageFaultIntHandler]
      simp only [printed, Option.bind_eq_bind, Option.bind_some, panicked]
    · have inside := whole.length_lt
      rwa [size'] at inside

end Treeos
