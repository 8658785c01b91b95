import Treeos.Lib.Run
import Treeos.Klibc.LiballocObjects

/-!
# Runs of liballoc

Any sequence of calls and of bytes that the callers write, over hooks that keep their promises.
-/
namespace Treeos

open ByteMemory Liballoc
open ObjectStore (Object Call Allowed after)

variable {σ : Type} {K : Hooks σ} {Owns : σ → List PageArea → Prop} {view : σ → Memory}
variable {s s' : Liballoc σ} {majors : List Major} {objects : List Object} {call : Call}
variable {fuel : Nat} {h : σ} {flag : Bool} {q : BitVec 32}

/-- The variables of liballoc before the first call. -/
def Liballoc.initial (h : σ) (flag : Bool) : Liballoc σ where
  host := h
  memRoot := 0
  bestBet := 0
  allocated := 0
  inuse := 0
  warningCount := 0
  errorCount := 0
  possibleOverruns := 0
  interruptFlag := flag
  enableInt := false

/-- Calls that return. A caller frees, resizes and writes to its own objects only. -/
inductive CallerStep (K : Hooks σ) (fuel : Nat) :
    Liballoc σ × List Object → Call × BitVec 32 → Liballoc σ × List Object → Prop
  | call {s s' : Liballoc σ} {objects : List Object} {call : Call} {q : BitVec 32}
      (allowed : Allowed objects call) (small : SmallCall call)
      (returned : s.call K fuel call = .ok (q, s')) :
      CallerStep K fuel (s, objects) (call, q) (s', after objects q call)

/-- The objects of a history. -/
def objectsOf (history : List (Call × BitVec 32)) : List Object :=
  history.foldl (fun objects (call, q) => after objects q call) []

theorem initial_backs (owns : Owns h []) :
    Backs Owns view (Liballoc.initial h flag) [] [] :=
  ⟨⟨owns, nofun, rfl, trivial, .inl rfl, rfl, rfl⟩, nofun, .nil, nofun⟩

/-- What a run of liballoc has kept, after `n` calls. -/
structure RunInv (Owns : σ → List PageArea → Prop) (view : σ → Memory) (flag : Bool) (n : Nat)
    (s : Liballoc σ) (majors : List Major) (objects : List Object) : Prop where
  backs : Backs Owns view s majors objects
  count : (minorsOf majors).length ≤ n
  flag : s.interruptFlag = flag

theorem RunInv.enough {n : Nat} (inv : RunInv Owns view flag n s majors objects)
    (enough : 3 * n + 3 ≤ fuel) : 3 * (minorsOf majors).length + 3 ≤ fuel := by
  have count := inv.count
  omega

/-- A call that returns leaves the objects that its caller expects. -/
theorem RunInv.step (law : K.Lawful Owns view) {n : Nat}
    (inv : RunInv Owns view flag n s majors objects) (enough : 3 * n + 3 ≤ fuel)
    (allowed : Allowed objects call) (small : SmallCall call)
    (returned : s.call K fuel call = .ok (q, s')) :
    ∃ majors', RunInv Owns view flag (n + 1) s' majors' (after objects q call) := by
  have ends := call_backs law inv.backs allowed small (inv.enough enough)
  rw [returned] at ends
  cases ends with
  | @returns _ _ majors' backs count same =>
    exact ⟨majors', backs, count.trans (Nat.succ_le_succ inv.count), same.trans inv.flag⟩

theorem run_inv (law : K.Lawful Owns view) (owns : Owns h [])
    {history : List (Call × BitVec 32)} {t : Liballoc σ × List Object}
    (run : Run.From (CallerStep K fuel) (Liballoc.initial h flag, []) history t)
    (enough : 3 * history.length + 3 ≤ fuel) :
    ∃ majors, RunInv Owns view flag history.length t.1 majors t.2 := by
  have kept : 3 * history.length + 3 ≤ fuel →
      ∃ majors, RunInv Owns view flag history.length t.1 majors t.2 := by
    refine run.invariant (fun history t => 3 * history.length + 3 ≤ fuel →
      ∃ majors, RunInv Owns view flag history.length t.1 majors t.2) ?_ ?_
    · intro _
      exact ⟨[], initial_backs owns, Nat.le_refl 0, rfl⟩
    · intro before s e s' _ inv step enough
      rw [List.length_append, List.length_singleton] at enough ⊢
      obtain ⟨majors, inv⟩ := inv (by omega)
      cases step with
      | call allowed small returned => exact inv.step law (by omega) allowed small returned
  exact kept enough

/-- The objects are those of the history. -/
theorem run_objects {history : List (Call × BitVec 32)} {t : Liballoc σ × List Object}
    (run : Run.From (CallerStep K fuel) (Liballoc.initial h flag, []) history t) :
    t.2 = objectsOf history := by
  refine run.invariant (fun history t => t.2 = objectsOf history) rfl ?_
  intro before s e s' _ same step
  cases step with
  | call allowed small returned =>
    simp only [objectsOf, List.foldl_append, List.foldl_cons, List.foldl_nil]
    exact congrArg (fun objects => after objects _ _) same

/-- The next call returns, unless no block has a gap and the host has no pages. -/
theorem RunInv.progress (law : K.Lawful Owns view) {n : Nat}
    (inv : RunInv Owns view flag n s majors objects) (enough : 3 * n + 3 ≤ fuel)
    (allowed : Allowed objects call) (small : SmallCall call) :
    (∃ q s', s.call K fuel call = .ok (q, s')) ∨
      ∃ e, (∀ M ∈ majors, M.gap (BitVec.ofNat 32 call.size + 32) = none) ∧
        K.liballocAlloc s.host (pagesFor (BitVec.ofNat 32 call.size + 32)) = .error e ∧
        s.call K fuel call = .error e := by
  have ends := call_backs law inv.backs allowed small (inv.enough enough)
  generalize s.call K fuel call = result at *
  cases ends with
  | returns => exact .inl ⟨_, _, rfl⟩
  | stops full stopped => exact .inr ⟨_, full, stopped, rfl⟩

/-- Without objects there are no blocks. -/
theorem Backs.empty (backs : Backs Owns view s majors []) : majors = [] := by
  have none : minorsOf majors = [] := by
    have length := backs.shapes.length_eq
    simp only [List.map_nil, List.length_nil, List.length_map] at length
    exact List.eq_nil_of_length_eq_zero length.symm
  rw [List.eq_nil_iff_forall_not_mem]
  intro M member
  apply backs.used M member
  rw [List.eq_nil_iff_forall_not_mem]
  intro c here
  have listed := mem_minorsOf.mpr ⟨M, member, here⟩
  rw [none] at listed
  cases listed

theorem Backs.imp {Owns' : σ → List PageArea → Prop} (backs : Backs Owns view s majors objects)
    (owns : Owns' s.host (majors.map Major.area)) : Backs Owns' view s majors objects :=
  ⟨⟨owns, backs.layout.sound, backs.layout.root, backs.layout.linked, backs.layout.bestBet,
    backs.layout.allocated, backs.layout.inuse⟩, backs.used, backs.shapes, backs.holds⟩

/-! ### Where `kmalloc` finds memory -/

theorem sum_middle (f : Major → Nat) (pre post : List Major) (M : Major) :
    ((pre ++ M :: post).map f).sum = ((pre ++ post).map f).sum + f M := by
  simp only [List.map_append, List.map_cons, List.sum_append, List.sum_cons]
  omega

/-- A minor goes into the first gap of a block, and only when no block has one into a new block. -/
theorem malloc_places (law : K.Growing Owns view) (backs : Backs Owns view s majors objects)
    {size : BitVec 32} (small : size.toNat + 80 < 2 ^ 32)
    (enough : 3 * (minorsOf majors).length + 3 ≤ fuel)
    (returned : s.malloc K fuel size = .ok (q, s')) :
    (∃ M ∈ majors, ∃ xs ys, M.gap (size + 32) = some (xs, ys) ∧
        q = (M.newMinor xs (size + 32) size).ptr ∧ s'.allocated = s.allocated) ∨
      (∀ M ∈ majors, M.gap (size + 32) = none) ∧ s'.allocated =
        s.allocated + BitVec.ofNat 64 (4096 * (pagesFor (size + 32)).toNat) := by
  obtain ⟨rounds, short⟩ := backs.enough (Nat.le_refl _)
  have ends := malloc_spec law backs.layout backs.used small short (rounds.trans enough)
  rw [returned] at ends
  have total := backs.layout.allocated
  cases ends with
  | found chosen done =>
    have total' := done.layout.allocated
    cases chosen with
    | @fit pre post M xs ys split gap =>
      subst split
      refine .inl ⟨M, by simp, xs, ys, gap, rfl, ?_⟩
      rw [total', total, sum_middle, sum_middle]
    | grow full pages =>
      refine .inr ⟨full, ?_⟩
      rw [total', total, List.map_append, List.sum_append, BitVec.ofNat_add]
      rfl

/-! ### The first call -/

/-- The first `kmalloc` asks for one block, and its object is in the pages of it. -/
theorem initial_malloc (law : K.Growing Owns view) (owns : Owns h []) {size : BitVec 32}
    (small : size.toNat + 80 < 2 ^ 32) (enough : 3 ≤ fuel) :
    (∃ q s' start, (Liballoc.initial h flag).malloc K fuel size = .ok (q, s') ∧
      (∃ r, K.liballocAlloc h (pagesFor (size + 32)) = .ok r) ∧
      Owns s'.host [⟨start, pagesFor (size + 32)⟩] ∧
      Span q size.toNat ⊆ PageArea.range ⟨start, pagesFor (size + 32)⟩) ∨
    ∃ e, (Liballoc.initial h flag).malloc K fuel size = .error e ∧
      K.liballocAlloc h (pagesFor (size + 32)) = .error e := by
  have layout : Layout Owns view (Liballoc.initial h flag) [] := (initial_backs owns).layout
  have short : ∀ N ∈ ([] : List Major), N.minors.length + 1 ≤ 1 := nofun
  have ends := malloc_spec law layout nofun small short enough
  generalize (Liballoc.initial h flag).malloc K fuel size = result at *
  cases ends with
  | found chosen done =>
    cases chosen with
    | fit split gap => simp at split
    | grow full pages =>
      have sound := done.layout.sound _ List.mem_cons_self
      exact .inl ⟨_, _, _, rfl, ⟨_, pages⟩, done.layout.owns,
        (sound.data_subset List.mem_cons_self).trans sound.payload_subset⟩
  | stop full stopped => exact .inr ⟨_, rfl, stopped⟩

theorem initial_calloc (law : K.Growing Owns view) (owns : Owns h []) {nobj size : BitVec 32}
    (small : nobj.toNat * size.toNat + 80 < 2 ^ 32) (enough : 3 ≤ fuel) :
    (∃ q s' start, (Liballoc.initial h flag).calloc K fuel nobj size = .ok (q, s') ∧
      (∃ r, K.liballocAlloc h (pagesFor (nobj * size + 32)) = .ok r) ∧
      Owns s'.host [⟨start, pagesFor (nobj * size + 32)⟩]) ∨
    ∃ e, (Liballoc.initial h flag).calloc K fuel nobj size = .error e ∧
      K.liballocAlloc h (pagesFor (nobj * size + 32)) = .error e := by
  have product : (nobj * size).toNat = nobj.toNat * size.toNat := by
    rw [BitVec.toNat_mul, Nat.mod_eq_of_lt (by omega)]
  rw [← product] at small
  rcases initial_malloc law owns small enough with
    ⟨q, s₁, start, returned, pages, owns₁, inside⟩ | ⟨e, stopped, refused⟩
  · obtain ⟨h₂, cleared, owns₂, -⟩ := memset_spec law owns₁ List.mem_cons_self inside (by omega) 0
    refine .inl ⟨q, s₁.withHost h₂, start, ?_, pages, owns₂⟩
    exact bind_ok_iff.mpr ⟨_, returned, bind_ok_iff.mpr ⟨_, cleared, rfl⟩⟩
  · exact .inr ⟨e, bind_error_iff.mpr (.inl stopped), refused⟩

/-! ### `kfree` of what has been freed -/

variable {M : Major} {c : Minor} {pre post : List Major} {xs ys : List Minor}

/-- What `kfree` counts for a header that it has marked as dead. -/
theorem badMagic_dead (s : Liballoc σ) :
    s.badMagic liballocDead = { s with errorCount := s.errorCount + 1 } := by
  unfold badMagic
  rw [if_neg (by decide)]

/-- A header that is dead is counted as an error, and nothing else changes. -/
theorem free_dead (law : K.Growing Owns view) {areas : List PageArea} {a : PageArea}
    (owns : Owns s.host areas) (member : a ∈ areas) (some : c.ptr ≠ 0)
    (pointer : s.unalign K c.ptr = .ok (c.addr + 24))
    (inside : Span (field c.addr 3) 4 ⊆ a.range)
    (dead : load32 (view s.host) (field c.addr 3) = liballocDead)
    (same : s.enableInt = s.interruptFlag) :
    s.free K c.ptr = .ok { s with errorCount := s.errorCount + 1 } := by
  have magic := law.load32 (s := s.locked) owns member inside
  have header : c.addr + 24 - 24 = c.addr := by bv_omega
  have host : s.locked.host = s.host := rfl
  rw [host, dead] at magic
  unfold Liballoc.free
  rw [if_neg some, pointer, ok_bind, lock_eq, ok_bind, header]
  refine (bind_of_ok magic _).trans ?_
  have off : { s.locked with errorCount := s.errorCount + 1 }.interruptFlag = false := rfl
  rw [if_pos (by decide), badMagic_dead]
  refine (unlock_locked off).trans ?_
  show Except.ok { s with
    errorCount := s.errorCount + 1, interruptFlag := s.interruptFlag
    enableInt := s.interruptFlag } = _
  rw [← same]

/-- The second `kfree` finds a dead header, or the pages are gone. -/
theorem free_again (law : K.Lawful Owns view) (layout : Layout Owns view s (pre ++ M :: post))
    (split : M.minors = xs ++ c :: ys) : ∃ s', s.free K c.ptr = .ok s' ∧
      (s'.allocated = s.allocated ∧
          s'.free K c.ptr = .ok { s' with errorCount := s'.errorCount + 1 } ∨
        s'.allocated + BitVec.ofNat 64 (4096 * M.pages.toNat) = s.allocated ∧
          s'.free K c.ptr = .error (.pageFault (c.ptr - 16)) ∧
          ∀ x ∈ M.area.range, K.load8 s'.host x = .error (.pageFault x)) := by
  have sound := layout.sound M (by simp)
  have member : c ∈ M.minors := by simp [split]
  obtain ⟨-, low, high, byte⟩ := sound.ptr_bounds member
  obtain ⟨above, below, limit, room⟩ := sound.bounds member
  have some : c.ptr ≠ 0 := by
    apply ne_zero_of_pos
    omega
  have info : c.ptr - 16 ∈ M.payload := ⟨c, member, by omega, by omega⟩
  have ends := free_spec law layout split
  have before := layout.unalign law.toGrowing member
  have total := layout.allocated
  rw [sum_middle] at total
  generalize s.free K c.ptr = result at *
  cases ends with
  | @stays s' others done kept dead =>
    have area : M.area ∈ (pre ++ { M with minors := xs ++ ys } :: post).map Major.area := by
      simp [Major.area]
    have same : s'.enableInt = s'.interruptFlag := done.quiet.enableInt.trans done.unlocked.symm
    have pointer : s'.unalign K c.ptr = .ok (c.addr + 24) := by
      rw [← before]
      unfold Liballoc.unalign
      rw [law.load done.layout.owns area (sound.payload_subset info),
        law.load layout.owns (List.mem_map.mpr ⟨M, by simp, rfl⟩) (sound.payload_subset info),
        kept M (by simp) _ info]
    refine ⟨s', rfl, .inl ⟨?_, free_dead law.toGrowing done.layout.owns area some pointer ?_ dead same⟩⟩
    · rw [done.layout.allocated, sum_middle, total]
    · intro x inside
      have place : c.addr.toNat ≤ x.toNat ∧ x.toNat < c.addr.toNat + 24 :=
        (mem_span_iff (n := 24) (by unfold Minor.stop at below; omega)).mp
          (span_field (by decide : 3 < 6) inside)
      refine sound.area.mem_range.mpr ⟨?_, ?_⟩
      · show M.base.toNat ≤ _
        omega
      · show _ < M.high
        omega
  | @released s' last done kept gone =>
    refine ⟨s', rfl, .inr ⟨?_, ?_, gone⟩⟩
    · rw [done.layout.allocated, total, BitVec.ofNat_add]
    · unfold Liballoc.free Liballoc.unalign
      rw [if_neg some, gone _ (sound.payload_subset info)]
      rfl

end Treeos
