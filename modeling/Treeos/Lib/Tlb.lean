import Mathlib.Data.Set.Insert
import Treeos.Lib.PageTable

/-!
# Translation caches

Programs that read and write words through a two-level page table, on a machine that walks the
tables for each access, and on one that caches translations and directory entries. The caches
may be filled with any page of a set at any time, and may forget at any time. A program cannot
tell the two apart while it stays away from the pages whose translation it changes.
-/
namespace Tlb

open PageTable

/-- How addresses are translated, and how an access to an unmapped page ends. -/
structure Mmu (A F I E ε : Type) where
  fmt : Format F E
  page : A → I × I
  word : A → I
  fault : A → ε

/-- Programs with variables of their own, which are not in the translated memory. -/
inductive Prog (A E V ε α : Type) where
  | done (a : α)
  | stop (e : ε)
  | load (v : A) (next : E → Prog A E V ε α)
  | store (v : A) (w : E) (next : Prog A E V ε α)
  | flush (v : A) (next : Prog A E V ε α)
  | read (next : V → Prog A E V ε α)
  | assign (x : V) (next : Prog A E V ε α)

structure State (F I E V : Type) where
  mem : Mem F I E
  dir : F
  vars : V

/-- Entries of tables and entries of the directory that the machine has kept. -/
structure Caches (I E : Type) where
  pages : I × I → Option E
  dirs : I → Option E

variable {A F I E V ε α β : Type}

namespace Prog

def bind (p : Prog A E V ε α) (next : α → Prog A E V ε β) : Prog A E V ε β :=
  match p with
  | .done a => next a
  | .stop e => .stop e
  | .load v rest => .load v fun e => (rest e).bind next
  | .store v w rest => .store v w (rest.bind next)
  | .flush v rest => .flush v (rest.bind next)
  | .read rest => .read fun x => (rest x).bind next
  | .assign x rest => .assign x (rest.bind next)

instance : Monad (Prog A E V ε) where
  pure := .done
  bind := bind

@[simp] theorem done_bind (a : α) (next : α → Prog A E V ε β) : .done a >>= next = next a := rfl

/-- A program that never forgets what is cached about a page. -/
def Leaves (u : Mmu A F I E ε) (page : I × I) : Prog A E V ε α → Prop
  | .done _ => True
  | .stop _ => True
  | .load _ next => ∀ e, (next e).Leaves u page
  | .store _ _ next => next.Leaves u page
  | .flush v next => u.page v ≠ page ∧ next.Leaves u page
  | .read next => ∀ x, (next x).Leaves u page
  | .assign _ next => next.Leaves u page

theorem Leaves.bind {u : Mmu A F I E ε} {page : I × I} {p : Prog A E V ε α}
    {next : α → Prog A E V ε β} (first : p.Leaves u page) (rest : ∀ a, (next a).Leaves u page) :
    (p >>= next).Leaves u page := by
  change (p.bind next).Leaves u page
  induction p with
  | done a => exact rest a
  | stop e => trivial
  | load v p ih => exact fun e => ih e (first e)
  | store v w p ih => exact ih first
  | flush v p ih => exact ⟨first.1, ih first.2⟩
  | read p ih => exact fun x => ih x (first x)
  | assign x p ih => exact ih first

end Prog

namespace State

/-- The entry that a page is translated with. -/
def lookup (u : Mmu A F I E ε) (s : State F I E V) (page : I × I) : Option E :=
  PageTable.lookup u.fmt s.mem s.dir page

def setMem (s : State F I E V) (mem : Mem F I E) : State F I E V := { s with mem := mem }

def setVars (s : State F I E V) (x : V) : State F I E V := { s with vars := x }

end State

/-! ### The machine without caches -/

section
variable [DecidableEq F] [DecidableEq I]

/-- Every access walks the tables. -/
def Prog.run (u : Mmu A F I E ε) : Prog A E V ε α → State F I E V → Except ε (α × State F I E V)
  | .done a, s => .ok (a, s)
  | .stop e, _ => .error e
  | .load v next, s =>
    match s.lookup u (u.page v) with
    | some e => (next (s.mem (u.fmt.frame e) (u.word v))).run u s
    | none => .error (u.fault v)
  | .store v w next, s =>
    match s.lookup u (u.page v) with
    | some e => next.run u (s.setMem (write s.mem (u.fmt.frame e) (u.word v) w))
    | none => .error (u.fault v)
  | .flush _ next, s => next.run u s
  | .read next, s => (next s.vars).run u s
  | .assign x next, s => next.run u (s.setVars x)

theorem Prog.run_bind (u : Mmu A F I E ε) (p : Prog A E V ε α) (next : α → Prog A E V ε β)
    (s : State F I E V) :
    (p >>= next).run u s = p.run u s >>= fun r => (next r.1).run u r.2 := by
  change (p.bind next).run u s = _
  induction p generalizing s with
  | done a => rfl
  | stop e => rfl
  | load v rest ih =>
    simp only [Prog.bind, Prog.run]
    split
    · exact ih _ s
    · rfl
  | store v w rest ih =>
    simp only [Prog.bind, Prog.run]
    split
    · exact ih _
    · rfl
  | flush v rest ih => exact ih s
  | read rest ih => exact ih _ s
  | assign x rest ih => exact ih _

end

/-! ### The machine with caches -/

/-- What the machine may translate a page with. -/
inductive Access (u : Mmu A F I E ε) (s : State F I E V) (c : Caches I E) (page : I × I) :
    Option E → Prop
  -- a kept translation is used without a look at the tables
  | hit {e : E} (cached : c.pages page = some e) : Access u s c page (some e)
  -- a kept directory entry names the table, whose entry is read anew
  | table {d : E} (cached : c.dirs page.1 = some d) : Access u s c page
      (if u.fmt.present (s.mem (u.fmt.frame d) page.2)
        then some (s.mem (u.fmt.frame d) page.2) else none)
  | walk : Access u s c page (s.lookup u page)

/-- Caches that have forgotten something, and have kept something about the pages `fills`. -/
structure Refill (u : Mmu A F I E ε) (s : State F I E V) (fills : Set (I × I))
    (c c' : Caches I E) : Prop where
  pages : ∀ page e, c'.pages page = some e →
    c.pages page = some e ∨ page ∈ fills ∧ Access u s c page (some e)
  dirs : ∀ i e, c'.dirs i = some e →
    c.dirs i = some e ∨ (∃ j, (i, j) ∈ fills) ∧ s.mem s.dir i = e ∧ u.fmt.present e = true

section
variable [DecidableEq I]

/-- The translation of one page is forgotten, and all directory entries. -/
def Caches.flush (c : Caches I E) (page : I × I) : Caches I E where
  pages := fun other => if other = page then none else c.pages other
  dirs := fun _ => none

/-- The translation of one page is kept. -/
def Caches.keep (c : Caches I E) (page : I × I) (e : E) : Caches I E where
  pages := fun other => if other = page then some e else c.pages other
  dirs := c.dirs

variable [DecidableEq F]

/-- Runs in which the machine may keep what a program accesses, and at any time the pages of
`fills`. -/
inductive Runs (u : Mmu A F I E ε) (fills : Set (I × I)) :
    Prog A E V ε α → State F I E V → Caches I E → Except ε (α × State F I E V × Caches I E) → Prop
  | done {a : α} {s : State F I E V} {c c' : Caches I E} (refill : Refill u s fills c c') :
      Runs u fills (.done a) s c (.ok (a, s, c'))
  | stop {e : ε} {s : State F I E V} {c : Caches I E} : Runs u fills (.stop e) s c (.error e)
  | load {v : A} {next : E → Prog A E V ε α} {s : State F I E V} {c c' : Caches I E} {e : E}
      {r : Except ε (α × State F I E V × Caches I E)}
      (access : Access u s c (u.page v) (some e))
      (refill : Refill u s (insert (u.page v) fills) c c')
      (rest : Runs u fills (next (s.mem (u.fmt.frame e) (u.word v))) s c' r) :
      Runs u fills (.load v next) s c r
  | loadFault {v : A} {next : E → Prog A E V ε α} {s : State F I E V} {c : Caches I E}
      (access : Access u s c (u.page v) none) :
      Runs u fills (.load v next) s c (.error (u.fault v))
  | store {v : A} {w : E} {next : Prog A E V ε α} {s s' : State F I E V} {c c' c'' : Caches I E}
      {e : E} {r : Except ε (α × State F I E V × Caches I E)}
      (access : Access u s c (u.page v) (some e))
      (refill : Refill u s (insert (u.page v) fills) c c')
      (stored : s' = s.setMem (write s.mem (u.fmt.frame e) (u.word v) w))
      (later : Refill u s' fills c' c'') (rest : Runs u fills next s' c'' r) :
      Runs u fills (.store v w next) s c r
  | storeFault {v : A} {w : E} {next : Prog A E V ε α} {s : State F I E V} {c : Caches I E}
      (access : Access u s c (u.page v) none) :
      Runs u fills (.store v w next) s c (.error (u.fault v))
  | flush {v : A} {next : Prog A E V ε α} {s : State F I E V} {c c' : Caches I E}
      {r : Except ε (α × State F I E V × Caches I E)}
      (refill : Refill u s fills (c.flush (u.page v)) c') (rest : Runs u fills next s c' r) :
      Runs u fills (.flush v next) s c r
  | read {next : V → Prog A E V ε α} {s : State F I E V} {c : Caches I E}
      {r : Except ε (α × State F I E V × Caches I E)} (rest : Runs u fills (next s.vars) s c r) :
      Runs u fills (.read next) s c r
  | assign {x : V} {next : Prog A E V ε α} {s : State F I E V} {c : Caches I E}
      {r : Except ε (α × State F I E V × Caches I E)}
      (rest : Runs u fills next (s.setVars x) c r) : Runs u fills (.assign x next) s c r

end

variable {u : Mmu A F I E ε} {s s' : State F I E V} {c c' : Caches I E}
variable {fills stale away more : Set (I × I)} {page : I × I} {v : A}

theorem Refill.refl (c : Caches I E) : Refill u s fills c c := by
  constructor
  · intro page e cached
    exact .inl cached
  · intro i e cached
    exact .inl cached

/-! ### Coherence -/

/-- Away from the pages `stale` the caches say what the tables say. -/
structure CoherentOff (u : Mmu A F I E ε) (stale : Set (I × I)) (s : State F I E V)
    (c : Caches I E) : Prop where
  pages : ∀ page ∉ stale, ∀ e, c.pages page = some e → s.lookup u page = some e
  dirs : ∀ i j, (i, j) ∉ stale → ∀ e, c.dirs i = some e →
    s.mem s.dir i = e ∧ u.fmt.present e = true

/-- The caches say what the tables say. -/
def Coherent (u : Mmu A F I E ε) (s : State F I E V) (c : Caches I E) : Prop :=
  CoherentOff u ∅ s c

/-- Nothing is cached about the pages `away`. -/
structure Avoids (away : Set (I × I)) (c : Caches I E) : Prop where
  pages : ∀ page ∈ away, c.pages page = none
  dirs : ∀ i, (∀ j, (i, j) ∈ away) → c.dirs i = none

/-- Only pages of `stale` are translated otherwise. -/
structure Keeps (u : Mmu A F I E ε) (stale : Set (I × I)) (s s' : State F I E V) : Prop where
  pages : ∀ page ∉ stale, s'.lookup u page = s.lookup u page
  dirs : ∀ i j, (i, j) ∉ stale → s'.mem s'.dir i = s.mem s.dir i

theorem Keeps.refl (s : State F I E V) : Keeps u stale s s := by
  constructor
  · intro page other
    rfl
  · intro i j other
    rfl

theorem Keeps.symm (keeps : Keeps u stale s s') : Keeps u stale s' s := by
  constructor
  · intro page other
    exact (keeps.pages page other).symm
  · intro i j other
    exact (keeps.dirs i j other).symm

theorem Keeps.trans {s'' : State F I E V} (first : Keeps u stale s s')
    (second : Keeps u stale s' s'') : Keeps u stale s s'' := by
  constructor
  · intro page other
    rw [second.pages page other, first.pages page other]
  · intro i j other
    rw [second.dirs i j other, first.dirs i j other]

theorem coherent_empty : Coherent u s (⟨fun _ => none, fun _ => none⟩ : Caches I E) := by
  constructor
  · intro page _ e cached
    cases cached
  · intro i j _ e cached
    cases cached

theorem CoherentOff.mono (coherent : CoherentOff u stale s c) (wider : stale ⊆ more) :
    CoherentOff u more s c := by
  constructor
  · intro page other
    exact coherent.pages page fun member => other (wider member)
  · intro i j other
    exact coherent.dirs i j fun member => other (wider member)

theorem CoherentOff.keeps (coherent : CoherentOff u stale s c) (keeps : Keeps u stale s s') :
    CoherentOff u stale s' c := by
  constructor
  · intro page other e cached
    rw [keeps.pages page other]
    exact coherent.pages page other e cached
  · intro i j other e cached
    rw [keeps.dirs i j other]
    exact coherent.dirs i j other e cached

/-- A page that is not stale is translated as by a walk. -/
theorem CoherentOff.access (coherent : CoherentOff u stale s c) (other : page ∉ stale)
    {r : Option E} (access : Access u s c page r) : r = s.lookup u page := by
  cases access with
  | @hit e cached => exact (coherent.pages page other e cached).symm
  | @table d cached =>
    obtain ⟨same, present⟩ := coherent.dirs page.1 page.2 other d cached
    have uses : Uses u.fmt s.mem s.dir page.1 (u.fmt.frame d) := by
      unfold Uses
      rw [same]
      exact ⟨present, rfl⟩
    exact (lookup_of_uses uses).symm
  | walk => rfl

theorem CoherentOff.refill (coherent : CoherentOff u stale s c) (refill : Refill u s fills c c') :
    CoherentOff u stale s c' := by
  constructor
  · intro page other e cached
    rcases refill.pages page e cached with old | ⟨-, access⟩
    · exact coherent.pages page other e old
    · exact (coherent.access other access).symm
  · intro i j other e cached
    rcases refill.dirs i e cached with old | ⟨-, new⟩
    · exact coherent.dirs i j other e old
    · exact new

theorem Avoids.refill (avoids : Avoids away c) (refill : Refill u s fills c c')
    (apart : ∀ page ∈ fills, page ∉ away) : Avoids away c' := by
  constructor
  · intro page member
    by_contra some
    obtain ⟨e, cached⟩ := Option.ne_none_iff_exists'.mp some
    rcases refill.pages page e cached with old | ⟨filled, -⟩
    · rw [avoids.pages page member] at old
      cases old
    · exact apart page filled member
  · intro i all
    by_contra some
    obtain ⟨e, cached⟩ := Option.ne_none_iff_exists'.mp some
    rcases refill.dirs i e cached with old | ⟨⟨j, filled⟩, -⟩
    · rw [avoids.dirs i all] at old
      cases old
    · exact apart (i, j) filled (all j)

theorem Avoids.access (avoids : Avoids away c) (refill : Refill u s (insert page fills) c c')
    (apart : ∀ page ∈ fills, page ∉ away) (other : page ∉ away) : Avoids away c' := by
  refine avoids.refill refill ?_
  intro p member
  rcases Set.mem_insert_iff.mp member with rfl | old
  · exact other
  · exact apart p old

section
variable [DecidableEq I]

theorem refill_keep {e : E} (filled : page ∈ fills) (access : Access u s c page (some e)) :
    Refill u s fills c (c.keep page e) := by
  constructor
  · intro other d cached
    unfold Caches.keep at cached
    dsimp only at cached
    split at cached
    next same =>
      cases cached
      subst same
      exact .inr ⟨filled, access⟩
    next => exact .inl cached
  · intro i d cached
    exact .inl cached

/-- A flush of one of the stale pages leaves the others. -/
theorem CoherentOff.flush (coherent : CoherentOff u (insert page stale) s c) :
    CoherentOff u stale s (c.flush page) := by
  constructor
  · intro p other e cached
    unfold Caches.flush at cached
    dsimp only at cached
    split at cached
    next => cases cached
    next different =>
      refine coherent.pages p ?_ e cached
      rw [Set.mem_insert_iff]
      rintro (same | member)
      · exact different same
      · exact other member
  · intro i j other e cached
    cases cached

theorem Avoids.flush (avoids : Avoids away c) : Avoids away (c.flush page) := by
  constructor
  · intro p member
    unfold Caches.flush
    dsimp only
    split
    · rfl
    · exact avoids.pages p member
  · intro i all
    rfl

end

/-! ### Programs that cannot see the caches -/

section
variable [DecidableEq F] [DecidableEq I]

/-- The two machines end alike, with caches that are coherent again. -/
def Agrees (u : Mmu A F I E ε) (stale away : Set (I × I)) :
    Except ε (α × State F I E V) → Except ε (α × State F I E V × Caches I E) → Prop
  | .ok (a, s), .ok (a', s', c) => a' = a ∧ s' = s ∧ CoherentOff u stale s c ∧ Avoids away c
  | .error e, .error e' => e' = e
  | _, _ => False

/-- From caches that are coherent away from `stale` and keep nothing about `away`, every run
ends as that of the machine without caches. -/
def Hidden (u : Mmu A F I E ε) (fills stale away : Set (I × I)) (p : Prog A E V ε α)
    (s : State F I E V) : Prop :=
  ∀ c r, CoherentOff u stale s c → Avoids away c → Runs u fills p s c r →
    Agrees u stale away (p.run u s) r

variable {p : Prog A E V ε α} {next : α → Prog A E V ε β}

theorem hidden_done (apart : ∀ page ∈ fills, page ∉ away) (a : α) :
    Hidden u fills stale away (.done a : Prog A E V ε α) s := by
  intro c r coherent avoids runs
  cases runs with
  | done refill => exact ⟨rfl, rfl, coherent.refill refill, avoids.refill refill apart⟩

theorem hidden_stop (e : ε) : Hidden u fills stale away (.stop e : Prog A E V ε α) s := by
  intro c r coherent avoids runs
  cases runs with
  | stop => rfl

theorem hidden_load (apart : ∀ page ∈ fills, page ∉ away) (other : u.page v ∉ stale)
    (clear : u.page v ∉ away) {next : E → Prog A E V ε α}
    (rest : ∀ e, s.lookup u (u.page v) = some e →
      Hidden u fills stale away (next (s.mem (u.fmt.frame e) (u.word v))) s) :
    Hidden u fills stale away (.load v next) s := by
  intro c r coherent avoids runs
  cases runs with
  | @load _ _ _ _ c' e _ access refill runs =>
    have found := (coherent.access other access).symm
    unfold Prog.run
    rw [found]
    exact rest e found _ r (coherent.refill refill) (avoids.access refill apart clear) runs
  | loadFault access =>
    have absent := (coherent.access other access).symm
    unfold Prog.run
    rw [absent]
    rfl

theorem hidden_store (apart : ∀ page ∈ fills, page ∉ away) (other : u.page v ∉ stale)
    (clear : u.page v ∉ away) {w : E} {next : Prog A E V ε α}
    (rest : ∀ e, s.lookup u (u.page v) = some e →
      Keeps u stale s (s.setMem (write s.mem (u.fmt.frame e) (u.word v) w)) ∧
      Hidden u fills stale away next
        (s.setMem (write s.mem (u.fmt.frame e) (u.word v) w))) :
    Hidden u fills stale away (.store v w next) s := by
  intro c r coherent avoids runs
  cases runs with
  | @store _ _ _ _ s' _ c' c'' e _ access refill stored later runs =>
    have found := (coherent.access other access).symm
    obtain ⟨keeps, rest⟩ := rest e found
    subst stored
    unfold Prog.run
    rw [found]
    have before := (coherent.refill refill).keeps keeps
    have clean := avoids.access refill apart clear
    exact rest _ r (before.refill later) (clean.refill later apart) runs
  | storeFault access =>
    have absent := (coherent.access other access).symm
    unfold Prog.run
    rw [absent]
    rfl

theorem hidden_read {next : V → Prog A E V ε α} (rest : Hidden u fills stale away (next s.vars) s) :
    Hidden u fills stale away (.read next) s := by
  intro c r coherent avoids runs
  cases runs with
  | read runs => exact rest c r coherent avoids runs

theorem hidden_assign {x : V} {next : Prog A E V ε α}
    (rest : Hidden u fills stale away next (s.setVars x)) :
    Hidden u fills stale away (.assign x next) s := by
  intro c r coherent avoids runs
  cases runs with
  | assign runs => exact rest c r ⟨coherent.pages, coherent.dirs⟩ avoids runs

/-- A run of a sequence is a run of its first part and one of the rest. -/
theorem Runs.of_bind {r : Except ε (β × State F I E V × Caches I E)}
    (runs : Runs u fills (p >>= next) s c r) :
    (∃ e, r = .error e ∧ Runs u fills p s c (.error e)) ∨
    ∃ a s' c', Runs u fills p s c (.ok (a, s', c')) ∧ Runs u fills (next a) s' c' r := by
  change Runs u fills (p.bind next) s c r at runs
  induction p generalizing s c with
  | done a => exact .inr ⟨a, s, c, .done (.refl c), runs⟩
  | stop e =>
    cases runs with
    | stop => exact .inl ⟨e, rfl, .stop⟩
  | load v rest ih =>
    cases runs with
    | load access refill runs =>
      rcases ih _ runs with ⟨e, same, runs⟩ | ⟨a, s', c', first, second⟩
      · exact .inl ⟨e, same, .load access refill runs⟩
      · exact .inr ⟨a, s', c', .load access refill first, second⟩
    | loadFault access => exact .inl ⟨_, rfl, .loadFault access⟩
  | store v w rest ih =>
    cases runs with
    | store access refill stored later runs =>
      rcases ih runs with ⟨e, same, runs⟩ | ⟨a, s', c', first, second⟩
      · exact .inl ⟨e, same, .store access refill stored later runs⟩
      · exact .inr ⟨a, s', c', .store access refill stored later first, second⟩
    | storeFault access => exact .inl ⟨_, rfl, .storeFault access⟩
  | flush v rest ih =>
    cases runs with
    | flush refill runs =>
      rcases ih runs with ⟨e, same, runs⟩ | ⟨a, s', c', first, second⟩
      · exact .inl ⟨e, same, .flush refill runs⟩
      · exact .inr ⟨a, s', c', .flush refill first, second⟩
  | read rest ih =>
    cases runs with
    | read runs =>
      rcases ih _ runs with ⟨e, same, runs⟩ | ⟨a, s', c', first, second⟩
      · exact .inl ⟨e, same, .read runs⟩
      · exact .inr ⟨a, s', c', .read first, second⟩
  | assign x rest ih =>
    cases runs with
    | assign runs =>
      rcases ih runs with ⟨e, same, runs⟩ | ⟨a, s', c', first, second⟩
      · exact .inl ⟨e, same, .assign runs⟩
      · exact .inr ⟨a, s', c', .assign first, second⟩

theorem Hidden.bind (first : Hidden u fills stale away p s)
    (rest : ∀ a s', p.run u s = .ok (a, s') → Hidden u fills stale away (next a) s') :
    Hidden u fills stale away (p >>= next) s := by
  intro c r coherent avoids runs
  rw [Prog.run_bind]
  rcases runs.of_bind with ⟨e, rfl, inner⟩ | ⟨a, s', c', inner, later⟩
  · have agrees := first c _ coherent avoids inner
    generalize p.run u s = result at agrees
    cases result with
    | error e' => exact agrees
    | ok ended => exact agrees.elim
  · have agrees := first c _ coherent avoids inner
    generalize same : p.run u s = result at agrees
    cases result with
    | error e' => exact agrees.elim
    | ok ended =>
      obtain ⟨a', s''⟩ := ended
      obtain ⟨rfl, rfl, coherent', avoids'⟩ := agrees
      exact rest _ _ same c' r coherent' avoids' later

/-- The two ways in which a run of a hidden program ends. -/
theorem Hidden.ends [Nonempty I] (hidden : Hidden u fills stale ∅ p s)
    (coherent : CoherentOff u stale s c) {r : Except ε (α × State F I E V × Caches I E)}
    (runs : Runs u fills p s c r) :
    (∃ a s' c', p.run u s = .ok (a, s') ∧ r = .ok (a, s', c') ∧ CoherentOff u stale s' c') ∨
    ∃ e, p.run u s = .error e ∧ r = .error e := by
  have avoids : Avoids ∅ c := by
    constructor
    · intro page member
      exact member.elim
    · intro i all
      exact (all (Classical.arbitrary I)).elim
  have agrees := hidden c r coherent avoids runs
  generalize p.run u s = result at agrees
  match result, r with
  | .ok (a, s'), .ok (a', s'', c') =>
    obtain ⟨rfl, rfl, kept, -⟩ := agrees
    exact .inl ⟨_, _, c', rfl, rfl, kept⟩
  | .error e, .error e' =>
    have same : e' = e := agrees
    exact .inr ⟨e, rfl, congrArg _ same⟩

/-- A page may be stale for as long as it is flushed in the end. -/
theorem Hidden.flushed (apart : ∀ page ∈ fills, page ∉ away)
    (hidden : Hidden u fills (insert (u.page v) stale) away p s) :
    Hidden u fills stale away (p >>= fun a => .flush v (.done a)) s := by
  intro c r coherent avoids runs
  rw [Prog.run_bind]
  have wider := coherent.mono (Set.subset_insert (u.page v) stale)
  rcases runs.of_bind with ⟨e, rfl, inner⟩ | ⟨a, s', c', inner, later⟩
  · have agrees := hidden c _ wider avoids inner
    generalize p.run u s = result at agrees
    cases result with
    | error e' => exact agrees
    | ok ended => exact agrees.elim
  · have agrees := hidden c _ wider avoids inner
    generalize p.run u s = result at agrees
    cases result with
    | error e' => exact agrees.elim
    | ok ended =>
      obtain ⟨a', s''⟩ := ended
      obtain ⟨rfl, rfl, coherent', avoids'⟩ := agrees
      cases later with
      | flush refill later =>
        exact hidden_done apart _ _ _ (coherent'.flush.refill refill)
          (avoids'.flush.refill refill apart) later

/-- Pages that are not mapped at the start may be translated otherwise in the end, if nothing
fills the caches with them in between. -/
theorem Hidden.widen (unmapped : ∀ page ∈ more, s.lookup u page = none)
    (absent : ∀ i, (∀ j, (i, j) ∈ stale ∪ more) →
      (∀ j, (i, j) ∈ stale) ∨ u.fmt.present (s.mem s.dir i) = false)
    (hidden : Hidden u fills (stale ∪ more) (stale ∪ more) p s) :
    Hidden u fills stale stale p s := by
  intro c r coherent avoids runs
  -- coherent caches hold nothing about a page that is not mapped
  have avoids' : Avoids (stale ∪ more) c := by
    constructor
    · intro page member
      by_cases old : page ∈ stale
      · exact avoids.pages page old
      · by_contra some
        obtain ⟨e, cached⟩ := Option.ne_none_iff_exists'.mp some
        have found := coherent.pages page old e cached
        rw [unmapped page (member.resolve_left old)] at found
        cases found
    · intro i all
      rcases absent i all with old | none
      · exact avoids.dirs i old
      · by_cases old : ∀ j, (i, j) ∈ stale
        · exact avoids.dirs i old
        · obtain ⟨j, other⟩ := not_forall.mp old
          by_contra some
          obtain ⟨e, cached⟩ := Option.ne_none_iff_exists'.mp some
          obtain ⟨rfl, present⟩ := coherent.dirs i j other e cached
          rw [none] at present
          cases present
  have agrees := hidden c r (coherent.mono Set.subset_union_left) avoids' runs
  generalize p.run u s = result at agrees
  match result, r with
  | .error e, .error e' => exact agrees
  | .ok (a, s'), .ok (a', s'', c') =>
    obtain ⟨rfl, rfl, coherent', after⟩ := agrees
    refine ⟨rfl, rfl, ⟨?_, ?_⟩, ⟨?_, ?_⟩⟩
    -- and nothing has filled them with one since
    · intro page other e cached
      refine coherent'.pages page (fun member => ?_) e cached
      rw [after.pages page member] at cached
      cases cached
    · intro i j other e cached
      by_cases all : ∀ j, (i, j) ∈ stale ∪ more
      · rw [after.dirs i all] at cached
        cases cached
      · obtain ⟨j', outside⟩ := not_forall.mp all
        exact coherent'.dirs i j' outside e cached
    · intro page member
      exact after.pages page (.inl member)
    · intro i all
      exact after.dirs i fun j => .inl (all j)

/-- What is cached about the page may still be there in the end. -/
theorem Prog.Leaves.runs (leaves : p.Leaves u page) {a : α} (ran : p.run u s = .ok (a, s')) {e : E}
    (cached : c.pages page = some e) :
    ∃ c', Runs u fills p s c (.ok (a, s', c')) ∧ c'.pages page = some e := by
  induction p generalizing s c with
  | done b =>
    cases ran
    exact ⟨c, .done (.refl c), cached⟩
  | stop b => cases ran
  | load v p ih =>
    unfold Prog.run at ran
    split at ran
    next d found =>
      obtain ⟨c', runs, kept⟩ := ih _ (leaves _) ran cached
      exact ⟨c', .load (found ▸ .walk) (.refl c) runs, kept⟩
    next => cases ran
  | store v w p ih =>
    unfold Prog.run at ran
    split at ran
    next d found =>
      obtain ⟨c', runs, kept⟩ := ih leaves ran cached
      exact ⟨c', .store (found ▸ .walk) (.refl c) rfl (.refl c) runs, kept⟩
    next => cases ran
  | flush v p ih =>
    -- a flush forgets one translation, and this is another
    have other : (c.flush (u.page v)).pages page = some e := by
      unfold Caches.flush
      dsimp only
      rw [if_neg (Ne.symm leaves.1), cached]
    obtain ⟨c', runs, kept⟩ := ih leaves.2 ran other
    exact ⟨c', .flush (.refl _) runs, kept⟩
  | read p ih =>
    obtain ⟨c', runs, kept⟩ := ih _ (leaves _) ran cached
    exact ⟨c', .read runs, kept⟩
  | assign x p ih =>
    obtain ⟨c', runs, kept⟩ := ih leaves ran cached
    exact ⟨c', .assign runs, kept⟩

/-- What a program may keep at its first access may still be there in the end. -/
theorem Prog.Leaves.runs_load {rest : E → Prog A E V ε α}
    (leaves : (Prog.load v rest).Leaves u page) {a : α}
    (ran : (Prog.load v rest).run u s = .ok (a, s')) {e : E}
    (filled : page ∈ insert (u.page v) fills) (found : s.lookup u page = some e) :
    ∃ c', Runs u fills (.load v rest) s c (.ok (a, s', c')) ∧ c'.pages page = some e := by
  have access : Access u s c page (some e) := found ▸ .walk
  have kept : (c.keep page e).pages page = some e := if_pos rfl
  unfold Prog.run at ran
  split at ran
  next d here =>
    obtain ⟨c', runs, kept⟩ := Prog.Leaves.runs (leaves _) ran kept
    exact ⟨c', .load (here ▸ .walk) (refill_keep filled access) runs, kept⟩
  next => cases ran

/-- Every program has a run. -/
theorem exists_runs (u : Mmu A F I E ε) (fills : Set (I × I)) (p : Prog A E V ε α)
    (s : State F I E V) (c : Caches I E) : ∃ r, Runs u fills p s c r := by
  induction p generalizing s c with
  | done a => exact ⟨_, .done (.refl c)⟩
  | stop e => exact ⟨_, .stop⟩
  | load v next ih =>
    have access : Access u s c (u.page v) (s.lookup u (u.page v)) := .walk
    generalize s.lookup u (u.page v) = found at access
    cases found with
    | none => exact ⟨_, .loadFault access⟩
    | some e =>
      obtain ⟨r, runs⟩ := ih (s.mem (u.fmt.frame e) (u.word v)) s c
      exact ⟨r, .load access (.refl c) runs⟩
  | store v w next ih =>
    have access : Access u s c (u.page v) (s.lookup u (u.page v)) := .walk
    generalize s.lookup u (u.page v) = found at access
    cases found with
    | none => exact ⟨_, .storeFault access⟩
    | some e =>
      obtain ⟨r, runs⟩ := ih (s.setMem (write s.mem (u.fmt.frame e) (u.word v) w)) c
      exact ⟨r, .store access (.refl c) rfl (.refl c) runs⟩
  | flush v next ih =>
    obtain ⟨r, runs⟩ := ih s (c.flush (u.page v))
    exact ⟨r, .flush (.refl _) runs⟩
  | read next ih =>
    obtain ⟨r, runs⟩ := ih s.vars s c
    exact ⟨r, .read runs⟩
  | assign x next ih =>
    obtain ⟨r, runs⟩ := ih (s.setVars x) c
    exact ⟨r, .assign runs⟩

end

end Tlb
