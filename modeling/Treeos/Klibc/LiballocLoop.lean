import Treeos.Klibc.LiballocGrow

/-!
# `kmalloc` as a whole

The loop of `kmalloc` over the blocks: from the best bet or the root on, through all of them if
need be, and then to a new one.
-/
namespace Treeos

open ByteMemory DoublyLinked Extents Liballoc

variable {σ : Type} {K : Hooks σ} {Owns : σ → List PageArea → Prop} {view : σ → Memory}
variable {s s' s₁ : Liballoc σ} {M N : Major} {c : Minor} {h' : σ}
variable {pre post majors majors' : List Major} {xs ys : List Minor}
variable {reqSize size start : BitVec 32} {fuel : Nat} {startedBet : Bool} {bestSize : BitVec 64}

/-- Where the minor for a request goes: into the first gap of a block, or, if no block has
one, into a new block behind the others. -/
inductive Chosen (K : Hooks σ) (h : σ) (reqSize size : BitVec 32) (majors : List Major) :
    List Major → Minor → Prop
  | fit {pre post : List Major} {M : Major} {xs ys : List Minor}
      (split : majors = pre ++ M :: post) (gap : M.gap size = some (xs, ys)) :
      Chosen K h reqSize size majors
        (pre ++ { M with minors := xs ++ M.newMinor xs size reqSize :: ys } :: post)
        (M.newMinor xs size reqSize)
  | grow {start : BitVec 32} {h' : σ} (full : ∀ M ∈ majors, M.gap size = none)
      (pages : K.liballocAlloc h (pagesFor size) = .ok (start, h')) :
      Chosen K h reqSize size majors
        (majors ++ [⟨start, pagesFor size,
          [(blankMajor start (pagesFor size)).newMinor [] size reqSize]⟩])
        ((blankMajor start (pagesFor size)).newMinor [] size reqSize)

/-- The counters, and what `liballoc_unlock` does, are the same. -/
structure Quiet (s s' : Liballoc σ) : Prop where
  warningCount : s'.warningCount = s.warningCount
  errorCount : s'.errorCount = s.errorCount
  possibleOverruns : s'.possibleOverruns = s.possibleOverruns
  enableInt : s'.enableInt = s.enableInt

/-- The search has returned: the blocks are `majors'`, no byte behind a header has changed, and
the lock is released. -/
structure Malloced (Owns : σ → List PageArea → Prop) (view : σ → Memory) (s s' : Liballoc σ)
    (majors majors' : List Major) : Prop where
  layout : Layout Owns view s' majors'
  kept : ∀ M ∈ majors, ∀ x ∈ M.payload, view s'.host x = view s.host x
  quiet : Quiet s s'
  unlocked : s'.interruptFlag = s.enableInt

theorem Inserted.malloced (inserted : Inserted Owns view s s' pre M post xs ys c) :
    Malloced Owns view s s' (pre ++ M :: post)
      (pre ++ { M with minors := xs ++ c :: ys } :: post) := by
  have state := inserted.state
  refine ⟨inserted.layout, inserted.kept, ⟨?_, ?_, ?_, ?_⟩, ?_⟩
  all_goals rw [state]

/-- A search that goes on in a new block. -/
theorem Grown.malloced (grown : Grown Owns view s s₁ majors N)
    (done : Malloced Owns view s₁ s' (majors ++ [N]) majors') :
    Malloced Owns view s s' majors majors' := by
  obtain ⟨layout, kept, quiet, unlocked⟩ := done
  have state := grown.state
  refine ⟨layout, ?_, ⟨quiet.1.trans ?_, quiet.2.trans ?_, quiet.3.trans ?_, quiet.4.trans ?_⟩,
    unlocked.trans ?_⟩
  · intro M member x inside
    rw [kept M (List.mem_append_left _ member) x inside]
    exact grown.kept M member x inside
  all_goals rw [state]

/-- The best bet is only a hint. -/
theorem Malloced.bet {bet : BitVec 32}
    (done : Malloced Owns view { s with bestBet := bet } s' majors majors') :
    Malloced Owns view s s' majors majors' :=
  ⟨done.layout, done.kept, ⟨done.quiet.1, done.quiet.2, done.quiet.3, done.quiet.4⟩, done.unlocked⟩

theorem Layout.bet (layout : Layout Owns view s majors) {bet : BitVec 32}
    (known : bet = s.bestBet ∨ ∃ M ∈ majors, bet = M.base) :
    Layout Owns view { s with bestBet := bet } majors := by
  refine ⟨layout.owns, layout.sound, layout.root, layout.linked, ?_, layout.allocated,
    layout.inuse⟩
  rcases known with rfl | known
  · exact layout.bestBet
  · exact .inr known

/-! ### A block without a gap -/

/-- Where the search goes on behind the block `M`. -/
inductive MovesOn (K : Hooks σ) (Owns : σ → List PageArea → Prop) (view : σ → Memory)
    (s : Liballoc σ) (size : BitVec 32) (pre : List Major) (M : Major) (post : List Major)
    (startedBet : Bool) : Except Panic (MoveOn σ) → Prop
  | next {N : Major} {post' : List Major} (more : post = N :: post') :
      MovesOn K Owns view s size pre M post startedBet (.ok (.visit N.base startedBet s))
  | again (ends : post = []) (bet : startedBet = true) :
      MovesOn K Owns view s size pre M post startedBet (.ok (.visit s.memRoot false s))
  | fresh {start : BitVec 32} {h' : σ} {s' : Liballoc σ} (ends : post = [])
      (plain : startedBet = false)
      (pages : K.liballocAlloc s.host (pagesFor size) = .ok (start, h'))
      (grown : Grown Owns view s s' (pre ++ [M]) (blankMajor start (pagesFor size))) :
      MovesOn K Owns view s size pre M post startedBet (.ok (.fresh start s'))
  | stop {e : Panic} (ends : post = []) (plain : startedBet = false)
      (stopped : K.liballocAlloc s.host (pagesFor size) = .error e) :
      MovesOn K Owns view s size pre M post startedBet (.error e)

theorem allocateNewPage_stop {e : Panic}
    (stopped : K.liballocAlloc s.host (pagesFor size) = .error e) :
    s.allocateNewPage K size = .error e := bind_error_iff.mpr (.inl stopped)

theorem moveOn_spec (law : K.Growing Owns view) (layout : Layout Owns view s (pre ++ M :: post))
    (request : Request reqSize size) (startedBet : Bool) :
    MovesOn K Owns view s size pre M post startedBet (s.moveOn K size M.base startedBet) := by
  obtain ⟨-, link, -⟩ := layout.loadMajor law
  cases post with
  | cons N post' =>
    have positive : 0 < N.base.toNat := (layout.sound N (by simp)).area.positive
    unfold Liballoc.moveOn
    rw [link, ok_bind, first_cons, if_pos (ne_zero_of_pos positive)]
    exact .next rfl
  | nil =>
    cases startedBet with
    | true =>
      unfold Liballoc.moveOn
      rw [link, ok_bind, first_nil, if_neg (by simp), if_pos rfl]
      exact .again rfl rfl
    | false =>
      cases pages : K.liballocAlloc s.host (pagesFor size) with
      | ok result =>
        obtain ⟨s', moved, grown⟩ := layout.last_grown law request pages
        rw [moved]
        exact .fresh rfl rfl pages grown
      | error e =>
        unfold Liballoc.moveOn
        rw [link, ok_bind, first_nil, if_neg (by simp), if_neg (by simp),
          allocateNewPage_stop pages]
        exact .stop rfl rfl pages

/-- A new block has a gap for the request it was made for. -/
theorem blankMajor_gap (request : Request reqSize size) :
    (blankMajor start (pagesFor size)).gap size = some ([], []) := by
  have room := pagesFor_room request
  unfold Major.gap
  show (if _ then _ else _) = _
  rw [if_pos]
  unfold Major.high Major.low blankMajor
  dsimp only
  omega

theorem blankMajor_space (request : Request reqSize size) :
    size.toNat + 24 ≤ (blankMajor start (pagesFor size)).high -
      (blankMajor start (pagesFor size)).low := by
  have room := pagesFor_room request
  unfold Major.high Major.low blankMajor
  dsimp only
  omega

/-! ### One round -/

/-- How a round of the loop at the block `M` ends. -/
inductive RoundEnds (K : Hooks σ) (Owns : σ → List PageArea → Prop) (view : σ → Memory)
    (s : Liballoc σ) (reqSize size : BitVec 32) (pre : List Major) (M : Major) (post : List Major)
    (startedBet : Bool) : Except Panic (Round σ) → Prop
  | found {xs ys : List Minor} {s' : Liballoc σ} (gap : M.gap size = some (xs, ys))
      (inserted : Inserted Owns view s s' pre M post xs ys (M.newMinor xs size reqSize)) :
      RoundEnds K Owns view s reqSize size pre M post startedBet
        (.ok (.found (M.newMinor xs size reqSize).ptr s'))
  | next {N : Major} {post' : List Major} (full : M.gap size = none) (more : post = N :: post') :
      RoundEnds K Owns view s reqSize size pre M post startedBet
        (.ok (.visit N.base startedBet s))
  | again (full : M.gap size = none) (ends : post = []) (bet : startedBet = true) :
      RoundEnds K Owns view s reqSize size pre M post startedBet
        (.ok (.visit s.memRoot false s))
  | fresh {start : BitVec 32} {h' : σ} {s' : Liballoc σ} (full : M.gap size = none)
      (ends : post = []) (plain : startedBet = false)
      (pages : K.liballocAlloc s.host (pagesFor size) = .ok (start, h'))
      (grown : Grown Owns view s s' (pre ++ [M]) (blankMajor start (pagesFor size))) :
      RoundEnds K Owns view s reqSize size pre M post startedBet
        (.ok (.visit start false s'))
  | placed {start : BitVec 32} {h' : σ} {s₁ s' : Liballoc σ} (full : M.gap size = none)
      (ends : post = []) (plain : startedBet = false)
      (pages : K.liballocAlloc s.host (pagesFor size) = .ok (start, h'))
      (grown : Grown Owns view s s₁ (pre ++ [M]) (blankMajor start (pagesFor size)))
      (inserted : Inserted Owns view s₁ s' (pre ++ [M]) (blankMajor start (pagesFor size)) []
        [] [] ((blankMajor start (pagesFor size)).newMinor [] size reqSize)) :
      RoundEnds K Owns view s reqSize size pre M post startedBet
        (.ok (.found ((blankMajor start (pagesFor size)).newMinor [] size reqSize).ptr s'))
  | stop {e : Panic} (full : M.gap size = none) (ends : post = []) (plain : startedBet = false)
      (stopped : K.liballocAlloc s.host (pagesFor size) = .error e) :
      RoundEnds K Owns view s reqSize size pre M post startedBet (.error e)

/-- The blocks without minors have room: only a new one has none. -/
def Spacious (size : BitVec 32) (majors : List Major) : Prop :=
  ∀ M ∈ majors, M.minors = [] → size.toNat + 24 ≤ M.high - M.low

/-- CASE 2 to CASE 5 -/
theorem placeOrMove_spec (law : K.Growing Owns view)
    (layout : Layout Owns view s (pre ++ M :: post)) (locked : s.interruptFlag = false)
    (request : Request reqSize size) (space : Spacious size (pre ++ M :: post))
    (enough : M.minors.length + 1 ≤ fuel) :
    RoundEnds K Owns view s reqSize size pre M post startedBet
      (s.placeOrMove K fuel reqSize size M.base startedBet) := by
  unfold Liballoc.placeOrMove
  rcases place_spec law layout locked request (space M (by simp)) enough with
    ⟨full, none⟩ | ⟨xs, ys, s', gap, found, inserted⟩
  · rw [none, ok_bind]
    have moves := moveOn_spec law layout request startedBet
    generalize s.moveOn K size M.base startedBet = result at *
    cases moves with
    | next more => exact .next full more
    | again ends bet => exact .again full ends bet
    | fresh ends plain pages grown =>
      subst plain
      exact .fresh full ends rfl pages grown
    | stop ends plain stopped => exact .stop full ends plain stopped
  · rw [found, ok_bind]
    exact .found gap inserted

/-- CASE 1 to CASE 5 -/
theorem mallocRound_spec (law : K.Growing Owns view)
    (layout : Layout Owns view s (pre ++ M :: post)) (locked : s.interruptFlag = false)
    (request : Request reqSize size) (space : Spacious size (pre ++ M :: post))
    (enough : M.minors.length + 1 ≤ fuel) (startedBet : Bool) :
    RoundEnds K Owns view s reqSize size pre M post startedBet (s.mallocRound K fuel reqSize size
      M.base (M.size - BitVec.ofNat 32 M.usage) startedBet) := by
  have sound := layout.sound M (by simp)
  unfold Liballoc.mallocRound
  split
  next less =>
    have full := sound.gap_none request less
    have moves := moveOn_spec law layout request startedBet
    generalize s.moveOn K size M.base startedBet = result at *
    cases moves with
    | next more => exact .next full more
    | again ends bet => exact .again full ends bet
    | @fresh start h' s₁ ends plain pages grown =>
      subst plain ends
      -- the block is new, so that CASE 2 takes it
      have locked₁ : s₁.interruptFlag = false := by
        rw [grown.state]
        exact locked
      rcases place_spec law grown.layout locked₁ request (fun _ => blankMajor_space request)
        (show 0 + 1 ≤ fuel by omega) with
        ⟨none, -⟩ | ⟨xs, ys, s', gap, placed, inserted⟩
      · rw [blankMajor_gap request] at none
        cases none
      · rw [blankMajor_gap request] at gap
        cases gap
        have round : s₁.placeOrMove K fuel reqSize size start false =
            .ok (.found ((blankMajor start (pagesFor size)).newMinor [] size reqSize).ptr s') :=
          bind_of_ok placed _
        rw [ok_bind]
        dsimp only
        rw [round]
        exact .placed full rfl rfl pages grown inserted
    | stop ends plain stopped => exact .stop full ends plain stopped
  next => exact placeOrMove_spec law layout locked request space enough

/-! ### All rounds -/

/-- The loop goes through a round, with perhaps another best bet. -/
theorem mallocLoop_round (law : K.Growing Owns view)
    (layout : Layout Owns view s (pre ++ M :: post)) (fuel : Nat) (reqSize size : BitVec 32)
    (startedBet : Bool) (bestSize : BitVec 64) : ∃ bet best,
      (bet = s.bestBet ∨ ∃ N ∈ pre ++ M :: post, bet = N.base) ∧
      mallocLoop K (fuel + 1) s reqSize size M.base startedBet bestSize =
        ({ s with bestBet := bet }.mallocRound K fuel reqSize size M.base
          (M.size - BitVec.ofNat 32 M.usage) startedBet >>= fun
            | .found p s => .ok (p, s)
            | .visit maj startedBet s => mallocLoop K fuel s reqSize size maj startedBet best
            | .noMemory s => s.unlock >>= fun s => .ok (0, s)) := by
  have positive : 0 < M.base.toNat := (layout.sound M (by simp)).area.positive
  obtain ⟨-, -, -, bytes, used, -⟩ := layout.loadMajor law
  rw [mallocLoop, if_neg (ne_zero_of_pos positive), bytes, ok_bind, used, ok_bind]
  dsimp only
  by_cases better : bestSize < (M.size - BitVec.ofNat 32 M.usage).setWidth 64
  · refine ⟨M.base, (M.size - BitVec.ofNat 32 M.usage).setWidth 64, .inr ⟨M, by simp, rfl⟩, ?_⟩
    rw [decide_eq_true better]
    rfl
  · refine ⟨s.bestBet, bestSize, .inl rfl, ?_⟩
    rw [decide_eq_false better]
    rfl

/-- How the search ends: with a place for the minor, or where `liballoc_alloc` stops. -/
inductive SearchEnds (K : Hooks σ) (Owns : σ → List PageArea → Prop) (view : σ → Memory)
    (s : Liballoc σ) (reqSize size : BitVec 32) (majors : List Major) :
    Except Panic (BitVec 32 × Liballoc σ) → Prop
  | found {majors' : List Major} {c : Minor} {s' : Liballoc σ}
      (chosen : Chosen K s.host reqSize size majors majors' c)
      (done : Malloced Owns view s s' majors majors') :
      SearchEnds K Owns view s reqSize size majors (.ok (c.ptr, s'))
  | stop {e : Panic} (full : ∀ M ∈ majors, M.gap size = none)
      (stopped : K.liballocAlloc s.host (pagesFor size) = .error e) :
      SearchEnds K Owns view s reqSize size majors (.error e)

theorem SearchEnds.bet {bet : BitVec 32} {result : Except Panic (BitVec 32 × Liballoc σ)}
    (ends : SearchEnds K Owns view { s with bestBet := bet } reqSize size majors result) :
    SearchEnds K Owns view s reqSize size majors result := by
  cases ends with
  | found chosen done => exact .found chosen done.bet
  | stop full stopped => exact .stop full stopped

/-- A round in a new block ends the loop. -/
theorem mallocLoop_fresh (law : K.Growing Owns view)
    (locked : s.interruptFlag = false) (request : Request reqSize size)
    (space : Spacious size majors) (full : ∀ M ∈ majors, M.gap size = none) (enough : 2 ≤ fuel)
    (pages : K.liballocAlloc s.host (pagesFor size) = .ok (start, h'))
    (grown : Grown Owns view s s₁ majors (blankMajor start (pagesFor size))) :
    SearchEnds K Owns view s reqSize size majors
      (mallocLoop K fuel s₁ reqSize size start false bestSize) := by
  obtain ⟨fuel, rfl⟩ : ∃ n, fuel = n + 2 := ⟨fuel - 2, by omega⟩
  obtain ⟨bet, best, known, round⟩ := mallocLoop_round law grown.layout (fuel + 1) reqSize size
    false bestSize
  have locked₁ : s₁.interruptFlag = false := by
    rw [grown.state]
    exact locked
  have roomy : Spacious size (majors ++ [blankMajor start (pagesFor size)]) := by
    intro M member none
    rcases List.mem_append.mp member with member | member
    · exact space M member none
    · rw [List.mem_singleton.mp member]
      exact blankMajor_space request
  have ends := mallocRound_spec law (grown.layout.bet known) locked₁ request roomy
    (show 0 + 1 ≤ fuel + 1 by omega) false
  show SearchEnds K Owns view s reqSize size majors
    (mallocLoop K (fuel + 1 + 1) s₁ reqSize size (blankMajor start (pagesFor size)).base false
      bestSize)
  rw [round]
  have gap : (blankMajor start (pagesFor size)).gap size = some ([], []) := blankMajor_gap request
  generalize mallocRound K (fuel + 1) _ reqSize size _ _ false = result at *
  cases ends with
  | found gap' inserted =>
    rw [gap] at gap'
    cases gap'
    exact .found (.grow full pages) (grown.malloced inserted.malloced.bet)
  | next none | again none | fresh none | placed none | stop none =>
    rw [gap] at none
    cases none

/-- The last block is the only one that has not been tried. -/
theorem tried_all (split : majors = pre ++ [M]) (tried : ∀ N ∈ pre, N.gap size = none)
    (full : M.gap size = none) : ∀ N ∈ majors, N.gap size = none := by
  intro N member
  rw [split] at member
  rcases List.mem_append.mp member with member | member
  · exact tried N member
  · rw [List.mem_singleton.mp member]
    exact full

/-- The loop, in the block `M`. Unless it has started at the best bet, none of the blocks in
front of `M` has a gap. -/
theorem mallocLoop_spec (law : K.Growing Owns view) (request : Request reqSize size)
    {longest : Nat} (short : ∀ N ∈ majors, N.minors.length + 1 ≤ longest)
    (space : Spacious size majors) (layout : Layout Owns view s majors)
    (locked : s.interruptFlag = false) (split : majors = pre ++ M :: post)
    (tried : startedBet = false → ∀ N ∈ pre, N.gap size = none)
    (enough : post.length + (if startedBet then majors.length else 0) + 2 + longest ≤ fuel) :
    SearchEnds K Owns view s reqSize size majors
      (mallocLoop K fuel s reqSize size M.base startedBet bestSize) := by
  induction fuel generalizing s pre M post startedBet bestSize with
  | zero => omega
  | succ fuel ih =>
    have layout' := layout
    rw [split] at layout'
    obtain ⟨bet, best, known, round⟩ := mallocLoop_round law layout' fuel reqSize size
      startedBet bestSize
    have member : M ∈ majors := by simp [split]
    have some := short M member
    have ends := mallocRound_spec law (layout'.bet known) locked request (split ▸ space)
      (show M.minors.length + 1 ≤ fuel by omega) startedBet
    rw [← split] at known
    have here := layout.bet known
    rw [round]
    generalize mallocRound K fuel _ reqSize size _ _ startedBet = result at *
    cases ends with
    | found gap inserted =>
      have done := inserted.malloced
      rw [← split] at done
      exact .found (.fit split gap) done.bet
    | @next N post' full more =>
      subst more
      refine (@ih _ N (pre ++ [M]) post' startedBet best here locked (by simp [split]) ?_ ?_).bet
      · intro plain N' member'
        rcases List.mem_append.mp member' with member' | member'
        · exact tried plain N' member'
        · rw [List.mem_singleton.mp member']
          exact full
      · rw [List.length_cons] at enough
        omega
    | again full ends bet' =>
      -- from the root on, with all blocks ahead
      subst ends bet'
      obtain ⟨M₀, rest, blocks⟩ : ∃ M₀ rest, majors = M₀ :: rest :=
        List.exists_cons_of_ne_nil (List.ne_nil_of_mem member)
      have root : s.memRoot = M₀.base := by rw [layout.root, blocks, first_cons]
      have ends := @ih _ M₀ [] rest false best here locked blocks (fun _ => nofun) (by
        rw [blocks, List.length_cons] at enough
        simp only [if_true, List.length_nil] at enough
        simp only [Bool.false_eq_true, if_false]
        omega)
      rw [← root] at ends
      exact ends.bet
    | fresh full ends plain pages grown =>
      subst ends plain
      have all : ∀ N ∈ majors, N.gap size = none := tried_all split (tried rfl) full
      rw [← split] at grown
      have some := short M member
      exact (mallocLoop_fresh law (s := { s with bestBet := bet }) locked request space all
        (by omega) pages grown).bet
    | placed full ends plain pages grown inserted =>
      subst ends plain
      have all : ∀ N ∈ majors, N.gap size = none := tried_all split (tried rfl) full
      have done := grown.malloced inserted.malloced
      rw [← split] at done
      exact (SearchEnds.found (.grow all pages) done).bet
    | stop full ends plain stopped =>
      subst ends plain
      exact .stop (tried_all split (tried rfl) full) stopped

/-! ### `kmalloc` -/

/-- `s` behind `liballoc_lock`. -/
def Liballoc.locked (s : Liballoc σ) : Liballoc σ :=
  { s with enableInt := s.interruptFlag, interruptFlag := false }

/-- Sizes that do not wrap around with the headers and the alignment. -/
theorem request_of_lt (small : reqSize.toNat + 80 < 2 ^ 32) : Request reqSize (reqSize + 32) := by
  have size : (reqSize + 32).toNat = reqSize.toNat + 32 := by bv_omega
  constructor
  · omega
  · omega

/-- `kmalloc` takes the first gap of a block that is large enough, or, if none is, a new block;
it stops only where `liballoc_alloc` does. -/
theorem malloc_spec (law : K.Growing Owns view) (layout : Layout Owns view s majors)
    (used : ∀ M ∈ majors, M.minors ≠ []) (small : reqSize.toNat + 80 < 2 ^ 32) {longest : Nat}
    (short : ∀ N ∈ majors, N.minors.length + 1 ≤ longest)
    (enough : 2 * majors.length + longest + 2 ≤ fuel) :
    SearchEnds K Owns view s.locked reqSize (reqSize + 32) majors (s.malloc K fuel reqSize) := by
  have request := request_of_lt small
  have some : reqSize + 32 ≠ 0 := by
    have size := request.room
    apply ne_zero_of_pos
    omega
  have locked : s.locked.interruptFlag = false := rfl
  have layout' : Layout Owns view s.locked majors := ⟨layout.owns, layout.sound, layout.root,
    layout.linked, layout.bestBet, layout.allocated, layout.inuse⟩
  have space : Spacious (reqSize + 32) majors := fun M member none => absurd none (used M member)
  unfold malloc mallocSome
  rw [if_neg some, lock_eq]
  show SearchEnds K Owns view s.locked reqSize (reqSize + 32) majors
    (s.locked.ensureRoot K (reqSize + 32) >>= _)
  generalize s.locked = s₀ at *
  cases majors with
  | nil =>
    have root : s₀.memRoot = 0 := layout'.root
    have bet : s₀.bestBet = 0 := by
      rcases layout'.bestBet with none | ⟨M, member, -⟩
      · exact none
      · cases member
    cases pages : K.liballocAlloc s₀.host (pagesFor (reqSize + 32)) with
    | error e =>
      have stopped : s₀.ensureRoot K (reqSize + 32) = .error e := by
        unfold ensureRoot
        rw [if_pos root, allocateNewPage_stop pages]
        rfl
      rw [stopped]
      exact .stop nofun pages
    | ok result =>
      obtain ⟨start, h'⟩ := result
      obtain ⟨s₁, called, first, grown⟩ := layout'.root_grown law request pages
      have area : PageArea.Sound ⟨start, _⟩ := (grown.layout.sound _ List.mem_cons_self).area
      have bet₁ : s₁.bestBet = 0 := by
        rw [grown.state]
        exact bet
      rw [called, ok_bind, first, if_neg (ne_zero_of_pos area.positive), bet₁, if_neg (by simp)]
      exact mallocLoop_fresh law locked request space nofun (by omega) pages grown
  | cons M₀ rest =>
    have root : s₀.memRoot = M₀.base := layout'.root
    have positive : 0 < M₀.base.toNat := (layout'.sound M₀ List.mem_cons_self).area.positive
    have present : s₀.ensureRoot K (reqSize + 32) = .ok s₀ := by
      unfold ensureRoot
      rw [root, if_neg (ne_zero_of_pos positive)]
    have fromRoot (best : BitVec 64) : SearchEnds K Owns view s₀ reqSize (reqSize + 32)
        (M₀ :: rest) (mallocLoop K fuel s₀ reqSize (reqSize + 32) s₀.memRoot false best) := by
      rw [root]
      have here : M₀ :: rest = [] ++ M₀ :: rest := rfl
      refine mallocLoop_spec law request short space layout' locked here (fun _ => nofun) ?_
      rw [List.length_cons] at enough
      simp only [Bool.false_eq_true, if_false]
      omega
    rw [present, ok_bind, root, if_neg (ne_zero_of_pos positive), ← root]
    split
    next bet =>
      rcases layout'.bestBet with none | ⟨M, member, here⟩
      · exact absurd none bet
      · obtain ⟨pre, post, split⟩ := List.append_of_mem member
        have layoutM := layout'
        rw [split] at layoutM
        obtain ⟨-, -, -, bytes, taken, -⟩ := layoutM.loadMajor law
        rw [here, bytes, ok_bind, taken, ok_bind]
        dsimp only
        split
        · -- from the best bet on, and then from the root on
          refine mallocLoop_spec law request short space layout' locked split nofun ?_
          have length := congrArg List.length split
          simp only [List.length_append, List.length_cons, if_true] at length enough ⊢
          omega
        · exact fromRoot _
    next => exact fromRoot _

end Treeos
