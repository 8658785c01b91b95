import Treeos.Klibc.LiballocLoop
import Treeos.Klibc.LiballocUnlink

/-!
# `kfree`

A block without minors goes back to the host, and `kfree` as a whole: the minor is gone, and
everything else is as it was.
-/
namespace Treeos

open ByteMemory DoublyLinked Extents Liballoc

variable {σ : Type} {K : Hooks σ} {Owns : σ → List PageArea → Prop} {view : σ → Memory}
variable {s s' : Liballoc σ} {M N : Major} {c : Minor} {m m' : Memory} {h : σ}
variable {pre post majors : List Major} {xs ys : List Minor} {as : List PageArea}

/-! ### A block leaves the list -/

/-- The words of the header of a block behind its links. -/
def Major.more (N : Major) : List (BitVec 32) :=
  [N.pages, N.size, BitVec.ofNat 32 N.usage, first Minor.addr 0 N.minors]

/-- A block with other links. -/
theorem Major.Cell.relink (sound : N.Sound) {p n p' n' : BitVec 32} (cell : N.Cell m p n)
    (header : Words m' N.base (p' :: n' :: N.more))
    (rest : ∀ x : BitVec 32, N.base.toNat + 24 ≤ x.toNat → x.toNat < N.high → m' x = m x) :
    N.Cell m' p' n' := by
  refine ⟨header, cell.minors.imp fun c member p n => ?_⟩
  refine Minor.Cell.congr sound member fun x low high => ?_
  obtain ⟨above, below, -, -⟩ := sound.bounds member
  exact rest x (by omega) (by omega)

/-- The header of a block is in its pages. -/
theorem Major.Sound.header_subset (sound : N.Sound) {r : Record} (base : r.base = N.base)
    (length : r.words.length = 6) : r.span ⊆ N.area.range := by
  have low := sound.packed.le
  have bytes : 24 ≤ 4096 * N.pages.toNat := by
    unfold Major.low Major.high at low
    omega
  unfold Record.span
  rw [base, length]
  exact span_mono bytes

/-- A block, and the ones in front of it and behind it. -/
theorem Layout.neighbours (law : K.Growing Owns view)
    (layout : Layout Owns view s (pre ++ M :: post)) :
    Holds Owns view ((pre ++ M :: post).map Major.area) (view s.host)
      (prevRecord Major.base Major.more M.base pre ++
        ⟨M.base, last Major.base 0 pre :: first Major.base 0 post :: M.more⟩ ::
        nextRecord Major.base Major.more M.base post) s.host := by
  have linked := layout.linked
  rw [seg_append, seg_cons] at linked
  obtain ⟨front, here, back⟩ := linked
  have apart := law.apart layout.owns
  rw [List.map_append, List.map_cons, List.pairwise_append, List.pairwise_cons] at apart
  obtain ⟨-, ⟨behind, -⟩, seam⟩ := apart
  -- each of the records is the header of a block
  have prev (r : Record) (member : r ∈ prevRecord Major.base Major.more M.base pre) :
      ∃ N ∈ pre, r.span ⊆ N.area.range ∧ r.words.length = 6 ∧
        Words (view s.host) r.base r.words := by
    obtain ⟨zs, b, rfl, rfl⟩ := mem_prevRecord.mp member
    rw [seg_append] at front
    refine ⟨b, by simp, ?_, rfl, front.2.1.header⟩
    exact (layout.sound b (by simp)).header_subset rfl rfl
  have next (r : Record) (member : r ∈ nextRecord Major.base Major.more M.base post) :
      ∃ N ∈ post, r.span ⊆ N.area.range ∧ r.words.length = 6 ∧
        Words (view s.host) r.base r.words := by
    obtain ⟨d, ws, rfl, rfl⟩ := mem_nextRecord.mp member
    refine ⟨d, by simp, ?_, rfl, back.1.header⟩
    exact (layout.sound d (by simp)).header_subset rfl rfl
  have own : Record.span ⟨M.base, last Major.base 0 pre :: first Major.base 0 post :: M.more⟩ ⊆
      M.area.range := (layout.sound M (by simp)).header_subset rfl rfl
  have six : ∀ r ∈ prevRecord Major.base Major.more M.base pre ++
      ⟨M.base, last Major.base 0 pre :: first Major.base 0 post :: M.more⟩ ::
      nextRecord Major.base Major.more M.base post, r.words.length = 6 := by
    simp only [List.forall_mem_append, List.forall_mem_cons]
    refine ⟨fun r member => ?_, rfl, fun r member => ?_⟩
    · obtain ⟨N, -, -, length, -⟩ := prev r member
      exact length
    · obtain ⟨N, -, -, length, -⟩ := next r member
      exact length
  refine ⟨layout.owns, ⟨?_, fun r member => ?_, ?_, fun _ _ => rfl⟩, ?_⟩
  · rw [List.pairwise_append, List.pairwise_cons]
    refine ⟨prevRecord_pairwise, ⟨fun r member x first second => ?_, nextRecord_pairwise⟩, ?_⟩
    · obtain ⟨N, there, inside, -⟩ := next r member
      exact behind N.area (List.mem_map.mpr ⟨N, there, rfl⟩) x (own first) (inside second)
    · intro r member r' member' x first second
      obtain ⟨N, there, inside, -⟩ := prev r member
      have away := seam N.area (List.mem_map.mpr ⟨N, there, rfl⟩)
      rcases List.mem_cons.mp member' with rfl | member'
      · exact away M.area (by simp) x (inside first) (own second)
      · obtain ⟨N', there', inside', -⟩ := next r' member'
        exact away N'.area (List.mem_cons_of_mem _ (List.mem_map.mpr ⟨N', there', rfl⟩)) x
          (inside first) (inside' second)
  · rw [six r member]
    decide
  · simp only [List.forall_mem_append, List.forall_mem_cons]
    refine ⟨fun r member => ?_, here.header, fun r member => ?_⟩
    · obtain ⟨N, -, -, -, words⟩ := prev r member
      exact words
    · obtain ⟨N, -, -, -, words⟩ := next r member
      exact words
  · simp only [List.forall_mem_append, List.forall_mem_cons]
    refine ⟨fun r member => ?_, ⟨M.area, by simp, own⟩, fun r member => ?_⟩
    · obtain ⟨N, there, inside, -⟩ := prev r member
      exact ⟨N.area, List.mem_map.mpr ⟨N, by simp [there], rfl⟩, inside⟩
    · obtain ⟨N, there, inside, -⟩ := next r member
      exact ⟨N.area, List.mem_map.mpr ⟨N, by simp [there], rfl⟩, inside⟩

/-- Different blocks begin at different addresses. -/
theorem Layout.base_ne (law : K.Growing Owns view)
    (layout : Layout Owns view s (pre ++ M :: post)) (member : N ∈ pre ++ post) :
    N.base ≠ M.base := by
  intro same
  have there : N ∈ pre ++ M :: post := by
    rcases List.mem_append.mp member with member | member <;> simp [member]
  have own (P : Major) (sound : P.Sound) : P.base ∈ P.area.range := by
    refine sound.area.mem_range.mpr ⟨Nat.le_refl _, ?_⟩
    have some : 0 < P.pages.toNat := sound.area.some
    show P.base.toNat < P.base.toNat + 4096 * P.pages.toNat
    omega
  refine layout.apart law member (own N (layout.sound N there)) ?_
  rw [same]
  exact own M (layout.sound M (by simp))

/-- The block `M` has gone back to the host. -/
structure Released (Owns : σ → List PageArea → Prop) (view : σ → Memory) (s s' : Liballoc σ)
    (pre post : List Major) : Prop where
  layout : Layout Owns view s' (pre ++ post)
  kept : ∀ N ∈ pre ++ post, ∀ x ∈ N.payload, view s'.host x = view s.host x
  quiet : Quiet s s'
  locked : s'.interruptFlag = s.interruptFlag

/-- The variables that point to a block do not point to one that leaves. -/
theorem Layout.forget (law : K.Growing Owns view)
    (layout : Layout Owns view s (pre ++ M :: post)) :
    (if s.memRoot = M.base then first Major.base 0 post else s.memRoot) =
        first Major.base 0 (pre ++ post) ∧
      ((if s.bestBet = M.base then 0 else s.bestBet) = 0 ∨
        ∃ N ∈ pre ++ post, (if s.bestBet = M.base then 0 else s.bestBet) = N.base) := by
  constructor
  · rw [layout.root]
    cases pre with
    | nil => simp
    | cons P pre =>
      have other := layout.base_ne law (N := P) (by simp)
      simp [other]
  · split
    next => exact .inl rfl
    next other =>
      rcases layout.bestBet with none | ⟨N, member, here⟩
      · exact .inl none
      · refine .inr ⟨N, ?_, here⟩
        rcases List.mem_append.mp member with member | member
        · simp [member]
        · rcases List.mem_cons.mp member with rfl | member
          · exact absurd here other
          · simp [member]

/-- In the memory `m'` the neighbours of a block skip it; but for their headers the blocks are
as in `m`. -/
structure Bypassed (m m' : Memory) (pre post : List Major) : Prop where
  prev : ∀ zs b, pre = zs ++ [b] →
    Words m' b.base (last Major.base 0 zs :: first Major.base 0 post :: b.more)
  next : ∀ d ws, post = d :: ws →
    Words m' d.base (last Major.base 0 pre :: first Major.base 0 ws :: d.more)
  same : ∀ N ∈ pre ++ post, ∀ x ∈ N.area.range,
    (∀ zs b, pre = zs ++ [b] → ¬(b.base.toNat ≤ x.toNat ∧ x.toNat < b.base.toNat + 24)) →
    (∀ d ws, post = d :: ws → ¬(d.base.toNat ≤ x.toNat ∧ x.toNat < d.base.toNat + 24)) →
    m' x = m x

/-- The list without the block is linked. -/
theorem Layout.bypass_linked (law : K.Growing Owns view)
    (layout : Layout Owns view s (pre ++ M :: post))
    (bypassed : Bypassed (view s.host) m' pre post) :
    Seg Major.base (Major.Cell m') 0 0 (pre ++ post) := by
  obtain ⟨prev, next, same⟩ := bypassed
  have apart := law.apart layout.owns
  rw [List.pairwise_map, List.pairwise_append, List.pairwise_cons] at apart
  obtain ⟨front, ⟨-, back⟩, seam⟩ := apart
  have linked := layout.linked
  rw [seg_append, seg_cons] at linked
  rw [seg_append]
  constructor
  · refine linked.1.relink_last (fun zs b split N there p n cell => ?_) fun zs b split cell => ?_
    · refine cell.congr (layout.sound N (by simp [split, there])) fun x inside => ?_
      rw [split, List.pairwise_append] at front
      refine same N (by simp [split, there]) x inside (fun zs' b' split' byte => ?_)
        fun d ws split' byte => ?_
      · obtain ⟨-, single⟩ := List.append_inj' (split.symm.trans split') rfl
        cases single
        exact front.2.2 N there b (by simp) x inside (layout.header_mem (by simp [split]) byte)
      · exact seam N (by simp [split, there]) d (by simp [split']) x inside
          (layout.header_mem (by simp [split']) byte)
    · refine cell.relink (layout.sound b (by simp [split])) (prev zs b split) fun x low high => ?_
      have inside : x ∈ b.area.range := (layout.sound b (by simp [split])).area.mem_range.mpr
        ⟨by show b.base.toNat ≤ _; omega, high⟩
      refine same b (by simp [split]) x inside (fun zs' b' split' byte => ?_)
        fun d ws split' byte => ?_
      · obtain ⟨-, single⟩ := List.append_inj' (split.symm.trans split') rfl
        cases single
        omega
      · exact seam b (by simp [split]) d (by simp [split']) x inside
          (layout.header_mem (by simp [split']) byte)
  · refine linked.2.2.relink_first (fun d ws split cell => ?_) fun d ws split N there p n cell => ?_
    · refine cell.relink (layout.sound d (by simp [split])) (next d ws split) fun x low high => ?_
      have inside : x ∈ d.area.range := (layout.sound d (by simp [split])).area.mem_range.mpr
        ⟨by show d.base.toNat ≤ _; omega, high⟩
      refine same d (by simp [split]) x inside (fun zs b split' byte => ?_)
        fun d' ws' split' byte => ?_
      · exact seam b (by simp [split']) d (by simp [split]) x
          (layout.header_mem (by simp [split']) byte) inside
      · cases split.symm.trans split'
        omega
    · refine cell.congr (layout.sound N (by simp [split, there])) fun x inside => ?_
      rw [split, List.pairwise_cons] at back
      refine same N (by simp [split, there]) x inside (fun zs b split' byte => ?_)
        fun d' ws' split' byte => ?_
      · exact seam b (by simp [split']) N (by simp [split, there]) x
          (layout.header_mem (by simp [split']) byte) inside
      · cases split.symm.trans split'
        exact back.1 N there x (layout.header_mem (by simp [split]) byte) inside

/-- The objects in the other blocks keep their bytes. -/
theorem Layout.bypass_payload (law : K.Growing Owns view)
    (layout : Layout Owns view s (pre ++ M :: post))
    (bypassed : Bypassed (view s.host) m' pre post) (member : N ∈ pre ++ post) {x : BitVec 32}
    (payload : x ∈ N.payload) : m' x = view s.host x := by
  have there : N ∈ pre ++ M :: post := by
    rcases List.mem_append.mp member with member | member <;> simp [member]
  have inside := (layout.sound N there).payload_subset payload
  obtain ⟨c, listed, low, -⟩ := payload
  have above := ((layout.sound N there).bounds listed).1
  refine bypassed.same N member x inside (fun zs b split byte => ?_) fun d ws split byte => ?_
  · have one := layout.unique law there (by simp [split]) inside
      (layout.header_mem (by simp [split]) byte)
    rw [← one] at byte
    omega
  · have one := layout.unique law there (by simp [split]) inside
      (layout.header_mem (by simp [split]) byte)
    rw [← one] at byte
    omega

/-- The two stores of `release` and the host's `liballoc_free` bypass the block. -/
theorem Layout.bypassed (law : K.Growing Owns view)
    (layout : Layout Owns view s (pre ++ M :: post)) {h₃ : σ}
    (holds : Holds Owns view as (view s.host)
      (prevRecord Major.base Major.more (first Major.base 0 post) pre ++
        ⟨M.base, last Major.base 0 pre :: first Major.base 0 post :: M.more⟩ ::
        nextRecord Major.base Major.more (last Major.base 0 pre) post) h)
    (kept : ∀ a ∈ (pre ++ post).map Major.area, ∀ x ∈ a.range, view h₃ x = view h x) :
    Bypassed (view s.host) (view h₃) pre post := by
  have words (N : Major) (member : N ∈ pre ++ post) (p n : BitVec 32)
      (there : Words (view h) N.base (p :: n :: N.more)) :
      Words (view h₃) N.base (p :: n :: N.more) := by
    refine there.congr fun x inside => kept N.area (List.mem_map.mpr ⟨N, member, rfl⟩) x ?_
    have sound : N.Sound := by
      refine layout.sound N ?_
      rcases List.mem_append.mp member with member | member <;> simp [member]
    exact sound.header_subset (r := ⟨N.base, p :: n :: N.more⟩) rfl rfl inside
  refine ⟨fun zs b split => ?_, fun d ws split => ?_, fun N member x inside noPrev noNext => ?_⟩
  · exact words b (by simp [split]) _ _ (holds.records.words ⟨b.base, _⟩
      (List.mem_append_left _ (mem_prevRecord.mpr ⟨zs, b, split, rfl⟩)))
  · exact words d (by simp [split]) _ _ (holds.records.words ⟨d.base, _⟩
      (List.mem_append_right _ (List.mem_cons_of_mem _ (mem_nextRecord.mpr ⟨d, ws, split, rfl⟩))))
  · have byte (P : Major) (member : P ∈ pre ++ M :: post) {r : Record} (base : r.base = P.base)
        (six : r.words.length = 6) (here : x ∈ r.span) :
        P.base.toNat ≤ x.toNat ∧ x.toNat < P.base.toNat + 24 := by
      have sound := layout.sound P member
      have low := sound.packed.le
      have limit : P.high < 2 ^ 32 := sound.area.fits
      unfold Major.low at low
      rw [← base]
      exact (Six.mem_span ⟨six, by rw [base]; omega⟩).mp here
    rw [kept N.area (List.mem_map.mpr ⟨N, member, rfl⟩) x inside]
    refine holds.records.frame x fun r there here => ?_
    rcases List.mem_append.mp there with there | there
    · obtain ⟨zs, b, rfl, rfl⟩ := mem_prevRecord.mp there
      exact noPrev zs b rfl (byte b (by simp) rfl rfl here)
    · rcases List.mem_cons.mp there with rfl | there
      · exact layout.apart law member inside ((layout.sound M (by simp)).header_subset rfl rfl here)
      · obtain ⟨d, ws, rfl, rfl⟩ := mem_nextRecord.mp there
        exact noNext d ws rfl (byte d (by simp) rfl rfl here)

/-- `l_allocated` without the pages of a block. -/
theorem Layout.allocated_without (layout : Layout Owns view s (pre ++ M :: post)) :
    s.allocated - M.size.setWidth 64 =
      BitVec.ofNat 64 ((pre ++ post).map fun N => 4096 * N.pages.toNat).sum := by
  have size := (layout.sound M (by simp)).toNat_size
  have small := M.size.isLt
  rw [layout.allocated]
  simp only [List.map_append, List.map_cons, List.sum_append, List.sum_cons]
  apply BitVec.eq_of_toNat_eq
  rw [BitVec.toNat_sub, BitVec.toNat_setWidth, BitVec.toNat_ofNat, BitVec.toNat_ofNat]
  omega

theorem Layout.release (law : K.Lawful Owns view)
    (layout : Layout Owns view s (pre ++ M :: post)) (empty : M.minors = []) :
    ∃ s', s.release K M.base = .ok s' ∧ Released Owns view s s' pre post ∧
      ∀ x ∈ M.area.range, K.load8 s'.host x = .error (.pageFault x) := by
  have holds := layout.neighbours law.toGrowing
  obtain ⟨root, bet⟩ := layout.forget law.toGrowing
  have some : ∀ N ∈ pre ++ M :: post, N.base ≠ 0 := fun N member =>
    ne_zero_of_pos (layout.sound N member).area.positive
  have next := Holds.load law.toGrowing (s := s) (i := 1) _ _ _ holds (by simp)
  obtain ⟨s₁, forgotten⟩ : ∃ s₁ : Liballoc σ, s₁ = { s with
      memRoot := if s.memRoot = M.base then first Major.base 0 post else s.memRoot,
      bestBet := if s.bestBet = M.base then 0 else s.bestBet } := ⟨_, rfl⟩
  have prev := Holds.load law.toGrowing (s := s₁) (i := 0) _ _ _ holds (by simp)
  obtain ⟨h₁, stored₁, holds₁⟩ := Holds.store_prev law.toGrowing s₁ [] pre _ (first Major.base 0 post)
    (fun N there => some N (by simp [there])) holds
  obtain ⟨h₂, stored₂, holds₂⟩ := Holds.store_next law.toGrowing s₁
    (prevRecord Major.base Major.more (first Major.base 0 post) pre ++
      [⟨M.base, last Major.base 0 pre :: first Major.base 0 post :: M.more⟩]) post []
    (last Major.base 0 pre) (fun N there => some N (by simp [there])) (by simpa using holds₁)
  rw [List.append_nil, List.append_assoc, List.singleton_append] at holds₂
  have size := Holds.load law.toGrowing (s := s₁) (i := 3) _ _ _ holds₂ (by simp [Major.more])
  have pages := Holds.load law.toGrowing (s := s₁) (i := 2) _ _ _ holds₂ (by simp [Major.more])
  obtain ⟨r, h₃, freed, owns, kept, gone⟩ := law.free (law.perm holds₂.owns List.perm_middle)
  rw [← List.map_append] at owns kept
  have bypassed := layout.bypassed law.toGrowing holds₂ kept
  obtain ⟨s', after⟩ : ∃ s' : Liballoc σ, s' = { s₁ with
      host := h₃, allocated := s.allocated - M.size.setWidth 64 } := ⟨_, rfl⟩
  refine ⟨s', ?_, ?_, ?_⟩
  · subst after forgotten
    unfold Liballoc.release
    refine (bind_of_ok next _).trans ((bind_of_ok prev _).trans ?_)
    refine (bind_of_ok stored₁ _).trans ((bind_of_ok stored₂ _).trans ?_)
    exact (bind_of_ok size _).trans ((bind_of_ok pages _).trans (bind_of_ok freed _))
  · subst after forgotten
    refine ⟨⟨owns, ?_, root, layout.bypass_linked law.toGrowing bypassed, bet, layout.allocated_without, ?_⟩,
      ?_, ⟨rfl, rfl, rfl, rfl⟩, rfl⟩
    · intro N member
      refine layout.sound N ?_
      rcases List.mem_append.mp member with member | member <;> simp [member]
    · refine layout.inuse.trans ?_
      simp [empty]
    · intro N member x payload
      exact layout.bypass_payload law.toGrowing bypassed member payload
  · rw [after]
    exact gone

/-! ### `kfree` as a whole -/

/-- `UNALIGN` finds the end of the header. -/
theorem Layout.unalign (law : K.Growing Owns view) (layout : Layout Owns view s (pre ++ M :: post))
    (member : c ∈ M.minors) : s.unalign K c.ptr = .ok (c.addr + 24) := by
  have sound := layout.sound M (by simp)
  obtain ⟨-, low, high, byte⟩ := sound.ptr_bounds member
  obtain ⟨above, below, limit, room⟩ := sound.bounds member
  have inside : c.ptr - 16 ∈ M.area.range :=
    sound.payload_subset ⟨c, member, by omega, by omega⟩
  obtain ⟨p, n, cell⟩ := layout.cell.minors.mem member
  have read := law.load layout.owns (List.mem_map.mpr ⟨M, by simp, rfl⟩) inside
  unfold Minor.stop at below
  have here : (c.addr + 24).toNat = c.addr.toNat + 24 := by bv_omega
  obtain ⟨small, back⟩ := alignInfo_signExtend (p := c.addr + 24) (by omega)
  unfold Liballoc.unalign
  rw [read, ok_bind, cell.info]
  dsimp only
  rw [if_pos small]
  exact congrArg Except.ok back

/-- The best bet may change to the block that has lost a minor. -/
theorem Layout.rebet (law : K.Growing Owns view) (layout : Layout Owns view s (pre ++ M :: post)) :
    ∃ bet, s.rebet K M.base = .ok { s with bestBet := bet } ∧
      (bet = s.bestBet ∨ ∃ N ∈ pre ++ M :: post, bet = N.base) := by
  unfold Liballoc.rebet
  split
  next some =>
    rcases layout.bestBet with none | ⟨N, member, here⟩
    · exact absurd none some
    · obtain ⟨front, back, split⟩ := List.append_of_mem member
      have layoutN := layout
      rw [split] at layoutN
      obtain ⟨-, -, -, betSize, betUsage, -⟩ := layoutN.loadMajor law
      obtain ⟨-, -, -, size, usage, -⟩ := layout.loadMajor law
      rw [here, betSize, ok_bind, betUsage, ok_bind, size, ok_bind, usage, ok_bind]
      split
      · exact ⟨M.base, rfl, .inr ⟨M, by simp, rfl⟩⟩
      · exact ⟨s.bestBet, rfl, .inl here⟩
  next => exact ⟨s.bestBet, rfl, .inl rfl⟩

/-- `kfree` has returned: the blocks are `majors'`, and the lock is released. -/
structure Freed (Owns : σ → List PageArea → Prop) (view : σ → Memory) (s s' : Liballoc σ)
    (majors' : List Major) : Prop where
  layout : Layout Owns view s' majors'
  quiet : Quiet s.locked s'
  unlocked : s'.interruptFlag = s.interruptFlag

/-- How `kfree` ends for the minor `c` of the block `M`. -/
inductive FreeEnds (K : Hooks σ) (Owns : σ → List PageArea → Prop) (view : σ → Memory)
    (s : Liballoc σ) (pre : List Major) (M : Major) (post : List Major) (xs ys : List Minor)
    (c : Minor) : Except Panic (Liballoc σ) → Prop
  -- there are other minors in the block
  | stays {s' : Liballoc σ} (others : xs ++ ys ≠ [])
      (done : Freed Owns view s s' (pre ++ { M with minors := xs ++ ys } :: post))
      (kept : ∀ N ∈ pre ++ M :: post, ∀ x ∈ N.payload, view s'.host x = view s.host x)
      (dead : load32 (view s'.host) (field c.addr 3) = liballocDead) :
      FreeEnds K Owns view s pre M post xs ys c (.ok s')
  | released {s' : Liballoc σ} (last : xs ++ ys = []) (done : Freed Owns view s s' (pre ++ post))
      (kept : ∀ N ∈ pre ++ post, ∀ x ∈ N.payload, view s'.host x = view s.host x)
      (gone : ∀ x ∈ M.area.range, K.load8 s'.host x = .error (.pageFault x)) :
      FreeEnds K Owns view s pre M post xs ys c (.ok s')

theorem Layout.lock (layout : Layout Owns view s majors) : Layout Owns view s.locked majors :=
  ⟨layout.owns, layout.sound, layout.root, layout.linked, layout.bestBet, layout.allocated,
    layout.inuse⟩

theorem Layout.unlock (layout : Layout Owns view s majors) {flag : Bool} :
    Layout Owns view { s with interruptFlag := flag } majors :=
  ⟨layout.owns, layout.sound, layout.root, layout.linked, layout.bestBet, layout.allocated,
    layout.inuse⟩

/-- `kfree` takes out the minor, and the block with it if there is no other in it. -/
theorem free_spec (law : K.Lawful Owns view) (layout : Layout Owns view s (pre ++ M :: post))
    (split : M.minors = xs ++ c :: ys) :
    FreeEnds K Owns view s pre M post xs ys c (s.free K c.ptr) := by
  have sound := layout.sound M (by simp)
  have member : c ∈ M.minors := by simp [split]
  obtain ⟨-, low, -, -⟩ := sound.ptr_bounds member
  have some : c.ptr ≠ 0 := by
    apply ne_zero_of_pos
    omega
  have header : c.addr + 24 - 24 = c.addr := by bv_omega
  obtain ⟨-, -, block, magic, -, -⟩ := layout.lock.loadMinor law.toGrowing split
  obtain ⟨s₁, unlinked, left⟩ := layout.lock.unlink law.toGrowing split
  obtain ⟨-, -, -, -, -, load⟩ := left.layout.loadMajor law.toGrowing
  have locked : s₁.interruptFlag = false := by
    rw [left.state]
    rfl
  have counts : Quiet s.locked s₁ := by
    rw [left.state]
    exact ⟨rfl, rfl, rfl, rfl⟩
  -- the calls up to the block
  have call : s.free K c.ptr = s₁.cleanUp K M.base >>= fun s => s.unlock := by
    unfold Liballoc.free
    rw [if_neg some, layout.unalign law.toGrowing member, ok_bind, lock_eq, ok_bind, header]
    refine (bind_of_ok magic _).trans ?_
    rw [if_neg (by simp)]
    exact (bind_of_ok block _).trans (bind_of_ok unlinked _)
  rw [call, Liballoc.cleanUp, load, ok_bind]
  cases rest : xs ++ ys with
  | nil =>
    rw [first_nil, if_pos rfl]
    obtain ⟨s₂, released, done, gone⟩ := left.layout.release law rest
    rw [released, ok_bind, unlock_locked (done.locked.trans locked)]
    refine .released rest ⟨done.layout.unlock, ?_, ?_⟩ (fun N there x inside => ?_) gone
    · exact ⟨done.quiet.1.trans counts.1, done.quiet.2.trans counts.2,
        done.quiet.3.trans counts.3, done.quiet.4.trans counts.4⟩
    · exact done.quiet.4.trans counts.4
    · refine (done.kept N there x inside).trans (left.kept N ?_ x inside)
      rcases List.mem_append.mp there with there | there <;> simp [there]
  | cons e es =>
    have low : M.base.toNat + 24 ≤ e.addr.toNat :=
      ((left.layout.sound { M with minors := xs ++ ys } (by simp)).bounds
        (by show e ∈ xs ++ ys; simp [rest])).1
    rw [first_cons, if_neg (ne_zero_of_pos (by omega))]
    obtain ⟨bet, changed, known⟩ := left.layout.rebet law.toGrowing
    have off : { s₁ with bestBet := bet }.interruptFlag = false := locked
    rw [changed, ok_bind, unlock_locked off]
    refine .stays (by simp [rest]) ⟨(left.layout.bet known).unlock, ?_, counts.4⟩ left.kept
      left.dead
    exact ⟨counts.1, counts.2, counts.3, counts.4⟩

end Treeos
