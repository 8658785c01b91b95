import Treeos.Klibc.LiballocExec

/-!
# The space that `kmalloc` finds

The cases of `kmalloc` put a header into the first gap of a block that is large enough.
-/
namespace Treeos

open ByteMemory DoublyLinked Extents

variable {σ : Type} {K : Hooks σ} {Owns : σ → List PageArea → Prop} {view : σ → Memory}
variable {s s' : Liballoc σ} {M : Major} {b c d : Minor} {m m' : Memory}
variable {pre post : List Major} {xs ys zs ws : List Minor}
variable {reqSize size : BitVec 32}

/-! ### Links in a block -/

/-- A byte of the header of a minor. -/
def Minor.InHeader (c : Minor) (x : BitVec 32) : Prop :=
  c.addr.toNat ≤ x.toNat ∧ x.toNat < c.addr.toNat + 24

/-- A header with other links, in front of memory that has been kept. -/
theorem Minor.Cell.relink (sound : M.Sound) (member : b ∈ M.minors) {p n p' n' : BitVec 32}
    (cell : b.Cell m M.base p n)
    (header : Words m' b.addr [p', n', M.base, liballocMagic, b.size, b.reqSize])
    (payload : ∀ x : BitVec 32, b.addr.toNat + 24 ≤ x.toNat → x.toNat < b.stop → m' x = m x) :
    b.Cell m' M.base p' n' := by
  obtain ⟨-, low, high, byte⟩ := sound.ptr_bounds member
  refine ⟨header, ?_⟩
  rw [payload _ (by omega) (by omega)]
  exact cell.info

/-- The last of some headers gets another link, and the rest is kept. -/
theorem front_relinked (sound : M.Sound) (members : ∀ e ∈ xs, e ∈ M.minors)
    (order : xs.Pairwise fun d e => d.stop ≤ e.start) {next next' : BitVec 32}
    (seg : Seg Minor.addr (Minor.Cell m M.base) 0 next xs)
    (header : ∀ zs b, xs = zs ++ [b] →
      Words m' b.addr [last Minor.addr 0 zs, next', M.base, liballocMagic, b.size, b.reqSize])
    (kept : ∀ e ∈ xs, ∀ x : BitVec 32, e.addr.toNat ≤ x.toNat → x.toNat < e.stop →
      (∀ zs b, xs = zs ++ [b] → ¬b.InHeader x) → m' x = m x) :
    Seg Minor.addr (Minor.Cell m' M.base) 0 next' xs := by
  refine seg.relink_last (fun zs b split e there p n => ?_) fun zs b split cell => ?_
  · refine Minor.Cell.congr sound (members e (by simp [split, there])) fun x low high => ?_
    refine kept e (by simp [split, there]) x low high fun zs' b' split' => ?_
    obtain ⟨-, same⟩ := List.append_inj' (split.symm.trans split') rfl
    cases same
    -- what lies in front of the last header is none of its bytes
    rintro ⟨first, -⟩
    rw [split, List.pairwise_append] at order
    have behind : e.stop ≤ b.addr.toNat := order.2.2 e there b (by simp)
    omega
  · refine cell.relink sound (members b (by simp [split])) (header zs b split) ?_
    intro x low high
    refine kept b (by simp [split]) x (by omega) high fun zs' b' split' => ?_
    obtain ⟨-, same⟩ := List.append_inj' (split.symm.trans split') rfl
    cases same
    rintro ⟨-, last⟩
    omega

/-- The first of some headers gets another link, and the rest is kept. -/
theorem back_relinked (sound : M.Sound) (members : ∀ e ∈ ys, e ∈ M.minors)
    (order : ys.Pairwise fun d e => d.stop ≤ e.start) {prev prev' : BitVec 32}
    (seg : Seg Minor.addr (Minor.Cell m M.base) prev 0 ys)
    (header : ∀ d ws, ys = d :: ws → Words m' d.addr
      [prev', first Minor.addr 0 ws, M.base, liballocMagic, d.size, d.reqSize])
    (kept : ∀ e ∈ ys, ∀ x : BitVec 32, e.addr.toNat ≤ x.toNat → x.toNat < e.stop →
      (∀ d ws, ys = d :: ws → ¬d.InHeader x) → m' x = m x) :
    Seg Minor.addr (Minor.Cell m' M.base) prev' 0 ys := by
  refine seg.relink_first (fun d ws split cell => ?_) fun d ws split e there p n => ?_
  · refine cell.relink sound (members d (by simp [split])) (header d ws split) ?_
    intro x low high
    refine kept d (by simp [split]) x (by omega) high fun d' ws' split' => ?_
    cases split.symm.trans split'
    rintro ⟨-, last⟩
    omega
  · refine Minor.Cell.congr sound (members e (by simp [split, there])) fun x low high => ?_
    refine kept e (by simp [split, there]) x low high fun d' ws' split' => ?_
    cases split.symm.trans split'
    rintro ⟨-, last⟩
    rw [split, List.pairwise_cons] at order
    have behind : d.stop ≤ e.addr.toNat := order.1 e there
    unfold Minor.stop at behind
    omega

/-! ### A block and the rest of the heap -/

/-- A block of the heap with its links. -/
theorem Layout.cell (layout : Layout Owns view s (pre ++ M :: post)) :
    M.Cell (view s.host) (last Major.base 0 pre) (first Major.base 0 post) := by
  have linked := layout.linked
  rw [seg_append, seg_cons] at linked
  exact linked.2.1

/-- Areas of different blocks do not meet. -/
theorem Layout.apart (law : K.Growing Owns view) (layout : Layout Owns view s (pre ++ M :: post))
    {N : Major} (member : N ∈ pre ++ post) {x : BitVec 32} (there : x ∈ N.area.range) :
    x ∉ M.area.range := by
  have apart := law.apart layout.owns
  rw [List.map_append, List.map_cons, List.pairwise_append] at apart
  obtain ⟨-, back, seam⟩ := apart
  rcases List.mem_append.mp member with member | member
  · exact seam N.area (List.mem_map.mpr ⟨N, member, rfl⟩) M.area (by simp) x there
  · intro here
    exact (List.pairwise_cons.mp back).1 N.area (List.mem_map.mpr ⟨N, member, rfl⟩) x here there

/-- The bytes of a header are bytes of its block. -/
theorem Layout.header_mem {majors : List Major} (layout : Layout Owns view s majors)
    (member : M ∈ majors) {x : BitVec 32}
    (byte : M.base.toNat ≤ x.toNat ∧ x.toNat < M.base.toNat + 24) : x ∈ M.area.range := by
  have sound := layout.sound M member
  have low := sound.packed.le
  unfold Major.low at low
  exact sound.area.mem_range.mpr ⟨byte.1, by show x.toNat < M.high; omega⟩

/-- A byte is in one block only. -/
theorem Layout.unique (law : K.Growing Owns view) {majors : List Major}
    (layout : Layout Owns view s majors) {N : Major} (first : N ∈ majors) (second : M ∈ majors)
    {x : BitVec 32} (here : x ∈ N.area.range) (there : x ∈ M.area.range) : N = M := by
  obtain ⟨pre, post, rfl⟩ := List.append_of_mem second
  by_cases same : N = M
  · exact same
  · have other : N ∈ pre ++ post := by
      rcases List.mem_append.mp first with first | first
      · simp [first]
      · rcases List.mem_cons.mp first with here | first
        · exact absurd here same
        · simp [first]
    exact absurd there (layout.apart law other here)

/-- A step that has changed one block, and has not moved it. -/
theorem Layout.change (law : K.Growing Owns view) (layout : Layout Owns view s (pre ++ M :: post))
    {minors : List Minor} (sound : Major.Sound { M with minors := minors })
    (owns : Owns s'.host ((pre ++ M :: post).map Major.area))
    (cell : Major.Cell (view s'.host) (last Major.base 0 pre) (first Major.base 0 post)
      { M with minors := minors })
    (frame : ∀ x ∉ M.area.range, view s'.host x = view s.host x)
    (root : s'.memRoot = s.memRoot) (bestBet : s'.bestBet = s.bestBet)
    (allocated : s'.allocated = s.allocated)
    (inuse : s'.inuse = BitVec.ofNat 64 ((pre ++ { M with minors := minors } :: post).map
      fun M => (M.minors.map fun c => c.size.toNat).sum).sum) :
    Layout Owns view s' (pre ++ { M with minors := minors } :: post) := by
  have linked := layout.linked
  rw [seg_append, seg_cons] at linked
  obtain ⟨front, here, back⟩ := linked
  have kept (N : Major) (member : N ∈ pre ++ post) (p n : BitVec 32)
      (there : N.Cell (view s.host) p n) : N.Cell (view s'.host) p n := by
    refine there.congr (layout.sound N ?_) fun x inside => frame x (layout.apart law member inside)
    rcases List.mem_append.mp member with member | member <;> simp [member]
  have other (N : Major) (member : N ∈ pre ++ { M with minors := minors } :: post) :
      N = { M with minors := minors } ∨ N ∈ pre ++ M :: post := by
    rcases List.mem_append.mp member with member | member
    · simp [member]
    · rcases List.mem_cons.mp member with same | member
      · exact .inl same
      · simp [member]
  constructor
  · rw [List.map_append, List.map_cons] at *
    exact owns
  · intro N member
    rcases other N member with rfl | member
    · exact sound
    · exact layout.sound N member
  · rw [root, layout.root]
    simp
  · rw [seg_append, seg_cons]
    exact ⟨front.imp fun N member => kept N (by simp [member]), cell,
      back.imp fun N member => kept N (by simp [member])⟩
  · rw [bestBet]
    rcases layout.bestBet with none | ⟨N, member, same⟩
    · exact .inl none
    · right
      rcases List.mem_append.mp member with member | member
      · exact ⟨N, by simp [member], same⟩
      · rcases List.mem_cons.mp member with rfl | member
        · exact ⟨_, List.mem_append_right _ List.mem_cons_self, same⟩
        · exact ⟨N, by simp [member], same⟩
  · rw [allocated, layout.allocated]
    simp
  · exact inuse

/-! ### Records in a block -/

/-- A record of six words. -/
structure Six (r : Record) : Prop where
  length : r.words.length = 6
  fits : r.base.toNat + 24 ≤ 2 ^ 32

theorem Six.mem_span {r : Record} (six : Six r) {x : BitVec 32} : x ∈ r.span ↔
    r.base.toNat ≤ x.toNat ∧ x.toNat < r.base.toNat + 24 := by
  have fits := six.fits
  unfold Record.span
  rw [six.length, mem_span_iff (by omega)]

/-- Records in the pages of a block, apart from each other. -/
theorem Layout.holds (layout : Layout Owns view s (pre ++ M :: post)) {rs : List Record}
    (six : ∀ r ∈ rs, r.words.length = 6) (words : ∀ r ∈ rs, Words (view s.host) r.base r.words)
    (inside : ∀ r ∈ rs, M.base.toNat ≤ r.base.toNat ∧ r.base.toNat + 24 ≤ M.high)
    (order : rs.Pairwise fun r r' => r.base.toNat + 24 ≤ r'.base.toNat ∨
      r'.base.toNat + 24 ≤ r.base.toNat) :
    Holds Owns view ((pre ++ M :: post).map Major.area) (view s.host) rs s.host := by
  have place := (layout.sound M (by simp)).area
  have fits : M.high < 2 ^ 32 := place.fits
  have here (r : Record) (member : r ∈ rs) : Six r := by
    have bound := inside r member
    exact ⟨six r member, by omega⟩
  refine ⟨layout.owns, ⟨?_, ?_, words, fun _ _ => rfl⟩, ?_⟩
  · refine order.imp_of_mem fun {r r'} first second apart x inside₁ inside₂ => ?_
    rw [(here r first).mem_span] at inside₁
    rw [(here r' second).mem_span] at inside₂
    omega
  · intro r member
    rw [six r member]
    decide
  · intro r member
    refine ⟨M.area, by simp, fun x there => ?_⟩
    have bound := inside r member
    rw [(here r member).mem_span] at there
    rw [place.mem_range]
    exact ⟨by show M.base.toNat ≤ _; omega, by show _ < M.high; omega⟩

/-- The end of every case. -/
theorem Holds.claim (law : K.Growing Owns view) {as : List PageArea} {m₀ : Memory} {h : σ}
    {r : Record} {back : List Record} (holds : Holds Owns view as m₀ (r :: back) h)
    (bound : 4 < r.words.length) (locked : s.interruptFlag = false) {min : BitVec 32} {a : PageArea}
    (member : a ∈ as) (inside : alignedPtr (min + 24) - 16 ∈ a.range)
    (outside : ∀ r' ∈ r :: back, alignedPtr (min + 24) - 16 ∉ r'.span)
    (size : BitVec 32) : ∃ h', (s.withHost h).claim K r.base min size =
        .ok (alignedPtr (min + 24), { s with
          host := h', inuse := s.inuse + size.setWidth 64, interruptFlag := s.enableInt }) ∧
      Holds Owns view as
        (ByteMemory.store8 m₀ (alignedPtr (min + 24) - 16) (alignInfo (min + 24)))
        (r.set 4 (r.words[4] + (size + 24)) :: back) h' ∧
      view h' (alignedPtr (min + 24) - 16) = alignInfo (min + 24) := by
  have usage := holds.load (s := s) law [] r back bound
  obtain ⟨h₁, stored, holds₁⟩ := holds.store (s := s) law [] r back bound
    (r.words[4] + (size + 24))
  have outside' : ∀ r' ∈ r.set 4 (r.words[4] + (size + 24)) :: back,
      alignedPtr (min + 24) - 16 ∉ r'.span := by
    intro r' there
    rcases List.mem_cons.mp there with rfl | there
    · simpa using outside r (by simp)
    · exact outside r' (by simp [there])
  obtain ⟨h₂, aligned, holds₂, value⟩ := Holds.store8 law
    (s := { s with inuse := s.inuse + size.setWidth 64 }) holds₁ member inside outside'
    (alignInfo (min + 24))
  refine ⟨h₂, ?_, holds₂, ?_⟩
  · have pointer := (align_eq (K := K) _ _).trans (bind_ok_iff.mpr ⟨_, aligned, rfl⟩)
    exact bind_ok_iff.mpr ⟨_, usage, bind_ok_iff.mpr ⟨_, stored, bind_ok_iff.mpr ⟨_, pointer,
      bind_ok_iff.mpr ⟨_, unlock_locked locked, rfl⟩⟩⟩⟩
  · rw [value]
    exact if_pos rfl

/-! ### A new header -/

/-- A minor between `xs` and `ys`, of which there was none in the block `M` before. -/
structure Inserted (Owns : σ → List PageArea → Prop) (view : σ → Memory) (s s' : Liballoc σ)
    (pre : List Major) (M : Major) (post : List Major) (xs ys : List Minor) (c : Minor) : Prop where
  layout : Layout Owns view s' (pre ++ { M with minors := xs ++ c :: ys } :: post)
  state : s' = { s with
    host := s'.host, inuse := s.inuse + c.size.setWidth 64, interruptFlag := s.enableInt }
  kept : ∀ N ∈ pre ++ M :: post, ∀ x ∈ N.payload, view s'.host x = view s.host x

/-- A minor fits into a gap of the block. -/
structure Fits (M : Major) (xs ys : List Minor) (c : Minor) : Prop where
  split : M.minors = xs ++ ys
  low : finish Minor.stop M.low xs ≤ c.start
  high : c.stop ≤ begin Minor.start M.high ys
  room : c.reqSize.toNat + 32 ≤ c.size.toNat

/-- A byte of the header of the block, of the new header, or of one of the others. -/
def Header (M : Major) (c : Minor) (x : BitVec 32) : Prop :=
  (M.base.toNat ≤ x.toNat ∧ x.toNat < M.base.toNat + 24) ∨
    ∃ d, (d = c ∨ d ∈ M.minors) ∧ d.addr.toNat ≤ x.toNat ∧ x.toNat < d.addr.toNat + 24

theorem Fits.sound (fits : Fits M xs ys c) (sound : M.Sound) :
    Major.Sound { M with minors := xs ++ c :: ys } :=
  sound.insert fits.split fits.low fits.high fits.room

/-- The new minor and the others lie apart. -/
theorem Fits.around (fits : Fits M xs ys c) (sound : M.Sound) :
    (∀ d ∈ xs, d.stop ≤ c.start) ∧ ∀ d ∈ ys, c.stop ≤ d.start := (fits.sound sound).packed.around

/-- Memory behind a header is no header. -/
theorem Fits.not_header (fits : Fits M xs ys c) (sound : M.Sound) {d : Minor}
    (member : d ∈ xs ++ c :: ys) {x : BitVec 32} (low : d.addr.toNat + 24 ≤ x.toNat)
    (high : x.toNat < d.stop) : ¬Header M c x := by
  have sound' := fits.sound sound
  have bounds := sound'.bounds member
  rintro (⟨first, last⟩ | ⟨e, listed, first, last⟩)
  · have base : M.base.toNat + 24 ≤ d.addr.toNat := bounds.1
    omega
  · have there : e ∈ xs ++ c :: ys := by
      rcases listed with rfl | listed
      · simp
      · rw [fits.split] at listed
        rcases List.mem_append.mp listed with listed | listed <;> simp [listed]
    by_cases same : e = d
    · rw [same] at last
      omega
    · -- one of the two ends in front of the other
      obtain ⟨front, back, split⟩ := List.append_of_mem member
      have packed := sound'.packed
      rw [show Major.minors { M with minors := xs ++ c :: ys } = front ++ d :: back from split]
        at packed
      have around := packed.around
      rw [split] at there
      unfold Minor.stop Minor.start at *
      rcases List.mem_append.mp there with there | there
      · have order := around.1 e there
        omega
      · rcases List.mem_cons.mp there with there | there
        · exact same there
        · have order := around.2 e there
          omega

theorem Fits.header_mem (fits : Fits M xs ys c) (sound : M.Sound) {x : BitVec 32}
    (header : Header M c x) : x ∈ M.area.range := by
  have sound' := fits.sound sound
  have low := sound.packed.le
  unfold Major.low at low
  rw [sound.area.mem_range]
  show M.base.toNat ≤ x.toNat ∧ x.toNat < M.high
  rcases header with ⟨first, last⟩ | ⟨d, listed, first, last⟩
  · omega
  · have there : d ∈ xs ++ c :: ys := by
      rcases listed with rfl | listed
      · simp
      · rw [fits.split] at listed
        rcases List.mem_append.mp listed with listed | listed <;> simp [listed]
    obtain ⟨lower, upper, -, -⟩ := sound'.bounds there
    have bottom : M.base.toNat + 24 ≤ d.addr.toNat := lower
    have top : d.stop ≤ M.high := upper
    unfold Minor.stop at top
    omega

/-- What the four cases have in common: the accounting, and what they leave alone. -/
theorem Layout.inserted (law : K.Growing Owns view) (layout : Layout Owns view s (pre ++ M :: post))
    (fits : Fits M xs ys c) {rs : List Record} {h' : σ}
    (holds : Holds Owns view ((pre ++ M :: post).map Major.area)
      (ByteMemory.store8 (view s.host) (c.ptr - 16) (alignInfo (c.addr + 24))) rs h')
    (info : view h' (c.ptr - 16) = alignInfo (c.addr + 24))
    (touched : ∀ r ∈ rs, ∀ x ∈ r.span, Header M c x)
    (header : Words (view h') M.base [last Major.base 0 pre, first Major.base 0 post, M.pages,
      M.size, BitVec.ofNat 32 M.usage + (c.size + 24), first Minor.addr 0 (xs ++ c :: ys)])
    (new : Words (view h') c.addr [last Minor.addr 0 xs, first Minor.addr 0 ys, M.base,
      liballocMagic, c.size, c.reqSize])
    (front : Seg Minor.addr (Minor.Cell (view h') M.base) 0 c.addr xs)
    (back : Seg Minor.addr (Minor.Cell (view h') M.base) c.addr 0 ys) :
    Inserted Owns view s { s with
      host := h', inuse := s.inuse + c.size.setWidth 64, interruptFlag := s.enableInt }
      pre M post xs ys c := by
  have sound := layout.sound M (by simp)
  have sound' := fits.sound sound
  have here : c ∈ xs ++ c :: ys := by simp
  obtain ⟨-, low, high, byte⟩ := sound'.ptr_bounds here
  obtain ⟨above, below, top, -⟩ := sound'.bounds here
  have kept (x : BitVec 32) (other : x ≠ c.ptr - 16) (free : ¬Header M c x) :
      view h' x = view s.host x := by
    rw [holds.records.frame x fun r member inside => free (touched r member x inside),
      store8_of_ne other]
  -- what is outside of the block is neither
  have frame (x : BitVec 32) (outside : x ∉ M.area.range) : view h' x = view s.host x := by
    refine kept x ?_ fun header => outside (fits.header_mem sound header)
    rintro rfl
    have lower : M.base.toNat + 24 ≤ c.addr.toNat := above
    have upper : c.stop ≤ M.high := below
    refine outside (sound.area.mem_range.mpr ⟨?_, ?_⟩)
    · show M.base.toNat ≤ (c.ptr - 16).toNat
      omega
    · show (c.ptr - 16).toNat < M.high
      omega
  refine ⟨layout.change law sound' holds.owns ?_ frame rfl rfl rfl ?_, rfl, ?_⟩
  · constructor
    · rw [show Major.usage { M with minors := xs ++ c :: ys } = M.usage + (c.size.toNat + 24) by
        rw [usage_insert, ← fits.split], BitVec.ofNat_add]
      have size : BitVec.ofNat 32 (c.size.toNat + 24) = c.size + 24 := by
        rw [BitVec.ofNat_add, BitVec.ofNat_toNat, BitVec.setWidth_eq]
        rfl
      rw [size]
      exact header
    · rw [seg_append, seg_cons]
      exact ⟨front, ⟨new, info⟩, back⟩
  · show s.inuse + c.size.setWidth 64 = _
    rw [layout.inuse]
    simp only [List.map_append, List.map_cons, List.sum_append, List.sum_cons, fits.split]
    apply BitVec.eq_of_toNat_eq
    rw [BitVec.toNat_add, BitVec.toNat_setWidth, BitVec.toNat_ofNat, BitVec.toNat_ofNat]
    have small := c.size.isLt
    omega
  · intro N member x inside
    obtain ⟨d, listed, first, last⟩ := inside
    by_cases same : N = M
    · subst same
      have there : d ∈ xs ++ c :: ys := by
        rw [fits.split] at listed
        rcases List.mem_append.mp listed with listed | listed <;> simp [listed]
      refine kept x ?_ (fits.not_header sound there first last)
      rintro rfl
      have around := fits.around sound
      rw [fits.split] at listed
      unfold Minor.start at around
      rcases List.mem_append.mp listed with listed | listed
      · have order := around.1 d listed
        omega
      · have order := around.2 d listed
        omega
    · refine frame x fun there => same ?_
      have soundN := layout.sound N member
      have place := soundN.payload_subset ⟨d, listed, first, last⟩
      exact layout.unique law member (by simp) place there

/-! ### The links of a new header -/

/-- The header of a minor in memory. -/
def Minor.record (c : Minor) (block prev next : BitVec 32) : Record :=
  ⟨c.addr, [prev, next, block, liballocMagic, c.size, c.reqSize]⟩

/-- The header of a block in memory. -/
def Major.record (M : Major) (prev next usage first : BitVec 32) : Record :=
  ⟨M.base, [prev, next, M.pages, M.size, usage, first]⟩

/-- The headers on both sides of the new one are linked to it. -/
structure LinksTo (M : Major) (xs ys : List Minor) (c : Minor) (rs : List Record) : Prop where
  new : c.record M.base (last Minor.addr 0 xs) (first Minor.addr 0 ys) ∈ rs
  before : ∀ zs b, xs = zs ++ [b] → b.record M.base (last Minor.addr 0 zs) c.addr ∈ rs
  behind : ∀ d ws, ys = d :: ws → d.record M.base c.addr (first Minor.addr 0 ws) ∈ rs
  only : ∀ r ∈ rs, r.words.length = 6 ∧ (r.base = c.addr ∨
    (∃ zs b, xs = zs ++ [b] ∧ r.base = b.addr) ∨ ∃ d ws, ys = d :: ws ∧ r.base = d.addr)

/-- The other headers of the block are linked as before. -/
theorem Fits.links (fits : Fits M xs ys c) (sound : M.Sound) {rs : List Record}
    (linked : LinksTo M xs ys c rs) (seg : Seg Minor.addr (Minor.Cell m M.base) 0 0 M.minors)
    (words : ∀ r ∈ rs, Words m' r.base r.words)
    (kept : ∀ d ∈ M.minors, ∀ x : BitVec 32, d.addr.toNat ≤ x.toNat → x.toNat < d.stop →
      (∀ zs b, xs = zs ++ [b] → ¬b.InHeader x) → (∀ e ws, ys = e :: ws → ¬e.InHeader x) →
      m' x = m x) :
    Seg Minor.addr (Minor.Cell m' M.base) 0 c.addr xs ∧
      Seg Minor.addr (Minor.Cell m' M.base) c.addr 0 ys := by
  have around := fits.around sound
  have packed := sound.packed.pairwise
  rw [fits.split] at seg packed kept
  rw [seg_append] at seg
  obtain ⟨front, back, seam⟩ := List.pairwise_append.mp packed
  have members (e : Minor) (here : e ∈ xs ++ ys) : e ∈ M.minors := by rwa [fits.split]
  constructor
  · refine front_relinked sound (fun e here => members e (List.mem_append_left _ here)) front seg.1
      (fun zs b split => words _ (linked.before zs b split)) fun e here x low high away => ?_
    refine kept e (by simp [here]) x low high away fun d ws split byte => ?_
    have order : e.stop ≤ d.addr.toNat := seam e here d (by simp [split])
    have first := byte.1
    omega
  · refine back_relinked sound (fun e here => members e (List.mem_append_right _ here)) back seg.2
      (fun d ws split => words _ (linked.behind d ws split)) fun e here x low high away => ?_
    refine kept e (by simp [here]) x low high (fun zs b split byte => ?_) away
    have order : b.stop ≤ e.addr.toNat := seam b (by simp [split]) e here
    have last := byte.2
    unfold Minor.stop at order
    omega

/-- What the four cases have in common once the new header is linked. -/
theorem Layout.claim (law : K.Growing Owns view) (layout : Layout Owns view s (pre ++ M :: post))
    (locked : s.interruptFlag = false) (fits : Fits M xs ys c) {rs : List Record} {h₁ : σ}
    (linked : LinksTo M xs ys c rs)
    (holds : Holds Owns view ((pre ++ M :: post).map Major.area) (view s.host)
      (M.record (last Major.base 0 pre) (first Major.base 0 post) (BitVec.ofNat 32 M.usage)
        (first Minor.addr 0 (xs ++ c :: ys)) :: rs) h₁) :
    ∃ s', (s.withHost h₁).claim K M.base c.addr c.size = .ok (c.ptr, s') ∧
      Inserted Owns view s s' pre M post xs ys c := by
  have sound := layout.sound M (by simp)
  have sound' := fits.sound sound
  have here : c ∈ xs ++ c :: ys := by simp
  have bounds := sound'.bounds here
  have ptr := sound'.ptr_bounds here
  have sub (d : Minor) (member : d ∈ xs ++ ys) : d ∈ M.minors := by rwa [fits.split]
  -- the records are headers
  have headers (r : Record) (member : r ∈ rs) (x : BitVec 32) (inside : x ∈ r.span) :
      ∃ d, (d = c ∨ d ∈ M.minors) ∧ d.InHeader x ∧ (d = c ∨
        (∃ zs, xs = zs ++ [d]) ∨ ∃ ws, ys = d :: ws) := by
    obtain ⟨length, places⟩ := linked.only r member
    have byte (d : Minor) (same : r.base = d.addr) (listed : d ∈ xs ++ c :: ys) : d.InHeader x := by
      obtain ⟨-, high, top, -⟩ := sound'.bounds listed
      unfold Minor.stop at high
      have six : Six r := ⟨length, by rw [same]; omega⟩
      rw [six.mem_span, same] at inside
      exact inside
    rcases places with same | ⟨zs, b, rfl, same⟩ | ⟨d, ws, rfl, same⟩
    · exact ⟨c, .inl rfl, byte c same here, .inl rfl⟩
    · exact ⟨b, .inr (sub b (by simp)), byte b same (by simp), .inr (.inl ⟨zs, rfl⟩)⟩
    · exact ⟨d, .inr (sub d (by simp)), byte d same (by simp), .inr (.inr ⟨ws, rfl⟩)⟩
  have major (x : BitVec 32) (p n u f : BitVec 32) (inside : x ∈ (M.record p n u f).span) :
      M.base.toNat ≤ x.toNat ∧ x.toNat < M.base.toNat + 24 := by
    have low : M.base.toNat + 24 ≤ c.addr.toNat := bounds.1
    have six : Six (M.record p n u f) := ⟨rfl, by show M.base.toNat + 24 ≤ _; omega⟩
    exact six.mem_span.mp inside
  have touched (p n u f : BitVec 32) :
      ∀ r ∈ M.record p n u f :: rs, ∀ x ∈ r.span, Header M c x := by
    intro r member x inside
    rcases List.mem_cons.mp member with rfl | member
    · exact .inl (major x p n u f inside)
    · obtain ⟨d, listed, byte, -⟩ := headers r member x inside
      exact .inr ⟨d, listed, byte⟩
  -- the byte of the alignment is behind the new header
  have memory : c.addr.toNat + 24 ≤ (c.ptr - 16).toNat ∧ (c.ptr - 16).toNat < c.stop := by omega
  have block : c.ptr - 16 ∈ M.area.range := by
    have low : M.base.toNat + 24 ≤ c.addr.toNat := bounds.1
    have high : c.stop ≤ M.high := bounds.2.1
    rw [sound.area.mem_range]
    constructor
    · show M.base.toNat ≤ (c.ptr - 16).toNat
      omega
    · show (c.ptr - 16).toNat < M.high
      omega
  have outside (p n u f : BitVec 32) : ∀ r ∈ M.record p n u f :: rs, c.ptr - 16 ∉ r.span :=
    fun r member inside => fits.not_header sound here memory.1 memory.2
      (touched p n u f r member _ inside)
  obtain ⟨h', claimed, holds', info⟩ := Holds.claim law (s := s) holds
    (by simp [Major.record]) locked (a := M.area) (by simp)
    block (outside _ _ _ _) c.size
  refine ⟨_, claimed, ?_⟩
  have words : ∀ r ∈ rs, Words (view h') r.base r.words := fun r member =>
    holds'.records.words r (List.mem_cons_of_mem _ member)
  have links := fits.links sound linked layout.cell.minors words fun d member x low high before behind => by
    have other : x ≠ c.ptr - 16 := by
      rintro rfl
      have around := fits.around sound
      have listed := member
      rw [fits.split] at listed
      unfold Minor.start at around
      rcases List.mem_append.mp listed with listed | listed
      · have order := around.1 d listed
        omega
      · have order := around.2 d listed
        omega
    rw [holds'.records.frame x ?_]
    · exact store8_of_ne other
    · intro r there inside
      rcases List.mem_cons.mp there with rfl | there
      · have base := major x _ _ _ _ inside
        have low' := (sound.bounds member).1
        omega
      · obtain ⟨e, -, byte, kind⟩ := headers r there x inside
        rcases kind with rfl | ⟨zs, same⟩ | ⟨ws, same⟩
        · have around := fits.around sound
          have listed := member
          rw [fits.split] at listed
          unfold Minor.InHeader at byte
          unfold Minor.start Minor.stop at *
          rcases List.mem_append.mp listed with listed | listed
          · have order := around.1 d listed
            omega
          · have order := around.2 d listed
            omega
        · exact before zs e same byte
        · exact behind e ws same byte
  exact layout.inserted law fits holds' info (touched _ _ _ _)
    (holds'.records.words _ List.mem_cons_self) (words _ linked.new) links.1 links.2

/-! ### The stores of the four cases -/

section
variable {as : List PageArea} {maj : Record} {block prev next old : BitVec 32}

/-- The stores of CASE 2 -/
theorem case2_stores (law : K.Growing Owns view) {p n u : BitVec 32} (addr : c.addr = M.base + 24)
    (holds : Holds Owns view as m [M.record p n u old, ⟨c.addr, wordsAt m c.addr 6⟩] s.host) :
    ∃ h₁, s.case2 K c.reqSize c.size M.base = (s.withHost h₁).claim K M.base c.addr c.size ∧
      Holds Owns view as m [M.record p n u c.addr, c.record M.base 0 0] h₁ := by
  obtain ⟨h₁, stored₁, holds₁⟩ := Holds.store law (s := s) (i := 5)
    [] (M.record p n u old) [_] holds (by simp [Major.record]) c.addr
  have first := Holds.load law (s := s) (i := 5) [] _ [_] holds₁ (by simp [Major.record])
  obtain ⟨h₂, stored₂, holds₂⟩ := Holds.storeAll law (s := s) [_] _ [] holds₁
    [(MinorField.magic, liballocMagic), (MinorField.prev, 0), (MinorField.next, 0),
      (MinorField.block, M.base), (MinorField.size, c.size), (MinorField.reqSize, c.reqSize)]
    rfl
  refine ⟨h₂, ?_, holds₂⟩
  unfold Liballoc.case2
  rw [← addr]
  exact (bind_of_ok stored₁ _).trans ((bind_of_ok first _).trans (bind_of_ok stored₂ _))

/-- The stores of CASE 3 -/
theorem case3_stores (law : K.Growing Owns view) {p n u : BitVec 32} (addr : c.addr = M.base + 24)
    (holds : Holds Owns view as m [M.record p n u d.addr, d.record M.base old next,
      ⟨c.addr, wordsAt m c.addr 6⟩] s.host) :
    ∃ h₁, s.case3 K c.reqSize c.size M.base = (s.withHost h₁).claim K M.base c.addr c.size ∧
      Holds Owns view as m [M.record p n u c.addr, d.record M.base c.addr next,
        c.record M.base 0 d.addr] h₁ := by
  have first : s.load K M.base MajorField.first = .ok d.addr :=
    Holds.load law (s := s) (i := 5) [] _ [_, _] holds (by simp [Major.record])
  obtain ⟨h₁, stored₁, holds₁⟩ := Holds.store law (s := s) (i := 0)
    [_] (d.record M.base old next) [_] holds (by simp [Minor.record]) c.addr
  have min := Holds.load law (s := s) (i := 0) [_] _ [_] holds₁ (by simp [Minor.record])
  obtain ⟨h₂, stored₂, holds₂⟩ := Holds.store law (s := s) (i := 1)
    [_, _] _ [] holds₁ (by simp) d.addr
  obtain ⟨h₃, stored₃, holds₃⟩ := Holds.store law (s := s) (i := 5)
    [] (M.record p n u d.addr) [_, _] holds₂ (by simp [Major.record]) c.addr
  obtain ⟨h₄, stored₄, holds₄⟩ := Holds.storeAll law (s := s) [_, _] _ [] holds₃
    [(MinorField.magic, liballocMagic), (MinorField.prev, 0), (MinorField.block, M.base),
      (MinorField.size, c.size), (MinorField.reqSize, c.reqSize)]
    rfl
  refine ⟨h₄, ?_, holds₄⟩
  unfold Liballoc.case3
  rw [first, ok_bind, ← addr]
  exact (bind_of_ok stored₁ _).trans ((bind_of_ok min _).trans ((bind_of_ok stored₂ _).trans
    ((bind_of_ok stored₃ _).trans (bind_of_ok stored₄ _))))

/-- The stores of CASE 4.1 -/
theorem case41_stores (law : K.Growing Owns view) (addr : c.addr = b.addr + 24 + b.size)
    (holds : Holds Owns view as m [maj, b.record block prev old,
      ⟨c.addr, wordsAt m c.addr 6⟩] s.host) :
    ∃ h₁, s.case41 K c.reqSize c.size block b.addr =
        (s.withHost h₁).claim K block c.addr c.size ∧
      Holds Owns view as m [maj, b.record block prev c.addr, c.record block b.addr 0] h₁ := by
  have size : s.load K b.addr MinorField.size = .ok b.size :=
    Holds.load law (s := s) (i := 4) [_] _ [_] holds (by simp [Minor.record])
  obtain ⟨h₁, stored₁, holds₁⟩ := Holds.store law (s := s) (i := 1)
    [_] (b.record block prev old) [_] holds (by simp [Minor.record]) c.addr
  have link := Holds.load law (s := s) (i := 1) [_] _ [_] holds₁ (by simp [Minor.record])
  obtain ⟨h₂, stored₂, holds₂⟩ := Holds.store law (s := s) (i := 0)
    [_, _] _ [] holds₁ (by simp) b.addr
  obtain ⟨h₃, stored₃, holds₃⟩ := Holds.storeAll law (s := s) [_, _] _ [] holds₂
    [(MinorField.next, 0), (MinorField.magic, liballocMagic), (MinorField.block, block),
      (MinorField.size, c.size), (MinorField.reqSize, c.reqSize)]
    rfl
  refine ⟨h₃, ?_, holds₃⟩
  unfold Liballoc.case41
  rw [size, ok_bind, ← addr]
  exact (bind_of_ok stored₁ _).trans ((bind_of_ok link _).trans ((bind_of_ok stored₂ _).trans
    (bind_of_ok stored₃ _)))

/-- The stores of CASE 4.2 -/
theorem case42_stores (law : K.Growing Owns view) (addr : c.addr = b.addr + 24 + b.size)
    (holds : Holds Owns view as m [maj, b.record block prev d.addr, d.record block b.addr next,
      ⟨c.addr, wordsAt m c.addr 6⟩] s.host) :
    ∃ h₁, s.case42 K c.reqSize c.size block b.addr =
        (s.withHost h₁).claim K block c.addr c.size ∧
      Holds Owns view as m [maj, b.record block prev c.addr, d.record block c.addr next,
        c.record block b.addr d.addr] h₁ := by
  have size : s.load K b.addr MinorField.size = .ok b.size :=
    Holds.load law (s := s) (i := 4) [_] _ [_, _] holds (by simp [Minor.record])
  have link : s.load K b.addr MinorField.next = .ok d.addr :=
    Holds.load law (s := s) (i := 1) [_] _ [_, _] holds (by simp [Minor.record])
  obtain ⟨h₁, stored₁, holds₁⟩ := Holds.storeAll law (s := s) [_, _, _] _ [] holds
    [(MinorField.magic, liballocMagic), (MinorField.next, d.addr), (MinorField.prev, b.addr),
      (MinorField.size, c.size), (MinorField.reqSize, c.reqSize), (MinorField.block, block)]
    rfl
  obtain ⟨h₂, stored₂, holds₂⟩ := Holds.store law (s := s) (i := 0)
    [_, _] (d.record block b.addr next) [_] holds₁ (by simp [Minor.record]) c.addr
  obtain ⟨h₃, stored₃, holds₃⟩ := Holds.store law (s := s) (i := 1)
    [_] (b.record block prev d.addr) [_, _] holds₂ (by simp [Minor.record]) c.addr
  refine ⟨h₃, ?_, holds₃⟩
  unfold Liballoc.case42
  rw [size, ok_bind, link, ok_bind, ← addr]
  exact (bind_of_ok stored₁ _).trans ((bind_of_ok stored₂ _).trans (bind_of_ok stored₃ _))

end

/-! ### The four cases -/

/-- CASE 2 -/
theorem case2_spec (law : K.Growing Owns view) (layout : Layout Owns view s (pre ++ M :: post))
    (locked : s.interruptFlag = false) (fits : Fits M [] [] c) (addr : c.addr = M.base + 24) :
    ∃ s', s.case2 K c.reqSize c.size M.base = .ok (c.ptr, s') ∧
      Inserted Owns view s s' pre M post [] [] c := by
  have sound := layout.sound M (by simp)
  have cell := layout.cell
  have holds : Holds Owns view ((pre ++ M :: post).map Major.area) (view s.host)
      [M.record (last Major.base 0 pre) (first Major.base 0 post) (BitVec.ofNat 32 M.usage)
          (first Minor.addr 0 M.minors), ⟨c.addr, wordsAt (view s.host) c.addr 6⟩] s.host := by
    have bounds := (fits.sound sound).bounds (c := c) (by simp)
    have high : Major.high { M with minors := [] ++ c :: [] } = M.high := rfl
    simp only [Minor.stop] at bounds
    refine layout.holds ?_ ?_ ?_ ?_
    · simp [Major.record]
    · simp only [List.forall_mem_cons]
      exact ⟨cell.header, words_wordsAt _ _ 6, List.forall_mem_nil _⟩
    · simp [Major.record]
      omega
    · simp [Major.record]
      omega
  obtain ⟨h₁, stores, holds₁⟩ := case2_stores law addr holds
  have linked : LinksTo M [] [] c [c.record M.base 0 0] := by
    constructor <;> simp [Minor.record]
  obtain ⟨s', claimed, inserted⟩ := layout.claim law locked fits linked holds₁
  exact ⟨s', stores.trans claimed, inserted⟩

/-- CASE 3 -/
theorem case3_spec (law : K.Growing Owns view) (layout : Layout Owns view s (pre ++ M :: post))
    (locked : s.interruptFlag = false) (fits : Fits M [] (d :: ws) c)
    (addr : c.addr = M.base + 24) :
    ∃ s', s.case3 K c.reqSize c.size M.base = .ok (c.ptr, s') ∧
      Inserted Owns view s s' pre M post [] (d :: ws) c := by
  have sound := layout.sound M (by simp)
  have cell := layout.cell
  have header := cell.header
  have minors := cell.minors
  simp only [fits.split, List.nil_append, seg_cons, first_cons] at minors header
  have holds : Holds Owns view ((pre ++ M :: post).map Major.area) (view s.host)
      [M.record (last Major.base 0 pre) (first Major.base 0 post) (BitVec.ofNat 32 M.usage) d.addr,
        d.record M.base 0 (first Minor.addr 0 ws),
        ⟨c.addr, wordsAt (view s.host) c.addr 6⟩] s.host := by
    have order := (fits.around sound).2 d (by simp)
    have boundsC := (fits.sound sound).bounds (c := c) (by simp)
    have boundsD := sound.bounds (c := d) (by simp [fits.split])
    have high : Major.high { M with minors := [] ++ c :: d :: ws } = M.high := rfl
    simp only [Minor.start, Minor.stop] at order boundsC boundsD
    refine layout.holds ?_ ?_ ?_ ?_
    · simp [Major.record, Minor.record]
    · simp only [List.forall_mem_cons]
      exact ⟨header, minors.1.header, words_wordsAt _ _ 6, List.forall_mem_nil _⟩
    · simp [Major.record, Minor.record]
      omega
    · simp [Major.record, Minor.record]
      omega
  obtain ⟨h₁, stores, holds₁⟩ := case3_stores law addr holds
  have linked : LinksTo M [] (d :: ws) c
      [d.record M.base c.addr (first Minor.addr 0 ws), c.record M.base 0 d.addr] := by
    constructor
    · simp
    · simp
    · intro d' ws' same
      cases same
      simp
    · simp [Minor.record]
  obtain ⟨s', claimed, inserted⟩ := layout.claim law locked fits linked holds₁
  exact ⟨s', stores.trans claimed, inserted⟩

/-- CASE 4.1 -/
theorem case41_spec (law : K.Growing Owns view) (layout : Layout Owns view s (pre ++ M :: post))
    (locked : s.interruptFlag = false) (fits : Fits M (zs ++ [b]) [] c)
    (addr : c.addr = b.addr + 24 + b.size) :
    ∃ s', s.case41 K c.reqSize c.size M.base b.addr = .ok (c.ptr, s') ∧
      Inserted Owns view s s' pre M post (zs ++ [b]) [] c := by
  have sound := layout.sound M (by simp)
  have cell := layout.cell
  have header := cell.header
  have minors := cell.minors
  have head : first Minor.addr 0 M.minors = first Minor.addr 0 (zs ++ [b] ++ [c]) := by
    simp [fits.split]
  rw [head] at header
  simp only [fits.split, List.append_nil, seg_append, seg_cons, seg_nil, first_cons, first_nil,
    and_true] at minors
  have holds : Holds Owns view ((pre ++ M :: post).map Major.area) (view s.host)
      [M.record (last Major.base 0 pre) (first Major.base 0 post) (BitVec.ofNat 32 M.usage)
          (first Minor.addr 0 (zs ++ [b] ++ [c])),
        b.record M.base (last Minor.addr 0 zs) 0,
        ⟨c.addr, wordsAt (view s.host) c.addr 6⟩] s.host := by
    have order := (fits.around sound).1 b (by simp)
    have boundsB := sound.bounds (c := b) (by simp [fits.split])
    have boundsC := (fits.sound sound).bounds (c := c) (by simp)
    have high : Major.high { M with minors := zs ++ [b] ++ c :: [] } = M.high := rfl
    simp only [Minor.start, Minor.stop] at order boundsB boundsC
    refine layout.holds ?_ ?_ ?_ ?_
    · simp [Major.record, Minor.record]
    · simp only [List.forall_mem_cons]
      exact ⟨header, minors.2.header, words_wordsAt _ _ 6, List.forall_mem_nil _⟩
    · simp [Major.record, Minor.record]
      omega
    · simp [Major.record, Minor.record]
      omega
  obtain ⟨h₁, stores, holds₁⟩ := case41_stores law addr holds
  have linked : LinksTo M (zs ++ [b]) [] c
      [b.record M.base (last Minor.addr 0 zs) c.addr, c.record M.base b.addr 0] := by
    constructor
    · simp
    · intro zs' b' same
      obtain ⟨rfl, single⟩ := List.append_inj' same rfl
      cases single
      simp
    · simp
    · simp [Minor.record]
  obtain ⟨s', claimed, inserted⟩ := layout.claim law locked fits linked holds₁
  exact ⟨s', stores.trans claimed, inserted⟩

/-- CASE 4.2 -/
theorem case42_spec (law : K.Growing Owns view) (layout : Layout Owns view s (pre ++ M :: post))
    (locked : s.interruptFlag = false) (fits : Fits M (zs ++ [b]) (d :: ws) c)
    (addr : c.addr = b.addr + 24 + b.size) :
    ∃ s', s.case42 K c.reqSize c.size M.base b.addr = .ok (c.ptr, s') ∧
      Inserted Owns view s s' pre M post (zs ++ [b]) (d :: ws) c := by
  have sound := layout.sound M (by simp)
  have cell := layout.cell
  have header := cell.header
  have minors := cell.minors
  have head : first Minor.addr 0 M.minors = first Minor.addr 0 (zs ++ [b] ++ c :: d :: ws) := by
    simp [fits.split]
  rw [head] at header
  simp only [fits.split, seg_append, seg_cons, seg_nil, first_cons, first_nil, last_append,
    last_cons, last_nil, and_true] at minors
  obtain ⟨⟨-, cellB⟩, cellD, -⟩ := minors
  have holds : Holds Owns view ((pre ++ M :: post).map Major.area) (view s.host)
      [M.record (last Major.base 0 pre) (first Major.base 0 post) (BitVec.ofNat 32 M.usage)
          (first Minor.addr 0 (zs ++ [b] ++ c :: d :: ws)),
        b.record M.base (last Minor.addr 0 zs) d.addr,
        d.record M.base b.addr (first Minor.addr 0 ws),
        ⟨c.addr, wordsAt (view s.host) c.addr 6⟩] s.host := by
    have orderB := (fits.around sound).1 b (by simp)
    have orderD := (fits.around sound).2 d (by simp)
    have boundsB := sound.bounds (c := b) (by simp [fits.split])
    have boundsC := (fits.sound sound).bounds (c := c) (by simp)
    have boundsD := sound.bounds (c := d) (by simp [fits.split])
    have high : Major.high { M with minors := zs ++ [b] ++ c :: d :: ws } = M.high := rfl
    simp only [Minor.start, Minor.stop] at orderB orderD boundsB boundsC boundsD
    refine layout.holds ?_ ?_ ?_ ?_
    · simp [Major.record, Minor.record]
    · simp only [List.forall_mem_cons]
      exact ⟨header, cellB.header, cellD.header, words_wordsAt _ _ 6, List.forall_mem_nil _⟩
    · simp [Major.record, Minor.record]
      omega
    · simp [Major.record, Minor.record]
      omega
  obtain ⟨h₁, stores, holds₁⟩ := case42_stores law addr holds
  have linked : LinksTo M (zs ++ [b]) (d :: ws) c [b.record M.base (last Minor.addr 0 zs) c.addr,
      d.record M.base c.addr (first Minor.addr 0 ws), c.record M.base b.addr d.addr] := by
    constructor
    · simp
    · intro zs' b' same
      obtain ⟨rfl, single⟩ := List.append_inj' same rfl
      cases single
      simp
    · intro d' ws' same
      cases same
      simp
    · simp [Minor.record]
  obtain ⟨s', claimed, inserted⟩ := layout.claim law locked fits linked holds₁
  exact ⟨s', stores.trans claimed, inserted⟩

end Treeos
