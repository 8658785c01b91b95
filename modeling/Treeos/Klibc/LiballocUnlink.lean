import Treeos.Klibc.LiballocSearch

/-!
# A header leaves its block

The first half of `kfree`: the header of the minor is dead, its neighbours are linked to each
other, and the block has its bytes back.
-/
namespace Treeos

open ByteMemory DoublyLinked Extents Liballoc

variable {σ : Type} {K : Hooks σ} {Owns : σ → List PageArea → Prop} {view : σ → Memory}
variable {s s' : Liballoc σ} {M : Major} {b c d : Minor} {m m' : Memory} {h : σ}
variable {pre post : List Major} {xs ys : List Minor} {as : List PageArea}

/-! ### Neighbours -/

section
variable {α : Type} {addr : α → BitVec 32} {more : α → List (BitVec 32)} {zs : List α}
variable {front back : List Record} {prev prev' next next' : BitVec 32} {e : α}

/-- The node behind `prev`, if there is one. -/
def nextRecord (addr : α → BitVec 32) (more : α → List (BitVec 32)) (prev : BitVec 32) :
    List α → List Record
  | [] => []
  | d :: ws => [⟨addr d, prev :: first addr 0 ws :: more d⟩]

/-- The node in front of `next`, if there is one. -/
def prevRecord (addr : α → BitVec 32) (more : α → List (BitVec 32)) (next : BitVec 32)
    (zs : List α) : List Record :=
  match zs.getLast? with
  | none => []
  | some b => [⟨addr b, last addr 0 zs.dropLast :: next :: more b⟩]

@[simp] theorem nextRecord_nil : nextRecord addr more prev [] = [] := rfl
@[simp] theorem nextRecord_cons : nextRecord addr more prev (e :: zs) =
    [⟨addr e, prev :: first addr 0 zs :: more e⟩] := rfl
@[simp] theorem prevRecord_nil : prevRecord addr more next [] = [] := rfl
@[simp] theorem prevRecord_snoc : prevRecord addr more next (zs ++ [e]) =
    [⟨addr e, last addr 0 zs :: next :: more e⟩] := by
  simp [prevRecord]

theorem mem_nextRecord {r : Record} : r ∈ nextRecord addr more prev zs ↔
    ∃ d ws, zs = d :: ws ∧ r = ⟨addr d, prev :: first addr 0 ws :: more d⟩ := by
  cases zs with
  | nil => simp
  | cons d ws =>
    rw [nextRecord_cons, List.mem_singleton]
    constructor
    · rintro rfl
      exact ⟨d, ws, rfl, rfl⟩
    · rintro ⟨d', ws', same, rfl⟩
      cases same
      rfl

theorem mem_prevRecord {r : Record} : r ∈ prevRecord addr more next zs ↔
    ∃ ws b, zs = ws ++ [b] ∧ r = ⟨addr b, last addr 0 ws :: next :: more b⟩ := by
  rcases List.eq_nil_or_concat' zs with rfl | ⟨ws, b, rfl⟩
  · simp
  · rw [prevRecord_snoc, List.mem_singleton]
    constructor
    · rintro rfl
      exact ⟨ws, b, rfl, rfl⟩
    · rintro ⟨ws', b', same, rfl⟩
      obtain ⟨rfl, single⟩ := List.append_inj' same rfl
      cases single
      rfl

theorem nextRecord_pairwise {R : Record → Record → Prop} :
    (nextRecord addr more prev zs).Pairwise R := by
  cases zs <;> simp

theorem prevRecord_pairwise {R : Record → Record → Prop} :
    (prevRecord addr more next zs).Pairwise R := by
  rcases List.eq_nil_or_concat' zs with rfl | ⟨ws, b, rfl⟩ <;> simp

/-- `if (next != NULL) next->prev = prev` -/
theorem Holds.store_next (law : K.Growing Owns view) (s : Liballoc σ) (front : List Record)
    (zs : List α) (back : List Record) (prev' : BitVec 32) (some : ∀ e ∈ zs, addr e ≠ 0)
    (holds : Holds Owns view as m (front ++ nextRecord addr more prev zs ++ back) h) :
    ∃ h', (s.withHost h).relink K (first addr 0 zs) 0 prev' = .ok (s.withHost h') ∧
      Holds Owns view as m (front ++ nextRecord addr more prev' zs ++ back) h' := by
  cases zs with
  | nil => exact ⟨h, by simp [relink], holds⟩
  | cons d ws =>
    simp only [nextRecord_cons, List.append_assoc, List.singleton_append] at holds ⊢
    obtain ⟨h', stored, holds'⟩ := Holds.store law (s := s) (i := 0) front _ back holds (by simp)
      prev'
    refine ⟨h', ?_, holds'⟩
    rw [first_cons, relink, if_pos (some d (by simp))]
    exact stored

/-- `if (prev != NULL) prev->next = next` -/
theorem Holds.store_prev (law : K.Growing Owns view) (s : Liballoc σ) (front : List Record)
    (zs : List α) (back : List Record) (next' : BitVec 32) (some : ∀ e ∈ zs, addr e ≠ 0)
    (holds : Holds Owns view as m (front ++ prevRecord addr more next zs ++ back) h) :
    ∃ h', (s.withHost h).relink K (last addr 0 zs) 1 next' = .ok (s.withHost h') ∧
      Holds Owns view as m (front ++ prevRecord addr more next' zs ++ back) h' := by
  rcases List.eq_nil_or_concat' zs with rfl | ⟨ws, b, rfl⟩
  · exact ⟨h, by simp [relink], holds⟩
  · simp only [prevRecord_snoc, List.append_assoc, List.singleton_append] at holds ⊢
    obtain ⟨h', stored, holds'⟩ := Holds.store law (s := s) (i := 1) front _ back holds (by simp)
      next'
    refine ⟨h', ?_, holds'⟩
    have here : last addr 0 (ws ++ [b]) = addr b := by simp
    rw [here, relink, if_pos (some b (by simp))]
    exact stored

end

/-! ### `unlink` -/

/-- The words of a header behind its links. -/
def Minor.more (block : BitVec 32) (c : Minor) : List (BitVec 32) :=
  [block, liballocMagic, c.size, c.reqSize]

/-- The header of a minor that has been freed. -/
def Minor.dead (c : Minor) (block prev next : BitVec 32) : Record :=
  ⟨c.addr, [prev, next, block, liballocDead, c.size, c.reqSize]⟩

/-- The stores of the first half of `kfree` -/
theorem unlink_stores (law : K.Growing Owns view) {p n u : BitVec 32}
    (some : ∀ e ∈ xs ++ ys, e.addr ≠ 0)
    (holds : Holds Owns view as m (M.record p n u (first Minor.addr 0 (xs ++ c :: ys)) ::
      c.record M.base (last Minor.addr 0 xs) (first Minor.addr 0 ys) ::
      (nextRecord Minor.addr (Minor.more M.base) c.addr ys ++
        prevRecord Minor.addr (Minor.more M.base) c.addr xs)) s.host) :
    ∃ h', s.unlink K M.base c.addr = .ok { s with
        host := h', inuse := s.inuse - c.size.setWidth 64 } ∧
      Holds Owns view as m (M.record p n (u - (c.size + 24)) (first Minor.addr 0 (xs ++ ys)) ::
        c.dead M.base (last Minor.addr 0 xs) (first Minor.addr 0 ys) ::
        (nextRecord Minor.addr (Minor.more M.base) (last Minor.addr 0 xs) ys ++
          prevRecord Minor.addr (Minor.more M.base) (first Minor.addr 0 ys) xs)) h' := by
  have size : s.load K c.addr MinorField.size = .ok c.size :=
    Holds.load law (s := s) (i := 4) [_] _ _ holds (by simp [Minor.record])
  obtain ⟨s₀, counted⟩ : ∃ s₀ : Liballoc σ,
      s₀ = { s with inuse := s.inuse - c.size.setWidth 64 } := ⟨_, rfl⟩
  have usage : s₀.load K M.base MajorField.usage = .ok u := by
    rw [counted]
    exact Holds.load law (s := s) (i := 4) [] _ _ holds (by simp [Major.record])
  obtain ⟨h₁, stored₁, holds₁⟩ := Holds.store law (s := s₀) (i := 4) [] _ _ holds
    (by simp [Major.record]) (u - (c.size + 24))
  obtain ⟨h₂, stored₂, holds₂⟩ := Holds.store law (s := s₀) (i := 3) [_] _ _ holds₁
    (by simp [Minor.record]) liballocDead
  have next := Holds.load law (s := s₀) (i := 1) [_] _ _ holds₂ (by simp [Minor.record])
  have prev := Holds.load law (s := s₀) (i := 0) [_] _ _ holds₂ (by simp [Minor.record])
  obtain ⟨h₃, stored₃, holds₃⟩ := Holds.store_next law s₀ [_, _] ys _ (last Minor.addr 0 xs)
    (fun e there => some e (List.mem_append_right xs there))
    (by rw [List.append_assoc]; exact holds₂)
  obtain ⟨h₄, stored₄, holds₄⟩ := Holds.store_prev law s₀ _ xs [] (first Minor.addr 0 ys)
    (fun e there => some e (List.mem_append_left ys there))
    (by rw [List.append_nil]; exact holds₃)
  rw [List.append_nil] at holds₄
  -- the block begins with the next one, if this was the first
  obtain ⟨h₅, stored₅, holds₅⟩ : ∃ h₅, (if last Minor.addr 0 xs = 0 then
        (s₀.withHost h₄).store K M.base MajorField.first (first Minor.addr 0 ys)
      else .ok (s₀.withHost h₄)) = .ok (s₀.withHost h₅) ∧
      Holds Owns view as m (M.record p n (u - (c.size + 24)) (first Minor.addr 0 (xs ++ ys)) ::
        c.dead M.base (last Minor.addr 0 xs) (first Minor.addr 0 ys) ::
        (nextRecord Minor.addr (Minor.more M.base) (last Minor.addr 0 xs) ys ++
          prevRecord Minor.addr (Minor.more M.base) (first Minor.addr 0 ys) xs)) h₅ := by
    rcases List.eq_nil_or_concat' xs with rfl | ⟨zs, b, rfl⟩
    · obtain ⟨h₅, stored₅, holds₅⟩ := Holds.store law (s := s₀) (i := 5) [] _ _ holds₄
        (by simp [Major.record]) (first Minor.addr 0 ys)
      exact ⟨h₅, stored₅, holds₅⟩
    · refine ⟨h₄, ?_, ?_⟩
      · have other : last Minor.addr 0 (zs ++ [b]) ≠ 0 := by simpa using some b (by simp)
        rw [if_neg other]
      · have same : first Minor.addr 0 (zs ++ [b] ++ c :: ys) =
            first Minor.addr 0 (zs ++ [b] ++ ys) := by simp
        rw [← same]
        exact holds₄
  refine ⟨h₅, ?_, holds₅⟩
  subst counted
  unfold unlink
  refine (bind_of_ok size _).trans ((bind_of_ok usage _).trans ?_)
  refine (bind_of_ok stored₁ _).trans ((bind_of_ok stored₂ _).trans ?_)
  refine (bind_of_ok next _).trans ((bind_of_ok prev _).trans ?_)
  exact (bind_of_ok stored₃ _).trans ((bind_of_ok stored₄ _).trans stored₅)

/-- The minor `c` has left the block `M`. -/
structure Unlinked (Owns : σ → List PageArea → Prop) (view : σ → Memory) (s s' : Liballoc σ)
    (pre : List Major) (M : Major) (post : List Major) (xs ys : List Minor) (c : Minor) : Prop where
  layout : Layout Owns view s' (pre ++ { M with minors := xs ++ ys } :: post)
  state : s' = { s with host := s'.host, inuse := s.inuse - c.size.setWidth 64 }
  kept : ∀ N ∈ pre ++ M :: post, ∀ x ∈ N.payload, view s'.host x = view s.host x
  dead : load32 (view s'.host) (field c.addr 3) = liballocDead

/-- The headers that `unlink` reads and writes. -/
theorem Layout.around (layout : Layout Owns view s (pre ++ M :: post))
    (split : M.minors = xs ++ c :: ys) :
    Holds Owns view ((pre ++ M :: post).map Major.area) (view s.host)
      (M.record (last Major.base 0 pre) (first Major.base 0 post) (BitVec.ofNat 32 M.usage)
          (first Minor.addr 0 (xs ++ c :: ys)) ::
        c.record M.base (last Minor.addr 0 xs) (first Minor.addr 0 ys) ::
        (nextRecord Minor.addr (Minor.more M.base) c.addr ys ++
          prevRecord Minor.addr (Minor.more M.base) c.addr xs)) s.host := by
  have sound := layout.sound M (by simp)
  have cell := layout.cell
  have header := cell.header
  have minors := cell.minors
  rw [split] at header minors
  have packed := sound.packed
  rw [split] at packed
  obtain ⟨before, behind⟩ := packed.around
  have bounds (e : Minor) (member : e ∈ xs ++ c :: ys) :
      M.base.toNat + 24 ≤ e.addr.toNat ∧ e.addr.toNat + 24 ≤ M.high ∧ M.high < 2 ^ 32 := by
    obtain ⟨low, high, limit, -⟩ := sound.bounds (split ▸ member)
    unfold Minor.stop at high
    exact ⟨low, by omega, limit⟩
  have orderC (b : Minor) (member : b ∈ xs) : b.addr.toNat + 24 ≤ c.addr.toNat := by
    have order := before b member
    unfold Minor.start Minor.stop at order
    omega
  have orderD (d : Minor) (member : d ∈ ys) : c.addr.toNat + 24 ≤ d.addr.toNat := by
    have order := behind d member
    unfold Minor.start Minor.stop at order
    omega
  rw [seg_append, seg_cons] at minors
  obtain ⟨frontSeg, here, backSeg⟩ := minors
  have boundsC := bounds c (by simp)
  -- where the neighbours are
  have next (r : Record) (member : r ∈ nextRecord Minor.addr (Minor.more M.base) c.addr ys) :
      r.words.length = 6 ∧ Words (view s.host) r.base r.words ∧
        c.addr.toNat + 24 ≤ r.base.toNat ∧ r.base.toNat + 24 ≤ M.high := by
    obtain ⟨d, ws, rfl, rfl⟩ := mem_nextRecord.mp member
    exact ⟨rfl, backSeg.1.header, orderD d (by simp), (bounds d (by simp)).2.1⟩
  have prev (r : Record) (member : r ∈ prevRecord Minor.addr (Minor.more M.base) c.addr xs) :
      r.words.length = 6 ∧ Words (view s.host) r.base r.words ∧
        M.base.toNat + 24 ≤ r.base.toNat ∧ r.base.toNat + 24 ≤ c.addr.toNat := by
    obtain ⟨zs, b, rfl, rfl⟩ := mem_prevRecord.mp member
    rw [seg_append] at frontSeg
    exact ⟨rfl, frontSeg.2.1.header, (bounds b (by simp)).1, orderC b (by simp)⟩
  refine layout.holds ?_ ?_ ?_ ?_
  · simp only [List.forall_mem_cons, List.forall_mem_append]
    exact ⟨rfl, rfl, fun r member => (next r member).1, fun r member => (prev r member).1⟩
  · simp only [List.forall_mem_cons, List.forall_mem_append]
    exact ⟨header, here.header, fun r member => (next r member).2.1,
      fun r member => (prev r member).2.1⟩
  · simp only [List.forall_mem_cons, List.forall_mem_append]
    refine ⟨?_, ?_, fun r member => ?_, fun r member => ?_⟩
    · show M.base.toNat ≤ M.base.toNat ∧ M.base.toNat + 24 ≤ M.high
      omega
    · show M.base.toNat ≤ c.addr.toNat ∧ c.addr.toNat + 24 ≤ M.high
      omega
    · have place := next r member
      omega
    · have place := prev r member
      omega
  · simp only [List.pairwise_cons, List.forall_mem_cons, List.forall_mem_append]
    refine ⟨⟨?_, fun r member => ?_, fun r member => ?_⟩, ⟨fun r member => ?_, fun r member => ?_⟩,
      List.pairwise_append.mpr ⟨nextRecord_pairwise, prevRecord_pairwise,
        fun r first r' second => ?_⟩⟩
    · show M.base.toNat + 24 ≤ c.addr.toNat ∨ c.addr.toNat + 24 ≤ M.base.toNat
      omega
    · have place := next r member
      show M.base.toNat + 24 ≤ r.base.toNat ∨ r.base.toNat + 24 ≤ M.base.toNat
      omega
    · have place := prev r member
      show M.base.toNat + 24 ≤ r.base.toNat ∨ r.base.toNat + 24 ≤ M.base.toNat
      omega
    · have place := next r member
      show c.addr.toNat + 24 ≤ r.base.toNat ∨ r.base.toNat + 24 ≤ c.addr.toNat
      omega
    · have place := prev r member
      show c.addr.toNat + 24 ≤ r.base.toNat ∨ r.base.toNat + 24 ≤ c.addr.toNat
      omega
    · have place := next r first
      have place' := prev r' second
      omega

/-- Leaving a block is the reverse of coming into it. -/
theorem Major.Sound.fits_erase (sound : M.Sound) (split : M.minors = xs ++ c :: ys) :
    Fits { M with minors := xs ++ ys } xs ys c := by
  have packed := sound.packed
  have room := sound.room c (by simp [split])
  rw [split, packed_append] at packed
  obtain ⟨-, low, -, rest⟩ := packed
  exact ⟨rfl, low, rest.begin_le.1, room⟩

theorem Layout.unlink (law : K.Growing Owns view) (layout : Layout Owns view s (pre ++ M :: post))
    (split : M.minors = xs ++ c :: ys) :
    ∃ s', s.unlink K M.base c.addr = .ok s' ∧ Unlinked Owns view s s' pre M post xs ys c := by
  have sound := layout.sound M (by simp)
  have sound₀ := sound.erase split
  have fits := sound.fits_erase split
  have packed := sound.packed.pairwise
  have whole : ({ M with minors := xs ++ c :: ys } : Major) = M := by rw [← split]
  have some : ∀ e ∈ xs ++ ys, e.addr ≠ 0 := by
    intro e member
    have low : M.base.toNat + 24 ≤ e.addr.toNat := (sound₀.bounds member).1
    apply ne_zero_of_pos
    omega
  obtain ⟨h', unlinked, holds⟩ := unlink_stores law some (layout.around split)
  have words := holds.records.words
  have header (e : Minor) (member : e ∈ xs ++ c :: ys) {r : Record} (same : r.base = e.addr)
      (length : r.words.length = 6) {x : BitVec 32} (inside : x ∈ r.span) : e.InHeader x := by
    obtain ⟨-, high, limit, -⟩ := sound.bounds (split ▸ member)
    unfold Minor.stop at high
    rw [Six.mem_span ⟨length, by rw [same]; omega⟩, same] at inside
    exact inside
  -- four headers have been written to
  have touched (x : BitVec 32) (noMajor : ¬(M.base.toNat ≤ x.toNat ∧ x.toNat < M.base.toNat + 24))
      (noMinor : ¬c.InHeader x) (noNext : ∀ d ws, ys = d :: ws → ¬d.InHeader x)
      (noPrev : ∀ zs b, xs = zs ++ [b] → ¬b.InHeader x) : view h' x = view s.host x := by
    refine holds.records.frame x fun r member inside => ?_
    simp only [List.mem_cons, List.mem_append] at member
    rcases member with rfl | rfl | member | member
    · have low := sound.packed.le
      have limit : M.high < 2 ^ 32 := sound.area.fits
      unfold Major.low at low
      exact noMajor ((Six.mem_span ⟨rfl, by show M.base.toNat + 24 ≤ _; omega⟩).mp inside)
    · exact noMinor (header c (by simp) rfl rfl inside)
    · obtain ⟨d, ws, rfl, rfl⟩ := mem_nextRecord.mp member
      exact noNext d ws rfl (header d (by simp) rfl rfl inside)
    · obtain ⟨zs, b, rfl, rfl⟩ := mem_prevRecord.mp member
      exact noPrev zs b rfl (header b (by simp) rfl rfl inside)
  have untouched (x : BitVec 32) (other : ¬Header { M with minors := xs ++ ys } c x) :
      view h' x = view s.host x := by
    refine touched x (fun byte => other (.inl byte)) (fun byte => other (.inr ⟨c, .inl rfl, byte⟩))
      (fun d ws same byte => ?_) (fun zs b same byte => ?_)
    · exact other (.inr ⟨d, .inr (by simp [same]), byte⟩)
    · exact other (.inr ⟨b, .inr (by simp [same]), byte⟩)
  refine ⟨_, unlinked, ⟨?_, rfl, ?_, ?_⟩⟩
  · refine layout.change law sound₀ holds.owns ⟨?_, ?_⟩ (fun x outside => ?_) rfl rfl rfl ?_
    · have usage := usage_insert M xs ys c
      rw [whole] at usage
      have less : BitVec.ofNat 32 { M with minors := xs ++ ys }.usage =
          BitVec.ofNat 32 M.usage - (c.size + 24) := by
        rw [usage, BitVec.ofNat_add, BitVec.ofNat_add, BitVec.ofNat_toNat, BitVec.setWidth_eq]
        exact (BitVec.add_sub_cancel _ _).symm
      rw [less]
      exact words _ List.mem_cons_self
    · -- the neighbours of the minor are linked to each other
      have minors := layout.cell.minors
      rw [split, seg_append, seg_cons] at minors
      rw [split] at packed
      obtain ⟨front, back, seam⟩ := List.pairwise_append.mp packed
      obtain ⟨behind, back⟩ := List.pairwise_cons.mp back
      have low (e : Minor) (here : e ∈ xs ++ ys) : M.base.toNat + 24 ≤ e.addr.toNat :=
        (sound₀.bounds here).1
      rw [seg_append]
      constructor
      · refine front_relinked sound₀ (fun e here => List.mem_append_left _ here) front minors.1
          (fun zs b same => ?_) fun e here x first last away => ?_
        · exact words ⟨b.addr, _⟩ (List.mem_cons_of_mem _ (List.mem_cons_of_mem _
            (List.mem_append_right _ (mem_prevRecord.mpr ⟨zs, b, same, rfl⟩))))
        · have above := low e (List.mem_append_left _ here)
          have order : e.stop ≤ c.addr.toNat := seam e here c List.mem_cons_self
          refine touched x (by omega) (fun byte => ?_) (fun d ws same byte => ?_) away
          · have start := byte.1
            omega
          · have order : e.stop ≤ d.addr.toNat := seam e here d (by simp [same])
            have start := byte.1
            omega
      · refine back_relinked sound₀ (fun e here => List.mem_append_right _ here) back minors.2.2
          (fun d ws same => ?_) fun e here x first last away => ?_
        · exact words ⟨d.addr, _⟩ (List.mem_cons_of_mem _ (List.mem_cons_of_mem _
            (List.mem_append_left _ (mem_nextRecord.mpr ⟨d, ws, same, rfl⟩))))
        · have above := low e (List.mem_append_right _ here)
          have order : c.stop ≤ e.addr.toNat := behind e here
          unfold Minor.stop at order
          refine touched x (by omega) (fun byte => ?_) away fun zs b same byte => ?_
          · have stop := byte.2
            omega
          · have order : b.stop ≤ e.addr.toNat :=
              seam b (by simp [same]) e (List.mem_cons_of_mem _ here)
            have stop := byte.2
            unfold Minor.stop at order
            omega
    · exact untouched x fun header => outside (fits.header_mem sound₀ header)
    · show s.inuse - c.size.setWidth 64 = _
      rw [layout.inuse]
      simp only [List.map_append, List.map_cons, List.sum_append, List.sum_cons, split]
      apply BitVec.eq_of_toNat_eq
      rw [BitVec.toNat_sub, BitVec.toNat_setWidth, BitVec.toNat_ofNat, BitVec.toNat_ofNat]
      have small := c.size.isLt
      omega
  · rintro N member x ⟨e, listed, first, last⟩
    by_cases same : N = M
    · subst same
      exact untouched x (fits.not_header sound₀ (split ▸ listed) first last)
    · have here := (layout.sound N member).payload_subset ⟨e, listed, first, last⟩
      refine untouched x fun header => same ?_
      exact layout.unique law member (by simp) here (fits.header_mem sound₀ header)
  · have dead := words _ (List.mem_cons_of_mem _ List.mem_cons_self)
    exact dead.field (i := 3) (by simp [Minor.dead])

end Treeos
