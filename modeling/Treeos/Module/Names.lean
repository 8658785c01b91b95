import Treeos.Module.Mapped

/-!
# Modules by name

`get_module_by_name` of `kernel/module.c`. The name of a module is what its command line
says behind two characters, and the table keeps seven bytes of it.
-/
namespace Treeos

open ByteMemory

/-- `strcmp`. There is no result when it reads behind the end of a string object. -/
def strcmp : List (BitVec 8) → List (BitVec 8) → Option Int
  | a :: str1, b :: str2 =>
    if a ≠ 0 ∧ a = b then strcmp str1 str2 else some (Int.ofNat a.toNat - Int.ofNat b.toNat)
  | _, _ => none

/-- The loop of `get_module_by_name`; `some none` stands for a null pointer. -/
def searchModules (name : List (BitVec 8)) : List ModuleEntry → Option (Option (BitVec 32))
  | [] => some none
  | e :: entries => do
    let order ← strcmp name e.name
    if order = 0 then some (some e.addr) else searchModules name entries

/-- `get_module_by_name` -/
def getModuleByName (t : ModuleTable) (name : List (BitVec 8)) : Option (Option (BitVec 32)) :=
  searchModules name (t.entries.take t.size.toNat)

/-! ### Names and addresses -/

/-- At `a` there is a string: bytes other than NUL, then NUL. -/
def StringAt (m : Memory) : BitVec 32 → List (BitVec 8) → Prop
  | a, [] => m a = 0
  | a, c :: cs => m a = c ∧ c ≠ 0 ∧ StringAt m (a + 1) cs

instance decidableStringAt (m : Memory) : ∀ a cs, Decidable (StringAt m a cs)
  | a, [] => inferInstanceAs (Decidable (m a = 0))
  | a, c :: cs =>
    have := decidableStringAt m (a + 1) cs
    inferInstanceAs (Decidable (m a = c ∧ c ≠ 0 ∧ StringAt m (a + 1) cs))

/-- The command line at `a` is `--` and a name. -/
structure NameAt (m : Memory) (a : BitVec 32) (name : List (BitVec 8)) : Prop where
  present : a ≠ 0
  dashes : m a = 0x2D ∧ m (a + 1) = 0x2D
  name : StringAt m (a + 2) name

/-- The modules from the record at `mod` on have these names. -/
def NamesAt (m : Memory) : BitVec 32 → List (List (BitVec 8)) → Prop
  | _, [] => True
  | mod, name :: names => NameAt m (load32 m (mod + 8)) name ∧ NamesAt m (mod + 16) names

/-- Where the first byte of a module is mapped to. -/
def Window.address (w : Window) : BitVec 32 := w.base + w.module.modStart % 0x1000

/-- The address of the first module whose name, as `cut` leaves it, is `query`. -/
def firstNamed (cut : List (BitVec 8) → List (BitVec 8)) (query : List (BitVec 8)) :
    List (List (BitVec 8)) → List Window → Option (BitVec 32)
  | name :: names, w :: windows =>
    if cut name = query then some w.address else firstNamed cut query names windows
  | _, _ => none

/-! ### What the string functions do -/

theorem strcmp_zero_iff {query name : List (BitVec 8)} (text : 0 ∉ query) (stops : 0 ∉ name)
    (rest : List (BitVec 8)) :
    ∃ order, strcmp (query ++ [0]) (name ++ 0 :: rest) = some order ∧ (order = 0 ↔ name = query) := by
  induction query generalizing name with
  | nil =>
    cases name with
    | nil => exact ⟨0, rfl, by simp⟩
    | cons b name =>
      refine ⟨0 - Int.ofNat b.toNat, rfl, ?_⟩
      have some : b.toNat ≠ 0 := fun zero => stops (by
        rw [BitVec.eq_of_toNat_eq (y := 0#8) zero]
        exact List.mem_cons_self)
      refine iff_of_false (fun same => ?_) (List.cons_ne_nil _ _)
      rw [Int.ofNat_eq_natCast] at same
      omega
  | cons a query ih =>
    have nonzero : a ≠ 0 := fun zero => text (zero ▸ List.mem_cons_self)
    have differ {b : BitVec 8} (other : a ≠ b) : Int.ofNat a.toNat - Int.ofNat b.toNat ≠ 0 := by
      intro same
      rw [Int.ofNat_eq_natCast, Int.ofNat_eq_natCast] at same
      exact other (BitVec.eq_of_toNat_eq (by omega))
    cases name with
    | nil =>
      refine ⟨_, if_neg fun both => nonzero both.2, ?_⟩
      exact iff_of_false (differ nonzero) (List.cons_ne_nil _ _).symm
    | cons b name =>
      -- the loop of strcmp goes on while both characters are the same
      rw [List.cons_append, List.cons_append, strcmp]
      by_cases same : a = b
      · rw [if_pos ⟨nonzero, same⟩, same]
        obtain ⟨order, compared, zero⟩ := ih (List.not_mem_of_not_mem_cons text)
          (List.not_mem_of_not_mem_cons stops)
        exact ⟨order, compared, by rw [zero, List.cons_inj_right]⟩
      · rw [if_neg fun both => same both.2]
        refine ⟨_, rfl, iff_of_false (differ same) fun equal => ?_⟩
        exact same (List.cons.inj equal).1.symm

/-- The first bytes of a string: its characters up to the count, and whatever follows. -/
theorem StringAt.bytes {m : Memory} {a : BitVec 32} {name : List (BitVec 8)}
    (holds : StringAt m a name) (n : Nat) :
    ∃ rest, (List.range n).map (fun i => m (a + BitVec.ofNat 32 i)) ++ [0] =
      name.take n ++ 0 :: rest := by
  induction n generalizing a name with
  | zero => exact ⟨[], by simp⟩
  | succ n ih =>
    have step (i : Nat) : a + BitVec.ofNat 32 (i + 1) = a + 1 + BitVec.ofNat 32 i := by
      rw [BitVec.ofNat_add, BitVec.add_assoc]
      exact congrArg (a + ·) (BitVec.add_comm _ _)
    rw [List.range_succ_eq_map, List.map_cons, List.map_map, BitVec.add_zero]
    cases name with
    | nil =>
      have stop : m a = 0 := holds
      exact ⟨(List.range n).map ((fun i => m (a + BitVec.ofNat 32 i)) ∘ Nat.succ) ++ [0], by
        rw [stop]; rfl⟩
    | cons c name =>
      obtain ⟨first, -, later⟩ := holds
      obtain ⟨rest, same⟩ := ih later
      refine ⟨rest, ?_⟩
      rw [first, List.take_succ_cons, List.cons_append, List.cons_append, ← same]
      simp only [Function.comp_def, Nat.succ_eq_add_one, step]

theorem StringAt.text {m : Memory} {a : BitVec 32} {name : List (BitVec 8)}
    (holds : StringAt m a name) : 0 ∉ name := by
  induction name generalizing a with
  | nil => exact List.not_mem_nil
  | cons c name ih =>
    obtain ⟨-, nonzero, later⟩ := holds
    exact List.not_mem_cons_of_ne_of_not_mem nonzero.symm (ih later)

theorem NamesAt.text {m : Memory} {mod : BitVec 32} {names : List (List (BitVec 8))}
    (named : NamesAt m mod names) {name : List (BitVec 8)} (member : name ∈ names) : 0 ∉ name := by
  induction names generalizing mod with
  | nil => cases member
  | cons first names ih =>
    obtain ⟨here, behind⟩ := named
    rcases List.mem_cons.mp member with rfl | later
    · exact here.name.text
    · exact ih behind later

/-! ### The table -/

variable {m : Memory} {depth : Nat} {mod offset : BitVec 32} {s s' : PagingState}
  {entries : List ModuleEntry} {names : List (List (BitVec 8))} {query : List (BitVec 8)}

/-- The entry of a module keeps seven characters of its name. -/
theorem moduleEntry_name {name : List (BitVec 8)} (named : NameAt m (load32 m (mod + 8)) name) :
    ∃ rest, (moduleEntry m mod offset).name = name.take 7 ++ 0 :: rest := by
  obtain ⟨rest, same⟩ := named.name.bytes 7
  refine ⟨rest, ?_⟩
  rw [← same]
  show (if load32 m (mod + 8) ≠ 0 then _ else _) = _
  rw [if_pos named.present]
  rfl

/-- Over the table that the loop fills, the search finds the first module with the name. -/
theorem searchModules_eq (text : 0 ∉ query) (named : NamesAt m mod names)
    (returned : moduleTableFrom depth m names.length mod offset s = .ok (entries, s')) :
    searchModules (query ++ [0]) entries = some (firstNamed (List.take 7) query names
      (windowsFrom (modulesFrom m names.length mod) offset)) := by
  induction names generalizing mod offset s entries with
  | nil =>
    cases returned
    rfl
  | cons name names ih =>
    obtain ⟨here, behind⟩ := named
    obtain ⟨_, -, returned⟩ := bind_ok_iff.mp returned
    obtain ⟨s₁, -, returned⟩ := bind_ok_iff.mp returned
    obtain ⟨⟨later, s₂⟩, looped, same⟩ := bind_ok_iff.mp returned
    cases same
    obtain ⟨rest, kept⟩ : ∃ rest, (moduleEntry m mod offset).name = name.take 7 ++ 0 :: rest :=
      moduleEntry_name here
    obtain ⟨order, compared, zero⟩ := strcmp_zero_iff text
      (fun member => here.name.text (List.mem_of_mem_take member)) rest
    rw [searchModules, kept, compared]
    show (if order = 0 then _ else _) = some (if _ then _ else _)
    by_cases found : order = 0
    · rw [if_pos found, if_pos (zero.mp found)]
      rfl
    · rw [if_neg found, if_neg fun same => found (zero.mpr same)]
      exact ih behind looped

theorem moduleTableFrom_length {count : Nat}
    (returned : moduleTableFrom depth m count mod offset s = .ok (entries, s')) :
    entries.length = count := by
  induction count generalizing mod offset s entries with
  | zero =>
    cases returned
    rfl
  | succ count ih =>
    obtain ⟨_, -, returned⟩ := bind_ok_iff.mp returned
    obtain ⟨s₁, -, returned⟩ := bind_ok_iff.mp returned
    obtain ⟨⟨later, s₂⟩, looped, same⟩ := bind_ok_iff.mp returned
    cases same
    exact congrArg Nat.succ (ih looped)

/-- Names that are not cut are found as they are. -/
theorem firstNamed_congr {cut cut' : List (BitVec 8) → List (BitVec 8)} (windows : List Window)
    (same : ∀ name ∈ names, cut name = cut' name) :
    firstNamed cut query names windows = firstNamed cut' query names windows := by
  induction names generalizing windows with
  | nil => rfl
  | cons name names ih =>
    cases windows with
    | nil => rfl
    | cons w windows =>
      rw [firstNamed, firstNamed, same name List.mem_cons_self,
        ih windows fun name later => same name (List.mem_cons_of_mem _ later)]

theorem firstNamed_none_iff {cut : List (BitVec 8) → List (BitVec 8)} {windows : List Window}
    (each : names.length = windows.length) :
    firstNamed cut query names windows = none ↔ ∀ name ∈ names, cut name ≠ query := by
  induction names generalizing windows with
  | nil => simp [firstNamed]
  | cons name names ih =>
    cases windows with
    | nil => cases each
    | cons w windows =>
      rw [firstNamed, List.forall_mem_cons]
      split
      next same => simp [same]
      next other => simp [other, ih (Nat.succ.inj each)]

theorem windowsFrom_length (modules : List Module) (offset : BitVec 32) :
    (windowsFrom modules offset).length = modules.length := by
  induction modules generalizing offset with
  | nil => rfl
  | cons mod modules ih => exact congrArg Nat.succ (ih _)

/-- A module is found by the first seven characters of its name. -/
theorem getModuleByName_cut {kcalloc : Kcalloc} {mbi : MultibootInfo} {h h' : KernelHeap}
    {table : ModuleTable} (returned : moduleTableInit kcalloc depth m mbi h = .ok (table, h'))
    (each : names.length = mbi.modsCount.toNat) (named : NamesAt m mbi.modsAddr names)
    (text : 0 ∉ query) : getModuleByName table (query ++ [0]) =
      some (firstNamed (List.take 7) query names (windowsFrom (mbi.modules m) 0)) := by
  unfold moduleTableInit at returned
  split at returned
  next none =>
    rw [none] at each
    cases returned
    rw [List.length_eq_zero_iff.mp each]
    rfl
  next =>
    obtain ⟨⟨address, h₁⟩, -, returned⟩ := bind_ok_iff.mp returned
    obtain ⟨⟨entries, s⟩, looped, same⟩ := bind_ok_iff.mp returned
    cases same
    have whole := moduleTableFrom_length looped
    show searchModules _ (entries.take mbi.modsCount.toNat) = _
    unfold MultibootInfo.modules
    rw [List.take_of_length_le (Nat.le_of_eq whole)]
    rw [← each] at looped ⊢
    exact searchModules_eq text named looped

theorem windows_length (mbi : MultibootInfo) (each : names.length = mbi.modsCount.toNat) :
    names.length = (windowsFrom (mbi.modules m) 0).length := by
  rw [windowsFrom_length, MultibootInfo.modules, modulesFrom_length, each]

/-- Asked for by its whole name, a module with a longer name is not found. -/
theorem firstNamed_long {windows : List Window} (each : names.length = windows.length)
    {name : List (BitVec 8)} (member : name ∈ names) (long : 7 < name.length) :
    firstNamed (List.take 7) name names windows = none ∧
      firstNamed id name names windows ≠ none := by
  rw [firstNamed_none_iff each, Ne, firstNamed_none_iff each]
  constructor
  · intro other _ same
    have bound := List.length_take_le 7 other
    rw [same] at bound
    omega
  · exact fun missing => missing name member rfl

/-- The machine with 8 MiB and a module of one page, with its command line at 0xA000. -/
def namedMemory (name : List (BitVec 8)) : Memory := fun x =>
  if 0xA000 ≤ x ∧ x < 0xB000 then ([0x2D, 0x2D] ++ name).getD (x - 0xA000).toNat 0
  else store32 moduleMemory 0x9008 0xA000 x

/-- With one module the table is returned, whatever the name. -/
theorem namedMemory_returns {name : List (BitVec 8)}
    (holds : MmapHolds (namedMemory name) (moduleInfo.mmapAddr + moduleInfo.mmapLength)
      moduleInfo.mmapAddr [⟨20, 0x200000, 0x200000, 1⟩])
    (start : load32 (namedMemory name) 0x9000 = 0x180000)
    (stop : load32 (namedMemory name) (0x9000 + 4) = 0x180234) : ∃ m pmm table h,
    initBootstrapPaging 1024 smallBoot (fun _ _ => 0) = .ok m ∧
    pmmInitOnArray 1 smallImage (namedMemory name) moduleInfo (fun _ => 0) = .ok pmm ∧
    moduleTableInit (kernelKcalloc 1 3 true) 1 (namedMemory name) moduleInfo
      ⟨BootTables.state smallBoot m pmm.frames.bitmap, ⟨kheapStart, 0⟩, []⟩ = .ok (table, h) := by
  obtain ⟨m, returned, boot⟩ := smallBoot_tables
  have modules : moduleInfo.modules (namedMemory name) = [⟨0x180000, 0x180234⟩] := by
    show [(⟨load32 (namedMemory name) 0x9000, load32 (namedMemory name) (0x9000 + 4)⟩ : Module)] = _
    rw [start, stop]
  obtain ⟨pmm, onArray⟩ := oneModule_pmmInit modules rfl rfl (by decide) holds (Nat.le_refl 1)
    ⟨by decide, by decide, by decide⟩
  have started := pmmInit_of_onArray onArray
  obtain ⟨table, h, done⟩ := oneModule_returns modules boot holds (Nat.le_refl 1)
    (List.mem_singleton_self _) (by decide) started
  exact ⟨m, pmm, table, h, returned, onArray, done⟩

-- "filesystem"
def filesystem : List (BitVec 8) := [0x66, 0x69, 0x6C, 0x65, 0x73, 0x79, 0x73, 0x74, 0x65, 0x6D]

theorem namedMemory_filesystem :
    NamesAt (namedMemory filesystem) moduleInfo.modsAddr [filesystem] := by
  refine ⟨⟨?_, ?_, ?_⟩, trivial⟩ <;> decide +kernel

-- "init"
def initName : List (BitVec 8) := [0x69, 0x6E, 0x69, 0x74]

theorem namedMemory_init : NamesAt (namedMemory initName) moduleInfo.modsAddr [initName] := by
  refine ⟨⟨?_, ?_, ?_⟩, trivial⟩ <;> decide +kernel

end Treeos
