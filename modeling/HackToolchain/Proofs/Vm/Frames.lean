import HackToolchain.Proofs.Vm.Machine

/-! Calls and returns cell by cell, as long as the stack stays above the registers and within
memory. -/
namespace HackToolchain.Vm

open Machine (Word Memory)
open Register

variable {memory : Memory}

theorem read_write_of_lt (memory : Memory) {written cell : Nat} (value : Word)
    (inside : written < 32768) (bound : cell < 32768) :
    (memory.write written value).read cell =
      if cell = written then value else memory.read cell := by
  rw [Memory.read_write, Nat.mod_eq_of_lt inside, Nat.mod_eq_of_lt bound]

theorem visible_of_bounds {cell : Nat} (low : 16 ≤ cell) (high : cell < 32768) :
    ¬isScratch cell := by
  simp only [isScratch, Bool.or_eq_true, decide_eq_true_eq]
  omega

theorem visible_of_small {cell : Nat} (small : cell < 13) : ¬isScratch cell := by
  simp only [isScratch, Bool.or_eq_true, decide_eq_true_eq]
  omega

theorem load?_of_visible {address : Word} (visible : ¬isScratch address.toNat) :
    load? memory address = some (memory.read address.toNat) :=
  if_neg visible

theorem store?_of_visible {address : Word} (visible : ¬isScratch address.toNat) (value : Word) :
    store? memory address value = some (memory.write address.toNat value) :=
  if_neg visible

theorem load?_sp (memory : Memory) : load? memory sp = some (memory.read 0) :=
  if_neg (by decide)

theorem load?_lcl (memory : Memory) : load? memory lcl = some (memory.read 1) :=
  if_neg (by decide)

theorem load?_arg (memory : Memory) : load? memory arg = some (memory.read 2) :=
  if_neg (by decide)

theorem store?_sp (memory : Memory) (value : Word) :
    store? memory sp value = some (memory.write 0 value) :=
  if_neg (by decide)

theorem store?_lcl (memory : Memory) (value : Word) :
    store? memory lcl value = some (memory.write 1 value) :=
  if_neg (by decide)

theorem store?_arg (memory : Memory) (value : Word) :
    store? memory arg value = some (memory.write 2 value) :=
  if_neg (by decide)

theorem toNat_add_ofNat {pointer : Word} {offset : Nat} (high : pointer.toNat + offset < 65536) :
    (pointer + .ofNat 16 offset).toNat = pointer.toNat + offset := by
  rw [BitVec.toNat_add, BitVec.toNat_ofNat]
  omega

/-- A push within the stack, so many cells above a fixed one. -/
theorem exists_push {pointer : Word} {offset : Nat}
    (points : memory.read 0 = pointer + .ofNat 16 offset) (low : 16 ≤ pointer.toNat)
    (high : pointer.toNat + offset < 32768) (value : Word) :
    ∃ next, push? memory value = some next ∧ next.read 0 = pointer + .ofNat 16 (offset + 1) ∧
      next.read (pointer.toNat + offset) = value ∧
      ∀ cell < 32768, cell ≠ 0 → cell ≠ pointer.toNat + offset →
        next.read cell = memory.read cell := by
  have cell := toNat_add_ofNat (show pointer.toNat + offset < 65536 by omega)
  have written (cell : Nat) (bound : cell < 32768) := read_write_of_lt memory value high bound
  have kept : (memory.write (pointer.toNat + offset) value).read 0 = memory.read 0 := by
    rw [written 0 (by omega), if_neg (by omega)]
  have stored : store? memory (pointer + .ofNat 16 offset) value =
      some (memory.write (pointer.toNat + offset) value) :=
    cell ▸ store?_of_visible (visible_of_bounds (by omega) (by omega)) value
  refine ⟨(memory.write (pointer.toNat + offset) value).write 0 (memory.read 0 + 1), ?_, ?_, ?_, ?_⟩
  · simp only [push?, load?_sp, store?_sp, Option.bind_eq_bind, Option.bind_some, points, stored,
      kept]
  · rw [read_write_of_lt _ _ (by omega) (by omega), if_pos rfl, points, BitVec.add_assoc,
      BitVec.ofNat_add]
    rfl
  · rw [read_write_of_lt _ _ (by omega) high, if_neg (by omega), written _ high, if_pos rfl]
  · intro cell bound zero new
    rw [read_write_of_lt _ _ (by omega) bound, if_neg zero, written cell bound, if_neg new]

/-- What a call leaves in memory: a frame at the old stack pointer, and the registers around it. -/
structure Called (memory next : Memory) (pointer address : Word) (arguments : Nat) : Prop where
  sp : next.read 0 = pointer + 5
  lcl : next.read 1 = pointer + 5
  arg : next.read 2 = pointer - .ofNat 16 arguments
  returnAddress : next.read pointer.toNat = address
  savedLcl : next.read (pointer.toNat + 1) = memory.read 1
  savedArg : next.read (pointer.toNat + 2) = memory.read 2
  savedThis : next.read (pointer.toNat + 3) = memory.read 3
  savedThat : next.read (pointer.toNat + 4) = memory.read 4
  others : ∀ cell < 32768, 16 ≤ cell → cell < pointer.toNat ∨ pointer.toNat + 5 ≤ cell →
    next.read cell = memory.read cell

/-- Registers are saved one above the other. -/
theorem exists_saves {pointer : Word} {offset : Nat} {registers : List Word}
    (small : ∀ register ∈ registers, 0 < register.toNat ∧ register.toNat < 13)
    (points : memory.read 0 = pointer + .ofNat 16 offset) (low : 16 ≤ pointer.toNat)
    (high : pointer.toNat + offset + registers.length ≤ 32768) :
    ∃ next, registers.foldlM (fun memory register => do push? memory (← load? memory register))
        memory = some next ∧
      next.read 0 = pointer + .ofNat 16 (offset + registers.length) ∧
      (∀ i (inside : i < registers.length),
        next.read (pointer.toNat + offset + i) = memory.read registers[i].toNat) ∧
      ∀ cell < 32768, cell ≠ 0 →
        cell < pointer.toNat + offset ∨ pointer.toNat + offset + registers.length ≤ cell →
        next.read cell = memory.read cell := by
  induction registers generalizing memory offset with
  | nil => exact ⟨memory, rfl, points, fun _ inside => absurd inside (Nat.not_lt_zero _),
      fun _ _ _ _ => rfl⟩
  | cons register rest ih =>
    rw [List.length_cons] at high
    obtain ⟨first, pushed, sp, value, others⟩ :=
      exists_push points low (by omega) (memory.read register.toNat)
    obtain ⟨next, saved, points, values, kept⟩ :=
      ih (fun other member => small other (.tail _ member)) sp (by omega)
    have visible := visible_of_small (small register (.head _)).2
    refine ⟨next, ?_, ?_, ?_, ?_⟩
    · rw [List.foldlM_cons, load?_of_visible visible, Option.bind_eq_bind, Option.bind_eq_bind,
        Option.bind_some, pushed, Option.bind_some]
      exact saved
    · rw [points, List.length_cons, Nat.add_assoc, Nat.add_comm 1]
    · intro i inside
      cases i with
      | zero =>
        rw [kept _ (by omega) (by omega) (by omega)]
        exact value
      | succ i =>
        rw [List.length_cons] at inside
        have small := small _ (.tail register (List.getElem_mem (Nat.lt_of_succ_lt_succ inside)))
        rw [← Nat.succ_add_eq_add_succ, Nat.succ_eq_add_one, Nat.add_assoc pointer.toNat,
          values i (Nat.lt_of_succ_lt_succ inside), List.getElem_cons_succ,
          others _ (by omega) (by omega) (by omega)]
    · intro cell bound zero outside
      rw [List.length_cons] at outside
      rw [kept cell bound zero (by omega), others cell bound zero (by omega)]

theorem exists_call {pointer : Word} (points : memory.read 0 = pointer)
    (low : 16 ≤ pointer.toNat) (high : pointer.toNat + 5 ≤ 32768) (address : Word)
    (arguments : Nat) :
    ∃ next, call? memory address arguments = some next ∧
      Called memory next pointer address arguments := by
  have start : memory.read 0 = pointer + .ofNat 16 0 := points.trans (BitVec.add_zero pointer).symm
  obtain ⟨first, returns, sp, value, others⟩ := exists_push start low (by omega) address
  have small : ∀ register ∈ [lcl, arg, this, that], 0 < register.toNat ∧ register.toNat < 13 := by
    simp
  obtain ⟨second, saved, top, values, kept⟩ :=
    exists_saves small sp low (by simp only [List.length_cons, List.length_nil]; omega)
  have top : second.read 0 = pointer + 5 := top
  have again : (second.write 2 (pointer - .ofNat 16 arguments)).read 0 = pointer + 5 := by
    rw [read_write_of_lt _ _ (by omega) (by omega), if_neg (by omega), top]
  have argument : pointer + 5 - .ofNat 16 (arguments + 5) = pointer - .ofNat 16 arguments := by
    rw [BitVec.ofNat_add]
    bv_omega
  obtain ⟨next, stored, read⟩ : ∃ next,
      store? (second.write 2 (pointer - .ofNat 16 arguments)) Register.lcl (pointer + 5) =
        some next ∧
      ∀ cell < 32768, next.read cell = if cell = 1 then pointer + 5 else
        if cell = 2 then pointer - .ofNat 16 arguments else second.read cell :=
    ⟨_, store?_lcl _ _, fun cell bound => by
      rw [read_write_of_lt _ _ (by decide) bound, read_write_of_lt _ _ (by decide) bound]⟩
  have register (i : Nat) (inside : i < [lcl, arg, this, that].length) :
      next.read (pointer.toNat + 1 + i) = memory.read [lcl, arg, this, that][i].toNat := by
    have small := small _ (List.getElem_mem inside)
    simp only [List.length_cons, List.length_nil] at inside
    rw [read _ (by omega), if_neg (by omega), if_neg (by omega), values i inside,
      others _ (by omega) (by omega) (by omega)]
  refine ⟨next, ?_, ?_⟩
  · rw [call?, returns]
    simp only [Option.bind_eq_bind, Option.bind_some] at saved ⊢
    simp only [saved, load?_sp, top, argument, store?_arg, Option.bind_some, again, stored]
  · constructor
    · rw [read _ (by omega), if_neg (by omega), if_neg (by omega), top]
    · rw [read _ (by omega), if_pos rfl]
    · rw [read _ (by omega), if_neg (by omega), if_pos rfl]
    · rw [read _ (by omega), if_neg (by omega), if_neg (by omega),
        kept _ (by omega) (by omega) (by omega)]
      exact value
    · exact register 0 (by decide)
    · exact register 1 (by decide)
    · exact register 2 (by decide)
    · exact register 3 (by decide)
    · intro cell bound low outside
      rw [read _ bound, if_neg (by omega), if_neg (by omega),
        kept _ bound (by omega) (by simp only [List.length_cons, List.length_nil]; omega),
        others _ bound (by omega) (by omega)]

theorem pop?_of_bounds (above : 16 < (memory.read 0).toNat)
    (below : (memory.read 0).toNat ≤ 32768) :
    pop? memory = some (memory.read ((memory.read 0).toNat - 1),
      memory.write 0 (memory.read 0 - 1)) := by
  have cell : (memory.read 0 - 1).toNat = (memory.read 0).toNat - 1 :=
    BitVec.toNat_sub_of_le (BitVec.le_def.mpr (show 1 ≤ _ by omega))
  have lowered : (memory.write 0 (memory.read 0 - 1)).read 0 = memory.read 0 - 1 := by
    rw [read_write_of_lt _ _ (by omega) (by omega), if_pos rfl]
  have value : load? (memory.write 0 (memory.read 0 - 1)) (memory.read 0 - 1) =
      some (memory.read ((memory.read 0).toNat - 1)) := by
    rw [load?_of_visible (cell ▸ visible_of_bounds (by omega) (by omega)), cell,
      read_write_of_lt _ _ (by omega) (by omega), if_neg (by omega)]
  simp only [pop?, load?_sp, store?_sp, Option.bind_eq_bind, Option.bind_some, lowered, value]
  rfl

/-- Registers are restored from the cells below a frame. -/
theorem exists_restores {frame : Word} {saved : List (Word × Word)}
    (small : ∀ entry ∈ saved, entry.1.toNat < 5 ∧ 0 < entry.2.toNat ∧ entry.2.toNat ≤ 5)
    (distinct : saved.Pairwise fun first second => first.1.toNat ≠ second.1.toNat)
    (low : 21 ≤ frame.toNat) (high : frame.toNat ≤ 32768) :
    ∃ next, saved.foldlM (fun memory (register, back) => do
        store? memory register (← load? memory (frame - back))) memory = some next ∧
      (∀ entry ∈ saved, next.read entry.1.toNat = memory.read (frame.toNat - entry.2.toNat)) ∧
      ∀ cell < 32768, (∀ entry ∈ saved, entry.1.toNat ≠ cell) →
        next.read cell = memory.read cell := by
  induction saved generalizing memory with
  | nil => exact ⟨memory, rfl, nofun, fun _ _ _ => rfl⟩
  | cons entry rest ih =>
    obtain ⟨register, back⟩ := entry
    obtain ⟨inside, positive, short⟩ : register.toNat < 5 ∧ 0 < back.toNat ∧ back.toNat ≤ 5 :=
      small _ (.head _)
    obtain ⟨apart, distinct⟩ := List.pairwise_cons.mp distinct
    have cell : (frame - back).toNat = frame.toNat - back.toNat :=
      BitVec.toNat_sub_of_le (BitVec.le_def.mpr (by omega))
    have loaded : load? memory (frame - back) =
        some (memory.read (frame.toNat - back.toNat)) :=
      cell ▸ load?_of_visible (visible_of_bounds (by omega) (by omega))
    have visible : ¬isScratch register.toNat := visible_of_small (by omega)
    obtain ⟨next, restored, values, others⟩ :=
      @ih (memory.write register.toNat (memory.read (frame.toNat - back.toNat)))
        (fun other member => small other (.tail _ member)) distinct
    have written (cell : Nat) (bound : cell < 32768) :=
      read_write_of_lt memory (memory.read (frame.toNat - back.toNat))
        (show register.toNat < 32768 by omega) bound
    refine ⟨next, ?_, ?_, ?_⟩
    · have stored : (do store? memory register (← load? memory (frame - back))) =
          some (memory.write register.toNat (memory.read (frame.toNat - back.toNat))) := by
        rw [loaded]
        exact store?_of_visible visible _
      exact (congrArg (· >>= _) stored).trans restored
    · intro other member
      cases member with
      | head =>
        have bound : register.toNat < 32768 := by omega
        rw [others register.toNat bound fun other member => (apart other member).symm,
          written _ bound, if_pos rfl]
      | tail _ member =>
        have ⟨_, _, _⟩ := small other (.tail _ member)
        rw [values _ member, written _ (by omega), if_neg (by omega)]
    · intro cell bound outside
      rw [others _ bound fun other member => outside other (.tail _ member), written _ bound,
        if_neg (outside _ (.head _)).symm]

/-- What a return leaves in memory: the result where the first argument was, and the registers that
the frame held. -/
structure Returned (memory next : Memory) : Prop where
  sp : next.read 0 = memory.read 2 + 1
  lcl : next.read 1 = memory.read ((memory.read 1).toNat - 4)
  arg : next.read 2 = memory.read ((memory.read 1).toNat - 3)
  this : next.read 3 = memory.read ((memory.read 1).toNat - 2)
  that : next.read 4 = memory.read ((memory.read 1).toNat - 1)
  result : next.read (memory.read 2).toNat = memory.read ((memory.read 0).toNat - 1)
  others : ∀ cell < 32768, 16 ≤ cell → cell ≠ (memory.read 2).toNat →
    next.read cell = memory.read cell

/-- The result may take the place of the return address. -/
theorem exists_return (low : 16 ≤ (memory.read 2).toNat)
    (framed : (memory.read 2).toNat + 5 ≤ (memory.read 1).toNat)
    (high : (memory.read 1).toNat ≤ 32768) (above : 16 < (memory.read 0).toNat)
    (below : (memory.read 0).toNat ≤ 32768) :
    ∃ next, return? memory = some (memory.read ((memory.read 1).toNat - 5), next) ∧
      Returned memory next := by
  have popped := pop?_of_bounds above below
  generalize top : memory.read ((memory.read 0).toNat - 1) = value at popped
  have returns : load? memory (memory.read 1 - 5) =
      some (memory.read ((memory.read 1).toNat - 5)) := by
    have cell : (memory.read 1 - 5).toNat = (memory.read 1).toNat - 5 :=
      BitVec.toNat_sub_of_le (BitVec.le_def.mpr (show 5 ≤ _ by omega))
    exact cell ▸ load?_of_visible (visible_of_bounds (by omega) (by omega))
  have argument : (memory.write 0 (memory.read 0 - 1)).read 2 = memory.read 2 := by
    rw [read_write_of_lt _ _ (by omega) (by omega), if_neg (by omega)]
  obtain ⟨given, stored, read⟩ : ∃ given,
      store? (memory.write 0 (memory.read 0 - 1)) (memory.read 2) value = some given ∧
      ∀ cell < 32768, given.read cell = if cell = (memory.read 2).toNat then value else
        if cell = 0 then memory.read 0 - 1 else memory.read cell :=
    ⟨_, store?_of_visible (visible_of_bounds low (by omega)) _, fun cell bound => by
      rw [read_write_of_lt _ _ (by omega) bound, read_write_of_lt _ _ (by omega) bound]⟩
  have again : given.read 2 = memory.read 2 := by
    rw [read _ (by omega), if_neg (by omega), if_neg (by omega)]
  have small : ∀ entry ∈ [(that, (1 : Word)), (this, 2), (arg, 3), (lcl, 4)],
      entry.1.toNat < 5 ∧ 0 < entry.2.toNat ∧ entry.2.toNat ≤ 5 := by simp
  obtain ⟨next, restored, values, others⟩ :=
    @exists_restores (given.write 0 (memory.read 2 + 1)) (memory.read 1) _ small (by simp)
      (by omega) high
  have lowered (cell : Nat) (bound : cell < 32768) :
      (given.write 0 (memory.read 2 + 1)).read cell =
        if cell = 0 then memory.read 2 + 1 else given.read cell :=
    read_write_of_lt _ _ (by omega) bound
  have outside (cell : Nat) (above : 4 < cell) :
      ∀ entry ∈ [(that, (1 : Word)), (this, 2), (arg, 3), (lcl, 4)], entry.1.toNat ≠ cell := by
    intro entry member
    have ⟨_, _⟩ := small entry member
    omega
  have kept (back : Nat) (positive : 0 < back) (short : back < 5) :
      (given.write 0 (memory.read 2 + 1)).read ((memory.read 1).toNat - back) =
        memory.read ((memory.read 1).toNat - back) := by
    rw [lowered _ (by omega), if_neg (by omega), read _ (by omega), if_neg (by omega),
      if_neg (by omega)]
  refine ⟨next, ?_, ?_⟩
  · simp only [return?, load?_lcl, load?_arg, store?_sp, popped, returns, argument, stored, again,
      Option.bind_eq_bind, Option.bind_some] at restored ⊢
    rw [restored]
    rfl
  · constructor
    · rw [others _ (by omega) (by simp), lowered _ (by omega), if_pos rfl]
    · exact (values (lcl, 4) (by simp)).trans (kept 4 (by omega) (by omega))
    · exact (values (arg, 3) (by simp)).trans (kept 3 (by omega) (by omega))
    · exact (values (this, 2) (by simp)).trans (kept 2 (by omega) (by omega))
    · exact (values (that, 1) (by simp)).trans (kept 1 (by omega) (by omega))
    · rw [others _ (by omega) (outside _ (by omega)), lowered _ (by omega), if_neg (by omega),
        read _ (by omega), if_pos rfl, top]
    · intro cell bound above apart
      rw [others _ bound (outside _ (by omega)), lowered _ bound, if_neg (by omega), read _ bound,
        if_neg apart, if_neg (by omega)]

end HackToolchain.Vm
