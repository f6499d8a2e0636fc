import HackToolchain.CommandLine.Assembler
import HackToolchain.Proofs.Files.Places

/-! Assembling one file after the other. Each file is read as the ones before it have left it. It either
has its machine code written, or ends the program with nothing changed. -/
namespace HackToolchain.CommandLine.Assembler

open Files
open Machine (Word)

variable {fs next after : FileSystem} {l : Location} {path : Path} {exit : Exit}

/-- A line of 16 binary digits, and the word that they are in base 2. -/
structure Spells (line : String) (w : Word) : Prop where
  length : line.length = 16
  digits : ∀ c ∈ line.toList, c = '0' ∨ c = '1'
  value : Nat.ofDigitChars 2 line.toList 0 = w.toNat

/-- The first digits are the word without its last bits. -/
theorem ofDigitChars_getMsbD (w : Word) {n : Nat} (fits : n ≤ 16) :
    Nat.ofDigitChars 2 ((List.range n).map fun i => if w.getMsbD i then '1' else '0') 0 =
      w.toNat / 2 ^ (16 - n) := by
  induction n with
  | zero =>
    have := w.isLt
    simp only [List.range_zero, List.map_nil, Nat.ofDigitChars_nil]
    omega
  | succ n ih =>
    have bit : w.getMsbD n = decide (w.toNat / 2 ^ (16 - (n + 1)) % 2 = 1) := by
      rw [BitVec.getMsbD_eq_getLsbD, BitVec.getLsbD, Nat.testBit_eq_decide_div_mod_eq,
        show 16 - 1 - n = 16 - (n + 1) by omega]
      simp only [show n < 16 by omega, decide_true, Bool.true_and]
    have halves : w.toNat / 2 ^ (16 - n) = w.toNat / 2 ^ (16 - (n + 1)) / 2 := by
      rw [Nat.div_div_eq_div_mul, ← Nat.pow_succ]
      congr 3
      omega
    rw [List.range_succ, List.map_append, Nat.ofDigitChars_append, ih (by omega), halves,
      List.map_singleton, Nat.ofDigitChars_cons, Nat.ofDigitChars_nil, bit]
    split <;> simp_all <;> omega

theorem spells_binary (w : Word) : Spells (binary w) w where
  length := by simp [binary]
  digits := by
    intro c member
    simp only [binary, String.toList_ofList, List.mem_map] at member
    obtain ⟨i, _, rfl⟩ := member
    split <;> simp
  value := by
    rw [binary, String.toList_ofList, ofDigitChars_getMsbD w (le_refl 16)]
    simp

theorem machineText_eq (words : List Word) :
    machineText words = String.join ((words.map binary).map (· ++ "\n")) := by
  simp only [machineText, String.join_eq_foldl, List.foldl_map, String.append_assoc]

/-- A file has been assembled: where its output goes there is a line for each of its words now. -/
structure Assembled (fs : FileSystem) (path : Path) (l : Location) (next : FileSystem) : Prop where
  opening : fs.opening (Path.withExtension path "hack") = .ok l
  text : ∃ source words lines, fs.read path = .ok source ∧
    Assembly.assemble (Assembly.characters source) = ⟨words, none⟩ ∧
    List.Forall₂ Spells lines words ∧
    next.node? l = some (.file (String.join (lines.map (· ++ "\n"))).toUTF8)
  changes : fs.ChangesOnly l next

/-- Why a file is not assembled, and how the program ends then. -/
inductive Fails (fs : FileSystem) (path : Path) : Exit → Prop
  | reading {reason : Reason} (failed : fs.read path = .error reason) :
      Fails fs path (.failure s!"reading {path.display}" [reason.message])
  | assembling {source : ByteArray} {e : Assembly.Error} (read : fs.read path = .ok source)
      (failed : (Assembly.assemble (Assembly.characters source)).failure? = some e) :
      Fails fs path (.failure s!"assembling {path.display}" [e.message])
  | creating {source : ByteArray} {output : Path} {reason : Reason}
      (read : fs.read path = .ok source)
      (assembled : (Assembly.assemble (Assembly.characters source)).failure? = none)
      (named : output = Path.withExtension path "hack") (failed : fs.opening output = .error reason) :
      Fails fs path (.failure s!"creating {output.display}" [reason.message])

/-- Where files take everything, a file is assembled, or fails with nothing changed. -/
theorem run_assembleFile (takes : ∀ l, fs.medium.limit? l = none) (path : Path) :
    (∃ l next, (assembleFile path : StateM FileSystem _).run fs = (.ok (), next) ∧
      Assembled fs path l next) ∨
    ∃ exit, (assembleFile path : StateM FileSystem _).run fs = (.error exit, fs) ∧
      Fails fs path exit := by
  rw [assembleFile, run_bind (FileSystem.run_read fs path)]
  cases read : fs.read path with
  | error reason => exact .inr ⟨_, rfl, .reading read⟩
  | ok source =>
    dsimp only
    cases ended : Assembly.assemble (Assembly.characters source) with
    | mk words failure? =>
    cases failure? with
    | some e => exact .inr ⟨_, rfl, .assembling read (by rw [ended])⟩
    | none =>
      have created := FileSystem.run_create fs (Path.withExtension path "hack")
      dsimp only [Progress.toExcept]
      rw [run_bind created]
      cases opening : fs.opening (Path.withExtension path "hack") with
      | error reason => exact .inr ⟨_, rfl, .creating read (by rw [ended]) rfl opening⟩
      | ok l =>
        have target := FileSystem.target_of_opening opening
        have appended := FileSystem.run_append_put target .empty (machineText words).toUTF8
        rw [Medium.write_of_unlimited (takes l), ByteArray.empty_append, machineText_eq] at appended
        dsimp only
        rw [machineText_eq, run_bind appended]
        have spelled : List.Forall₂ Spells (words.map binary) words :=
          List.forall₂_map_left_iff.mpr (List.forall₂_same.mpr fun w _ => spells_binary w)
        exact .inl ⟨l, _, rfl, opening,
          ⟨source, words, words.map binary, read, ended, spelled,
            (FileSystem.holds_put target _).found⟩,
          FileSystem.changesOnly_put fs (FileSystem.below_target target) _⟩

/-- Files that were assembled in turn, each with the place of its output. -/
inductive Assembles : FileSystem → List (Path × Location) → FileSystem → Prop
  | nil (fs : FileSystem) : Assembles fs [] fs
  | cons {fs next after : FileSystem} {path : Path} {l : Location}
      {rest : List (Path × Location)} (first : Assembled fs path l next)
      (later : Assembles next rest after) : Assembles fs ((path, l) :: rest) after

theorem Assembles.unchanged {files : List (Path × Location)} (assembles : Assembles fs files after)
    (elsewhere : l ∉ files.map Prod.snd) : after.node? l = fs.node? l := by
  induction assembles with
  | nil => rfl
  | cons first _ ih =>
    obtain ⟨other, elsewhere⟩ := not_or.mp (mt List.mem_cons.mpr elsewhere)
    rw [ih elsewhere, first.changes.others l other]

/-- Where files take everything that is written to them, files are assembled in order up to the first
that fails. That one changes nothing, and those after it are not looked at. -/
theorem assembleFiles_settles (paths : List Path) (fs : FileSystem)
    (takes : ∀ l, fs.medium.limit? l = none) :
    ∃ files rest after, paths = files.map Prod.fst ++ rest ∧ Assembles fs files after ∧
      (∀ l, l ∉ files.map Prod.snd → after.node? l = fs.node? l) ∧
      match rest with
      | [] => (assembleFiles paths : StateM FileSystem _).run fs = (.success "", after)
      | path :: _ => ∃ exit, Fails after path exit ∧
          (assembleFiles paths : StateM FileSystem _).run fs = (exit, after) := by
  induction paths generalizing fs with
  | nil => exact ⟨[], [], fs, rfl, .nil fs, fun _ _ => rfl, rfl⟩
  | cons path rest ih =>
    rcases run_assembleFile takes path with ⟨l, next, ran, first⟩ | ⟨exit, ran, fails⟩
    · have takes' : ∀ l, next.medium.limit? l = none := by rwa [first.changes.medium]
      obtain ⟨files, later, after, split, assembles, _, ended⟩ := ih next takes'
      have assembles := assembles.cons first
      refine ⟨(path, l) :: files, later, after, by rw [split]; rfl, assembles,
        fun _ => assembles.unchanged, ?_⟩
      rw [assembleFiles, run_bind ran]
      exact ended
    · refine ⟨[], path :: rest, fs, rfl, .nil fs, fun _ _ => rfl, exit, fails, ?_⟩
      rw [assembleFiles, run_bind ran]
      rfl

/-- The second of two files is not there. -/
theorem assembleFiles_settles_missing :
    let fs : FileSystem := ⟨[(["A.asm"], .file "@2\nD=A\n".toUTF8)], [], .sound⟩
    let paths : List Path := ["A.asm", "B.asm"]
    (∀ l, fs.medium.limit? l = none) ∧ ∃ path ∈ paths, ∃ exit after, Fails after path exit ∧
      exit ≠ .success "" ∧ (assembleFiles paths : StateM FileSystem _).run fs = (exit, after) := by
  intro fs paths
  have takes : ∀ l, fs.medium.limit? l = none := fun _ => rfl
  have stopped : ((assembleFiles paths : StateM FileSystem _).run fs).1 ≠ .success "" := by
    decide +kernel
  refine ⟨takes, ?_⟩
  obtain ⟨files, rest, after, split, _, _, ended⟩ := assembleFiles_settles paths fs takes
  cases rest with
  | nil =>
    rw [ended] at stopped
    exact absurd rfl stopped
  | cons path later =>
    obtain ⟨exit, fails, ran⟩ := ended
    have member : path ∈ paths := by
      rw [split]
      exact List.mem_append_right _ List.mem_cons_self
    rw [ran] at stopped
    exact ⟨path, member, exit, after, fails, stopped, ran⟩

end HackToolchain.CommandLine.Assembler
