import HackToolchain.Proofs.Build.Sessions

/-! What a run leaves behind. It touches one place, and only once it has a plan and a file can be made at
that place. There it leaves the whole program, or nothing if there is no such program or no room for it. -/
namespace HackToolchain.Build

open Codegen (compile translation)
open Files

variable {fs : FileSystem} {r : Request} {p : Plan} {l : Location} {content : ByteArray}

/-- The answer of a run, and the files after it. -/
def outcome (r : Request) (fs : FileSystem) : Except Error Path × FileSystem :=
  (run r : StateM FileSystem _).run fs

/-- The path that the output goes to. -/
def Request.outputOf (r : Request) (p : Plan) : Path :=
  r.output?.getD p.output

/-- The bytes of the program that a request asks for: the code of its units, read in the order of the
sources and written by one writer. -/
def IsProgram (fs : FileSystem) (r : Request) (sources : List Path) (content : ByteArray) : Prop :=
  ∃ units, List.Forall₂ (IsUnit fs) sources units ∧
    (translation r.bootstrap r.annotate units).failure? = none ∧
    content = (translation r.bootstrap r.annotate units).writer.sink.bytes

/-- A program of one unit that does not start itself is what the unit compiles to. -/
theorem IsProgram.single {path : Path} (program : IsProgram fs r [path] content)
    (alone : r.bootstrap = false) (silent : r.annotate = false) :
    ∃ name source assembly, IsUnit fs path (name, source) ∧
      compile name source = .ok assembly ∧ content = assembly.toUTF8 := by
  obtain ⟨units, are, succeeded, rfl⟩ := program
  obtain ⟨⟨name, source⟩, _, unit, none, rfl⟩ := List.forall₂_cons_left_iff.mp are
  obtain rfl := List.forall₂_nil_left_iff.mp none
  rw [alone, silent] at succeeded ⊢
  have written : translation false false [(name, source)] =
      ((Codegen.Writer.new .unlimited false).setFileName name).unit source := rfl
  rw [written] at succeeded ⊢
  have compiled : compile name source = .ok
      (((Codegen.Writer.new .unlimited false).setFileName name).unit source).writer.sink.text := by
    simp only [compile, succeeded]
    rfl
  refine ⟨name, source, _, unit, compiled, ?_⟩
  obtain ⟨codes, wrote⟩ := Codegen.wrote_unit (by rfl) succeeded
  rw [Codegen.Sink.bytes, wrote.sink]
  exact ByteArray.append_empty

theorem run_plan_eq (fs : FileSystem) (source : Path) :
    (plan source : StateM FileSystem _).run fs = (planned fs source, fs) := by
  rw [planned, run_plan]

/-- All that a run can do once its output has been made. -/
theorem outcome_of_opening (found : planned fs r.source = .ok p)
    (opening : fs.opening (r.outputOf p) = .ok l) :
    (∃ content, outcome r fs = (.ok (r.outputOf p), fs.put l (.file content)) ∧
      fs.medium.Fits l content ∧
      (Elsewhere fs l p.sources → IsProgram fs r p.sources content)) ∨
    (∃ e, outcome r fs = (.error e, fs.erase l) ∧
      (Elsewhere fs l p.sources → ∀ content, IsProgram fs r p.sources content →
        Refused fs.medium l e content)) := by
  have target := FileSystem.target_of_opening opening
  obtain ⟨answer, content, ran, fits, ended⟩ := run_writeProgram target r p.sources
  rw [outcome, run, run_bind (run_plan_eq fs r.source), found]
  dsimp only
  rw [Request.outputOf] at ran opening target ⊢
  have created := FileSystem.run_create fs (r.output?.getD p.output)
  rw [opening] at created
  rw [run_bind created]
  dsimp only
  rw [run_bind ran]
  cases answer with
  | ok _ => exact .inl ⟨content, rfl, fits, ended⟩
  | error e =>
    dsimp only
    rw [run_bind (FileSystem.run_remove _ _), (FileSystem.holds_put target content).remove,
      FileSystem.erase_put]
    refine .inr ⟨e, rfl, fun elsewhere content program => ?_⟩
    obtain ⟨units, are, succeeded, rfl⟩ := program
    exact ended elsewhere units are succeeded

theorem outcome_of_unplanned {e : Error} (failed : planned fs r.source = .error e) :
    outcome r fs = (.error e, fs) := by
  rw [outcome, run, run_bind (run_plan_eq fs r.source), failed]
  rfl

theorem outcome_of_not_opening {reason : Reason} (found : planned fs r.source = .ok p)
    (failed : fs.opening (r.outputOf p) = .error reason) :
    outcome r fs = (.error (.io (r.outputOf p) reason), fs) := by
  rw [outcome, run, run_bind (run_plan_eq fs r.source), found]
  dsimp only
  rw [Request.outputOf] at failed ⊢
  have refused := FileSystem.run_create fs (r.output?.getD p.output)
  rw [failed] at refused
  rw [run_bind refused]
  rfl

theorem Plan.Valid.elsewhere (valid : p.Valid fs)
    (apart : ∀ path ∈ p.sources, fs.resolve path ≠ .ok l) : Elsewhere fs l p.sources := by
  intro path member
  obtain ⟨l', content, holds⟩ := valid.holds member
  refine ⟨l', content, holds, ?_⟩
  rintro rfl
  exact apart path member holds.resolved

/-- How every run ends. Without a plan, or if the output cannot be made, nothing changes. Otherwise only
the output changes. It is gone after a failure. After a success it holds the whole program, unless one of
the sources was there. A run fails only if there is no such program, a source that cannot be read
included, or if the output cannot have that many bytes, however late that shows. -/
theorem outcome_settles (r : Request) (fs : FileSystem) :
    match planned fs r.source with
    | .error e => outcome r fs = (.error e, fs)
    | .ok p =>
      p.sources.Pairwise (· ≤ ·) ∧
      match fs.opening (r.outputOf p) with
      | .error reason => outcome r fs = (.error (.io (r.outputOf p) reason), fs)
      | .ok l =>
        ∃ answer after, outcome r fs = (answer, after) ∧ fs.ChangesOnly l after ∧
          (∀ e, answer = .error e → after.node? l = none) ∧
          (∀ path, answer = .ok path → path = r.outputOf p) ∧
          ((∀ path ∈ p.sources, fs.resolve path ≠ .ok l) →
            match answer with
            | .error e => ∀ content, IsProgram fs r p.sources content →
              Refused fs.medium l e content
            | .ok _ => ∃ content, after.node? l = some (.file content) ∧
              fs.medium.Fits l content ∧ IsProgram fs r p.sources content ∧
              ∀ path, p.sources = [path] → r.bootstrap = false → r.annotate = false →
                ∃ name source assembly, IsUnit fs path (name, source) ∧
                  compile name source = .ok assembly ∧ content = assembly.toUTF8) := by
  cases found : planned fs r.source with
  | error e => exact outcome_of_unplanned found
  | ok p =>
    have valid := valid_of_planned found
    refine ⟨valid.ordered, ?_⟩
    cases opening : fs.opening (r.outputOf p) with
    | error reason => exact outcome_of_not_opening found opening
    | ok l =>
      have target := FileSystem.target_of_opening opening
      have below := FileSystem.below_target target
      rcases outcome_of_opening found opening with ⟨content, ended, fits, program⟩ | ⟨e, ended, much⟩
      · refine ⟨_, _, ended, FileSystem.changesOnly_put fs below _, by simp, by simp, ?_⟩
        intro apart
        have program := program (valid.elsewhere apart)
        refine ⟨content, (FileSystem.holds_put target content).found, fits, program, ?_⟩
        intro path single alone silent
        rw [single] at program
        exact program.single alone silent
      · refine ⟨_, _, ended, FileSystem.changesOnly_erase fs below, fun _ _ => ?_, by simp, ?_⟩
        · rw [FileSystem.node?_erase fs below, if_pos rfl]
        · exact fun apart => much (valid.elsewhere apart)

theorem changesOnly_outcome (found : planned fs r.source = .ok p)
    (opening : fs.opening (r.outputOf p) = .ok l) : fs.ChangesOnly l (outcome r fs).2 := by
  have below := FileSystem.below_target (FileSystem.target_of_opening opening)
  rcases outcome_of_opening found opening with ⟨content, ended, _⟩ | ⟨e, ended, _⟩
  · rw [ended]
    exact FileSystem.changesOnly_put fs below _
  · rw [ended]
    exact FileSystem.changesOnly_erase fs below

/-- A source that is not where the output goes is kept, and the planned output goes to no source. -/
theorem sources_kept (found : planned fs r.source = .ok p) {path : Path}
    (member : path ∈ p.sources) :
    ∃ content, fs.find? path = some (.file content) ∧
      (fs.target (r.outputOf p) ≠ fs.resolve path →
        (outcome r fs).2.find? path = some (.file content)) ∧
      (r.output? = none → fs.target (r.outputOf p) ≠ fs.resolve path) := by
  have valid := valid_of_planned found
  obtain ⟨l', content, holds⟩ := valid.holds member
  refine ⟨content, holds.find?, fun apart => ?_, fun planned => ?_⟩
  · cases opening : fs.opening (r.outputOf p) with
    | error reason =>
      rw [outcome_of_not_opening found opening]
      exact holds.find?
    | ok l =>
      have target := FileSystem.target_of_opening opening
      have apart : l' ≠ l := by
        rintro rfl
        exact apart (target.trans holds.resolved.symm)
      exact (holds.of_changesOnly (changesOnly_outcome found opening)
        (FileSystem.plain_target target) apart).find?
  · rw [Request.outputOf, planned, Option.getD_none, holds.resolved]
    intro target
    exact valid.ne_output member target holds.resolved

/-- A directory with nothing but a program in it. -/
def onlyMain : FileSystem :=
  ⟨[(["Main.vm"], .file "push constant 7\n".toUTF8)], [], .sound⟩

theorem sources_kept_onlyMain :
    let main : Path := "Main.vm"
    planned onlyMain main = .ok ⟨[main], "Main.asm"⟩ ∧ main ∈ [main] ∧
      ∃ content, onlyMain.find? main = some (.file content) ∧
        (outcome ⟨main, none, false, false⟩ onlyMain).2.find? main = some (.file content) := by
  intro main
  have found : planned onlyMain main = .ok ⟨[main], "Main.asm"⟩ := by decide +kernel
  have member : main ∈ [main] := List.mem_singleton_self main
  obtain ⟨content, before, kept, apart⟩ :=
    sources_kept (r := ⟨main, none, false, false⟩) found member
  exact ⟨found, member, content, before, kept (apart rfl)⟩

/-- An output that is named like a source takes its place before it is read. -/
theorem source_replaced :
    let main : Path := "Main.vm"
    planned onlyMain main = .ok ⟨[main], "Main.asm"⟩ ∧
      (onlyMain.find? main).bind Node.content? = some "push constant 7\n".toUTF8 ∧
      (outcome ⟨main, some main, false, false⟩ onlyMain).1 = .ok main ∧
      ((outcome ⟨main, some main, false, false⟩ onlyMain).2.find? main).bind Node.content? =
        some .empty := by
  decide +kernel

end HackToolchain.Build
