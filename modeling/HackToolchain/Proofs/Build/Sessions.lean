import HackToolchain.Build.Run
import HackToolchain.Proofs.Build.Planning
import HackToolchain.Proofs.Codegen.Truncation

/-! The output file while a program is being written. What has reached the file and what is held back
make up what the writer wrote, after every unit and after the whole program. Where that stops for want
of room, there would not have been room for the program either. -/
namespace HackToolchain.Build

open Codegen (Line Sink Writer Outcome translation)
open Files

variable {fs : FileSystem} {l : Location} {path output : Path} {content : ByteArray} {e : Error}

theorem fromUTF8?_eq_some {text : String} :
    String.fromUTF8? content = some text ↔ content = text.toUTF8 := by
  rw [String.fromUTF8?]
  constructor
  · intro decoded
    split at decoded
    · obtain rfl := Option.some.inj decoded
      rfl
    · contradiction
  · rintro rfl
    rw [dif_pos (show text.toUTF8.IsValidUTF8 from text.isValidUTF8)]
    rfl

/-- A source as a unit: the name that it goes by, and its text. -/
structure IsUnit (fs : FileSystem) (path : Path) (unit : String × String) : Prop where
  name : unitName? path = some unit.1
  text : fs.read path = .ok unit.2.toUTF8

theorem IsUnit.unique {unit other : String × String} (is : IsUnit fs path unit)
    (is' : IsUnit fs path other) : unit = other := by
  have name := Option.some.inj (is.name.symm.trans is'.name)
  have text := Except.ok.inj (is.text.symm.trans is'.text)
  exact Prod.ext name (String.toByteArray_inj.mp text)

/-- Reading a text changes nothing, and gives the text that the file's bytes stand for. -/
theorem run_readText (fs : FileSystem) (path : Path) :
    ∃ answer, (readText path : StateM FileSystem _).run fs = (answer, fs) ∧
      ∀ text, answer = .ok text ↔ fs.read path = .ok text.toUTF8 := by
  rw [readText, run_bind (FileSystem.run_read fs path)]
  cases fs.read path with
  | error reason => exact ⟨.error reason, rfl, by simp⟩
  | ok content =>
    cases decoded : String.fromUTF8? content with
    | none =>
      refine ⟨.error .invalidText, by simp only [decoded]; rfl, fun text => ?_⟩
      rw [Except.ok.injEq, ← fromUTF8?_eq_some, decoded]
      simp
    | some text =>
      refine ⟨.ok text, by simp only [decoded]; rfl, fun other => ?_⟩
      rw [Except.ok.injEq, Except.ok.injEq, ← fromUTF8?_eq_some, decoded, Option.some_inj]

/-- A session under way: the output file holds what was written and is not held back. -/
structure Session.Buffers (s : Session) (content : ByteArray) : Prop where
  bytes : content ++ s.held = s.writer.sink.bytes
  unlimited : s.writer.Unlimited

theorem text_extend (s : Sink) (lines : List Line) :
    (s.extend lines).text = s.text ++ String.join (lines.flatMap Line.pieces) := by
  have pieces : String.join (lines.map Line.text) = String.join (lines.flatMap Line.pieces) := by
    rw [← String.toList_inj, String.toList_join, String.toList_join, List.flatMap_map,
      List.flatMap_assoc]
    simp only [Line.text, String.toList_join]
  rw [Sink.text_extend, pieces]

theorem piecesFrom_extend (s : Sink) (lines : List Line) :
    (s.extend lines).piecesFrom s.lines.size = lines.flatMap Line.pieces := by
  simp [Sink.piecesFrom, Sink.extend]

/-- What a session sends out and holds back when its writer has written more lines. -/
theorem Session.Buffers.extend {s : Session} (buffers : s.Buffers content) {w : Writer}
    {lines : List Line} (wrote : w.sink = s.writer.sink.extend lines) :
    let sent := BlockBuffer.push s.held (w.sink.piecesFrom s.writer.sink.lines.size)
    Session.Buffers ⟨w, sent.2⟩ (content ++ sent.1) := by
  intro sent
  have unlimited := buffers.unlimited.extend wrote
  refine ⟨?_, unlimited⟩
  have before : s.writer.sink.bytes = s.writer.sink.text.toUTF8 := by
    rw [Sink.bytes, buffers.unlimited.whole, ByteArray.append_empty]
  calc content ++ sent.1 ++ sent.2
      = content ++ (s.held ++ (String.join (lines.flatMap Line.pieces)).toUTF8) := by
        rw [ByteArray.append_assoc, BlockBuffer.push_append, wrote, piecesFrom_extend]
    _ = s.writer.sink.text.toUTF8 ++ (String.join (lines.flatMap Line.pieces)).toUTF8 := by
        rw [← ByteArray.append_assoc, buffers.bytes, before]
    _ = w.sink.bytes := by
        rw [Sink.bytes, unlimited.whole, ByteArray.append_empty, wrote, text_extend]
        rfl

/-- A run ended because its output takes no more, and the output could not have had this content. -/
def Refused (m : Medium) (l : Location) (e : Error) (content : ByteArray) : Prop :=
  ∃ path limit reason, e = .unit path (.write (.refused reason.message)) ∧
    m.limit? l = some (limit, reason) ∧ limit < content.size

theorem Refused.mono {m : Medium} {more : ByteArray} (refused : Refused m l e content)
    (grows : content.size ≤ more.size) : Refused m l e more := by
  obtain ⟨path, limit, reason, error, limited, much⟩ := refused
  exact ⟨path, limit, reason, error, limited, Nat.lt_of_lt_of_le much grows⟩

/-- Bytes on their way to the output: they are added, or are too much for it. -/
theorem run_send (target : fs.target output = .ok l) (fits : fs.medium.Fits l content)
    (bytes : ByteArray) :
    ∃ answer content', (send output bytes : StateM FileSystem _).run
        (fs.put l (.file content)) = (answer, fs.put l (.file content')) ∧
      fs.medium.Fits l content' ∧
      match answer with
      | .ok () => content' = content ++ bytes
      | .error e => ∀ path, Refused fs.medium l (.unit path (.write e)) (content ++ bytes) := by
  rw [send]
  by_cases nothing : bytes.isEmpty
  · obtain rfl : bytes = .empty := by simpa [ByteArray.isEmpty] using nothing
    exact ⟨.ok (), content, rfl, fits, ByteArray.append_empty.symm⟩
  · rw [if_neg nothing, run_bind (FileSystem.run_append_put target content bytes)]
    have kept : fs.medium.Fits l (fs.medium.write l content bytes).2 := Medium.fits_write fits
    cases answer : (fs.medium.write l content bytes).1 with
    | ok accepted => exact ⟨.ok (), _, rfl, kept, Medium.write_of_ok answer⟩
    | error reason =>
      refine ⟨.error (.refused reason.message), _, rfl, kept, fun path => ?_⟩
      obtain ⟨limit, limited, much⟩ := Medium.write_of_error answer
      exact ⟨path, limit, reason, rfl, limited, by rwa [ByteArray.size_append]⟩

/-- An operation of a session on its output file. -/
theorem run_extend_put (path : Path) (target : fs.target output = .ok l)
    (fits : fs.medium.Fits l content) {s : Session} (buffers : s.Buffers content)
    (next : Writer → Outcome) {lines : List Line}
    (wrote : (next s.writer).writer.sink = s.writer.sink.extend lines) :
    ∃ answer content', (extend output path s next : StateM FileSystem _).run
        (fs.put l (.file content)) = (answer, fs.put l (.file content')) ∧
      fs.medium.Fits l content' ∧
      match answer with
      | .ok s' => s'.Buffers content' ∧ next s.writer = ⟨s'.writer, none⟩
      | .error e => (next s.writer).failure? ≠ none ∨
          Refused fs.medium l e (next s.writer).writer.sink.bytes := by
  have buffers' := buffers.extend wrote
  obtain ⟨w, held⟩ := s
  dsimp only at buffers' ⊢
  rw [extend]
  dsimp only
  generalize BlockBuffer.push held ((next w).writer.sink.piecesFrom w.sink.lines.size) = sent
    at buffers' ⊢
  obtain ⟨answer, content', ran, kept, ended⟩ := run_send target fits sent.1
  rw [run_bind ran]
  cases answer with
  | error e =>
    refine ⟨_, content', rfl, kept, .inr ((ended path).mono ?_)⟩
    rw [← buffers'.bytes]
    simp only [ByteArray.size_append]
    exact Nat.le_add_right _ _
  | ok _ =>
    obtain rfl := ended
    cases failure : (next w).failure? with
    | some e => exact ⟨_, _, rfl, kept, .inl (by simp)⟩
    | none => exact ⟨_, _, rfl, kept, buffers', by rw [← failure]⟩

/-- No source is found at the place `l`. -/
def Elsewhere (fs : FileSystem) (l : Location) (sources : List Path) : Prop :=
  ∀ path ∈ sources, ∃ l' content, fs.Holds path l' content ∧ l' ≠ l

theorem read_put (target : fs.target output = .ok l) (node : Node)
    (elsewhere : ∃ l' content, fs.Holds path l' content ∧ l' ≠ l) :
    (fs.put l node).read path = fs.read path := by
  obtain ⟨l', content, holds, apart⟩ := elsewhere
  have changes := FileSystem.changesOnly_put fs (FileSystem.below_target target) node
  rw [holds.read, (holds.of_changesOnly changes (FileSystem.plain_target target) apart).read,
    changes.medium]

theorem size_le_units {w : Writer} (unlimited : w.Unlimited) (units : List (String × String)) :
    w.sink.bytes.size ≤ (w.units units).writer.sink.bytes.size := by
  obtain ⟨lines, more⟩ := (Writer.truncates_units units).adds w unlimited
  rw [more, Sink.bytes_extend unlimited.whole, ByteArray.size_append]
  exact Nat.le_add_right _ _

/-- Reads and writes one source. -/
def writeUnit (output path : Path) (s : Session) : StateM FileSystem (Except Error Session) := do
  match ← readText path with
  | .error reason => return .error (.io path reason)
  | .ok source =>
    match unitName? path with
    | none => return .error (.invalidName path)
    | some name => extend output path s fun w => (w.setFileName name).unit source

theorem writeUnits_cons (output path : Path) (rest : List Path) (s : Session) :
    (writeUnits output (path :: rest) s : StateM FileSystem _) = (do
      match ← writeUnit output path s with
      | .error e => return .error e
      | .ok s => writeUnits output rest s) := by
  rw [writeUnits, writeUnit, bind_assoc]
  congr 1
  funext read
  cases read with
  | error reason => rfl
  | ok text => cases unitName? path <;> rfl

/-- A source is written as a unit, or it is none, or it fails, or it is too much for the output. -/
theorem run_writeUnit (target : fs.target output = .ok l) (fits : fs.medium.Fits l content)
    {s : Session} (buffers : s.Buffers content) (path : Path) :
    ∃ answer content', (writeUnit output path s).run (fs.put l (.file content)) =
        (answer, fs.put l (.file content')) ∧
      fs.medium.Fits l content' ∧ (∀ s', answer = .ok s' → s'.Buffers content') ∧
      ((fs.put l (.file content)).read path = fs.read path → match answer with
        | .ok s' => ∃ unit, IsUnit fs path unit ∧
          (s.writer.setFileName unit.1).unit unit.2 = ⟨s'.writer, none⟩
        | .error e => ∀ unit, IsUnit fs path unit →
          ((s.writer.setFileName unit.1).unit unit.2).failure? ≠ none ∨
            Refused fs.medium l e ((s.writer.setFileName unit.1).unit unit.2).writer.sink.bytes) := by
  obtain ⟨read, ran, reads⟩ := run_readText (fs.put l (.file content)) path
  rw [writeUnit, run_bind ran]
  cases read with
  | error reason =>
    refine ⟨_, content, rfl, fits, by simp, fun same unit is => ?_⟩
    exact absurd ((reads unit.2).mpr (same.trans is.text)) (by simp)
  | ok text =>
    dsimp only
    cases named : unitName? path with
    | none =>
      refine ⟨_, content, rfl, fits, by simp, fun _ unit is => ?_⟩
      exact absurd (named.symm.trans is.name) (by simp)
    | some name =>
      have is (same : (fs.put l (.file content)).read path = fs.read path) :
          IsUnit fs path (name, text) := ⟨named, same.symm.trans ((reads text).mp rfl)⟩
      obtain ⟨lines, wrote⟩ :=
        (Writer.truncates_unit text).adds _ (buffers.unlimited.setFileName name)
      obtain ⟨answer, content', ran, fits, ended⟩ :=
        run_extend_put path target fits buffers (fun w => (w.setFileName name).unit text) wrote
      cases answer with
      | error e =>
        refine ⟨_, content', ran, fits, by simp, fun same unit is' => ?_⟩
        obtain rfl := (is same).unique is'
        exact ended
      | ok s' =>
        refine ⟨_, content', ran, fits, ?_, fun same => ⟨_, is same, ended.2⟩⟩
        rintro _ ⟨⟩
        exact ended.1

/-- How writing sources ends: they are units, and the writer takes them all, or they are not, or the
output does not take all that the writer writes for them. -/
def Ends (fs : FileSystem) (l : Location) (w : Writer) (sources : List Path) :
    Except Error Session → Prop
  | .ok s => ∃ units, List.Forall₂ (IsUnit fs) sources units ∧ w.units units = ⟨s.writer, none⟩
  | .error e => ∀ units, List.Forall₂ (IsUnit fs) sources units → (w.units units).failure? = none →
      Refused fs.medium l e (w.units units).writer.sink.bytes

theorem run_writeUnits (target : fs.target output = .ok l) (fits : fs.medium.Fits l content)
    {s : Session} (buffers : s.Buffers content) (sources : List Path) :
    ∃ answer content', (writeUnits output sources s : StateM FileSystem _).run
        (fs.put l (.file content)) = (answer, fs.put l (.file content')) ∧
      fs.medium.Fits l content' ∧ (∀ s', answer = .ok s' → s'.Buffers content') ∧
      (Elsewhere fs l sources → Ends fs l s.writer sources answer) := by
  induction sources generalizing s content with
  | nil =>
    exact ⟨.ok s, content, rfl, fits, by rintro _ ⟨⟩; exact buffers, fun _ => ⟨[], .nil, rfl⟩⟩
  | cons path rest ih =>
    obtain ⟨answer, content', ran, fits, kept, wrote⟩ := run_writeUnit target fits buffers path
    replace wrote (elsewhere : Elsewhere fs l (path :: rest)) :=
      wrote (read_put target (.file content) (List.forall_mem_cons.mp elsewhere).1)
    rw [writeUnits_cons, run_bind ran]
    cases answer with
    | error e =>
      refine ⟨_, content', rfl, fits, by simp, fun elsewhere units given succeeded => ?_⟩
      obtain ⟨unit, later, is, _, rfl⟩ := List.forall₂_cons_left_iff.mp given
      rw [Writer.units_cons] at succeeded ⊢
      obtain ⟨first, next⟩ := Codegen.andThen_succeeded succeeded
      rw [next]
      rcases wrote elsewhere unit is with failed | refused
      · exact absurd first failed
      · have unlimited := buffers.unlimited.setFileName unit.1
        obtain ⟨lines, added⟩ := (Writer.truncates_unit unit.2).adds _ unlimited
        exact refused.mono (size_le_units (unlimited.extend added) later)
    | ok s' =>
      obtain ⟨answer, content'', ran, fits, kept, ended⟩ := ih fits (kept s' rfl)
      refine ⟨answer, content'', ran, fits, kept, fun elsewhere => ?_⟩
      obtain ⟨unit, is, wrote⟩ := wrote elsewhere
      have units (units : List (String × String)) :
          s.writer.units (unit :: units) = s'.writer.units units := by
        rw [Writer.units_cons, Outcome.andThen, wrote]
      have ended := ended (List.forall_mem_cons.mp elsewhere).2
      cases answer with
      | ok s'' =>
        obtain ⟨given, are, wrote⟩ := ended
        exact ⟨unit :: given, .cons is are, (units given).trans wrote⟩
      | error e =>
        intro given are
        obtain ⟨unit', later, is', others, rfl⟩ := List.forall₂_cons_left_iff.mp are
        obtain rfl := is.unique is'
        rw [units]
        exact ended later others

theorem Session.buffers_start (r : Request) : (Session.start r).Buffers .empty :=
  ⟨rfl, rfl, rfl⟩

/-- Where there is room the code that starts a program is written. -/
theorem exists_bootstrapped {w : Writer} (unlimited : w.Unlimited) :
    ∃ first lines, w.bootstrap = ⟨first, none⟩ ∧ first.sink = w.sink.extend lines := by
  rw [Codegen.bootstrap_succeeded unlimited.room]
  exact ⟨_, _, rfl, rfl⟩

/-- What a program's session is before the first unit. -/
def opening (r : Request) (output : Path) : StateM FileSystem (Except Error Session) :=
  if r.bootstrap then extend output r.source (.start r) Writer.bootstrap else pure (.ok (.start r))

/-- The code that starts a program is written, or the output does not take it. -/
theorem run_opening (target : fs.target output = .ok l) (r : Request) :
    ∃ answer content, (opening r output).run (fs.put l (.file .empty)) =
        (answer, fs.put l (.file content)) ∧
      fs.medium.Fits l content ∧
      match answer with
      | .ok s => s.Buffers content ∧
          ∀ units, translation r.bootstrap r.annotate units = s.writer.units units
      | .error e => ∀ units,
          Refused fs.medium l e (translation r.bootstrap r.annotate units).writer.sink.bytes := by
  have buffers := Session.buffers_start r
  have fits := fs.medium.fits_empty l
  cases started : r.bootstrap with
  | false =>
    exact ⟨.ok (.start r), .empty, by rw [opening, started]; rfl, fits, buffers, fun _ => rfl⟩
  | true =>
    obtain ⟨first, lines, begun, wrote⟩ := exists_bootstrapped buffers.unlimited
    have units (units : List (String × String)) :
        translation true r.annotate units = first.units units := by
      rw [translation, if_pos rfl, show (Writer.new .unlimited r.annotate).bootstrap = _ from begun,
        Outcome.andThen]
    obtain ⟨answer, content, ran, fits, ended⟩ :=
      run_extend_put r.source target fits buffers Writer.bootstrap (by rw [begun, wrote])
    refine ⟨answer, content, by rw [opening, started]; exact ran, fits, ?_⟩
    rw [begun] at ended
    cases answer with
    | ok s =>
      obtain ⟨buffers, same⟩ := ended
      obtain rfl := congrArg Outcome.writer same
      exact ⟨buffers, units⟩
    | error e =>
      intro given
      rw [units]
      rcases ended with failed | refused
      · exact absurd rfl failed
      · exact refused.mono (size_le_units (buffers.unlimited.extend wrote) given)

/-- What is held back at the end completes the output, or is too much for it. -/
theorem run_finish (target : fs.target output = .ok l) (fits : fs.medium.Fits l content)
    {s : Session} (buffers : s.Buffers content) :
    ∃ answer content', (finish output s : StateM FileSystem _).run (fs.put l (.file content)) =
        (answer, fs.put l (.file content')) ∧
      fs.medium.Fits l content' ∧
      match answer with
      | .ok () => content' = s.writer.sink.bytes
      | .error e => Refused fs.medium l e s.writer.sink.bytes := by
  obtain ⟨answer, content', ran, fits, ended⟩ := run_send target fits s.held
  rw [buffers.bytes] at ended
  rw [finish, Writer.finish, bind_assoc, run_bind ran]
  cases answer with
  | ok _ => exact ⟨.ok (), content', rfl, fits, ended⟩
  | error e => exact ⟨_, content', rfl, fits, ended output⟩

theorem writeProgram_eq (r : Request) (sources : List Path) (output : Path) :
    (writeProgram r sources output : StateM FileSystem _) = (do
      match ← opening r output with
      | .error e => return .error e
      | .ok s =>
        match ← writeUnits output sources s with
        | .error e => return .error e
        | .ok s => finish output s) := by
  rw [writeProgram, opening]
  cases r.bootstrap <;> rfl

/-- How writing a program ends: its sources are units, and the output is their program, or that is not
so, or the program is too much for the output. -/
theorem run_writeProgram (target : fs.target output = .ok l) (r : Request) (sources : List Path) :
    ∃ answer content, (writeProgram r sources output : StateM FileSystem _).run
        (fs.put l (.file .empty)) = (answer, fs.put l (.file content)) ∧
      fs.medium.Fits l content ∧
      (Elsewhere fs l sources → match answer with
        | .ok _ => ∃ units, List.Forall₂ (IsUnit fs) sources units ∧
          (translation r.bootstrap r.annotate units).failure? = none ∧
          content = (translation r.bootstrap r.annotate units).writer.sink.bytes
        | .error e => ∀ units, List.Forall₂ (IsUnit fs) sources units →
          (translation r.bootstrap r.annotate units).failure? = none →
          Refused fs.medium l e (translation r.bootstrap r.annotate units).writer.sink.bytes) := by
  obtain ⟨answer, content, ran, fits, started⟩ := run_opening target r
  rw [writeProgram_eq, run_bind ran]
  cases answer with
  | error e => exact ⟨.error e, content, rfl, fits, fun _ units _ _ => started units⟩
  | ok s =>
    obtain ⟨buffers, started⟩ := started
    obtain ⟨answer, content', ran, fits, kept, ended⟩ :=
      run_writeUnits target fits buffers sources
    dsimp only
    rw [run_bind ran]
    cases answer with
    | error e =>
      refine ⟨.error e, content', rfl, fits, fun elsewhere units are => ?_⟩
      rw [started]
      exact ended elsewhere units are
    | ok s' =>
      obtain ⟨answer, content'', ran, fits, finished⟩ := run_finish target fits (kept s' rfl)
      refine ⟨answer, content'', ran, fits, fun elsewhere => ?_⟩
      obtain ⟨units, are, wrote⟩ := ended elsewhere
      have whole : translation r.bootstrap r.annotate units = ⟨s'.writer, none⟩ :=
        (started units).trans wrote
      cases answer with
      | ok _ => exact ⟨units, are, by rw [whole], by rw [whole, finished]⟩
      | error e =>
        intro units' are' _
        have same : units' = units :=
          List.right_unique_forall₂' (fun _ _ _ is is' => is.unique is') are' are
        rw [same, whole]
        exact finished

end HackToolchain.Build
