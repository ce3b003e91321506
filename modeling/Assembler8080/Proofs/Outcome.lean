import Assembler8080.CommandLine
import Assembler8080.Proofs.Contents
import Assembler8080.Proofs.Paths
import Assembler8080.Proofs.Reporting

/-! How the command ends. Each of its steps goes on or ends the command with a failure: the sources
are loaded (`loadAll_eq_ok_iff`), the report files are written before the outcome is known
(`withReports_cases`), and the image is written last (`finish_cases`). So the command has two ends
(`execute_cases`): one where all that it needs is there (`Succeeds`), and one where nothing but
report files has changed. -/
namespace Assembler8080.CommandLine

open Files

/-! ### Loading -/

/-- Source files as they are loaded from paths. -/
def Loads (files : Files) (directory : Bytes) (paths : List Bytes) (sources : List SourceFile) :
    Prop :=
  List.Forall₂ (fun path source => SourceFile.load files directory path = .ok source) paths sources

theorem loadAll_cons_eq_ok_iff {files : Files} {directory path : Bytes} {rest : List Bytes}
    {sources : List SourceFile} :
    loadAll files directory (path :: rest) = .ok sources ↔ ∃ source more,
      SourceFile.load files directory path = .ok source ∧
        loadAll files directory rest = .ok more ∧ sources = source :: more := by
  rw [loadAll]
  cases SourceFile.load files directory path with
  | error fault => simp
  | ok source => cases loadAll files directory rest <;> simp [Except.map, eq_comm]

theorem loadAll_eq_ok_iff {files : Files} {directory : Bytes} {paths : List Bytes}
    {sources : List SourceFile} :
    loadAll files directory paths = .ok sources ↔ Loads files directory paths sources := by
  induction paths generalizing sources with
  | nil => simp [loadAll, Loads, eq_comm]
  | cons path rest ih =>
    simp only [loadAll_cons_eq_ok_iff, ih, Loads, List.forall₂_cons_left_iff]

theorem Loads.unique {files : Files} {directory : Bytes} {paths : List Bytes}
    {sources others : List SourceFile} (loads : Loads files directory paths sources)
    (again : Loads files directory paths others) : others = sources := by
  rw [← loadAll_eq_ok_iff] at loads again
  exact Except.ok.inj (again.symm.trans loads)

/-! ### The report files -/

section Reports

variable {directory base : Bytes} {ds : List Report.Destination}

def ReportPlace (files : Files) (directory base : Bytes) (ds : List Report.Destination)
    (place : Bytes) : Prop :=
  ∃ d ∈ ds, files.writable directory (base ++ reportExtension d) = .ok place

/-- All report files are written, or one that cannot be written ends it. -/
theorem writeReports_cases (content : Report.Destination → Bytes) (files : Files) :
    (∃ written, writeReports directory base content files ds = .ok written ∧
      (∀ d ∈ ds, files.CanWrite directory (base ++ reportExtension d)) ∧
      ChangedAt (ReportPlace files directory base ds) files written) ∨
    (∃ written path fault, writeReports directory base content files ds =
        .error (written, path, fault) ∧
      (∃ d ∈ ds, ¬ files.CanWrite directory (base ++ reportExtension d)) ∧
      ChangedAt (ReportPlace files directory base ds) files written) := by
  induction ds generalizing files with
  | nil => exact .inl ⟨files, rfl, by simp, .refl files⟩
  | cons d rest ih =>
    cases written : files.write directory (base ++ reportExtension d) (content d) with
    | error fault =>
      have blocked : ¬ files.CanWrite directory (base ++ reportExtension d) := by
        intro can
        obtain ⟨next, there⟩ := write_of_canWrite can (content d)
        rw [written] at there
        contradiction
      exact .inr ⟨files, base ++ reportExtension d, fault, by simp [writeReports, written],
        ⟨d, List.mem_cons_self, blocked⟩, .refl files⟩
    | ok next =>
      have first := ChangedAt.of_write written
      have step : ChangedAt (ReportPlace files directory base (d :: rest)) files next :=
        first.mono fun place there => ⟨d, List.mem_cons_self, there⟩
      have goesOn : writeReports directory base content files (d :: rest) =
          writeReports directory base content next rest := by simp [writeReports, written]
      have later : ∀ place, ReportPlace next directory base rest place →
          ReportPlace files directory base (d :: rest) place := by
        rintro place ⟨other, member, there⟩
        exact ⟨other, List.mem_cons_of_mem d member, (writable_congr first.directories).mp there⟩
      rw [goesOn]
      rcases ih next with ⟨last, ok, can, changed⟩ | ⟨last, path, fault, error, blocked, changed⟩
      · refine .inl ⟨last, ok, List.forall_mem_cons.mpr ⟨canWrite_of_write written, ?_⟩,
          step.trans (changed.mono later)⟩
        exact fun other member => (canWrite_congr first.directories).mp (can other member)
      · obtain ⟨other, member, cannot⟩ := blocked
        refine .inr ⟨last, path, fault, error, ⟨other, List.mem_cons_of_mem d member, ?_⟩,
          step.trans (changed.mono later)⟩
        exact fun can => cannot ((canWrite_congr first.directories).mpr can)

theorem withReports_cases (room : Report.Room) (a : Assembly) (files : Files) :
    (∃ written, withReports directory base room a files = .ok written ∧
      (∀ d ∈ destinations, files.CanWrite directory (base ++ reportExtension d)) ∧
      ChangedAt (ReportPlace files directory base destinations) files written) ∨
    (∃ written path fault, withReports directory base room a files =
        .error (written, path, fault) ∧
      (∃ d ∈ destinations, ¬ files.CanWrite directory (base ++ reportExtension d)) ∧
      ChangedAt (ReportPlace files directory base destinations) files written) := by
  unfold withReports
  rcases writeReports_cases (fun _ => []) files with
    ⟨made, ok, can, changed⟩ | ⟨made, path, fault, error, blocked, changed⟩
  · have same := changed.directories
    rw [ok]
    -- The files could be made, so they can be written again.
    rcases writeReports_cases (Report.deliver room (reportWrites a)).content made with
      ⟨written, full, -, more⟩ | ⟨-, -, -, -, ⟨d, member, cannot⟩, -⟩
    · refine .inl ⟨written, full, can, changed.trans (more.mono ?_)⟩
      rintro place ⟨d, member, there⟩
      exact ⟨d, member, (writable_congr same).mp there⟩
    · exact (cannot ((canWrite_congr same).mpr (can d member))).elim
  · rw [error]
    exact .inr ⟨made, path, fault, rfl, blocked, changed⟩

theorem deliverFrom_spec (seen : List Report.Write) (room : Report.Room) (ws : List Report.Write) :
    seen.length ≤ (Report.deliverFrom seen room ws).made.length ∧
      ((Report.deliverFrom seen room ws).failed = false ↔
        ws.length + seen.length ≤ (Report.deliverFrom seen room ws).made.length) := by
  induction ws generalizing seen room with
  | nil => simp [Report.deliverFrom]
  | cons w rest ih =>
    rw [Report.deliverFrom]
    split
    · simp
    · obtain ⟨least, whole⟩ := ih (w :: seen) (room.use w.destination)
      simp only [List.length_cons] at least whole ⊢
      exact ⟨by omega, whole.trans (by omega)⟩

theorem reportFailure_eq_none_iff (base : Bytes) {room : Report.Room} {a : Assembly} :
    reportFailure base room a = none ↔ (Report.deliver room (reportWrites a)).failed = false := by
  have spec := (deliverFrom_spec [] room (reportWrites a)).2
  rw [reportFailure, Option.map_eq_none_iff, List.getElem?_eq_none_iff, Report.deliver, spec]
  simp

end Reports

/-! ### The end -/

theorem finish_cases (directory output : Bytes) (options : Options) (a : Assembly)
    (failure : Option Bytes) (files : Files) :
    (∃ written, files.write directory output a.image = .ok written ∧ a.fault failure = none ∧
      (finish directory output options a failure files).failure = none ∧
      (finish directory output options a failure files).stdout = summary a output ∧
      (finish directory output options a failure files).files = written) ∨
    ((finish directory output options a failure files).failure ≠ none ∧
      (finish directory output options a failure files).files = files ∧
      (a.fault failure ≠ none ∨ ¬ files.CanWrite directory output)) := by
  unfold finish
  cases fault : a.fault failure with
  | some reason => exact .inr ⟨by simp [failed], rfl, .inl (by simp)⟩
  | none =>
    cases written : files.write directory output a.image with
    | error reason =>
      refine .inr ⟨by simp [failed], rfl, .inr fun can => ?_⟩
      obtain ⟨next, there⟩ := write_of_canWrite can a.image
      rw [written] at there
      contradiction
    | ok next => exact .inl ⟨next, rfl, rfl, rfl, rfl, rfl⟩

def outputPath (directory first : Bytes) (options : Options) : Bytes :=
  if options.output.isEmpty then Path.withExtension (Path.absolute directory first) (ascii ".bin")
  else options.output

def reportsOf (options : Options) : List Report.Destination :=
  if options.listing then destinations else []

def reportPath (directory first : Bytes) (d : Report.Destination) : Bytes :=
  Path.withExtension (Path.absolute directory first) (reportExtension d)

def reported (directory first : Bytes) (options : Options) (room : Report.Room) (a : Assembly) :
    Option Bytes :=
  if options.listing then reportFailure (Path.base (Path.absolute directory first)) room a else none

/-- All that the command needs. -/
structure Succeeds (directory first : Bytes) (rest : List Bytes) (options : Options)
    (room : Report.Room) (files : Files) (sources : List SourceFile) : Prop where
  loads : Loads files directory (first :: rest) sources
  reports : ∀ d ∈ reportsOf options, files.CanWrite directory (reportPath directory first d)
  assembles : (Assembly.ofFiles sources).fault
    (reported directory first options room (Assembly.ofFiles sources)) = none
  writes : files.CanWrite directory (outputPath directory first options)

variable {directory first : Bytes} {rest : List Bytes} {options : Options} {room : Report.Room}
  {files : Files}

def ReportAt (directory first : Bytes) (options : Options) (files : Files) : Bytes → Prop :=
  ReportPlace files directory (Path.base (Path.absolute directory first)) (reportsOf options)

theorem assemble_cases (directory first : Bytes) (options : Options) (room : Report.Room)
    (files : Files) (sources : List SourceFile) :
    (∃ written, (∀ d ∈ reportsOf options, files.CanWrite directory (reportPath directory first d)) ∧
      ChangedAt (ReportAt directory first options files) files written ∧
      assemble directory first options room sources files =
        finish directory (outputPath directory first options) options (Assembly.ofFiles sources)
          (reported directory first options room (Assembly.ofFiles sources)) written) ∨
    ((assemble directory first options room sources files).failure ≠ none ∧
      (∃ d ∈ reportsOf options, ¬ files.CanWrite directory (reportPath directory first d)) ∧
      ChangedAt (ReportAt directory first options files) files
        (assemble directory first options room sources files).files) := by
  by_cases listing : options.listing = true
  · have reports : reportsOf options = destinations := by simp [reportsOf, listing]
    have failure (a : Assembly) : reported directory first options room a =
        reportFailure (Path.base (Path.absolute directory first)) room a := by
      simp [reported, listing]
    rw [ReportAt, reports, failure]
    unfold assemble
    rcases withReports_cases room (Assembly.ofFiles sources) files with
      ⟨written, ok, can, changed⟩ | ⟨written, path, fault, error, blocked, changed⟩
    · exact .inl ⟨written, can, changed, by simp [listing, ok, outputPath]⟩
    · refine .inr ⟨?_, blocked, ?_⟩ <;> simp only [listing, error, if_true]
      · simp [failed]
      · exact changed
  · have silent : reportsOf options = [] := by simp [reportsOf, listing]
    refine .inl ⟨files, by simp [silent], .refl files, ?_⟩
    simp [assemble, listing, outputPath, reported]

/-- The two ends of the command. -/
theorem execute_cases (directory first : Bytes) (rest : List Bytes) (options : Options)
    (room : Report.Room) (files : Files) :
    let outcome := execute directory first rest options room files
    (∃ sources written, Succeeds directory first rest options room files sources ∧
      ChangedAt (ReportAt directory first options files) files written ∧
      written.write directory (outputPath directory first options)
        (Assembly.ofFiles sources).image = .ok outcome.files ∧
      outcome.failure = none ∧
      outcome.stdout =
        summary (Assembly.ofFiles sources) (outputPath directory first options)) ∨
    (outcome.failure ≠ none ∧
      (∀ sources, ¬ Succeeds directory first rest options room files sources) ∧
      ChangedAt (ReportAt directory first options files) files outcome.files) := by
  intro outcome
  cases loaded : loadAll files directory (first :: rest) with
  | error fault =>
    have fails : outcome.failure ≠ none := by simp [outcome, execute, loaded, failed]
    have unchanged : outcome.files = files := by simp [outcome, execute, loaded, failed]
    rw [unchanged]
    refine .inr ⟨fails, fun sources needed => ?_, .refl files⟩
    have loads := loadAll_eq_ok_iff.mpr needed.loads
    rw [loaded] at loads
    contradiction
  | ok sources =>
    have loads : Loads files directory (first :: rest) sources := loadAll_eq_ok_iff.mp loaded
    have start : outcome = assemble directory first options room sources files := by
      simp only [outcome, execute, loaded]
    rw [start]
    rcases assemble_cases directory first options room files sources with
      ⟨written, can, changed, ends⟩ | ⟨fails, blocked, changed⟩
    · have same := changed.directories
      rw [ends]
      rcases finish_cases directory (outputPath directory first options) options
          (Assembly.ofFiles sources)
          (reported directory first options room (Assembly.ofFiles sources)) written with
        ⟨last, ok, assembles, success, stdout, left⟩ | ⟨fails, unchanged, reason⟩
      · have output := (canWrite_congr same).mp (canWrite_of_write ok)
        exact .inl ⟨sources, written, ⟨loads, can, assembles, output⟩, changed,
          ok.trans (by rw [left]), success, stdout⟩
      · rw [unchanged]
        refine .inr ⟨fails, fun others needed => ?_, changed⟩
        obtain rfl := loads.unique needed.loads
        rcases reason with fault | blocked
        · exact fault needed.assembles
        · exact blocked ((canWrite_congr same).mpr needed.writes)
    · refine .inr ⟨fails, fun others needed => ?_, changed⟩
      obtain ⟨d, member, cannot⟩ := blocked
      exact cannot (needed.reports d member)

/-- An image that is not empty reaches from the lowest to the highest address written. -/
theorem range_ofFiles (sources : List SourceFile)
    (occupied : (Assembly.ofFiles sources).image ≠ []) :
    IsLeast {x | x ∈ (Assembly.ofFiles sources).writes.addresses} (Assembly.ofFiles sources).origin ∧
      IsGreatest {x | x ∈ (Assembly.ofFiles sources).writes.addresses}
        (lastAddress (Assembly.ofFiles sources)) := by
  have spans : Writes.Spans (Assembly.ofFiles sources).state.code.window
      (Assembly.ofFiles sources).writes := Assembly.spans_run sources .empty
  generalize Assembly.ofFiles sources = a at occupied spans ⊢
  cases window : a.state.code.window with
  | none => exact (occupied (a.image_eq_nil_iff.mpr window).1).elim
  | some bounds =>
    obtain ⟨lo, hi⟩ := bounds
    rw [window] at spans
    have ordered := Assembly.window_ordered spans
    have size : a.image.length = hi.toNat - lo.toNat + 1 := Image.length_output window
    have last : lastAddress a = hi := by
      have bound := hi.toNat_lt
      rw [UInt16.le_iff_toNat_le] at ordered
      simp only [lastAddress, List.isEmpty_iff, occupied, if_false,
        Assembly.origin_of_some window, size]
      apply UInt16.toNat_inj.mp
      rw [UInt16.toNat_add, UInt16.toNat_ofNat']
      omega
    cases spans with
    | full least greatest =>
      rw [Assembly.origin_of_some window, last]
      exact ⟨least, greatest⟩

/-- A path with another extension is the place that is written to. -/
theorem place_withExtension (rooted : Path.isAbsolute directory = true) {ending place : Bytes}
    (whole : Byte.slash ∉ ending) (long : 3 ≤ ending.length)
    (there : files.writable directory (Path.withExtension (Path.absolute directory first) ending) =
      .ok place) : place = Path.withExtension (Path.absolute directory first) ending := by
  obtain ⟨name, outer, proper, same⟩ :=
    Path.withExtension_isClean (Path.absolute_isClean rooted first) whole long
  rw [same] at there ⊢
  exact resolve_isClean proper (writable_eq_ok_iff.mp there).1

theorem place_report (rooted : Path.isAbsolute directory = true) {place : Bytes}
    (there : ReportAt directory first options files place) :
    ∃ ending ∈ [ascii ".bin", ascii ".lst", ascii ".xrf", ascii ".err"],
      place = Path.withExtension (Path.absolute directory first) ending := by
  obtain ⟨d, -, there⟩ := there
  have ending : Byte.slash ∉ reportExtension d ∧ 3 ≤ (reportExtension d).length := by
    cases d <;> decide
  exact ⟨reportExtension d, by cases d <;> simp [reportExtension],
    place_withExtension rooted ending.1 ending.2 there⟩

theorem fault_reported_eq_none_iff {a : Assembly} :
    a.fault (reported directory first options room a) = none ↔ a.unresolved = 0 ∧
      (options.listing = true → (Report.deliver room (reportWrites a)).failed = false) := by
  rw [← reportFailure_eq_none_iff (Path.base (Path.absolute directory first))]
  unfold Assembly.fault reported
  cases options.listing <;>
    cases reportFailure (Path.base (Path.absolute directory first)) room a <;> simp

theorem reportPaths_eq (directory first : Bytes) (options : Options) :
    (if options.listing then [ascii ".lst", ascii ".xrf", ascii ".err"].map
      (Path.withExtension (Path.absolute directory first)) else []) =
      (reportsOf options).map (reportPath directory first) := by
  unfold reportsOf
  cases options.listing <;> rfl

/-- A command with no path in its arguments ends before it looks at a file. -/
theorem run_without_paths (directory : Bytes) (files : Files) (arguments : List Bytes)
    (seen : Arguments) (read : Arguments.read arguments = .ok seen) (help : seen.help = false)
    (bare : seen.paths = []) :
    run directory files arguments = failed files [] ArgumentFault.noPaths.message := by
  have refused : Request.read arguments = .error .noPaths := by
    simp [Request.read, read, Except.bind, Arguments.request, help, bare]
  rw [run, refused]

/-- The command succeeds exactly if it has all that it needs. Then the output holds the image, and
the range it covers is printed; else nothing but report files has changed. -/
theorem binary_written_on_success (directory first : Bytes) (rest : List Bytes) (options : Options)
    (room : Report.Room) (files : Files) :
    let outcome := execute directory first rest options room files
    let path := Path.absolute directory first
    let output := if options.output.isEmpty then Path.withExtension path (ascii ".bin")
      else options.output
    let reports := if options.listing then
      [ascii ".lst", ascii ".xrf", ascii ".err"].map (Path.withExtension path) else []
    let changed place := outcome.files.contents[place]? ≠ files.contents[place]?
    (outcome.failure = none ↔ ∃ sources, Loads files directory (first :: rest) sources ∧
      (∀ report ∈ reports, files.CanWrite directory report) ∧
      (Assembly.ofFiles sources).fault
        (reported directory first options room (Assembly.ofFiles sources)) = none ∧
      files.CanWrite directory output) ∧
    (∀ a, a.fault (reported directory first options room a) = none ↔ a.unresolved = 0 ∧
      (options.listing = true → (Report.deliver room (reportWrites a)).failed = false)) ∧
    (outcome.failure = none → ∀ sources, Loads files directory (first :: rest) sources →
      let a := Assembly.ofFiles sources
      outcome.files.read directory output = .ok a.image ∧
      outcome.stdout =
        ascii "assembled " ++ decimal a.image.length ++ ascii " bytes (" ++ hexWord a.origin
          ++ ascii "H-" ++ hexWord (lastAddress a) ++ ascii "H) in " ++ decimal a.passes
          ++ ascii " passes -> " ++ output ++ [Byte.lineFeed]
          ++ (if a.diagnostics = [] then []
            else decimal a.diagnostics.length ++ ascii " errors" ++ [Byte.lineFeed]) ∧
      (a.image ≠ [] → IsLeast {x | x ∈ a.writes.addresses} a.origin ∧
        IsGreatest {x | x ∈ a.writes.addresses} (lastAddress a))) ∧
    (outcome.failure ≠ none → ∀ place, changed place →
      ∃ report ∈ reports, files.writable directory report = .ok place) ∧
    (options.output = [] → Path.isAbsolute directory = true → ∀ place, changed place →
      ∃ ending ∈ [ascii ".bin", ascii ".lst", ascii ".xrf", ascii ".err"],
        place = Path.withExtension path ending) ∧
    outcome.files.directories = files.directories ∧
    (∀ arguments seen, Arguments.read arguments = .ok seen → seen.help = false → seen.paths = [] →
      run directory files arguments = failed files [] ArgumentFault.noPaths.message) := by
  intro outcome path output reports changed
  have listed : reports = (reportsOf options).map (reportPath directory first) :=
    reportPaths_eq directory first options
  have places {place : Bytes} : ReportAt directory first options files place →
      ∃ report ∈ reports, files.writable directory report = .ok place := by
    rintro ⟨d, member, there⟩
    exact ⟨reportPath directory first d, by simpa [listed] using ⟨d, member, rfl⟩, there⟩
  have needs : (∃ sources, Loads files directory (first :: rest) sources ∧
      (∀ report ∈ reports, files.CanWrite directory report) ∧
      (Assembly.ofFiles sources).fault
        (reported directory first options room (Assembly.ofFiles sources)) = none ∧
      files.CanWrite directory output) ↔
        ∃ sources, Succeeds directory first rest options room files sources := by
    refine exists_congr fun sources => ⟨fun ⟨loads, can, assembles, writes⟩ => ?_, fun needed => ?_⟩
    · exact ⟨loads, by simpa [listed] using can, assembles, writes⟩
    · exact ⟨needed.loads, by simpa [listed] using needed.reports, needed.assembles, needed.writes⟩
  rw [needs]
  have pathless := run_without_paths directory files
  rcases execute_cases directory first rest options room files with
    ⟨sources, written, needed, reported, ok, success, stdout⟩ | ⟨fails, missing, reported⟩
  · have last := ChangedAt.of_write ok
    refine ⟨⟨fun _ => ⟨sources, needed⟩, fun _ => success⟩, fun a => fault_reported_eq_none_iff,
      ?_, fun fails => (fails success).elim, ?_, last.directories.trans reported.directories,
      pathless⟩
    · intro _ others loads
      obtain rfl := needed.loads.unique loads
      refine ⟨read_of_write ok, stdout.trans ?_, range_ofFiles others⟩
      simp [summary, sayLine, output, outputPath, path]
    · intro default rooted place different
      by_cases atReport : ReportAt directory first options files place
      · exact place_report rooted atReport
      · refine ⟨ascii ".bin", by simp, ?_⟩
        have atOutput : written.writable directory output = .ok place := by
          by_contra elsewhere
          exact different ((last.contents place elsewhere).trans (reported.contents place atReport))
        have binary : output = Path.withExtension path (ascii ".bin") := by simp [output, default]
        rw [binary] at atOutput
        exact place_withExtension rooted (by decide) (by decide) atOutput
  · refine ⟨⟨fun success => (fails success).elim, fun ⟨sources, needed⟩ => (missing sources needed).elim⟩,
      fun a => fault_reported_eq_none_iff, fun success => (fails success).elim, ?_, ?_,
      reported.directories, pathless⟩
    · intro _ place different
      by_contra elsewhere
      exact different (reported.contents place fun there => elsewhere (places there))
    · intro _ rooted place different
      by_cases atReport : ReportAt directory first options files place
      · exact place_report rooted atReport
      · exact (different (reported.contents place atReport)).elim

def restartFiles : Files :=
  Files.empty.addFile (ascii "/p.asm") (ascii " ORG 100H\n RST 1\n RST 2\n")

def restartOptions : Options := ⟨[], true, false⟩

theorem binary_written_on_success_restart :
    let outcome := execute [Byte.slash] (ascii "/p.asm") [] restartOptions .unlimited restartFiles
    outcome.failure = none ∧
    (∃ sources, Loads restartFiles [Byte.slash] [ascii "/p.asm"] sources ∧
      outcome.files.read [Byte.slash] (ascii "/p.bin") = .ok (Assembly.ofFiles sources).image) ∧
    outcome.stdout = ascii "assembled 2 bytes (0100H-0101H) in 3 passes -> /p.bin\n" := by
  intro outcome
  have success : outcome.failure = none := by decide +kernel
  obtain ⟨needs, -, holds, -⟩ := binary_written_on_success [Byte.slash] (ascii "/p.asm") []
    restartOptions .unlimited restartFiles
  obtain ⟨sources, loads, -⟩ := needs.mp success
  have output : outputPath [Byte.slash] (ascii "/p.asm") restartOptions = ascii "/p.bin" := by
    decide +kernel
  exact ⟨success, ⟨sources, loads, output ▸ (holds success sources loads).1⟩, by decide +kernel⟩

end Assembler8080.CommandLine
