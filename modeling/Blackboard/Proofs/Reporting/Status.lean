import Blackboard.CommandLine.Run
import Blackboard.Proofs.Reporting.Errors

/-!
The status with which the command ends. It is one if the source is no text that can be converted, if a
number in it cannot be written, or if an error was found; otherwise it is zero. Errors are overlooked where
a stage is asked for, even though that stage found them.
-/
namespace Blackboard

open List

/-- A text that can be converted: it is of a tolerable size and holds hardly anything but text. -/
structure Input.IsValid (options : Options) (source : String) : Prop where
  size : source.utf8ByteSize ≤ options.maxInputSize
  text : looksBinary source.toList = false

instance (options : Options) (source : String) : Decidable (Input.IsValid options source) :=
  decidable_of_iff (source.utf8ByteSize ≤ options.maxInputSize ∧ Input.looksBinary source.toList = false)
    ⟨fun h => ⟨h.1, h.2⟩, fun h => ⟨h.size, h.text⟩⟩

theorem Input.validate_text (options : Options) (path : Option String) (source : String) :
    match (Input.text source).validate options path with
    | .ok t => t = source ∧ IsValid options source
    | .error _ => ¬ IsValid options source := by
  unfold validate
  dsimp only
  by_cases hsize : source.utf8ByteSize > options.maxInputSize
  · rw [if_pos hsize]
    exact fun h => Nat.not_le.2 hsize h.size
  · rw [if_neg hsize]
    cases hbinary : looksBinary source.toList with
    | true => exact fun h => by simp [h.text] at hbinary
    | false => exact ⟨rfl, Nat.not_lt.1 hsize, hbinary⟩

/-! ### Errors and failures -/

theorem Source.Program.mem_read_of_fault {l source d}
    (h : d ∈ Scan.structuralFaults l source) : d ∈ (Program.read l source).2 := by
  unfold Program.read
  dsimp only
  split <;> simp [h]

namespace Outcome

open Source Conversion

theorem filter_isError_convert (options : Options) (l : Language) (stage : Option Stage) (source : String) :
    (Pipeline.convert options l stage source).diagnostics.filter (·.isError) =
      (Program.read l source.toList).2.filter (·.isStructural) := by
  have hread : (Program.read l source.toList).2.filter (·.isError) =
      (Program.read l source.toList).2.filter (·.isStructural) :=
    filter_congr (Program.read_graded l source.toList)
  have hhints := run_hints options.maxNestingDepth (Program.read l source.toList).1
  unfold Pipeline.convert
  dsimp only
  split
  · simpa [diagnostics] using hread
  · split
    · simpa [diagnostics] using hread
    · next r hr =>
      rw [hr] at hhints
      split
      · have hquiet : ∀ d ∈ r.diagnostics, d.isError = false ∧ d.isStructural = false :=
          fun d hd => (hhints d hd).isError_isStructural
        simp only [diagnostics, Option.map_some, Option.getD_some, Option.map_none, Option.getD_none, append_nil]
        rw [(filter_append_quiet hquiet).1, hread]
      · exact (@filter_diagnostics_write options (ofSource l source) r (Program.read_graded l source.toList) hhints).1

theorem read_convert (options : Options) (l : Language) (stage : Option Stage) (source : String) :
    ((Pipeline.convert options l stage source).program,
      (Pipeline.convert options l stage source).readRemarks) = Program.read l source.toList := by
  unfold Pipeline.convert
  dsimp only
  split
  · rfl
  · split
    · rfl
    · split <;> rfl

theorem success_convert_iff (options : Options) (l : Language) (stage : Option Stage) (source : String) :
    (Pipeline.convert options l stage source).success = true ↔
      ∀ d ∈ (Program.read l source.toList).2, d.isStructural = false := by
  rw [success_iff, filter_isError_convert]
  simp

theorem fault_convert_tree (options : Options) (l : Language) (source : String) :
    (Pipeline.convert options l (some .tree) source).fault = none := by
  unfold Pipeline.convert
  dsimp only
  rw [if_pos rfl]

theorem heavy_of_fault {options l stage source} (h : (Pipeline.convert options l stage source).fault ≠ none) :
    Heavy (weight (Program.read l source.toList).1) := by
  have hhints := run_hints options.maxNestingDepth (Program.read l source.toList).1
  unfold Pipeline.convert at h
  dsimp only at h
  split at h
  · exact absurd rfl h
  · split at h
    · next hr =>
      rw [hr] at hhints
      exact hhints
    · split at h <;> exact absurd rfl h

end Outcome

namespace CommandLine

/-- A run that comes to converting `source`: its arguments are in order, the language is known, and the
files can be read and written. -/
structure Reaches (inv : Invocation) (s : Settings) (l : Language) (source : String) : Prop where
  parsed : parse inv.arguments = .ok s
  noHelp : s.help = false
  hasInput : ((given? s.inputFile).isNone && inv.isTerminal) = false
  language : ∃ name, languageName? s = some name ∧ Language.ofName? name = some l
  readable : readSource inv s = .ok source
  writable : s.stage = none → ∀ path, outputPath? inv s = some path → inv.files.makeFault? path = none

theorem status_reportOutcome (inv : Invocation) (s : Settings) (o : Outcome)
    (hwritable : s.stage = none → ∀ path, outputPath? inv s = some path →
      inv.files.makeFault? path = none) :
    (reportOutcome inv s o).status = .ok (if o.fault = none ∧ (s.stage = none → o.success = true) then 0 else 1) := by
  unfold reportOutcome
  cases hfault : o.fault with
  | some f => simp [Outcome.failure?, hfault]
  | none =>
    cases hstage : s.stage with
    | some stage => simp [Outcome.failure?, hfault, reportStage]
    | none =>
      simp only [Outcome.failure?, hfault, Option.map_none, reportText]
      cases hpath : outputPath? inv s with
      | none => simp
      | some path => simp [hwritable hstage path hpath]

theorem status_convertSource (inv : Invocation) (s : Settings) (source : String) {name l} (hname : Language.ofName? name = some l)
    (hwritable : s.stage = none → ∀ path, outputPath? inv s = some path →
      inv.files.makeFault? path = none) :
    (convertSource inv s name source).status = .ok (if Input.IsValid s.options source ∧
        (Pipeline.convert s.options l s.stage source).fault = none ∧
        (s.stage = none → (Pipeline.convert s.options l s.stage source).success = true) then 0 else 1) := by
  have hvalid := Input.validate_text s.options (some ((inputPath? inv s).getD Pipeline.stdinName)) source
  simp only [convertSource, Language.resolve, Option.getD_some, hname, Pipeline.run]
  cases hvalidate : (Input.text source).validate s.options (some ((inputPath? inv s).getD Pipeline.stdinName)) with
  | error r =>
    rw [hvalidate] at hvalid
    rw [if_neg fun h => hvalid h.1]
    rfl
  | ok t =>
    rw [hvalidate] at hvalid
    simp only [hvalid, true_and]
    exact status_reportOutcome inv s _ hwritable

theorem Reaches.status_eq {inv s l source} (h : Reaches inv s l source) :
    (run inv).status = .ok (if Input.IsValid s.options source ∧
      (Pipeline.convert s.options l s.stage source).fault = none ∧
      (s.stage = none → (Pipeline.convert s.options l s.stage source).success = true) then 0 else 1) := by
  obtain ⟨name, hname, hlanguage⟩ := h.language
  have hsource := status_convertSource inv s source hlanguage h.writable
  simp only [run, h.parsed, h.noHelp, h.hasInput, hname, convertInput, h.readable]
  exact hsource

/-! ### A bracket that was never opened -/

theorem classify_plain {s} (h : ¬ "-".toList <+: s.toList) : classify s = .ok (.plain s) := by
  have hs : s.startsWith "-" = false := by rwa [← Bool.not_eq_true, String.startsWith_string_iff]
  rw [classify, hs]
  rfl

theorem classify_exact {s o} (h : "-".toList <+: s.toList) (hs : s ≠ "-")
    (ho : exact s = some o) : classify s = .ok (.option s o) := by
  have hdash : s.startsWith "-" = true := by rwa [String.startsWith_string_iff]
  simp [classify, hdash, hs, ho]

/-- A run over a bracket that was never opened, which may be asked to stop once it has been read. -/
def strayBracket (staged : Bool) : Invocation where
  arguments := "-l" :: "java" :: if staged then ["-c", "ast"] else []
  input := "\x7d"
  directory := "/"

def strayBracketSettings (staged : Bool) : Settings where
  language := some "java"
  stage := if staged then some .tree else none

theorem reaches_strayBracket (staged : Bool) :
    Reaches (strayBracket staged) (strayBracketSettings staged) .java "\x7d" where
  parsed := by
    have hl : classify "-l" = .ok (.option "-l" ⟨.language, none⟩) :=
      classify_exact (by decide) (by decide) (by decide)
    have hc : classify "-c" = .ok (.option "-c" ⟨.compile, none⟩) :=
      classify_exact (by decide) (by decide) (by decide)
    have hjava : classify "java" = .ok (.plain "java") := classify_plain (by decide)
    have hast : classify "ast" = .ok (.plain "ast") := classify_plain (by decide)
    cases staged with
    | false =>
      have hall : classifyAll (strayBracket false).arguments =
          .ok [.option "-l" ⟨.language, none⟩, .plain "java"] := by
        simp only [strayBracket, classifyAll, hl, hjava]
        rfl
      rw [parse, hall]
      rfl
    | true =>
      have hall : classifyAll (strayBracket true).arguments =
          .ok [.option "-l" ⟨.language, none⟩, .plain "java", .option "-c" ⟨.compile, none⟩, .plain "ast"] := by
        simp only [strayBracket, if_true, classifyAll, hl, hjava, hc, hast]
        rfl
      rw [parse, hall]
      rfl
  noHelp := rfl
  hasInput := rfl
  language := ⟨"java", rfl, by decide +kernel⟩
  readable := rfl
  writable _ path hpath := nomatch hpath

theorem error_of_strayBracket (options : Options) (stage : Option Stage) :
    ∃ d ∈ (Pipeline.convert options .java stage "\x7d").diagnostics, d.severity = .error := by
  obtain ⟨d, hd⟩ := exists_mem_of_ne_nil _ (by decide : Scan.structuralFaults .java "\x7d".toList ≠ [])
  have hfound : d ∈ (Pipeline.convert options .java stage "\x7d").diagnostics.filter (·.isError) := by
    rw [Outcome.filter_isError_convert, mem_filter]
    exact ⟨Source.Program.mem_read_of_fault hd, (Scan.structuralFaults_oneLine _ _ d hd).1.2⟩
  obtain ⟨hmem, herror⟩ := mem_filter.1 hfound
  exact ⟨d, hmem, by simpa [Diagnostic.isError] using herror⟩

theorem strayBracket_valid (staged : Bool) : Input.IsValid (strayBracketSettings staged).options "\x7d" := by
  cases staged <;> decide

end CommandLine

end Blackboard
