import Blackboard.Pipeline
import Blackboard.Proofs.Printing.Block
import Blackboard.Proofs.Reporting.OneLine
import Blackboard.Proofs.Conversion.Frame

/-!
Errors are what is wrong with the structure of a source. They are found while it is read, they are shown
before all else in the pseudocode, and a source without them has been read as a whole.
-/
namespace Blackboard

open List

/-- A remark is an error if and only if it is about the structure of the source. -/
def Diagnostic.IsGraded (d : Diagnostic) : Prop := d.isError = d.isStructural

theorem Diagnostic.IsFault.graded {d : Diagnostic} (h : d.IsFault) : d.IsGraded := h.1.trans h.2.symm

theorem Diagnostic.IsHint.isError_isStructural {d : Diagnostic} (h : d.IsHint) :
    d.isError = false ∧ d.isStructural = false := by
  refine ⟨by simpa [isError] using h.severity, ?_⟩
  have hcause := h.cause
  unfold isStructural
  cases hd : d.cause <;> simp_all [Cause.isStructural, Cause.ofConversion]

/-! ### What is found while a source is read -/

namespace Scan

open Source

theorem unsupported_graded (l : Language) (masked : List Char) : ∀ d ∈ unsupported l masked, d.IsGraded := by
  intro d hd
  obtain ⟨f, -, hd⟩ := mem_flatMap.1 ((Sorting.perm_sortBy _ _).mem_iff.1 hd)
  obtain ⟨p, -, rfl⟩ := mem_map.1 hd
  rfl

end Scan

namespace Source

open Scan

theorem Stmt.recover_faults (l : Language) (source masked : List Char) :
    ∀ d ∈ (Stmt.recover l source masked).2, d.IsFault := by
  unfold Stmt.recover
  split
  · exact forall_mem_nil _
  · split
    · exact forall_mem_nil _
    · intro d hd
      obtain ⟨read, hread, hd⟩ := mem_filterMap.1 hd
      obtain ⟨s, -, rfl⟩ := mem_map.1 hread
      obtain ⟨ss, -, hsegment⟩ | ⟨e, _, _, _, _, -, hsegment⟩ := readSegment_cases l source s
      · simp [hsegment] at hd
      · rw [hsegment] at hd
        cases hd
        exact ReadError.diagnostic_isFault l e

theorem Stmt.recover_spelled {l source masked} (h : (Stmt.recover l source masked).2 = []) :
    AllSpelled (fun _ => True) (stmtNodes (Stmt.recover l source masked).1) := by
  unfold Stmt.recover at h ⊢
  split
  · exact allSpelled_nil
  · next hblank =>
    rw [if_neg hblank] at h
    split
    · next ss hread => exact Stmt.readAll_spelled (fun _ _ => trivial) hread fun _ _ _ _ _ => trivial
    · next e hread =>
      rw [hread] at h
      refine allSpelled_stmtNodes.2 fun s hs => ?_
      obtain ⟨read, hmem, hs⟩ := mem_flatMap.1 hs
      have hnone := filterMap_eq_nil_iff.1 h read hmem
      obtain ⟨segment, -, rfl⟩ := mem_map.1 hmem
      obtain ⟨ss, hss, hsegment⟩ | ⟨_, _, _, _, _, -, hsegment⟩ := readSegment_cases l source segment
      · rw [hsegment] at hs
        exact allSpelled_stmtNodes.1 (Stmt.readAll_spelled (fun _ _ => trivial) hss fun _ _ _ _ _ => trivial) s hs
      · simp [hsegment] at hnone

theorem Program.read_graded (l : Language) (source : List Char) : ∀ d ∈ (Program.read l source).2, d.IsGraded := by
  have hfound : ∀ d ∈ structuralFaults l source ++ unsupported l (mask l source) ++
      (Stmt.recover l (liftImports l source (mask l source)).source
        (liftImports l source (mask l source)).masked).2, d.IsGraded := by
    rw [forall_mem_append, forall_mem_append]
    exact ⟨⟨fun d hd => (structuralFaults_oneLine l source d hd).1.graded, unsupported_graded l _⟩,
      fun d hd => (Stmt.recover_faults l _ _ d hd).graded⟩
  unfold Program.read
  dsimp only
  split
  · rw [forall_mem_append]
    exact ⟨hfound, forall_mem_singleton.2 rfl⟩
  · exact hfound

theorem Program.read_structuralErrors (l : Language) (source : List Char) :
    (Program.read l source).1.structuralErrors =
      ((Program.read l source).2.filter Diagnostic.isStructural).map Diagnostic.text := rfl

theorem Program.read_whole {l source} (h : (Program.read l source).2.filter Diagnostic.isStructural = []) :
    AllSpelled (fun _ => True) (stmtNodes (Program.read l source).1.body) := by
  have hrecover : (Stmt.recover l (liftImports l source (mask l source)).source
      (liftImports l source (mask l source)).masked).2 = [] := by
    rw [eq_nil_iff_forall_not_mem]
    intro d hd
    refine filter_eq_nil_iff.1 h d ?_ (Stmt.recover_faults l _ _ d hd).2
    unfold Program.read
    dsimp only
    split <;> simp [hd]
  refine allSpelled_stmtNodes.2 fun s hs => ?_
  obtain hs | hs := mem_append.1 ((Sorting.perm_sortBy _ _).mem_iff.1 hs)
  · obtain ⟨i, -, rfl⟩ := mem_map.1 hs
    exact forall_mem_singleton.2 ⟨rfl, fun _ _ _ _ => trivial⟩
  · exact allSpelled_stmtNodes.1 (Stmt.recover_spelled hrecover) s hs

end Source

/-! ### What is shown -/

namespace Pseudo.Layout

theorem formatFrom_plain (width : Nat) (ts : List String) (last : String) (ls : List Line) :
    ts.map (indented width 0) <+: formatFrom width 0 last (ts.map (fun t => ⟨.plain, t⟩) ++ ls) := by
  induction ts generalizing last with
  | nil => exact nil_prefix
  | cons t ts ih => exact (prefix_cons_inj _).2 (ih _)

theorem prefix_dropEmptyEnd {ts ls} (h : ts <+: ls) (hts : ∀ t ∈ ts, t ≠ "") : ts <+: dropEmptyEnd ls := by
  obtain ⟨rest, rfl⟩ := h
  have hkept : ts.reverse.dropWhile (· == "") = ts.reverse := by
    cases hreverse : ts.reverse with
    | nil => rfl
    | cons t rest =>
      have ht : t ∈ ts := mem_reverse.1 (hreverse ▸ mem_cons_self)
      rw [dropWhile_cons_of_neg (by simpa using hts t ht)]
  rw [dropEmptyEnd, reverse_append, dropWhile_append]
  split
  · rw [hkept, reverse_reverse]
  · rw [reverse_append, reverse_reverse]
    exact prefix_append _ _

theorem firstUndeclared_subset (reported : List String) (ds : List Diagnostic) :
    firstUndeclared reported ds ⊆ ds := by
  fun_induction firstUndeclared reported ds with
  | case1 => exact nil_subset _
  | case2 _ d ds _ _ _ ih => exact fun x hx => mem_cons_of_mem d (ih hx)
  | case3 _ d ds _ _ _ ih => exact cons_subset_cons d ih
  | case4 _ d ds _ ih => exact cons_subset_cons d ih

theorem strictRemarks_warn (options : Options) (body : List Stmt) (lines : List String) :
    ∀ d ∈ strictRemarks options body lines, d.isError = false ∧ d.isStructural = false := by
  have hlong : ∀ (n : Nat), ∀ d ∈ longLines options.maxLineLength n lines,
      d.isError = false ∧ d.isStructural = false := by
    induction lines with
    | nil => exact fun _ => forall_mem_nil _
    | cons s ss ih =>
      intro n
      unfold longLines
      split
      · exact forall_mem_cons.2 ⟨⟨rfl, rfl⟩, ih _⟩
      · exact ih _
  unfold strictRemarks
  rw [forall_mem_append]
  refine ⟨fun d hd => ?_, hlong 1⟩
  obtain ⟨e, -, he⟩ := mem_filterMap.1 (firstUndeclared_subset _ _ hd)
  unfold remark? at he
  split at he <;> cases he <;> exact ⟨rfl, rfl⟩

end Pseudo.Layout

namespace Discipline

open Pseudo Source

/-- Every statement of the source has been read, so every statement of the result is converted. -/
def reading (l : Language) : Discipline where
  language := l
  Visible _ _ := True
  Allows _ := True
  Text _ := True
  joins := True
  deep := True
  Base _ := True
  Size _ := True
  Entry _ _ := True
  Admits _ n := n.isUnparsed = false
  Owned _ := True
  Form f := ∀ text message, f ≠ .unparsed text message

theorem reading_lawful (l : Language) : (reading l).Lawful where
  toTextLaws := .of_all fun _ => trivial
  toTypeLaws := .of_all trivial (fun _ => trivial) fun _ => trivial
  visible_mono _ _ := trivial
  visible_enter _ := trivial
  visible_variable _ _ _ _ := trivial
  visible_callable _ _ := trivial
  deep_of_remark _ _ := trivial
  owned_of_class _ := trivial
  entry_of_callable _ _ _ _ := trivial
  entry_of_deep _ _ _ _ := trivial
  admits_operation := rfl
  admits_one := rfl
  admits_name _ := rfl
  admits_clause _ _ _ := rfl
  admits_awaited _ := rfl
  admits_body _ _ := rfl
  admits_value _ _ _ := rfl
  form_ordinary h _ _ _ he := by rw [he] at h; cases h
  form_class _ _ _ := Form.noConfusion
  form_comment _ _ _ := Form.noConfusion
  form_unparsed h := nomatch h
  form_procedure _ _ _ := Form.noConfusion
  form_function _ _ _ := Form.noConfusion
  form_named _ _ _ _ := by
    split
    · exact fun _ _ => Form.noConfusion
    · exact fun _ _ => Form.noConfusion
  form_nameless _ _ _ _ := Form.noConfusion
  form_statement _ _ _ _ _ _ := Form.noConfusion

end Discipline

namespace Pseudo

open Layout

theorem faults_prefix_format (width : Int) (annotated : Bool) (errors : List String) (body : List Stmt) :
    errors.map (fun e => String.ofList (Text.trimEnd ("// " ++ e).toList)) <+:
      format width (programLines annotated errors body) := by
  have hlines := formatFrom_plain width.toNat (errors.map ("// " ++ ·)) "" (Stmt.linesOf annotated true none body)
  rw [map_map, map_map] at hlines
  refine prefix_dropEmptyEnd hlines fun t ht => ?_
  obtain ⟨e, -, rfl⟩ := mem_map.1 ht
  refine (indented_of_ink width.toNat 0 ?_).2
  simp [Text.isBlank]

theorem generate_warns (options : Options) (errors : List String) (body : List Stmt) :
    ∀ d ∈ (generate options errors body).2, d.isError = false ∧ d.isStructural = false := by
  unfold generate
  split
  · exact strictRemarks_warn options body _
  · exact forall_mem_nil _

end Pseudo

namespace Outcome

open Pseudo Source Conversion

theorem filter_append_quiet {ds es : List Diagnostic} (h : ∀ d ∈ es, d.isError = false ∧ d.isStructural = false) :
    (ds ++ es).filter (·.isError) = ds.filter (·.isError) ∧
      (ds ++ es).filter (·.isStructural) = ds.filter (·.isStructural) := by
  rw [filter_append, filter_append]
  have herror : es.filter (·.isError) = [] := filter_eq_nil_iff.2 fun d hd => by simp [h d hd]
  have hstructural : es.filter (·.isStructural) = [] :=
    filter_eq_nil_iff.2 fun d hd => by simp [h d hd]
  rw [herror, hstructural, append_nil, append_nil]
  exact ⟨rfl, rfl⟩

theorem success_iff (o : Outcome) : o.success = true ↔ o.diagnostics.filter (·.isError) = [] := by
  simp [success, Diagnostic.count, Diagnostic.isError]

theorem filter_diagnostics_write {options : Options} {o : Outcome} {r : Result}
    (hread : ∀ d ∈ o.readRemarks, d.IsGraded) (hr : ∀ d ∈ r.diagnostics, d.IsHint) :
    (Pipeline.write options o r).diagnostics.filter (·.isError) = o.readRemarks.filter (·.isStructural) ∧
      (Pipeline.write options o r).diagnostics.filter (·.isStructural) = o.readRemarks.filter (·.isStructural) := by
  have hlater : ∀ d ∈ r.diagnostics ++ (generate options r.structuralErrors r.body).2,
      d.isError = false ∧ d.isStructural = false := by
    rw [forall_mem_append]
    exact ⟨fun d hd => (hr d hd).isError_isStructural, generate_warns options _ _⟩
  have hdiagnostics : (Pipeline.write options o r).diagnostics =
      o.readRemarks ++ (r.diagnostics ++ (generate options r.structuralErrors r.body).2) :=
    append_assoc _ _ _
  rw [hdiagnostics, (filter_append_quiet hlater).1, (filter_append_quiet hlater).2]
  exact ⟨filter_congr hread, rfl⟩

theorem structuralErrors_of_run {limit p r} (h : run limit p = .ok r) : r.structuralErrors = p.structuralErrors := by
  unfold run at h
  dsimp only at h
  cases hbody : ((Convert.stmts p.body).run { language := p.language, limit := limit }).run
      (Convert.predeclareAll p.language none {} p.body) with
  | error f =>
    rw [hbody] at h
    cases h
  | ok result =>
    rw [hbody] at h
    cases h
    rfl

theorem no_unparsed_of_read {limit p r}
    (hp : AllSpelled (fun _ => True) (stmtNodes p.body)) (hrun : run limit p = .ok r) :
    ∀ s ∈ Stmt.allOf r.body, ∀ text message, s.form ≠ .unparsed text message := by
  have hbody : StmtsInOrder p.language (Discipline.reading p.language).Admits (fun _ => False) p.body :=
    stmtsInOrder_of_always _ (fun n hn _ => (hp n hn).1) _
  have hstmts := Discipline.run_keeps (Discipline.reading_lawful p.language) rfl trivial hbody hrun fun _ _ => trivial
  exact fun s hs => (hstmts.of_mem_allOf _ s hs).1

def ofSource (l : Language) (source : String) : Outcome where
  language := l
  source := source
  program := (Program.read l source.toList).1
  readRemarks := (Program.read l source.toList).2

theorem convert_none (options : Options) (l : Language) (source : String) : Pipeline.convert options l none source =
      match run options.maxNestingDepth (ofSource l source).program with
      | .error f => { ofSource l source with fault := some f }
      | .ok r => Pipeline.write options (ofSource l source) r := by
  unfold Pipeline.convert ofSource
  dsimp only
  cases run options.maxNestingDepth (Program.read l source.toList).1 with
  | error f => rfl
  | ok r => exact if_neg nofun

end Outcome

end Blackboard
