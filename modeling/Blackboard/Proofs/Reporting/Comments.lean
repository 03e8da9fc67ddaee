import Blackboard.Proofs.Reporting.Errors
import Blackboard.Proofs.Reporting.OneLine

/-!
Comments stay comments. What is said about a source, and what is kept of it, is shown in lines that begin
with two slashes. A text that reaches over a line end would go on in the next line without them; only the
source lines of statements that could not be read are cut, so the other texts must stand on one line.
-/
namespace Blackboard

open List (mem_append mem_map)

/-! ### Physical lines -/

namespace Text

theorem trimEnd_cons {c} (hc : isBlank c = false) (cs : List Char) : trimEnd (c :: cs) = c :: trimEnd cs := by
  rw [trimEnd, List.reverse_cons, List.dropWhile_append]
  split
  · next h =>
    rw [trimEnd, List.isEmpty_iff.1 h, List.dropWhile_cons_of_neg (by simp [hc])]
    rfl
  · rw [List.reverse_append]
    rfl

theorem mem_of_mem_trimEnd {cs c} (h : c ∈ trimEnd cs) : c ∈ cs :=
  List.mem_reverse.1 ((List.dropWhile_suffix _).subset (List.mem_reverse.1 h))

theorem not_mem_lines (cs : List Char) : ∀ line ∈ lines cs, '\n' ∉ line := by
  suffices ∀ acc, '\n' ∉ acc → ∀ line ∈ lines.go cs acc, '\n' ∉ line from this [] List.not_mem_nil
  intro acc hacc
  fun_induction lines.go cs acc with
  | case1 => exact nofun
  | case2 acc _ =>
    rw [List.forall_mem_singleton, List.mem_reverse]
    exact hacc
  | case3 acc rest ih =>
    exact List.forall_mem_cons.2 ⟨by simpa using hacc, ih List.not_mem_nil⟩
  | case4 c rest acc _ hend ih =>
    exact List.forall_mem_cons.2 ⟨by simpa using hacc, ih List.not_mem_nil⟩
  | case5 c rest acc _ hend ih =>
    refine ih fun h => ?_
    rcases List.mem_cons.1 h with rfl | h
    · exact hend rfl
    · exact hacc h

def physicalLines (s : String) : List (List Char) := s.toList.splitOn '\n'

end Text

namespace Pseudo

open Text

theorem Layout.physicalLines_join (lines : List String) :
    physicalLines (join lines) = lines.flatMap physicalLines ++ [[]] := by
  have hended : ∀ lines : List String, lines ≠ [] →
      ("\n".intercalate lines ++ "\n").toList.splitOn '\n' = lines.flatMap physicalLines ++ [[]] := by
    intro lines hne
    induction lines with
    | nil => exact absurd rfl hne
    | cons s ss ih =>
      cases ss with
      | nil =>
        rw [String.toList_append]
        simpa [physicalLines] using List.splitOn_append_cons_self s.toList []
      | cons t ts =>
        have htext : ("\n".intercalate (s :: t :: ts) ++ "\n").toList =
            s.toList ++ '\n' :: ("\n".intercalate (t :: ts) ++ "\n").toList := by
          simp [String.intercalate_cons_cons, String.toList_append]
        rw [htext, List.splitOn_append_cons_self, ih (List.cons_ne_nil t ts), ← List.append_assoc]
        rfl
  unfold join
  cases lines with
  | nil => rfl
  | cons s ss => exact hended (s :: ss) (List.cons_ne_nil s ss)

def isCommentLine (cs : List Char) : Bool := "//".toList.isPrefixOf (cs.dropWhile (· == ' '))

theorem isCommentLine_of_text {text : String} (rest : List Char) (htext : text.toList = '/' :: '/' :: rest)
    (hline : '\n' ∉ rest) (n : Nat) :
    ∀ cs ∈ physicalLines (String.ofList (Layout.spaces n ++ trimEnd text.toList)), isCommentLine cs = true := by
  have htrim : trimEnd text.toList = '/' :: '/' :: trimEnd rest := by
    rw [htext, trimEnd_cons (by decide), trimEnd_cons (by decide)]
  have hfeed : '\n' ∉ Layout.spaces n ++ trimEnd text.toList := by
    rw [htrim, mem_append, not_or]
    refine ⟨fun h => absurd (List.eq_of_mem_replicate h) (by decide), ?_⟩
    simpa using fun h => hline (mem_of_mem_trimEnd h)
  rw [physicalLines, String.toList_ofList, List.splitOn_eq_singleton hfeed, List.forall_mem_singleton,
    htrim, isCommentLine, Layout.spaces, List.dropWhile_append_of_pos (by simp),
    List.dropWhile_cons_of_neg (by decide)]
  rfl

/-! ### Lines that come from comments -/

namespace Site

/-- Whether a line shows a fault of the source, a note, a comment, or what is said and kept of a statement
that could not be read. -/
def isComment : Site → Bool
  | ⟨.fault _, _, _⟩ | ⟨.note _, _, _⟩ | ⟨.kept _, _, _⟩ => true
  | ⟨.header, .comment .., _⟩ | ⟨.header, .unparsed .., _⟩ => true
  | _ => false

def isKept : Site → Bool
  | ⟨.kept _, _, _⟩ => true
  | _ => false

/-- A line shows a statement, one of its notes, or a source line that it keeps. -/
structure Shows (s : Site) (t : Stmt) : Prop where
  form : s.form = t.form
  note : ∀ n, s.part = .note n → n ∈ t.notes
  kept : ∀ line, s.part = .kept line → line ∈ t.form.kept
  fault : ∀ e, s.part ≠ .fault e

mutual

theorem exists_shows_ofStmt (annotated : Bool) (above : List Form) (t : Stmt) :
    ∀ s ∈ ofStmt annotated above t, ∃ u ∈ t.all, s.Shows u := by
  match t with
  | .mk f cs notes line =>
    have hown {s : Site} (hform : s.form = f) (hnote : ∀ n, s.part = .note n → n ∈ notes)
        (hkept : ∀ line, s.part = .kept line → line ∈ f.kept) (hfault : ∀ e, s.part ≠ .fault e) :
        ∃ u ∈ (Stmt.mk f cs notes line).all, s.Shows u :=
      ⟨.mk f cs notes line, by rw [Stmt.all]; exact List.mem_cons_self, hform, hnote, hkept, hfault⟩
    intro s hs
    rw [ofStmt] at hs
    rcases mem_append.1 hs with hs | hs
    · split at hs
      · obtain ⟨n, hn, rfl⟩ := mem_map.1 hs
        exact hown rfl (by rintro _ ⟨⟩; exact hn) nofun nofun
      · cases hs
    · split at hs
      · cases hs
      · rcases mem_append.1 hs with hs | hs
        · rcases mem_append.1 hs with hs | hs
          · rcases List.mem_cons.1 hs with rfl | hs
            · exact hown rfl nofun nofun nofun
            · obtain ⟨k, hk, rfl⟩ := mem_map.1 hs
              exact hown rfl nofun (by rintro _ ⟨⟩; exact hk) nofun
          · obtain ⟨u, hu, hshows⟩ := exists_shows_ofStmts annotated f.isClass none (f :: above) cs s hs
            exact ⟨u, by rw [Stmt.all]; exact List.mem_cons_of_mem _ hu, hshows⟩
        · split at hs
          · obtain rfl := List.mem_singleton.1 hs
            exact hown rfl nofun nofun nofun
          · cases hs

theorem exists_shows_ofStmts (annotated separate : Bool) (previous : Option Form) (above : List Form)
    (ts : List Stmt) :
    ∀ s ∈ ofStmts annotated separate previous above ts, ∃ u ∈ Stmt.allOf ts, s.Shows u := by
  match ts with
  | [] => exact nofun
  | .mk f cs notes line :: ts =>
    intro s hs
    rw [ofStmts] at hs
    rw [Stmt.allOf]
    rcases mem_append.1 hs with hs | hs
    · rcases mem_append.1 hs with hs | hs
      · obtain ⟨-, -, rfl⟩ := mem_map.1 hs
        refine ⟨.mk f cs notes line, List.mem_append_left _ ?_, rfl, nofun, nofun, nofun⟩
        rw [Stmt.all]
        exact List.mem_cons_self
      · obtain ⟨u, hu, hshows⟩ := exists_shows_ofStmt annotated above _ s hs
        exact ⟨u, List.mem_append_left _ hu, hshows⟩
    · obtain ⟨u, hu, hshows⟩ := exists_shows_ofStmts annotated separate (some f) above ts s hs
      exact ⟨u, List.mem_append_right _ hu, hshows⟩

end

theorem shown_kept {line : String} {f : Form} (h : line ∈ f.kept) (above : List Form) (width : Nat) :
    ∀ cs ∈ physicalLines (shown width ⟨.kept line, f, above⟩), isCommentLine cs = true := by
  unfold Form.kept at h
  split at h
  · next text message =>
    obtain ⟨cs, hcs, rfl⟩ := mem_map.1 h
    refine isCommentLine_of_text ("   ".toList ++ trimEnd cs) (by simp [Site.line]) ?_ _
    intro hmem
    rcases mem_append.1 hmem with hmem | hmem
    · exact absurd hmem (by decide)
    · exact not_mem_lines _ cs hcs (mem_of_mem_trimEnd hmem)
  · cases h

theorem shown_quoted {s : Site} (lead : String) {text : String} (hline : s.line.text = "//" ++ lead ++ text)
    (hlead : '\n' ∉ lead.toList) (htext : Source.OneLine text) (width : Nat) :
    ∀ cs ∈ physicalLines (s.shown width), isCommentLine cs = true := by
  refine isCommentLine_of_text (lead.toList ++ text.toList) (by simp [hline]) ?_ _
  rw [mem_append, not_or]
  exact ⟨hlead, Source.oneLine_iff.1 htext⟩

end Site

def Form.OnOneLine : Form → Prop
  | .comment text _ => Source.OneLine text
  | .unparsed _ message => Source.OneLine message
  | _ => True

open Site in
/-- Comments are comments in every physical line, if their texts stand on one line or they keep lines of
the source. -/
theorem Site.shown_isComment {annotated : Bool} {errors : List String} {body : List Stmt} {s : Site}
    (hs : s ∈ ofProgram annotated errors body) (hcomment : s.isComment = true)
    (h : s.isKept = true ∨ (∀ e ∈ errors, Source.OneLine e) ∧
      ∀ t ∈ Stmt.allOf body, t.form.OnOneLine ∧ ∀ n ∈ t.notes, Source.OneLine n) (width : Nat) :
    ∀ cs ∈ physicalLines (s.shown width), isCommentLine cs = true := by
  rcases mem_append.1 hs with hs | hs
  · obtain ⟨e, he, rfl⟩ := mem_map.1 hs
    rcases h with h | ⟨herrors, -⟩
    · cases h
    · exact shown_quoted " " rfl (by decide) (herrors e he) width
  · obtain ⟨t, ht, hshows⟩ := exists_shows_ofStmts annotated true none [] body s hs
    obtain ⟨part, f, above⟩ := s
    have hform : f = t.form := hshows.form
    subst hform
    cases part with
    | fault e => exact absurd rfl (hshows.fault e)
    | kept line => exact shown_kept (hshows.kept line rfl) above width
    | note n =>
      rcases h with h | ⟨-, hbody⟩
      · cases h
      · exact shown_quoted " " rfl (by decide) ((hbody t ht).2 n (hshows.note n rfl)) width
    | header =>
      rcases h with h | ⟨-, hbody⟩
      · cases h
      have hform := (hbody t ht).1
      generalize t.form = f at hcomment hform
      cases f with
      | comment text annotates => exact shown_quoted " " rfl (by decide) hform width
      | unparsed text message => exact shown_quoted " Could not convert: " rfl (by decide) hform width
      | _ => cases hcomment
    | closer | separator => cases hcomment

end Pseudo

/-! ### Conversion -/

namespace Discipline

open Pseudo Source

/-- All texts of the source stand on one line each, and so do all notes and comments. -/
def oneLine (l : Language) : Discipline where
  language := l
  Visible _ _ := True
  Allows _ := True
  Text := OneLine
  joins := True
  deep := True
  Base _ := True
  Size _ := True
  Entry _ _ := True
  Admits _ n := ∀ s ∈ n.texts, OneLine s
  Owned o := OneLine o.name ∧ ∀ s, o.superclass = some s → OneLine s
  Form := Pseudo.Form.OnOneLine

theorem oneLine_lawful (l : Language) : (oneLine l).Lawful where
  text_of_line := oneLine_composes.of_line
  text_append := oneLine_composes.append
  text_of_node h hs := h _ hs
  owner_name h := h.1
  owner_superclass h hs := h.2 _ hs
  toTypeLaws := .of_all trivial (fun _ => trivial) fun _ => trivial
  visible_mono _ _ := trivial
  visible_enter _ := trivial
  visible_variable _ _ _ _ := trivial
  visible_callable _ _ := trivial
  deep_of_remark _ _ := trivial
  owned_of_class {P span name superclass interfaces tps members ms ds} h := by
    refine ⟨h name (by simp [Node.texts]), fun s hs => h s ?_⟩
    simp [Node.texts, show superclass.map (·.name) = some s from hs]
  entry_of_callable _ _ _ _ := trivial
  entry_of_deep _ _ _ _ := trivial
  admits_operation := nofun
  admits_one := List.forall_mem_singleton.2 (oneLine_composes.of_line (unbroken rfl))
  admits_name h := List.forall_mem_singleton.2 h
  admits_clause _ _ _ := nofun
  admits_awaited _ := nofun
  admits_body _ _ := nofun
  admits_value _ h _ := by
    simpa [oneLine, Node.texts, Convert.valueCallable] using h
  form_ordinary {f} hf _ := by
    cases f <;> first | exact trivial | cases hf
  form_class _ := trivial
  form_comment h := h
  form_unparsed h := h _ (List.mem_singleton_self _)
  form_procedure _ := trivial
  form_function _ := trivial
  form_named _ _ _ _ := by
    split <;> exact trivial
  form_nameless _ _ := trivial
  form_statement _ _ _ _ := trivial

end Discipline

namespace Conversion

open Pseudo Source

theorem run_oneLine {limit p r} (hp : AllOneLine (stmtNodes p.body)) (hrun : run limit p = .ok r) :
    ∀ t ∈ Pseudo.Stmt.allOf r.body, t.form.OnOneLine ∧ ∀ n ∈ t.notes, OneLine n := by
  have hbody : StmtsInOrder p.language (Discipline.oneLine p.language).Admits (fun _ => False) p.body :=
    stmtsInOrder_of_always _ (fun n hn _ => hp n hn) _
  have hstmts := Discipline.run_keeps (Discipline.oneLine_lawful p.language) rfl trivial hbody hrun fun _ _ => trivial
  exact hstmts.of_mem_allOf _

end Conversion

namespace Outcome

open Pseudo Source Conversion Text

/-- Nothing is left to be read once the imports are lifted out. -/
theorem onLines_of_only_imports {l source}
    (himports : ∀ i ∈ (Scan.liftImports l source (Scan.mask l source)).imports, '\n' ∉ i.text.toList)
    (hlex : (Token.lex l (Scan.liftImports l source (Scan.mask l source)).source).1 = [])
    (hsegments : Scan.segments l (Scan.liftImports l source (Scan.mask l source)).masked = []) :
    OnLines l source := by
  refine ⟨himports, fun text htext t ht => ?_⟩
  unfold readTexts at htext
  dsimp only at htext
  split at htext
  · rw [List.mem_singleton.1 htext, hlex] at ht
    cases ht
  · rw [hsegments] at htext
    cases htext

theorem onLines_oneImport : OnLines .typescript "import 'm'".toList :=
  onLines_of_only_imports (by decide +kernel) (by decide +kernel) (by decide +kernel)

end Outcome

end Blackboard
