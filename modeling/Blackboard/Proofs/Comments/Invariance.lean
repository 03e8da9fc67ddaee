import Blackboard.Proofs.Comments.Blanking
import Blackboard.Proofs.Recovery.Agreement
import Blackboard.Proofs.Reporting.Errors

/-!
Comments do not influence a conversion. Where a text is read as a whole, the lexer and the scan for faults
find the same comments, so a text whose comments are blank has the same tokens at the same places.
-/
namespace Blackboard

open Source

namespace Token

open Lexeme Scan

variable {l : Language}
variable {q c : Char} {cs run rest a : List Char} {t : Terminal} {p : Position}
    {tokens : List Token}

theorem quoted?_closed (hq : q ≠ '\\') {multiline}
    (h : quoted? q multiline cs = some (run, rest)) (rest' : List Char) :
    quoted? q multiline (run ++ rest') = some (run, rest') := by
  rw [quoted?_eq] at h ⊢
  obtain ⟨c, cs', run', hc, rfl, rfl, hrun⟩ := first_eq_some_iff.1 h
  exact first_eq_some_iff.2 ⟨c, _, run', hc, rfl, rfl, throughDelimiter_closed hq hrun rest'⟩

theorem head_of_token (h : next? l cs = some (.token t, c :: run, rest)) :
    IsInk c ∨ (c ∈ ['"', '\'', '`'] ∧ quoted? c (c == '`') cs = some (c :: run, rest)) ∨
      t ∈ l.marks ∧ t.spelling.toList = c :: run := by
  obtain ⟨before, f, after, hforms, -, hf, hkind⟩ := exists_form h
  have hhead : ∀ {q multiline}, quoted? q multiline cs = some (c :: run, rest) → c = q := by
    intro q multiline hquoted
    rw [quoted?_eq] at hquoted
    obtain ⟨c', cs', run', hc, -, hrun, -⟩ := first_eq_some_iff.1 hquoted
    cases hrun
    exact eq_of_beq hc
  cases forms_known l f (by simp [hforms]) with
  | plain hscans _ => exact .inl (hscans.all hf c List.mem_cons_self)
  | quoted hq _ =>
    obtain rfl := hhead hf
    refine .inr (.inl ?_)
    rcases hq with rfl | rfl <;> exact ⟨by decide, hf⟩
  | template _ =>
    obtain rfl := hhead hf
    exact .inr (.inl ⟨by decide, hf⟩)
  | blockComment => cases hkind
  | space => cases hkind
  | lineComment => cases hkind
  | mark ht =>
    obtain ⟨hrun, -⟩ := word?_eq_some_iff.1 hf
    cases hkind
    exact .inr (.inr ⟨ht, hrun.symm⟩)

theorem quoted?_eq_none (h : next? l (run ++ a) = some (.token t, run, a))
    (hq : q ∈ ['"', '\'', '`']) (hnone : quoted? q (q == '`') (run ++ a) = none) (b : List Char) :
    quoted? q (q == '`') (run ++ b) = none := by
  obtain ⟨c, run, rfl⟩ := List.exists_cons_of_ne_nil (next?_append h).1
  by_cases hc : c = q
  · subst hc
    rcases head_of_token h with hink | ⟨-, hsome⟩ | ⟨ht, hspelling⟩
    · have hguards : ['"', '\'', '`'] ⊆ guards := by decide
      exact absurd (hguards hq) hink.2
    · rw [hnone] at hsome
      cases hsome
    · have hmarks : ∀ t ∈ l.marks, t.spelling.toList.all (fun c => c ∉ ['"', '\'', '`']) = true := by
        cases l <;> decide
      have hunquoted := List.all_eq_true.1 (hmarks t ht) c (hspelling ▸ List.mem_cons_self)
      exact absurd hq (of_decide_eq_true hunquoted)
  · exact if_neg hc

theorem eq_slash_or (h : next? l ('/' :: run ++ a) = some (.token t, '/' :: run, a)) : run = [] ∨ run = ['='] := by
  rcases head_of_token h with hink | ⟨hquote, -⟩ | ⟨ht, hspelling⟩
  · exact absurd (by decide) hink.2
  · exact absurd hquote (by decide)
  · have hmarks : ∀ t ∈ l.marks, t.spelling.toList.head? = some '/' →
        t.spelling.toList = ['/'] ∨ t.spelling.toList = ['/', '='] := by
      cases l <;> decide
    rcases hmarks t ht (by rw [hspelling]; rfl) with heq | heq
    · rw [hspelling] at heq
      exact .inl (List.tail_eq_of_cons_eq heq)
    · rw [hspelling] at heq
      exact .inr (List.tail_eq_of_cons_eq heq)

theorem head?_of_slash {x d} (h : next? l (run ++ a) = some (.token t, run, a))
    (hcs : run ++ (a ++ ' ' :: x) = '/' :: d :: cs) (hd : d = '/' ∨ d = '*') :
    run = ['/'] ∧ a.head? = some d := by
  obtain ⟨c, run, rfl⟩ := List.exists_cons_of_ne_nil (next?_append h).1
  obtain ⟨rfl, hcs⟩ := List.cons_eq_cons.1 hcs
  rcases eq_slash_or h with rfl | rfl
  · cases a with
    | nil =>
      cases hcs
      rcases hd with hd | hd <;> cases hd
    | cons c a =>
      cases hcs
      exact ⟨rfl, rfl⟩
  · cases hcs
    rcases hd with hd | hd <;> cases hd

theorem next?_append_space {x} (h : next? l (run ++ a) = some (.token t, run, a))
    (hslash : run = ['/'] → a.head? ≠ some '*') :
    next? l (run ++ (a ++ ' ' :: x)) = some (.token t, run, a ++ ' ' :: x) := by
  obtain ⟨hne, -⟩ := next?_append h
  obtain ⟨before, f, after, hforms, hbefore, hf, hkind⟩ := exists_form h
  rw [next?_eq, hforms, List.findSome?_eq_some_iff]
  refine ⟨before, f, after, rfl, ?_, fun g hg => ?_⟩
  · suffices f.scan (run ++ (a ++ ' ' :: x)) = some (run, a ++ ' ' :: x) by
      rw [Form.take?, this, Option.map_some, ← hkind]
    cases forms_known l f (by simp [hforms]) with
    | plain hscans _ =>
      rw [← List.append_assoc, hscans.followed (by simp [IsInk, Text.isBlank]), hf]
      rfl
    | quoted hq _ => exact quoted?_closed (by rcases hq with rfl | rfl <;> decide) hf _
    | template _ => exact quoted?_closed (by decide) hf _
    | blockComment => cases hkind
    | space => cases hkind
    | lineComment => cases hkind
    | mark ht =>
      obtain ⟨rfl, -⟩ := word?_eq_some_iff.1 hf
      exact word?_eq_some_iff.2 ⟨rfl, rfl⟩
  · suffices g.scan (run ++ (a ++ ' ' :: x)) = none by
      rw [Form.take?, this, Option.map_none]
    have hnone := hbefore g hg
    cases forms_known l g (by simp [hforms, hg]) with
    | plain hscans _ =>
      rw [← List.append_assoc, hscans.followed (by simp [IsInk, Text.isBlank]), hnone]
      rfl
    | quoted hq _ =>
      rcases hq with rfl | rfl <;> exact quoted?_eq_none h (by decide) hnone _
    | template _ => exact quoted?_eq_none h (by decide) hnone _
    | blockComment =>
      refine blockComment?_eq ▸ first_first_eq_none fun c d cs hc hd hcs => ?_
      obtain rfl := eq_of_beq hc
      obtain rfl := eq_of_beq hd
      obtain ⟨hrun, ha⟩ := head?_of_slash h hcs (.inr rfl)
      exact hslash hrun ha
    | space =>
      obtain ⟨c, run, rfl⟩ := List.exists_cons_of_ne_nil hne
      have hc := isSpace_head?_of_token h c rfl
      exact space?_eq ▸ if_neg (by simp [hc])
    | lineComment =>
      refine lineComment?_eq ▸ first_first_eq_none fun c d cs hc hd hcs => ?_
      obtain rfl := eq_of_beq hc
      obtain rfl := eq_of_beq hd
      obtain ⟨rfl, ha⟩ := head?_of_slash h hcs (.inl rfl)
      obtain ⟨a, rfl⟩ := List.head?_eq_some_iff.1 ha
      cases hnone
    | @mark u hu =>
      have hspace : ∀ t ∈ l.marks, ' ' ∉ t.spelling.toList := by cases l <;> decide
      have hword : word? u.spelling.toList (run ++ a) = none := hnone
      rw [← List.append_assoc]
      exact ((word?_scans _).followed (by simpa using hspace u hu)).trans (by rw [hword]; rfl)

/-! ### Lexemes -/

theorem lexAt_append_of_isSpace {ss} (hss : ∀ c ∈ ss, isSpace c = true) (p : Position)
    (cs : List Char) : lexAt l p (ss ++ cs) = lexAt l (p.afterAll ss) cs := by
  have hskip : ∀ us vs : List Char, (∀ c ∈ us, isSpace c = true) → (∀ c ∈ vs.head?, isSpace c = false) →
      ∀ p, lexAt l p (us ++ vs) = lexAt l (p.afterAll us) vs := by
    intro us vs hus hvs p
    cases us with
    | nil => rfl
    | cons u us => exact lexAt_of_next? (next?_of_isSpace hus hvs) p
  have hus : ∀ c ∈ cs.takeWhile isSpace, isSpace c = true := List.all_eq_true.1 List.all_takeWhile
  have hvs : ∀ c ∈ (cs.dropWhile isSpace).head?, isSpace c = false := by
    intro c hc
    have hstop := List.head?_dropWhile_not isSpace cs
    rwa [hc] at hstop
  have hall : ∀ c ∈ ss ++ cs.takeWhile isSpace, isSpace c = true := List.forall_mem_append.2 ⟨hss, hus⟩
  calc lexAt l p (ss ++ cs) = lexAt l p (ss ++ cs.takeWhile isSpace ++ cs.dropWhile isSpace) := by
        rw [List.append_assoc, List.takeWhile_append_dropWhile]
    _ = lexAt l ((p.afterAll ss).afterAll (cs.takeWhile isSpace)) (cs.dropWhile isSpace) := by
        rw [hskip _ _ hall hvs, Position.afterAll_append]
    _ = lexAt l (p.afterAll ss) cs := by
        rw [← hskip _ _ hus hvs, List.takeWhile_append_dropWhile]

theorem next?_blankComments (h : next? l (run ++ rest) = some (.token t, run, rest))
    (hslash : run = ['/'] → rest.head? ≠ some '*') :
    next? l (run ++ blankComments l rest) = some (.token t, run, blankComments l rest) := by
  rcases blankComments_eq_or l rest with heq | ⟨a, x, y, rfl, heq⟩
  · rw [heq]
    exact h
  · rw [heq]
    refine next?_append_space (next?_of_isPrefix h (List.prefix_append a x)) fun hrun ha => ?_
    obtain ⟨a, rfl⟩ := List.head?_eq_some_iff.1 ha
    exact hslash hrun rfl

theorem Lexes.lexAt_blankComments (h : Lexes l p cs tokens) (hchain : tokens.IsChain Apart) :
    lexAt l p (blankComments l cs) = (tokens, none) := by
  induction h with
  | nil => rfl
  | @cons p cs run rest kind tokens hnext hrest ih =>
    have hslash : run = ['/'] → rest.head? ≠ some '*' := by
      rintro rfl
      refine head?_ne_star (p := p) ?_ hnext
      rw [(Lexes.cons hnext hrest).lexAt_eq]
      exact hchain
    have ih := ih (List.IsChain.right_of_append hchain)
    obtain ⟨rs, hcovered, hregions⟩ := regions_of_next? hnext hslash
    have hblank : blankComments l cs = rs.flatMap Region.uncommented ++ blankComments l rest := by
      rw [blankComments, hregions, List.flatMap_append, blankComments]
    obtain ⟨-, rfl⟩ := next?_append hnext
    rw [hblank]
    cases kind with
    | skipped =>
      obtain ⟨hspace, hafter⟩ := hcovered.uncommented_skipped
      rw [lexAt_append_of_isSpace hspace, hafter, ih]
      rfl
    | token t =>
      rw [hcovered.uncommented_token, lexAt_of_next? (next?_blankComments hnext hslash), ih]

theorem not_isBlank_of_token (h : next? l cs = some (.token t, c :: run, rest)) : Text.isBlank c = false := by
  rcases head_of_token h with hink | ⟨hquote, -⟩ | ⟨ht, hspelling⟩
  · exact hink.1
  · have hquotes : ['"', '\'', '`'].all (fun c => Text.isBlank c = false) = true := by decide
    exact of_decide_eq_true (List.all_eq_true.1 hquotes c hquote)
  · have hmarks : ∀ t ∈ l.marks, t.spelling.toList.all (fun c => Text.isBlank c = false) = true := by
      cases l <;> decide
    exact of_decide_eq_true (List.all_eq_true.1 (hmarks t ht) c (hspelling ▸ List.mem_cons_self))

theorem Lexes.eq_nil_of_isBlank (h : Lexes l p cs tokens) (hcs : ∀ c ∈ cs, Text.isBlank c = true) : tokens = [] := by
  induction h with
  | nil => rfl
  | @cons p cs run rest kind tokens hnext hrest ih =>
    obtain ⟨hne, rfl⟩ := next?_append hnext
    obtain ⟨c, run, rfl⟩ := List.exists_cons_of_ne_nil hne
    rw [ih fun c hc => hcs c (List.mem_append_right _ hc)]
    cases kind with
    | skipped => rfl
    | token t =>
      have hblank := hcs c (by simp)
      rw [not_isBlank_of_token hnext] at hblank
      cases hblank

end Token

namespace Scan

variable {l : Language}

theorem Veiled.isBlank {cs ds} (h : Veiled cs ds) (hcs : ∀ c ∈ cs, Text.isBlank c = true) :
    ∀ d ∈ ds, Text.isBlank d = true := by
  induction h with
  | nil => exact nofun
  | cons hcd _ ih =>
    obtain ⟨hc, hcs⟩ := List.forall_mem_cons.1 hcs
    refine List.forall_mem_cons.2 ⟨?_, ih hcs⟩
    rcases hcd with rfl | ⟨-, rfl⟩
    · exact hc
    · rfl

namespace Import

theorem ofStretch?_eq_none_iff {source offset length} : ofStretch? source offset length = none ↔
      ∀ c ∈ (source.drop offset).take length, Text.isBlank c = true := by
  unfold ofStretch?
  dsimp only
  split
  · next h => simpa [Text.trimStart, List.dropWhile_eq_nil_iff] using h
  · next h => simpa [Text.trimStart, List.dropWhile_eq_nil_iff] using h

end Import

theorem ofStretch?_of_imports_eq_nil {source masked} (h : (liftImports l source masked).imports = []) :
    ∀ s ∈ (Import.patterns l).flatMap (·.findAll masked), Import.ofStretch? source s.1 s.2 = none := by
  intro s hs
  have hperm := (Sorting.perm_sortBy Import.stands _).symm.trans (.of_eq h)
  have hnone := List.filterMap_eq_nil_iff.1 hperm.eq_nil s
  by_contra hsome
  refine hsome (hnone (List.mem_filter.2 ⟨hs, ?_⟩))
  exact Option.isSome_iff_ne_none.2 hsome

theorem liftImports_of_none {source masked}
    (h : ∀ s ∈ (Import.patterns l).flatMap (·.findAll masked), Import.ofStretch? source s.1 s.2 = none) :
    liftImports l source masked = ⟨source, masked, []⟩ := by
  unfold liftImports
  rw [List.filter_eq_nil_iff.2]
  · rfl
  · intro s hs
    simp [h s hs]

end Scan

namespace Source

open Scan

variable {l : Language} {source : List Char} {ss : List Stmt}

theorem Stmt.lex_blankComments (h : Stmt.readAll l source = .ok ss) :
    Token.lex l (blankComments l source) = Token.lex l source := by
  have hclean := (reads_of_readAll h).isRun.clean
  have hlexes : Token.Lexes l .start source (Token.lex l source).1 := Token.lexes_of_lexAt hclean.stray
  exact (hlexes.lexAt_blankComments hclean.isChain).trans hlexes.lexAt_eq.symm

theorem Stmt.readAll_blankComments (h : Stmt.readAll l source = .ok ss) :
    Stmt.readAll l (blankComments l source) = .ok ss := by
  rw [← h]
  have hparse : Grammar.parse l .program (blankComments l source) = Grammar.parse l .program source := by
    unfold Grammar.parse Grammar.Tree.parse
    rw [Stmt.lex_blankComments h]
  unfold Stmt.readAll Piece.read
  rw [hparse, (Scan.veiled_blankComments l source).length_eq]

theorem Stmt.eq_nil_of_isBlank (h : Stmt.readAll l source = .ok ss)
    (hblank : ∀ c ∈ source, Text.isBlank c = true) : ss = [] := by
  obtain ⟨hstray, trees, pieces, hrun, hpieces, rfl⟩ := reads_of_readAll h
  have htokens : (Token.lex l source).1 = [] := (Token.lexes_of_lexAt hstray).eq_nil_of_isBlank hblank
  rw [htokens] at hrun
  obtain rfl := hrun.eq_nil (Grammar.settled l)
  cases hpieces
  rfl

theorem Stmt.recover_of_readAll (h : Stmt.readAll l source = .ok ss) (masked : List Char) :
    Stmt.recover l source masked = (ss, []) := by
  unfold Stmt.recover
  split
  · next hblank =>
    rw [Stmt.eq_nil_of_isBlank h (List.all_eq_true.1 hblank)]
  · rw [h]

theorem Program.read_blankComments (hread : Stmt.readAll l source = .ok ss) (hfaults : structuralFaults l source = [])
    (himports : (liftImports l source (mask l source)).imports = []) :
    Program.read l (blankComments l source) = Program.read l source := by
  have hclosed := isClosed_of_structuralFaults (by rw [hfaults]; exact nofun)
  have hstretches := ofStretch?_of_imports_eq_nil himports
  have hlifted : liftImports l (blankComments l source) (mask l source) =
      ⟨blankComments l source, mask l source, []⟩ := by
    refine liftImports_of_none fun s hs => Import.ofStretch?_eq_none_iff.2 ?_
    refine Veiled.isBlank (List.forall₂_take _ (List.forall₂_drop _ (veiled_blankComments l source))) ?_
    exact Import.ofStretch?_eq_none_iff.1 (hstretches s hs)
  unfold Program.read
  dsimp only
  rw [mask_blankComments hclosed, structuralFaults_blankComments hclosed, hlifted,
    liftImports_of_none hstretches, (veiled_blankComments l source).count_eq, Stmt.recover_of_readAll hread, Stmt.recover_of_readAll (Stmt.readAll_blankComments hread)]

end Source

namespace Outcome

open Source Scan

/-- Comments do not influence a conversion: if a source is read as a whole and no import is lifted from
it, it gives the same text and the same remarks whether its comments are there or blank. -/
theorem comments_do_not_influence_conversion {options : Options} {l : Language} {path : Option String}
    {source blanked : String} {ss : List Stmt}
    (hblanked : blanked = String.ofList (blankComments l source.toList))
    (hread : Stmt.readAll l source.toList = .ok ss) (hfaults : structuralFaults l source.toList = [])
    (himports : (liftImports l source.toList (mask l source.toList)).imports = [])
    (hvalid : (Input.text source).validate options (some (path.getD Pipeline.stdinName)) = .ok source)
    (hvalid' : (Input.text blanked).validate options (some (path.getD Pipeline.stdinName)) = .ok blanked) :
    ∃ o o', Pipeline.run options l path none (.text source) = .ok o ∧
      Pipeline.run options l path none (.text blanked) = .ok o' ∧
      o'.text = o.text ∧ o'.diagnostics = o.diagnostics ∧ o'.failure? = o.failure? := by
  refine ⟨Pipeline.convert options l none source, Pipeline.convert options l none blanked,
    by rw [Pipeline.run, hvalid]; rfl, by rw [Pipeline.run, hvalid']; rfl, ?_⟩
  have hprogram : ofSource l blanked = { ofSource l source with source := blanked } := by
    unfold ofSource
    rw [hblanked, String.toList_ofList, Program.read_blankComments hread hfaults himports]
  rw [convert_none, convert_none, hprogram]
  dsimp only
  cases Conversion.run options.maxNestingDepth (ofSource l source).program with
  | error f => exact ⟨rfl, rfl, rfl⟩
  | ok r => exact ⟨rfl, rfl, rfl⟩

def commented : String := "if(a)/*\"(*/;//import\nbreak;"

theorem scan_commented :
    ((Token.lex .java commented.toList).2 = none ∧ (Token.lex .java commented.toList).1.map (·.terminal) =
      [.kIf, .lpar, .name, .rpar, .semi, .kBreak, .semi]) ∧
    "if(a)      ;        \nbreak;" = String.ofList (blankComments .java commented.toList) ∧
    structuralFaults .java commented.toList = [] ∧
    (liftImports .java commented.toList (mask .java commented.toList)).imports = [] := by
  decide

theorem exists_readAll_commented : ∃ ss, Stmt.readAll .java commented.toList = .ok ss := by
  have hlex := scan_commented.1
  exact Stmt.exists_readAll_of_terminals
    (Stmt.isRun_of_isFound (Stmt.isFound_choices _ (by decide)) hlex) hlex.2 (by decide)

theorem comments_do_not_influence_commented :
    (∃ ss, Stmt.readAll .java commented.toList = .ok ss) ∧ structuralFaults .java commented.toList = [] ∧
    (liftImports .java commented.toList (mask .java commented.toList)).imports = [] ∧
    ∃ o o', Pipeline.run {} .java none none (.text commented) = .ok o ∧
      Pipeline.run {} .java none none (.text "if(a)      ;        \nbreak;") = .ok o' ∧
      o'.text = o.text ∧ o'.diagnostics = o.diagnostics ∧ o'.failure? = o.failure? := by
  obtain ⟨ss, hread⟩ := exists_readAll_commented
  obtain ⟨-, hblanked, hfaults, himports⟩ := scan_commented
  exact ⟨⟨ss, hread⟩, hfaults, himports,
    comments_do_not_influence_conversion hblanked hread hfaults himports (by rfl) (by rfl)⟩

end Outcome

end Blackboard
