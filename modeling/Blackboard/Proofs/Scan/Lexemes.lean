import Blackboard.Proofs.Comments.Blanking

/-!
Literals and comments as the lexer and the mask see them. Where the lexer takes a text to its end and no
literal or comment is left open, the mask of the text is that of its lexemes: a literal keeps its
delimiters, a comment nothing but its line ends, and any other lexeme is left as it is.
-/
namespace Blackboard

open Scan

namespace Token

/-- The lexemes that a text is cut into, with what is passed over. -/
inductive CutInto (l : Language) : List Char → List (Kind × List Char) → Prop where
  | nil : CutInto l [] []
  | cons {cs run rest : List Char} {kind : Kind} {lexemes : List (Kind × List Char)} :
    next? l cs = some (kind, run, rest) → CutInto l rest lexemes → CutInto l cs ((kind, run) :: lexemes)

def Kind.terminal? : Kind → Option Terminal
  | token t => some t
  | skipped => none

theorem Lexes.exists_cutInto {l p cs tokens} (h : Lexes l p cs tokens) : ∃ lexemes, CutInto l cs lexemes ∧
    tokens.map (fun t => (t.terminal, t.text.toList)) =
      lexemes.filterMap fun lexeme => lexeme.1.terminal?.map (·, lexeme.2) := by
  induction h with
  | nil => exact ⟨[], .nil, rfl⟩
  | @cons p cs run rest kind tokens hnext _ ih =>
    obtain ⟨lexemes, hcut, htokens⟩ := ih
    refine ⟨(kind, run) :: lexemes, .cons hnext hcut, ?_⟩
    cases kind with
    | skipped => exact htokens
    | token t => simp [Kind.tokens, Kind.terminal?, htokens]

end Token

namespace Scan

open Token Lexeme

variable {l : Language} {cs run rest : List Char} {kind : Kind} {rs : List Region}

/-- A lexeme with what it holds blanked: of a literal all but its delimiters, of a comment all. -/
def maskLexeme : Kind × List Char → List Char
  | (.token t, run) => if isQuoted t then run.take 1 ++ blank run.tail.dropLast ++ run.tail.getLast?.toList else run
  | (.skipped, run) => if run.head? = some '/' then blank run else run

theorem Covered.maskLexeme_eq (h : Covered l kind run rs) (hne : run ≠ []) :
    maskLexeme (kind, run) = rs.flatMap Region.mask := by
  cases h with
  | ink hplain _ _ => rw [maskLexeme, hplain, flatMap_code fun _ => rfl]; rfl
  | mark ht =>
    have hmarks : ∀ t ∈ l.marks, isQuoted t = false := by cases l <;> decide
    rw [maskLexeme, hmarks _ ht, flatMap_code fun _ => rfl]; rfl
  | quoted hquoted _ _ => simp [maskLexeme, hquoted, Region.mask]
  | template _ _ => simp [maskLexeme, isQuoted, Region.mask]
  | space hspace =>
    obtain ⟨c, run, rfl⟩ := List.exists_cons_of_ne_nil hne
    have hc : c ≠ '/' := by
      rintro rfl
      cases hspace '/' List.mem_cons_self
    rw [flatMap_code fun _ => rfl]
    simp [maskLexeme, hc]
  | lineComment hhead _ => simp [maskLexeme, hhead, Region.mask]
  | blockComment _ => simp [maskLexeme, Region.mask]

theorem Region.open_commentBody (h : throughCommentEnd cs = none) : (commentBody cs).2.1 = false := by
  fun_induction throughCommentEnd cs with
  | case1 => rfl
  | case2 rest => cases h
  | case3 c cs hne ih =>
    rw [commentBody]
    · exact ih (Option.map_eq_none_iff.1 h)
    · exact hne

/-- A slash that is no comment stands before a star only where a comment is left open. -/
theorem head?_ne_star_of_isClosed (hclosed : ∀ r ∈ regions l cs, r.isClosed = true)
    (h : next? l cs = some (kind, ['/'], rest)) : rest.head? ≠ some '*' := by
  intro hhead
  obtain ⟨cs', rfl⟩ := List.head?_eq_some_iff.1 hhead
  obtain ⟨-, rfl⟩ := next?_append h
  rw [List.singleton_append, regions_cons] at hclosed
  have hend := (List.forall_mem_cons.1 hclosed).1
  cases hcomment : throughCommentEnd cs' with
  | some cut =>
    rw [List.singleton_append, next?_blockComment hcomment] at h
    cases h
  | none =>
    rw [Region.next] at hend
    exact Bool.false_ne_true ((Region.open_commentBody hcomment).symm.trans hend)

theorem mask_eq_of_cutInto {lexemes} (h : CutInto l cs lexemes) (hclosed : ∀ r ∈ regions l cs, r.isClosed = true) :
    mask l cs = lexemes.flatMap maskLexeme := by
  induction h with
  | nil => rfl
  | @cons cs run rest kind lexemes hnext _ ih =>
    obtain ⟨rs, hcovered, hregions⟩ := regions_of_next? hnext fun hrun =>
      head?_ne_star_of_isClosed hclosed (hrun ▸ hnext)
    rw [hregions, List.forall_mem_append] at hclosed
    rw [List.flatMap_cons, hcovered.maskLexeme_eq (next?_append hnext).1, ← ih hclosed.2, mask, mask, hregions,
      List.flatMap_append]

end Scan

/-- Where the lexer comes to the end of a text and nothing is left open there, the mask is that of the
lexemes, and the tokens of the text are those of its lexemes that are not passed over. -/
theorem mask_follows_lexemes (l : Language) (source : List Char) (hlex : (Token.lex l source).2 = none)
    (hclosed : ∀ d ∈ structuralFaults l source, isUnterminated d.cause = false) :
    ∃ lexemes, Token.CutInto l source lexemes ∧
      (Token.lex l source).1.map (fun t => (t.terminal, t.text.toList)) =
        lexemes.filterMap (fun lexeme => lexeme.1.terminal?.map (·, lexeme.2)) ∧
      mask l source = lexemes.flatMap maskLexeme := by
  have hlexes : Token.Lexes l .start source (Token.lex l source).1 := Token.lexes_of_lexAt hlex
  obtain ⟨lexemes, hcut, htokens⟩ := hlexes.exists_cutInto
  exact ⟨lexemes, hcut, htokens, mask_eq_of_cutInto hcut (isClosed_of_structuralFaults hclosed)⟩

/-- A comment and a literal that holds what a comment begins with. -/
def commentAndLiteral : List Char := "/* a */ f('//');".toList

theorem mask_follows_lexemes_sample : (Token.lex .typescript commentAndLiteral).2 = none ∧
    (∀ d ∈ structuralFaults .typescript commentAndLiteral, isUnterminated d.cause = false) ∧
    ∃ lexemes, Token.CutInto .typescript commentAndLiteral lexemes ∧
      (Token.lex .typescript commentAndLiteral).1.map (fun t => (t.terminal, t.text.toList)) =
        lexemes.filterMap (fun lexeme => lexeme.1.terminal?.map (·, lexeme.2)) ∧
      "        f('  ');".toList = lexemes.flatMap maskLexeme := by
  have hlex : (Token.lex .typescript commentAndLiteral).2 = none := by decide
  have hclosed : ∀ d ∈ structuralFaults .typescript commentAndLiteral, isUnterminated d.cause = false := by decide
  obtain ⟨lexemes, hcut, htokens, hmask⟩ := mask_follows_lexemes .typescript commentAndLiteral hlex hclosed
  exact ⟨hlex, hclosed, lexemes, hcut, htokens, Eq.trans (by decide) hmask⟩

end Blackboard
