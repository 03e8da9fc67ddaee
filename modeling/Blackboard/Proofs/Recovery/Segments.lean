import Mathlib.Data.List.Chain
import Blackboard.Source.Recovery
import Blackboard.Proofs.Recovery.Mask

/-!
The segments of a text and its tokens. Where a segment begins and ends is decided by its mask alone,
but if every segment by itself has no stray character and opens no comment, no lexeme is cut apart:
the tokens of the segments, each read at its place, are the tokens of the text.
-/
namespace Blackboard.Scan

open Source Token Lexeme
open Position (afterAll afterAll_cons start ofOffset)
open List hiding next?

variable {l : Language} {cs run rest : List Char} {p : Position}

/-! ### Where a text can be cut -/

/-- What can become of a masked text from an offset on, where a segment may have begun before: a cut is
made behind a semicolon or a closing brace or before the end of a line, if at all. -/
inductive Splits : (offset : Nat) → (begun : Option Nat) → List Char → List Segment → Prop where
  | done {offset : Nat} : Splits offset none [] []
  | last {offset start : Nat} : Splits offset (some start) [] [⟨start, offset⟩]
  | blank {offset : Nat} {c : Char} {cs : List Char} {ss : List Segment} :
    Text.isBlank c = true → Splits (offset + 1) none cs ss → Splits offset none (c :: cs) ss
  | go {offset : Nat} {begun : Option Nat} {c : Char} {cs : List Char} {ss : List Segment} :
    (begun = none → Text.isBlank c = false) →
    Splits (offset + 1) (some (begun.getD offset)) cs ss → Splits offset begun (c :: cs) ss
  | stop {offset : Nat} {begun : Option Nat} {c : Char} {cs : List Char} {ss : List Segment} :
    c = ';' ∨ c = '\x7d' → Splits (offset + 1) none cs ss →
    Splits offset begun (c :: cs) (⟨begun.getD offset, offset + 1⟩ :: ss)
  | line {offset start : Nat} {cs : List Char} {ss : List Segment} :
    Splits (offset + 1) none cs ss →
    Splits offset (some start) ('\n' :: cs) (⟨start, offset⟩ :: ss)

namespace Segment

theorem endsWith_eq_some {l b depth c rest belongs} (h : endsWith l b depth c rest = some belongs) :
    (belongs = true ∧ (c = ';' ∨ c = '\x7d')) ∨ (belongs = false ∧ c = '\n') := by
  unfold endsWith at h
  split at h
  · cases h
  · split at h
    · next hc =>
      split at h
      · cases h
      · cases h
        exact .inl ⟨rfl, .inr (eq_of_beq hc)⟩
    · split at h
      · next hc =>
        cases h
        exact .inl ⟨rfl, .inl (eq_of_beq hc)⟩
      · split at h
        · next hc =>
          rw [Bool.and_eq_true] at hc
          split at h
          · cases h
          · cases h
            exact .inr ⟨rfl, eq_of_beq hc.1⟩
        · cases h

theorem splits_splitFrom (l : Language) (offset depth : Nat) (begun : Option Begun) (cs : List Char) :
    Splits offset (begun.map (·.offset)) cs (splitFrom l offset depth begun cs) := by
  induction cs generalizing offset depth begun with
  | nil =>
    cases begun with
    | none => exact .done
    | some b => exact .last
  | cons c cs ih =>
    rw [splitFrom]
    split
    · next hblank =>
      rw [Bool.and_eq_true, Option.isNone_iff_eq_none] at hblank
      obtain ⟨rfl, hblank⟩ := hblank
      exact .blank hblank (ih _ _ none)
    · next hblank =>
      have hstart : (begun.getD ⟨offset, c :: cs, c⟩).offset = (begun.map (·.offset)).getD offset := by
        cases begun <;> rfl
      dsimp only
      split
      · next hends =>
        obtain ⟨-, hc⟩ | ⟨hfalse, -⟩ := endsWith_eq_some hends
        · rw [hstart]
          exact .stop hc (ih _ _ none)
        · cases hfalse
      · next hends =>
        obtain ⟨htrue, -⟩ | ⟨-, rfl⟩ := endsWith_eq_some hends
        · cases htrue
        · cases begun with
          | none => exact absurd rfl hblank
          | some b => exact .line (ih _ _ none)
      · refine .go (fun hnone => ?_) ?_
        · rw [Option.map_eq_none_iff] at hnone
          subst hnone
          simpa using hblank
        · rw [← hstart]
          split
          · exact ih _ _ (some (begun.getD ⟨offset, c :: cs, c⟩))
          · exact ih _ _ (some { begun.getD ⟨offset, c :: cs, c⟩ with lastInk := c })

end Segment

theorem splits_segments (l : Language) (masked : List Char) : Splits 0 none masked (segments l masked) :=
  Segment.splits_splitFrom l 0 0 none masked

namespace Splits

variable {offset start : Nat} {begun : Option Nat} {m cs : List Char} {ss : List Segment}

theorem bounds {stop} (h : Splits offset begun cs ss) (hbegun : begun.getD offset ≤ offset)
    (hstop : offset + cs.length = stop) : ∀ s ∈ ss, s.start ≤ s.stop ∧ s.stop ≤ stop := by
  induction h with
  | done => simp
  | last => simpa [← hstop] using hbegun
  | blank _ _ ih =>
    rw [length_cons] at hstop
    exact ih (Nat.le_refl _) (by omega)
  | go _ _ ih =>
    rw [length_cons] at hstop
    exact ih (Nat.le_succ_of_le hbegun) (by omega)
  | stop _ _ ih =>
    rw [length_cons] at hstop
    refine forall_mem_cons.2 ⟨?_, ih (Nat.le_refl _) (by omega)⟩
    exact ⟨Nat.le_succ_of_le hbegun, by dsimp only; omega⟩
  | line _ ih =>
    rw [length_cons] at hstop
    refine forall_mem_cons.2 ⟨?_, ih (Nat.le_refl _) (by omega)⟩
    exact ⟨hbegun, by dsimp only; omega⟩

theorem inside (h : Splits offset (some start) (m ++ cs) ss) (hm : ∀ d ∈ m, d ≠ '\n' ∧ d ≠ ';' ∧ d ≠ '\x7d') :
    Splits (offset + m.length) (some start) cs ss := by
  induction m generalizing offset with
  | nil => exact h
  | cons c m ih =>
    obtain ⟨⟨hline, hsemi, hbrace⟩, hm⟩ := forall_mem_cons.1 hm
    rw [length_cons, Nat.add_comm m.length, ← Nat.add_assoc]
    cases h with
    | go _ h => exact ih h hm
    | stop hc _ => exact absurd hc (not_or.2 ⟨hsemi, hbrace⟩)
    | line _ => exact absurd rfl hline

theorem firm {c} (h : Splits offset begun (c :: m ++ cs) ss) (hblank : Text.isBlank c = false)
    (hm : ∀ d ∈ c :: m, d ≠ '\n' ∧ d ≠ ';' ∧ d ≠ '\x7d') :
    Splits (offset + (c :: m).length) (some (begun.getD offset)) cs ss := by
  obtain ⟨⟨hline, hsemi, hbrace⟩, hm⟩ := forall_mem_cons.1 hm
  rw [length_cons, Nat.add_comm m.length, ← Nat.add_assoc]
  cases h with
  | blank hc _ => exact absurd hc (by simp [hblank])
  | go _ h => exact h.inside hm
  | stop hc _ => exact absurd hc (not_or.2 ⟨hsemi, hbrace⟩)
  | line _ => exact absurd rfl hline

theorem blanks_none (h : Splits offset none (m ++ cs) ss) (hm : ∀ c ∈ m, Text.isBlank c = true) :
    Splits (offset + m.length) none cs ss := by
  induction m generalizing offset with
  | nil => exact h
  | cons c m ih =>
    obtain ⟨hc, hm⟩ := forall_mem_cons.1 hm
    rw [length_cons, Nat.add_comm m.length, ← Nat.add_assoc]
    cases h with
    | blank _ h => exact ih h hm
    | go hnone _ => simp [hnone rfl] at hc
    | stop hstop _ => obtain rfl | rfl := hstop <;> cases hc

theorem blanks_some (h : Splits offset (some start) (m ++ cs) ss) (hm : ∀ c ∈ m, Text.isBlank c = true) :
    Splits (offset + m.length) (some start) cs ss ∨ ∃ k ss', m[k]? = some '\n' ∧ ss = ⟨start, offset + k⟩ :: ss' ∧
        Splits (offset + m.length) none cs ss' := by
  induction m generalizing offset with
  | nil => exact .inl h
  | cons c m ih =>
    obtain ⟨hc, hrest⟩ := forall_mem_cons.1 hm
    rw [length_cons, Nat.add_comm m.length, ← Nat.add_assoc]
    cases h with
    | go _ h =>
      refine (ih h hrest).imp_right ?_
      rintro ⟨k, ss', hk, rfl, hss'⟩
      exact ⟨k + 1, ss', hk, by rw [Nat.add_assoc, Nat.add_comm 1], hss'⟩
    | stop hstop _ => obtain rfl | rfl := hstop <;> cases hc
    | line h => exact .inr ⟨0, _, rfl, rfl, h.blanks_none hrest⟩

end Splits

/-! ### Lexemes that are cut apart -/

theorem next?_slash_star (h : throughCommentEnd cs = none) :
    next? l ('/' :: '*' :: cs) = some (.token .slash, ['/'], '*' :: cs) := by
  have hcomment : blockComment? ('/' :: '*' :: cs) = none := by rw [blockComment?, h]; rfl
  cases l <;> rw [next?, passedOver?, hcomment] <;> rfl

theorem exists_star (l : Language) (cs : List Char) :
    ∃ t run rest, next? l ('*' :: cs) = some (.token t, run, rest) ∧ t.isStar = true := by
  have hmarks : ∀ t ∈ l.marks, t.spelling.toList.head? = some '*' → t.isStar = true := by
    cases l <;> decide
  have hnext : next? l ('*' :: cs) = (mark? l ('*' :: cs)).map fun r => (Kind.token r.1, r.2) := by
    cases l <;> rfl
  have hsome : (mark? l ('*' :: cs)).isSome = true := by
    rw [mark?, findSome?_isSome_iff]
    exact ⟨.star, by cases l <;> decide, rfl⟩
  obtain ⟨⟨t, run, rest⟩, hmark⟩ := Option.isSome_iff_exists.1 hsome
  obtain ⟨t', ht', hword⟩ := exists_of_findSome?_eq_some hmark
  obtain ⟨⟨run', rest'⟩, hword, heq⟩ := Option.map_eq_some_iff.1 hword
  cases heq
  obtain ⟨rfl, hcs⟩ := word?_eq_some_iff.1 hword
  rw [hmark] at hnext
  refine ⟨t, _, rest, hnext, hmarks t ht' ?_⟩
  obtain ⟨c, w, hw⟩ := exists_cons_of_ne_nil (next?_append hnext).1
  rw [hw] at hcs ⊢
  cases hcs
  rfl

theorem not_isChain_of_openComment (h : throughCommentEnd cs = none) (p : Position) :
    ¬(lexAt l p ('/' :: '*' :: cs)).1.IsChain Apart := by
  obtain ⟨t, run, rest, hstar, hisStar⟩ := exists_star l cs
  rw [lexAt_of_next? (next?_slash_star h), lexAt_of_next? hstar]
  intro hchain
  exact (isChain_cons_cons.1 hchain).1 ⟨rfl, hisStar⟩

theorem stray_of_openTemplate (h : throughDelimiter '`' true cs = none) (p : Position) :
    (lexAt .typescript p ('`' :: cs)).2 ≠ none := by
  have hquoted : quoted? '`' true ('`' :: cs) = none := by rw [quoted?, h]; rfl
  have hnext : next? .typescript ('`' :: cs) = none := by
    rw [next?, hquoted]
    rfl
  rw [lexAt, length_cons, lexFrom, hnext]
  simp

/-! ### Segments in their places -/

namespace Segment

def margin (p : Position) : List Char :=
  replicate (p.line - 1) '\n' ++ replicate (p.column - 1) ' '

def inPlace (source : List Char) (s : Segment) : List Char :=
  margin (.ofOffset source s.start) ++ (source.drop s.start).take (s.stop - s.start)

end Segment

/-- A segment is read at its place, or else it is kept as text with a remark, which gets the place of the
segment if it has none. -/
theorem readSegment_cases (l : Language) (source : List Char) (s : Segment) :
    (∃ ss, Stmt.readAll l (s.inPlace source) = .ok ss ∧ Stmt.readSegment l source s = (ss, none)) ∨
    ∃ e line column span text, Stmt.readAll l (s.inPlace source) = .error e ∧
      let d := { e.diagnostic l with line := line, column := column }
      Stmt.readSegment l source s = ([.unparsed span text d.message], some d) := by
  unfold Stmt.readSegment Segment.inPlace Segment.margin
  dsimp only
  cases Stmt.readAll l _ with
  | ok ss => exact .inl ⟨ss, rfl, rfl⟩
  | error e =>
    dsimp only
    split
    · exact .inr ⟨e, _, _, _, _, rfl, rfl⟩
    · exact .inr ⟨e, _, _, _, _, rfl, rfl⟩

theorem afterAll_replicate_newline (n line : Nat) : afterAll ⟨line, 1⟩ (replicate n '\n') = ⟨line + n, 1⟩ := by
  induction n generalizing line with
  | zero => rfl
  | succ n ih =>
    rw [replicate_succ, afterAll_cons, Position.after, if_pos rfl, ih]
    rw [Nat.add_assoc, Nat.add_comm 1]

theorem afterAll_replicate_space (n line column : Nat) :
    afterAll ⟨line, column⟩ (replicate n ' ') = ⟨line, column + n⟩ := by
  induction n generalizing column with
  | zero => rfl
  | succ n ih =>
    rw [replicate_succ, afterAll_cons, Position.after, if_neg (by decide), ih]
    rw [Nat.add_assoc, Nat.add_comm 1]

theorem afterAll_margin (hline : 1 ≤ p.line) (hcolumn : 1 ≤ p.column) : start.afterAll (Segment.margin p) = p := by
  rw [Segment.margin, Position.afterAll_append, start, afterAll_replicate_newline,
    afterAll_replicate_space, Nat.add_sub_cancel' hline, Nat.add_sub_cancel' hcolumn]

theorem one_le_afterAll (hline : 1 ≤ p.line) (hcolumn : 1 ≤ p.column) (cs : List Char) :
    1 ≤ (p.afterAll cs).line ∧ 1 ≤ (p.afterAll cs).column := by
  induction cs generalizing p with
  | nil => exact ⟨hline, hcolumn⟩
  | cons c cs ih =>
    rw [afterAll_cons, Position.after]
    split
    · exact ih (Nat.le_add_left ..) (Nat.le_refl 1)
    · exact ih hline (Nat.le_add_left ..)

theorem next?_of_isSpace {c} (hrun : ∀ d ∈ c :: run, isSpace d = true) (hrest : ∀ d ∈ rest.head?, isSpace d = false) :
    next? l (c :: run ++ rest) = some (.skipped, c :: run, rest) := by
  obtain ⟨hc, hrun⟩ := forall_mem_cons.1 hrun
  have hspace : space? (c :: run ++ rest) = some (c :: run, rest) := by
    rw [space?_eq, cons_append, first_cons_of_pos hc, many, span_eq_takeWhile_dropWhile,
      takeWhile_append_of_pos hrun, dropWhile_append_of_pos hrun]
    cases rest with
    | nil => simp
    | cons d rest => simp [hrest d rfl]
  simp only [isSpace, Bool.or_eq_true, beq_iff_eq] at hc
  obtain (((rfl | rfl) | rfl) | rfl) | rfl := hc <;> cases l <;>
    rw [next?, passedOver?, hspace] <;> rfl

theorem next?_cons_of_isSpace (l : Language) {c} (hc : isSpace c = true) (cs : List Char) :
    ∃ run rest, next? l (c :: cs) = some (.skipped, run, rest) := by
  have hall : ∀ d ∈ c :: cs.takeWhile isSpace, isSpace d = true :=
    forall_mem_cons.2 ⟨hc, fun d hd => all_eq_true.1 all_takeWhile d hd⟩
  have hrest : ∀ d ∈ (cs.dropWhile isSpace).head?, isSpace d = false := by
    intro d hd
    have hstop := head?_dropWhile_not isSpace cs
    rwa [hd] at hstop
  have hnext := next?_of_isSpace hall hrest (l := l)
  rw [cons_append, takeWhile_append_dropWhile] at hnext
  exact ⟨_, _, hnext⟩

theorem isSpace_head?_of_token {t} (h : next? l cs = some (.token t, run, rest)) :
    ∀ c ∈ run.head?, isSpace c = false := by
  intro c hc
  obtain ⟨run', rfl⟩ := head?_eq_some_iff.1 hc
  obtain ⟨-, rfl⟩ := next?_append h
  by_contra hspace
  obtain ⟨_, _, hskipped⟩ := next?_cons_of_isSpace l (by simpa using hspace) (run' ++ rest)
  rw [← cons_append, h] at hskipped
  cases hskipped

/-- A piece of a text that begins at `p` stands there from `q` to `r`, and does not begin with a space. -/
def Located (p : Position) (cs piece : List Char) (q r : Position) : Prop :=
  ∃ before after, cs = before ++ (piece ++ after) ∧ (∃ c ∈ piece.head?, isSpace c = false) ∧
    q = p.afterAll before ∧ r = q.afterAll piece

theorem Located.behind {p q r : Position} {run rest piece : List Char} (h : Located (p.afterAll run) rest piece q r) :
    Located p (run ++ rest) piece q r := by
  obtain ⟨before, after, rfl, hhead, rfl, hr⟩ := h
  exact ⟨run ++ before, after, (append_assoc ..).symm, hhead, (Position.afterAll_append ..).symm, hr⟩

theorem lexFrom_located (l : Language) (fuel : Nat) (p : Position) (cs : List Char) :
    (∀ t ∈ (lexFrom l fuel p cs).1, Located p cs t.text.toList t.span.start ⟨t.span.endLine, t.span.endColumn⟩) ∧
    ∀ e ∈ (lexFrom l fuel p cs).2, Located p cs [e.char] e.position (e.position.after e.char) := by
  induction fuel generalizing p cs with
  | zero => simp [lexFrom]
  | succ fuel ih =>
    cases cs with
    | nil => simp [lexFrom]
    | cons c cs =>
      rw [lexFrom]
      split
      · next hnext =>
        refine ⟨forall_mem_nil _, ?_⟩
        rintro e ⟨⟩
        have hspace : isSpace c = false := by
          by_contra hspace
          obtain ⟨_, _, hskipped⟩ := next?_cons_of_isSpace l (by simpa using hspace) cs
          rw [hnext] at hskipped
          cases hskipped
        exact ⟨[], cs, rfl, ⟨c, rfl, hspace⟩, rfl, rfl⟩
      · next kind run rest hnext =>
        obtain ⟨hne, happend⟩ := next?_append hnext
        obtain ⟨htokens, hstray⟩ := ih (p.afterAll run) rest
        rw [← happend]
        have hlater := fun t ht => (htokens t ht).behind
        have hstray := fun e he => (hstray e he).behind
        cases kind with
        | skipped => exact ⟨hlater, hstray⟩
        | token t =>
          obtain ⟨d, run', rfl⟩ := exists_cons_of_ne_nil hne
          refine ⟨forall_mem_cons.2 ⟨⟨[], rest, ?_, ⟨d, ?_, ?_⟩, rfl, ?_⟩, hlater⟩, hstray⟩
          · simp
          · simp
          · exact isSpace_head?_of_token hnext d rfl
          · simp [Span.start]

theorem lexAt_margin (hline : 1 ≤ p.line) (hcolumn : 1 ≤ p.column)
    (hcs : ∀ c ∈ cs.head?, isSpace c = false) : lex l (Segment.margin p ++ cs) = lexAt l p cs := by
  have hafter := afterAll_margin hline hcolumn
  have hall : ∀ c ∈ Segment.margin p, c = '\n' ∨ c = ' ' := by
    intro c hc
    rw [Segment.margin, mem_append, mem_replicate, mem_replicate] at hc
    exact hc.imp (·.2) (·.2)
  generalize Segment.margin p = m at hafter hall ⊢
  cases m with
  | nil =>
    rw [← hafter]
    rfl
  | cons c m =>
    have hspace : ∀ d ∈ c :: m, isSpace d = true := by
      intro d hd
      rcases hall d hd with rfl | rfl <;> rfl
    have hlex := lexAt_of_next? (next?_of_isSpace hspace hcs) .start (l := l)
    rw [hafter] at hlex
    exact hlex

/-! ### No lexeme is cut apart -/

/-- Whether a text by itself has no stray characters and opens no comment that it does not close. -/
structure Clean (l : Language) (cs : List Char) : Prop where
  stray : (lex l cs).2 = none
  isChain : (lex l cs).1.IsChain Apart

/-- How far a text has been cut: `before` lies behind, `begun` is what the next segment has of the text
so far, and `cs` is still to come. What has begun gives the same tokens wherever the text ends. -/
structure Cutting (l : Language) (source before begun cs : List Char) (tokens : List Token) : Prop where
  source_eq : source = before ++ begun ++ cs
  head : ∀ c ∈ begun.head?, isSpace c = false
  lexAt_eq : ∀ cs', cs' <+: cs → lexAt l (start.afterAll before) (begun ++ cs') =
    (tokens ++ (lexAt l (start.afterAll (before ++ begun)) cs').1, (lexAt l (start.afterAll (before ++ begun)) cs').2)

namespace Cutting

variable {l : Language} {source before begun cs : List Char} {tokens : List Token}

theorem nothing_begun (h : source = before ++ cs) : Cutting l source before [] cs [] where
  source_eq := by simpa using h
  head c hc := nomatch hc
  lexAt_eq cs' _ := by simp

theorem tokens_eq_nil (h : Cutting l source before [] cs tokens) : tokens = [] := by
  have hnil := h.lexAt_eq [] nil_prefix
  exact (append_eq_nil_iff.1 (congrArg Prod.fst hnil).symm).1

theorem step (h : Cutting l source before begun cs tokens) {kind run rest}
    (hnext : next? l cs = some (kind, run, rest))
    (hhead : begun = [] → ∀ c ∈ run.head?, isSpace c = false) :
    Cutting l source before (begun ++ run) rest (tokens ++ kind.tokens (start.afterAll (before ++ begun)) run) where
  source_eq := by
    rw [h.source_eq, ← (next?_append hnext).2]
    simp
  head c hc := by
    cases begun with
    | nil => exact hhead rfl c hc
    | cons d begun => exact h.head c hc
  lexAt_eq cs' hcs' := by
    obtain ⟨-, rfl⟩ := next?_append hnext
    have hall := h.lexAt_eq (run ++ cs') ((prefix_append_right_inj run).2 hcs')
    rw [lexAt_of_next? (next?_of_isPrefix hnext hcs')] at hall
    simpa using hall

theorem cut (h : Cutting l source before begun cs tokens) {run rest} (hcs : run ++ rest = cs) :
    Cutting l source (before ++ begun ++ run) [] rest [] := by
  refine nothing_begun ?_
  rw [h.source_eq, ← hcs]
  simp

theorem lex_inPlace (h : Cutting l source before begun cs tokens) {cs'}
    (hcs' : cs' <+: cs) (hhead : begun = [] → ∀ c ∈ cs'.head?, isSpace c = false) :
    lex l (Segment.inPlace source ⟨before.length, before.length + begun.length + cs'.length⟩) =
      (tokens ++ (lexAt l (start.afterAll (before ++ begun)) cs').1,
        (lexAt l (start.afterAll (before ++ begun)) cs').2) := by
  obtain ⟨ds, rfl⟩ := hcs'
  have htext : (source.drop before.length).take (begun.length + cs'.length) = begun ++ cs' := by
    rw [h.source_eq, append_assoc, drop_left, ← append_assoc, ← length_append, take_left]
  have hplace : ofOffset source before.length = start.afterAll before := by
    rw [ofOffset, h.source_eq, append_assoc, take_left]
  obtain ⟨hline, hcolumn⟩ := one_le_afterAll (Nat.le_refl 1) (Nat.le_refl 1) before (p := .start)
  have hhead : ∀ c ∈ (begun ++ cs').head?, isSpace c = false := by
    cases begun with
    | nil => exact hhead rfl
    | cons c begun => exact h.head
  rw [Segment.inPlace, hplace, Nat.add_assoc, Nat.add_sub_cancel_left, htext, lexAt_margin hline hcolumn hhead]
  exact h.lexAt_eq cs' (prefix_append _ _)

end Cutting

/-! ### All tokens -/

theorem next?_blockComment (h : throughCommentEnd cs = some (run, rest)) :
    next? l ('/' :: '*' :: cs) = some (.skipped, '/' :: '*' :: run, rest) := by
  have hcomment : blockComment? ('/' :: '*' :: cs) = some ('/' :: '*' :: run, rest) := by
    rw [blockComment?, h]
    rfl
  cases l <;> rw [next?, passedOver?, hcomment] <;> rfl

theorem head?_ne_star {kind} (hchain : (lexAt l p cs).1.IsChain Apart)
    (hnext : next? l cs = some (kind, ['/'], rest)) : rest.head? ≠ some '*' := by
  intro hhead
  obtain ⟨cs', rfl⟩ := head?_eq_some_iff.1 hhead
  obtain ⟨-, rfl⟩ := next?_append hnext
  cases hend : throughCommentEnd cs' with
  | none => exact not_isChain_of_openComment hend p hchain
  | some cut =>
    rw [singleton_append, next?_blockComment hend] at hnext
    cases hnext

def startOf (before begun : List Char) : Option Nat := if begun.isEmpty then none else some before.length

theorem getD_startOf (before begun : List Char) :
    (startOf before begun).getD (before.length + begun.length) = before.length := by
  cases begun <;> rfl

theorem startOf_append {before begun} (h : run ≠ []) : startOf before (begun ++ run) = some before.length := by
  simp [startOf, h]

/-- What the next lexeme does: it belongs to the segment that has begun or begins one, it is passed over
between segments, or the segment that has begun ends in it. -/
inductive Outcome (l : Language) (source before begun run rest : List Char) (tokens new : List Token)
    (ss : List Segment) : Prop where
  | go : (begun = [] → ∀ c ∈ run.head?, isSpace c = false) →
    Splits (before.length + (begun ++ run).length) (some before.length) (mask l rest) ss →
    Outcome l source before begun run rest tokens new ss
  | pass : begun = [] → new = [] →
    Splits (before ++ begun ++ run).length none (mask l rest) ss →
    Outcome l source before begun run rest tokens new ss
  | cut {s : Segment} {ss' : List Segment} : ss = s :: ss' →
    (lex l (s.inPlace source)).1 = tokens ++ new →
    Splits (before ++ begun ++ run).length none (mask l rest) ss' →
    Outcome l source before begun run rest tokens new ss

namespace Cutting

variable {l : Language} {source before begun cs run rest m : List Char} {kind : Kind}
  {tokens new : List Token} {ss : List Segment}
variable {c : Char} {k : Nat} {p : Position}

theorem outcome_firm
    (hsplits : Splits (before.length + begun.length) (startOf before begun) (c :: m ++ mask l rest) ss)
    (hlength : (c :: m).length = run.length) (hblank : Text.isBlank c = false)
    (hm : ∀ d ∈ c :: m, d ≠ '\n' ∧ d ≠ ';' ∧ d ≠ '\x7d')
    (hhead : ∀ c ∈ run.head?, isSpace c = false) :
    Outcome l source before begun run rest tokens new ss := by
  have hgo := hsplits.firm hblank hm
  rw [getD_startOf, hlength, Nat.add_assoc, ← length_append] at hgo
  exact .go (fun _ => hhead) hgo

theorem outcome_stop (h : Cutting l source before begun cs tokens)
    (hnext : next? l cs = some (kind, run, rest)) (hrun : run = [c]) (hc : c = ';' ∨ c = '\x7d')
    (hsplits : Splits (before.length + begun.length) (startOf before begun) (c :: mask l rest) ss) :
    Outcome l source before begun run rest tokens (kind.tokens (start.afterAll (before ++ begun)) run) ss := by
  subst hrun
  have hhead : ∀ d ∈ [c].head?, isSpace d = false := by
    rintro d ⟨rfl⟩
    rcases hc with rfl | rfl <;> rfl
  have hstart := getD_startOf before begun
  generalize startOf before begun = start at hsplits hstart
  cases hsplits with
  | blank hblank _ => rcases hc with rfl | rfl <;> cases hblank
  | go _ hgo =>
    rw [hstart] at hgo
    exact .go (fun _ => hhead) (by simpa [Nat.add_assoc] using hgo)
  | @stop _ _ _ _ ss' _ hrest =>
    rw [hstart]
    refine .cut rfl ?_ (by simpa [Nat.add_assoc] using hrest)
    have hlex := (h.step hnext fun _ => hhead).lex_inPlace nil_prefix (by simp)
    rw [length_append, length_singleton, length_nil, ← Nat.add_assoc] at hlex
    rw [hlex]
    exact append_nil _
  | line _ => rcases hc with hc | hc <;> cases hc

theorem outcome_blank (h : Cutting l source before begun (run ++ rest) tokens)
    (hsplits : Splits (before.length + begun.length) (startOf before begun) (m ++ mask l rest) ss)
    (hclean : ∀ s ∈ ss, Clean l (s.inPlace source)) (hlength : m.length = run.length)
    (hm : ∀ c ∈ m, Text.isBlank c = true)
    (hcut : ∀ k p, m[k]? = some '\n' → (lexAt l p (run.take k)).1.IsChain Apart → (lexAt l p (run.take k)).1 = []) :
    Outcome l source before begun run rest tokens [] ss := by
  cases hbegun : begun with
  | nil =>
    subst hbegun
    have hpass : Splits _ none _ _ := hsplits.blanks_none hm
    exact .pass rfl rfl (by simpa [hlength] using hpass)
  | cons c begun' =>
    rw [← hbegun]
    have hstart : startOf before begun = some before.length := by simp [startOf, hbegun]
    rw [hstart] at hsplits
    rcases hsplits.blanks_some hm with hgo | ⟨k, ss', hk, rfl, hrest⟩
    · refine .go (by simp [hbegun]) ?_
      rwa [hlength, Nat.add_assoc, ← length_append] at hgo
    · have hlt : k < run.length := hlength ▸ (List.getElem?_eq_some_iff.1 hk).1
      have hlex := h.lex_inPlace ((List.take_prefix k run).trans (prefix_append _ _)) (by simp [hbegun])
      rw [length_take_of_le (Nat.le_of_lt hlt)] at hlex
      have hchain := (hclean _ mem_cons_self).isChain
      rw [hlex] at hchain
      refine .cut rfl ?_ (by simpa [hlength, Nat.add_assoc] using hrest)
      rw [hlex, hcut k _ hk (isChain_append.1 hchain).2.1]

theorem isBlank_blank (cs : List Char) : ∀ c ∈ blank cs, Text.isBlank c = true := by
  intro c hc
  obtain ⟨d, -, rfl⟩ := mem_map.1 hc
  split
  · next hd => rw [hd]; rfl
  · rfl

theorem isBlank_of_isSpace (h : isSpace c = true) : Text.isBlank c = true := by
  simp only [isSpace, Bool.or_eq_true, beq_iff_eq] at h
  obtain (((rfl | rfl) | rfl) | rfl) | rfl := h <;> rfl

theorem getElem?_blank (h : (blank cs)[k]? = some '\n') : cs[k]? = some '\n' := by
  rw [blank, getElem?_map] at h
  obtain ⟨c, hc, heq⟩ := Option.map_eq_some_iff.1 h
  split at heq
  · next hline => rw [hc, hline]
  · cases heq

theorem lexAt_of_isSpace (hcs : ∀ c ∈ cs, isSpace c = true) (p : Position) : (lexAt l p cs).1 = [] := by
  cases cs with
  | nil => rfl
  | cons c run =>
    have hnext : next? l (c :: run ++ []) = some (.skipped, c :: run, []) :=
      next?_of_isSpace hcs (by simp)
    rw [append_nil] at hnext
    rw [lexAt_of_next? hnext]
    rfl

theorem eq_nil_of_blockComment {body} (h : throughCommentEnd body = some (body, []))
    (hk : ('/' :: '*' :: body)[k]? = some '\n')
    (hchain : (lexAt l p (('/' :: '*' :: body).take k)).1.IsChain Apart) :
    (lexAt l p (('/' :: '*' :: body).take k)).1 = [] := by
  match k with
  | 0 => cases hk
  | 1 => cases hk
  | k + 2 =>
    have hlt : k < body.length := by simpa using (List.getElem?_eq_some_iff.1 hk).1
    have hnone := eq_none_of_closed (fun h => (throughCommentEnd_append h).1) throughCommentEnd_closed h
      (take_append_drop k body) (by simpa using hlt)
    exact absurd hchain (not_isChain_of_openComment hnone p)

theorem outcome_template {inner} (hl : l = .typescript)
    (hthrough : throughDelimiter '`' true (inner ++ ['`']) = some (inner ++ ['`'], []))
    (h : Cutting l source before begun ('`' :: (inner ++ ['`']) ++ rest) tokens)
    (hsplits : Splits (before.length + begun.length) (startOf before begun)
      ('`' :: (blank inner ++ ['`']) ++ mask l rest) ss)
    (hclean : ∀ s ∈ ss, Clean l (s.inPlace source)) :
    Outcome l source before begun ('`' :: (inner ++ ['`'])) rest tokens new ss := by
  have hhead : ∀ c ∈ ('`' :: (inner ++ ['`'])).head?, isSpace c = false := by
    rintro c ⟨rfl⟩
    rfl
  have hopen : Splits (before.length + begun.length + 1) (some before.length)
      (blank inner ++ ('`' :: mask l rest)) ss := by
    have hfirst : Splits (before.length + begun.length) (startOf before begun)
        (['`'] ++ (blank inner ++ ('`' :: mask l rest))) ss := by simpa using hsplits
    have hgo := hfirst.firm rfl (by simp)
    rwa [getD_startOf] at hgo
  rcases hopen.blanks_some (isBlank_blank inner) with hgo | ⟨k, ss', hk, rfl, -⟩
  · have hclose : Splits _ _ (['`'] ++ mask l rest) ss := hgo
    refine .go (fun _ => hhead) ?_
    have hend := hclose.inside (by simp)
    simpa [Nat.add_assoc, Nat.add_left_comm] using hend
  · -- the segment would end within the template, and its first quote would be stray
    have hlt : k < inner.length := by simpa using (List.getElem?_eq_some_iff.1 hk).1
    have hsplit : inner.take k ++ (inner.drop k ++ ['`']) = inner ++ ['`'] := by
      rw [← append_assoc, take_append_drop]
    have hnone := eq_none_of_closed throughDelimiter_append (throughDelimiter_closed (by decide))
      hthrough hsplit (by simp)
    have hbegins : '`' :: inner.take k <+: '`' :: (inner ++ ['`']) ++ rest :=
      ⟨inner.drop k ++ ['`'] ++ rest, by simp [← hsplit]⟩
    have hlex := h.lex_inPlace hbegins fun _ => by
      rintro c ⟨rfl⟩
      rfl
    rw [length_cons, length_take_of_le (Nat.le_of_lt hlt), Nat.add_comm k, ← Nat.add_assoc] at hlex
    have hstray := (hclean _ mem_cons_self).stray
    rw [hlex, hl] at hstray
    exact absurd hstray (stray_of_openTemplate hnone _)

theorem outcome (h : Cutting l source before begun cs tokens)
    (hnext : next? l cs = some (kind, run, rest)) (hmasked : Masked l kind run m)
    (hsplits : Splits (before.length + begun.length) (startOf before begun) (m ++ mask l rest) ss)
    (hclean : ∀ s ∈ ss, Clean l (s.inPlace source)) :
    Outcome l source before begun run rest tokens (kind.tokens (start.afterAll (before ++ begun)) run) ss := by
  obtain ⟨-, rfl⟩ := next?_append hnext
  cases hmasked with
  | firm hlength hblank hm =>
    exact outcome_firm hsplits hlength hblank hm (isSpace_head?_of_token hnext)
  | stop hc => exact h.outcome_stop hnext rfl hc hsplits
  | template hl hthrough => exact h.outcome_template hl hthrough hsplits hclean
  | space hspace =>
    refine h.outcome_blank hsplits hclean rfl (fun c hc => isBlank_of_isSpace (hspace c hc)) ?_
    exact fun k p _ _ => lexAt_of_isSpace (fun c hc => hspace c (mem_of_mem_take hc)) p
  | lineComment hline =>
    refine h.outcome_blank hsplits hclean (length_blank run) (isBlank_blank run) fun k p hk _ => ?_
    exact absurd (mem_of_getElem? (getElem?_blank hk)) hline
  | blockComment hbody =>
    exact h.outcome_blank hsplits hclean (length_blank _) (isBlank_blank _) fun k p hk =>
      eq_nil_of_blockComment hbody (getElem?_blank hk)

theorem flatMap_lex (h : Cutting l source before begun cs tokens) (hlexes : Lexes l p cs new)
    (hp : p = start.afterAll (before ++ begun)) (hchain : new.IsChain Apart)
    (hsplits : Splits (before.length + begun.length) (startOf before begun) (mask l cs) ss)
    (hclean : ∀ s ∈ ss, Clean l (s.inPlace source)) :
    ss.flatMap (fun s => (lex l (s.inPlace source)).1) = tokens ++ new := by
  induction hlexes generalizing before begun tokens ss with
  | nil =>
    cases hbegun : begun with
    | nil =>
      subst hbegun
      cases hsplits
      rw [h.tokens_eq_nil]
      rfl
    | cons c begun' =>
      have hstart : startOf before begun = some before.length := by simp [startOf, hbegun]
      rw [hstart] at hsplits
      cases hsplits
      have hlex := h.lex_inPlace nil_prefix (by simp)
      rw [length_nil, Nat.add_zero] at hlex
      simp [hlex, lexAt, lexFrom]
  | @cons p cs run rest kind new hnext hrest ih =>
    have hlex : (lexAt l p cs).1 = kind.tokens p run ++ new :=
      congrArg Prod.fst (Lexes.cons hnext hrest).lexAt_eq
    obtain ⟨m, hmasked, hmask⟩ := masked_of_next? hnext fun hrun =>
      head?_ne_star (hlex ▸ hchain) (hrun ▸ hnext)
    rw [hmask] at hsplits
    have hchain' := (isChain_append.1 hchain).2.1
    subst hp
    have hcut := h.cut (next?_append hnext).2
    cases h.outcome hnext hmasked hsplits hclean with
    | go hhead hgo =>
      rw [← startOf_append (next?_append hnext).1] at hgo
      have hall := ih (h.step hnext hhead) (by simp) hchain' hgo hclean
      rwa [append_assoc] at hall
    | pass hbegun hnew hpass =>
      subst hbegun
      rw [h.tokens_eq_nil, hnew]
      exact ih hcut (by simp) hchain' hpass hclean
    | cut hss htokens hrest =>
      subst hss
      rw [flatMap_cons, htokens, ← append_assoc]
      exact congrArg _ (ih hcut (by simp) hchain' hrest fun s hs => hclean s (mem_cons_of_mem _ hs))

end Cutting

/-- If every segment of a clean text is clean by itself, the tokens of the segments are those of the
text, each at its place. -/
theorem flatMap_lex_segments {source} (h : Clean l source)
    (hclean : ∀ s ∈ segments l (mask l source), Clean l (s.inPlace source)) :
    (segments l (mask l source)).flatMap (fun s => (lex l (s.inPlace source)).1) = (lex l source).1 := by
  have hstart : Cutting l source [] [] source [] := .nothing_begun rfl
  exact hstart.flatMap_lex (lexes_of_lexAt h.stray) rfl h.isChain (splits_segments l _) hclean

end Blackboard.Scan
