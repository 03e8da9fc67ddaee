import Blackboard.Proofs.Discipline.Quotation
import Blackboard.Proofs.Recovery.Segments
import Blackboard.Proofs.Reading.Program

/-!
What stands on one line. Every token but a template does, and so do the imports of a language whose
imports end with their line; hence so does what is said of a source that cannot be read.
-/
namespace Blackboard

open List

namespace Text.Pattern

variable {k : Place → Option Place} {rest cs : List Char} {stop place : Place} {p : Pattern}
    {before : Option Char}

def Takes (P : Char → Prop) : Pattern → Prop
  | char p | many p | manyLazy p => ∀ c, p c = true → P c
  | word s => ∀ c ∈ s, P c
  | seq a b | alt a b => a.Takes P ∧ b.Takes P
  | opt a => a.Takes P
  | lineStart | boundary | notAhead _ => True

def Reaches (P : Char → Prop) (k : Place → Option Place) (rest : List Char) (stop : Place) : Prop :=
  ∃ taken mid, k mid = some stop ∧ rest = taken ++ mid.rest ∧ ∀ c ∈ taken, P c

variable {P : Char → Prop}

theorem Reaches.cons {c} (hc : P c) (h : Reaches P k rest stop) : Reaches P k (c :: rest) stop := by
  obtain ⟨taken, mid, hk, rfl, htaken⟩ := h
  exact ⟨c :: taken, mid, hk, rfl, forall_mem_cons.2 ⟨hc, htaken⟩⟩

theorem Reaches.here (h : k place = some stop) : Reaches P k place.rest stop :=
  ⟨[], place, h, rfl, nofun⟩

theorem reaches_runWord {s} (hs : ∀ c ∈ s, P c) (h : runWord k s place = some stop) :
    Reaches P k place.rest stop := by
  induction s generalizing place with
  | nil => exact .here h
  | cons c s ih =>
    obtain ⟨hc, hs⟩ := forall_mem_cons.1 hs
    obtain ⟨before, rest⟩ := place
    cases rest with
    | nil => cases h
    | cons d rest =>
      rw [runWord] at h
      split at h
      · next heq => exact heq ▸ .cons hc (ih hs h)
      · cases h

theorem reaches_runMany {p} (hp : ∀ c, p c = true → P c)
    (h : runMany p k before rest = some stop) : Reaches P k rest stop := by
  induction rest generalizing before with
  | nil => exact .here h
  | cons c rest ih =>
    rw [runMany] at h
    split at h
    · next hc =>
      rcases (Option.orElse_eq_some _ _ _).1 h with h | ⟨-, h⟩
      · exact .cons (hp c hc) (ih h)
      · exact .here h
    · exact .here h

theorem reaches_runManyLazy {p} (hp : ∀ c, p c = true → P c)
    (h : runManyLazy p k before rest = some stop) : Reaches P k rest stop := by
  induction rest generalizing before with
  | nil => exact .here h
  | cons c rest ih =>
    rcases (Option.orElse_eq_some _ _ _).1 h with h | ⟨-, h⟩
    · exact .here h
    · split at h
      · next hc => exact .cons (hp c hc) (ih h)
      · cases h

theorem reaches_run (hp : p.Takes P) (h : p.run k place = some stop) : Reaches P k place.rest stop := by
  induction p generalizing k place with
  | char q =>
    obtain ⟨before, rest⟩ := place
    cases rest with
    | nil => cases h
    | cons c rest =>
      rw [run] at h
      split at h
      · next hc => exact .cons (hp c hc) (.here h)
      · cases h
  | word s => exact reaches_runWord hp h
  | seq a b iha ihb =>
    obtain ⟨taken, mid, hmid, hrest, htaken⟩ := iha hp.1 h
    obtain ⟨taken', mid', hk, hrest', htaken'⟩ := ihb hp.2 hmid
    exact ⟨taken ++ taken', mid', hk, by rw [hrest, hrest', append_assoc], forall_mem_append.2 ⟨htaken, htaken'⟩⟩
  | alt a b iha ihb =>
    rcases (Option.orElse_eq_some _ _ _).1 h with h | ⟨-, h⟩
    · exact iha hp.1 h
    · exact ihb hp.2 h
  | opt a iha =>
    rcases (Option.orElse_eq_some _ _ _).1 h with h | ⟨-, h⟩
    · exact iha hp h
    · exact .here h
  | many q => exact reaches_runMany hp h
  | manyLazy q => exact reaches_runManyLazy hp h
  | lineStart =>
    rw [run] at h
    split at h
    · exact .here h
    · cases h
  | boundary =>
    rw [run] at h
    split at h
    · exact .here h
    · cases h
  | notAhead a =>
    rw [run] at h
    split at h
    · cases h
    · exact .here h

theorem mem_findFrom (hp : p.Takes P) (fuel : Nat) {offset} (hplace : cs.drop offset = place.rest) :
    ∀ s ∈ p.findFrom fuel offset place, ∀ c ∈ (cs.drop s.1).take s.2, P c := by
  induction fuel generalizing offset place with
  | zero => exact nofun
  | succ fuel ih =>
    obtain ⟨before, rest⟩ := place
    cases rest with
    | nil => exact nofun
    | cons c rest =>
      have honward : cs.drop (offset + 1) = rest := by
        rw [← drop_drop, hplace, drop_one, tail_cons]
      rw [findFrom]
      split
      · exact ih honward
      · next stop hstop =>
        obtain ⟨taken, mid, hmid, hrest, htaken⟩ := reaches_run hp hstop
        cases hmid
        change c :: rest = taken ++ stop.rest at hrest
        have hlength : (c :: rest).length - stop.rest.length = taken.length := by
          rw [hrest, length_append, Nat.add_sub_cancel]
        dsimp only
        rw [hlength]
        split
        · exact ih honward
        · refine forall_mem_cons.2 ⟨?_, ih ?_⟩
          · rw [hplace, hrest, take_left]
            exact htaken
          · rw [← drop_drop, hplace, hrest, drop_left]

theorem mem_findAll (hp : p.Takes P) : ∀ s ∈ p.findAll cs, ∀ c ∈ (cs.drop s.1).take s.2, P c :=
  mem_findFrom hp cs.length rfl

end Text.Pattern

/-! ### Imports -/

namespace Scan

theorem not_mem_stretch {l source offset length} (h : '\n' ∉ ((mask l source).drop offset).take length) :
    '\n' ∉ (source.drop offset).take length := by
  have hveiled : Veiled ((source.drop offset).take length) (((mask l source).drop offset).take length) :=
    forall₂_take _ (forall₂_drop _ (veiled_mask l source))
  intro hmem
  obtain ⟨i, hi⟩ := mem_iff_getElem?.1 hmem
  exact h (mem_iff_getElem?.2 ⟨i, (hveiled.getElem? i).1.2 hi⟩)

theorem Import.patterns_java : ∀ p ∈ patterns .java, p.Takes (· ≠ '\n') := by
  rw [patterns]
  simp [Text.Pattern.all, Text.Pattern.Takes, Text.Pattern.indented, Text.Pattern.ofText]

theorem imports_java (source : List Char) :
    ∀ i ∈ (liftImports .java source (mask .java source)).imports, '\n' ∉ i.text.toList := by
  intro i hi
  obtain ⟨s, hs, hi⟩ := mem_filterMap.1 ((Sorting.perm_sortBy _ _).mem_iff.1 hi)
  obtain ⟨p, hp, hfound⟩ := mem_flatMap.1 (mem_filter.1 hs).1
  have hstretch : '\n' ∉ (source.drop s.1).take s.2 := not_mem_stretch (l := .java) fun h =>
    Text.Pattern.mem_findAll (Import.patterns_java p hp) s hfound _ h rfl
  unfold Import.ofStretch? at hi
  dsimp only at hi
  split at hi
  · cases hi
  · cases hi
    rw [String.toList_ofList]
    exact fun h => hstretch (Source.mem_of_mem_trim h)

end Scan

/-! ### Tokens -/

namespace Token

open Lexeme Source

theorem terminal_ne_template {cs} : ∀ t ∈ (lex .java cs).1, t.terminal ≠ .template := by
  intro t ht hterminal
  obtain ⟨cs', rest, hnext⟩ := exists_next_of_mem_lexFrom cs.length .start cs t ht
  rw [hterminal] at hnext
  cases (template_of_next? hnext).1

theorem lex_oneLine {l cs} (h : l = .typescript → ∀ t ∈ (lex l cs).1, t.terminal = .template → '\n' ∉ t.text.toList) :
    ∀ t ∈ (lex l cs).1, '\n' ∉ t.text.toList := by
  intro t ht
  obtain ⟨cs', rest, hnext⟩ := exists_next_of_mem_lexFrom cs.length .start cs t ht
  by_cases hterminal : t.terminal = .template
  · cases l with
    | java => exact absurd hterminal (terminal_ne_template t ht)
    | typescript => exact h rfl t ht hterminal
  · exact no_line_end hnext hterminal

end Token

/-! ### What is said of a text that cannot be read -/

def Diagnostic.IsFault (d : Diagnostic) : Prop := d.isError = true ∧ d.isStructural = true

namespace Source

open Grammar

abbrev OneLine (s : String) : Prop := Spelled (· ≠ '\n') s

theorem oneLine_iff {s} : OneLine s ↔ '\n' ∉ s.toList :=
  ⟨fun h hmem => h _ hmem rfl, fun h _ hc heq => h (heq ▸ hc)⟩

theorem oneLine_composes : Composes OneLine := spelled_composes fun _ h => h

theorem oneLine_strip {s} (h : OneLine s) : OneLine (Text.strip s) := by
  intro c hc
  rw [Text.strip, String.toList_ofList] at hc
  exact h c (mem_of_mem_trim hc)

theorem oneLine_char {c} (h : c ≠ '\n') : OneLine c.toString := by
  intro d hd
  rw [mem_singleton.1 (show d ∈ [c] from String.toList_singleton c ▸ hd)]
  exact h

theorem toUpper_ne_newline {c : Char} (h : c ≠ '\n') : c.toUpper ≠ '\n' := by
  unfold Char.toUpper
  split
  · next hletter =>
    intro heq
    rw [UInt32.le_iff_toNat_le, UInt32.le_iff_toNat_le] at hletter
    have hnat := congrArg (fun d : Char => d.val.toNat) heq
    rw [UInt32.toNat_add] at hnat
    have hshift : ('A'.val - 'a'.val).toNat = 2 ^ 32 - 32 := by decide
    have hnewline : '\n'.val.toNat = 10 := by decide
    have hfirst : 'a'.val.toNat = 97 := by decide
    have hlast : 'z'.val.toNat = 122 := by decide
    omega
  · exact h

theorem oneLine_toUpper {s} (h : OneLine s) : OneLine s.toUpper := by
  intro c hc
  rw [String.toUpper, String.toList_map] at hc
  obtain ⟨d, hd, rfl⟩ := mem_map.1 hc
  exact toUpper_ne_newline (h d hd)

theorem oneLine_spelling (t : Terminal) : OneLine t.spelling :=
  oneLine_iff.2 (by cases t <;> decide)

theorem oneLine_markLabel (l : Language) (t : Terminal) : OneLine (l.markLabel t) := by
  unfold Language.markLabel
  split
  all_goals first
    | with_reducible exact oneLine_toUpper (oneLine_spelling _)
    | (split <;> exact oneLine_iff.2 (unbroken rfl))
    | exact oneLine_iff.2 (unbroken rfl)

theorem oneLine_label (l : Language) (t : Terminal) : OneLine (l.label t) := by
  unfold Language.label
  split
  case h_16 => exact oneLine_markLabel l t
  all_goals exact oneLine_iff.2 (unbroken rfl)

theorem oneLine_expectation (l : Language) (ts : List Terminal) : OneLine (expectation l ts) := by
  have hlabels : ∀ s ∈ Sorting.sortBy (fun a b => decide (a ≤ b)) ((ts.map l.label).eraseDups), OneLine s := by
    intro s hs
    obtain ⟨t, -, rfl⟩ := mem_map.1 (mem_eraseDups.1 ((Sorting.perm_sortBy _ _).mem_iff.1 hs))
    exact oneLine_label l t
  unfold expectation
  split
  · exact oneLine_composes.empty
  · next label heq =>
    rw [heq, forall_mem_singleton] at hlabels
    exact oneLine_composes.append.2 ⟨oneLine_composes.of_line (unbroken rfl), hlabels⟩
  · exact oneLine_composes.append.2 ⟨oneLine_composes.of_line (unbroken rfl),
      oneLine_composes.listed fun s hs => hlabels s (mem_of_mem_take hs)⟩

theorem oneLine_unexpectedDetails (l : Language) {token} (h : OneLine token.text)
    (expected : List Terminal) : OneLine (unexpectedDetails l token expected) := by
  have hexpectation := oneLine_expectation l expected
  unfold unexpectedDetails
  split
  · simp (disch := exact unbroken rfl) only [toString_text, oneLine_composes.append, oneLine_composes.of_line, h, and_self]
  · simp (disch := exact unbroken rfl) only [toString_text, oneLine_composes.append, oneLine_composes.of_line, h,
      hexpectation, and_self]

theorem oneLine_shortHexadecimal {cs} (hhex : Numeral.isHexPrefixed cs = true)
    (hshort : (Numeral.dropMarks ['l', 'L'] cs).length ≤ 2) :
    OneLine (String.ofList (Numeral.dropMarks ['l', 'L'] cs)) := by
  have hprefix : Numeral.dropMarks ['l', 'L'] cs <+: cs := by
    rw [Numeral.dropMarks, ← reverse_suffix, reverse_reverse]
    exact dropWhile_suffix _
  obtain ⟨x, rest, rfl, hx⟩ : ∃ x rest, cs = '0' :: x :: rest ∧ (x = 'x' ∨ x = 'X') := by
    unfold Numeral.isHexPrefixed at hhex
    split at hhex
    · next x rest => exact ⟨x, rest, rfl, by simpa using hhex⟩
    · cases hhex
  intro c hc
  rw [String.toList_ofList, prefix_iff_eq_take.1 hprefix] at hc
  have hmem : c ∈ ('0' :: x :: rest).take 2 := (take_subset_take_left _ hshort) hc
  rcases hx with rfl | rfl
  · simp only [take_succ_cons, take_zero, mem_cons, not_mem_nil, or_false] at hmem
    rcases hmem with rfl | rfl <;> decide
  · simp only [take_succ_cons, take_zero, mem_cons, not_mem_nil, or_false] at hmem
    rcases hmem with rfl | rfl <;> decide

theorem oneLine_numeralFault {raw f} (h : Numeral.read raw = .error f) : OneLine f.message := by
  unfold Numeral.read at h
  dsimp only at h
  split at h
  · next hhex =>
    split at h
    · next hshort =>
      cases h
      have hbody := oneLine_shortHexadecimal hhex hshort
      unfold Numeral.Fault.message
      simp (disch := exact unbroken rfl) only [toString_text, oneLine_composes.append, oneLine_composes.of_line, hbody, and_self]
    · cases h
  · split at h
    · cases h
    · split at h
      · cases h
        have hnumber : ∀ n : Nat, OneLine (toString n) := fun n => oneLine_iff.2 (toString_nat_lines n)
        unfold Numeral.Fault.message
        simp (disch := exact unbroken rfl) only [toString_text, oneLine_composes.append, oneLine_composes.of_line,
          hnumber, and_self]
      · cases h

variable {l : Language} {read : Span → List Char → Expr} {f : Numeral.Fault}

theorem Piece.exists_read_of_ofToken {t} (h : Piece.ofToken read t = .error f) : Numeral.read t.text = .error f := by
  unfold Piece.ofToken at h
  split at h
  · cases hread : Numeral.read t.text with
    | error e =>
      rw [hread] at h
      exact congrArg _ (Except.error.inj h)
    | ok v =>
      rw [hread] at h
      cases h
  all_goals cases h

mutual

theorem Piece.exists_read_of_ofTree (t : Tree) (h : Piece.ofTree l read t = .error f) :
    ∃ raw, Numeral.read raw = .error f := by
  match t with
  | .leaf t => exact ⟨t.text, Piece.exists_read_of_ofToken h⟩
  | .node c children =>
    rw [Piece.ofTree] at h
    cases hps : Piece.ofTrees l read children with
    | error e =>
      rw [hps] at h
      cases h
      exact Piece.exists_read_of_ofTrees children hps
    | ok ps =>
      rw [hps] at h
      cases h

theorem Piece.exists_read_of_ofTrees (ts : List Tree) (h : Piece.ofTrees l read ts = .error f) :
    ∃ raw, Numeral.read raw = .error f := by
  match ts with
  | [] => cases h
  | t :: ts =>
    rw [Piece.ofTrees] at h
    cases hp : Piece.ofTree l read t with
    | error e =>
      rw [hp] at h
      cases h
      exact Piece.exists_read_of_ofTree t hp
    | ok p =>
      rw [hp] at h
      cases hps : Piece.ofTrees l read ts with
      | error e =>
        rw [hps] at h
        cases h
        exact Piece.exists_read_of_ofTrees ts hps
      | ok ps =>
        rw [hps] at h
        cases h

end

def quoted : Cause → List String
  | .unmatchedBracket c | .unclosedBracket c | .invalidCharacter c => [c]
  | .mismatchedBracket e c => [e, c]
  | .unexpectedToken details | .parsingError details => [details]
  | _ => []


theorem oneLine_message {c} (hc : c.isStructural = true) (h : ∀ s ∈ quoted c, OneLine s)
    (suggestion : String) : OneLine (c.message suggestion) := by
  cases c with
  | unmatchedBracket s | unclosedBracket s | invalidCharacter s | unexpectedToken s | parsingError s =>
    have hs := h s (mem_singleton_self s)
    unfold Cause.message
    simp (disch := exact unbroken rfl) only [toString_text, oneLine_composes.append, oneLine_composes.of_line, hs, and_self]
  | mismatchedBracket e s =>
    have he := h e (by simp [quoted])
    have hs := h s (by simp [quoted])
    unfold Cause.message
    simp (disch := exact unbroken rfl) only [toString_text, oneLine_composes.append, oneLine_composes.of_line, he, hs, and_self]
  | unterminatedString | unterminatedChar | unterminatedTemplate | unterminatedComment =>
    unfold Cause.message
    exact oneLine_composes.of_line (unbroken rfl)
  | _ => cases hc

theorem oneLine_diagnostic {d : Diagnostic} (hd : d.isStructural = true)
    (h : ∀ s ∈ quoted d.cause, OneLine s) : OneLine d.message ∧ OneLine d.text := by
  have hmessage : OneLine d.message := oneLine_strip (oneLine_message hd h _)
  have hname : OneLine d.severity.name.toUpper :=
    oneLine_toUpper (oneLine_iff.2 (by cases d.severity <;> decide))
  have hcode : OneLine d.cause.code := by
    rw [oneLine_iff]
    unfold Cause.code
    split <;> decide
  refine ⟨hmessage, ?_⟩
  unfold Diagnostic.text
  split
  · next n _ =>
    have hline : OneLine (toString n) := oneLine_iff.2 (toString_nat_lines n)
    simp (disch := exact unbroken rfl) only [toString_text, oneLine_composes.append, oneLine_composes.of_line, hname,
      hcode, hline, hmessage, and_self]
  · simp (disch := exact unbroken rfl) only [oneLine_composes.append, oneLine_composes.of_line, hname, hcode, hmessage, and_self]

theorem oneLine_readError {source e} (h : Stmt.readAll l source = .error e)
    (htokens : ∀ t ∈ (Token.lex l source).1, OneLine t.text) :
    ∀ s ∈ quoted (e.diagnostic l).cause, OneLine s := by
  unfold Stmt.readAll Piece.read at h
  cases hparse : Grammar.parse l .program source with
  | ok tree =>
    rw [hparse] at h
    dsimp only at h
    cases htree : Piece.ofTree l (Piece.readHole l source.length) tree with
    | ok p =>
      rw [htree] at h
      cases h
    | error f =>
      rw [htree] at h
      cases h
      obtain ⟨raw, hraw⟩ := Piece.exists_read_of_ofTree tree htree
      exact forall_mem_singleton.2 (oneLine_numeralFault hraw)
  | error f =>
    rw [hparse] at h
    cases h
    unfold Grammar.parse Tree.parse at hparse
    dsimp only at hparse
    split at hparse
    · split at hparse
      · next token htoken =>
        cases hparse
        exact forall_mem_singleton.2 (oneLine_unexpectedDetails l (htokens token (mem_of_getElem? htoken)) _)
      · cases hparse
        exact forall_mem_singleton.2 (oneLine_composes.of_line (unbroken rfl))
    · split at hparse
      · next stray hstray =>
        cases hparse
        obtain ⟨-, -, -, ⟨c, hc, hspace⟩, -⟩ := (Scan.lexFrom_located _ _ _ _).2 stray hstray
        cases hc
        exact forall_mem_singleton.2 (oneLine_char fun heq => absurd hspace (by simp [heq, Lexeme.isSpace]))
      · split at hparse
        · cases hparse
        · cases hparse
          exact forall_mem_singleton.2 (oneLine_composes.of_line (unbroken rfl))

end Source

/-! ### What is said of the structure of a text -/

namespace Scan

open Source

/-- Only brackets are open, and all faults found so far are errors that stand on one line. -/
structure Nesting.Quotes (n : Nesting) : Prop where
  opened : ∀ b ∈ n.opened, isOpening b.1 = true
  faults : ∀ d ∈ n.faults, d.IsFault ∧ ∀ s ∈ quoted d.cause, OneLine s

theorem ne_of_isOpening {c} (h : isOpening c = true) : c ≠ '\n' := by
  rintro rfl
  cases h

theorem ne_of_isClosing {c} (h : isClosing c = true) : c ≠ '\n' := by
  rintro rfl
  cases h

theorem ne_of_closing? {o e} (h : closing? o = some e) : e ≠ '\n' := by
  unfold closing? at h
  split at h <;> cases h <;> decide

namespace Nesting

theorem Quotes.fault {n : Nesting} (h : n.Quotes) {c : Cause} (hstructural : c.isStructural = true)
    (hc : ∀ s ∈ quoted c, OneLine s) : (n.fault c).Quotes :=
  ⟨h.opened, forall_mem_cons.2 ⟨⟨⟨rfl, hstructural⟩, hc⟩, h.faults⟩⟩

theorem Quotes.bracket {n : Nesting} (h : n.Quotes) (c : Char) : (n.bracket c).Quotes := by
  unfold Nesting.bracket
  split
  · next hopening => exact ⟨forall_mem_cons.2 ⟨hopening, h.opened⟩, h.faults⟩
  · split
    · next hclosing =>
      have hc := oneLine_char (ne_of_isClosing hclosing)
      split
      · exact h.fault rfl (forall_mem_singleton.2 hc)
      · next o p opened hopened =>
        have hrest : ({ n with opened := opened } : Nesting).Quotes :=
          ⟨fun b hb => h.opened b (hopened ▸ mem_cons_of_mem _ hb), h.faults⟩
        split
        · next e he =>
          split
          · exact hrest
          · refine hrest.fault rfl ?_
            simpa [quoted] using ⟨oneLine_char (ne_of_closing? he), hc⟩
        · exact hrest
    · exact h

theorem Quotes.region {n : Nesting} (h : n.Quotes) (l : Language) (r : Region) : (n.region l r).Quotes := by
  have hliteral : ∀ q, (openLiteral l q).isStructural = true ∧ ∀ s ∈ quoted (openLiteral l q), OneLine s := by
    intro q
    unfold openLiteral
    split
    · exact ⟨rfl, nofun⟩
    · split <;> exact ⟨rfl, nofun⟩
  unfold Nesting.region
  split
  · exact ⟨(h.bracket _).opened, (h.bracket _).faults⟩
  · exact ⟨h.opened, (h.fault (c := .unterminatedComment) rfl nofun).faults⟩
  · exact ⟨h.opened, (h.fault (hliteral _).1 (hliteral _).2).faults⟩
  · exact ⟨h.opened, h.faults⟩

theorem Quotes.finish {n : Nesting} (h : n.Quotes) :
    ∀ d ∈ n.finish, d.IsFault ∧ ∀ s ∈ quoted d.cause, OneLine s := by
  unfold Nesting.finish
  rw [forall_mem_append]
  refine ⟨fun d hd => h.faults d (mem_reverse.1 hd), fun d hd => ?_⟩
  obtain ⟨b, hb, rfl⟩ := mem_map.1 hd
  exact ⟨⟨rfl, rfl⟩, forall_mem_singleton.2 (oneLine_char (ne_of_isOpening (h.opened b (mem_reverse.1 hb))))⟩

end Nesting

theorem structuralFaults_oneLine (l : Language) (cs : List Char) :
    ∀ d ∈ structuralFaults l cs, d.IsFault ∧ ∀ s ∈ quoted d.cause, OneLine s := by
  refine Nesting.Quotes.finish ?_
  suffices ∀ (rs : List Region) (n : Nesting), n.Quotes → (rs.foldl (Nesting.region l) n).Quotes from
    this (regions l cs) .empty ⟨by simp [Nesting.empty], by simp [Nesting.empty]⟩
  intro rs
  induction rs with
  | nil => exact fun _ h => h
  | cons r rs ih => exact fun n h => ih _ (h.region l r)

end Scan

/-! ### Programs -/

namespace Source

open Scan

variable {text : List Char} {ss : List Stmt}

/-- The texts that a source is read from once its imports are lifted out: the whole, or else its
segments, each at its place. -/
def readTexts (l : Language) (source : List Char) : List (List Char) :=
  let lifted := liftImports l source (mask l source)
  match Stmt.readAll l lifted.source with
  | .ok _ => [lifted.source]
  | .error _ => (segments l lifted.masked).map (·.inPlace lifted.source)

/-- Imports and templates do not reach over a line end. -/
structure OnLines (l : Language) (source : List Char) : Prop where
  imports : ∀ i ∈ (liftImports l source (mask l source)).imports, '\n' ∉ i.text.toList
  templates : ∀ text ∈ readTexts l source, ∀ t ∈ (Token.lex l text).1, t.terminal = .template → '\n' ∉ t.text.toList

theorem onLines_java (source : List Char) : OnLines .java source :=
  ⟨imports_java source, fun _ _ t ht hterminal => absurd hterminal (Token.terminal_ne_template t ht)⟩

variable {l : Language} {source : List Char}

def AllOneLine (ns : List Node) : Prop := ∀ n ∈ ns, ∀ s ∈ n.texts, OneLine s

theorem readAll_oneLine (h : Stmt.readAll l text = .ok ss)
    (htemplates : ∀ t ∈ (Token.lex l text).1, t.terminal = .template → '\n' ∉ t.text.toList) :
    AllOneLine (stmtNodes ss) :=
  (Stmt.readAll_spelled (fun _ h => h) h fun t ht hterminal =>
    oneLine_iff.2 (htemplates t ht hterminal)).texts

theorem ReadError.diagnostic_isFault (l : Language) (e : ReadError) : (e.diagnostic l).IsFault := by
  unfold ReadError.diagnostic
  split <;> exact ⟨rfl, rfl⟩

theorem Stmt.readSegment_oneLine {s : Segment}
    (htemplates : ∀ t ∈ (Token.lex l (s.inPlace text)).1, t.terminal = .template → '\n' ∉ t.text.toList) :
    AllOneLine (stmtNodes (Stmt.readSegment l text s).1) ∧
      ∀ d ∈ (Stmt.readSegment l text s).2, ∀ q ∈ quoted d.cause, OneLine q := by
  obtain ⟨ss, hread, hsegment⟩ | ⟨e, line, column, span, kept, hread, hsegment⟩ := readSegment_cases l text s
  · rw [hsegment]
    exact ⟨readAll_oneLine hread htemplates, fun _ h => nomatch h⟩
  · have htokens := Token.lex_oneLine fun _ => htemplates
    have hquoted := oneLine_readError hread fun t ht => oneLine_iff.2 (htokens t ht)
    have hmessage := (oneLine_diagnostic (d := { e.diagnostic l with line := line, column := column })
      (ReadError.diagnostic_isFault l e).2 hquoted).1
    rw [hsegment]
    refine ⟨?_, by rintro d ⟨⟩; exact hquoted⟩
    simpa [AllOneLine, stmtNodes, Stmt.nodes, Node.texts] using hmessage

theorem allOneLine_stmtNodes : AllOneLine (stmtNodes ss) ↔ ∀ s ∈ ss, AllOneLine s.nodes := by
  induction ss with
  | nil => simp [AllOneLine, stmtNodes]
  | cons s ss ih =>
    rw [forall_mem_cons, ← ih]
    exact forall_mem_append

theorem Stmt.recover_oneLine (h : OnLines l source) :
    let lifted := liftImports l source (mask l source)
    AllOneLine (stmtNodes (Stmt.recover l lifted.source lifted.masked).1) ∧
      ∀ d ∈ (Stmt.recover l lifted.source lifted.masked).2, ∀ q ∈ quoted d.cause, OneLine q := by
  extract_lets lifted
  have htemplates := h.templates
  unfold readTexts at htemplates
  dsimp only at htemplates
  unfold Stmt.recover
  split
  · exact ⟨forall_mem_nil _, forall_mem_nil _⟩
  · split
    · next ss hread =>
      rw [hread, forall_mem_singleton] at htemplates
      exact ⟨readAll_oneLine hread htemplates, forall_mem_nil _⟩
    · next e hread =>
      rw [hread, forall_mem_map] at htemplates
      have hsegments : ∀ r ∈ (segments l lifted.masked).map (Stmt.readSegment l lifted.source),
          AllOneLine (stmtNodes r.1) ∧ ∀ d ∈ r.2, ∀ q ∈ quoted d.cause, OneLine q :=
        forall_mem_map.2 fun s hs => Stmt.readSegment_oneLine (htemplates s hs)
      refine ⟨allOneLine_stmtNodes.2 fun s hs => ?_, fun d hd => ?_⟩
      · obtain ⟨r, hr, hs⟩ := mem_flatMap.1 hs
        exact allOneLine_stmtNodes.1 (hsegments r hr).1 s hs
      · obtain ⟨r, hr, hd⟩ := mem_filterMap.1 hd
        exact (hsegments r hr).2 d hd

theorem Program.read_oneLine (h : OnLines l source) : AllOneLine (stmtNodes (Program.read l source).1.body) ∧
      ∀ e ∈ (Program.read l source).1.structuralErrors, OneLine e := by
  obtain ⟨hstatements, herrors⟩ := Stmt.recover_oneLine h
  have hunsupported : ∀ d ∈ unsupported l (mask l source), ∀ q ∈ quoted d.cause, OneLine q := by
    intro d hd
    obtain ⟨f, -, hd⟩ := mem_flatMap.1 ((Sorting.perm_sortBy _ _).mem_iff.1 hd)
    obtain ⟨p, -, rfl⟩ := mem_map.1 hd
    exact nofun
  have hremarks : ∀ d ∈ (Program.read l source).2, ∀ q ∈ quoted d.cause, OneLine q := by
    unfold Program.read
    dsimp only
    split
    · simp only [forall_mem_append, forall_mem_singleton]
      exact ⟨⟨⟨fun d hd => (structuralFaults_oneLine l source d hd).2, hunsupported⟩, herrors⟩, nofun⟩
    · simp only [forall_mem_append]
      exact ⟨⟨fun d hd => (structuralFaults_oneLine l source d hd).2, hunsupported⟩, herrors⟩
  constructor
  · refine allOneLine_stmtNodes.2 fun s hs => ?_
    obtain hs | hs := mem_append.1 ((Sorting.perm_sortBy _ _).mem_iff.1 hs)
    · obtain ⟨i, hi, rfl⟩ := mem_map.1 hs
      have htext : OneLine (Text.strip i.text) := oneLine_strip (oneLine_iff.2 (h.imports i hi))
      simpa [AllOneLine, Stmt.ofImport, Stmt.nodes, Node.texts] using htext
    · exact allOneLine_stmtNodes.1 hstatements s hs
  · intro e he
    obtain ⟨d, hd, rfl⟩ := mem_map.1 he
    obtain ⟨hd, hstructural⟩ := mem_filter.1 hd
    exact (oneLine_diagnostic hstructural (hremarks d hd)).2

end Source

end Blackboard
