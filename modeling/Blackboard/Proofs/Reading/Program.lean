import Blackboard.Proofs.Reading.Spelling
import Blackboard.Proofs.Recovery.Mask
import Blackboard.Proofs.Recovery.Reading

/-!
What the texts of a whole program are spelled with. The only tokens that reach over a line end are
templates, and a text that can be read leaves nothing unread.
-/
namespace Blackboard

open List (mem_reverse mem_cons forall_mem_cons)

namespace Token

open Lexeme Source

theorem no_line_end {l cs run rest t}
    (h : next? l cs = some (.token t, run, rest)) (ht : t ≠ .template) : '\n' ∉ run := by
  obtain ⟨before, f, after, hforms, -, hf, hkind⟩ := exists_form h
  intro hline
  cases forms_known l f (by simp [hforms]) with
  | plain hscans _ => exact absurd (hscans.all hf _ hline) (by decide)
  | @quoted q t' hq _ =>
    have hne : q ≠ '\n' := by rcases hq with rfl | rfl <;> decide
    rw [quoted?_eq] at hf
    obtain ⟨c, cs', run', hc, -, rfl, hrun⟩ := first_eq_some_iff.1 hf
    obtain ⟨inner, rfl, -, hinner⟩ := Scan.Region.quotedBody_eq hne hrun
    obtain rfl := eq_of_beq hc
    simp [hinner rfl, hne.symm] at hline
  | template _ => exact ht (Kind.token.inj hkind)
  | blockComment => cases hkind
  | space => cases hkind
  | lineComment => cases hkind
  | @mark t' ht' =>
    have hmarks : ∀ t ∈ l.marks, '\n' ∉ t.spelling.toList := by cases l <;> decide
    exact hmarks t' ht' ((word?_scans _).all hf _ hline)

theorem Lexes.no_line_end {l p cs tokens}
    (h : Lexes l p cs tokens) : ∀ t ∈ tokens, t.terminal ≠ .template → '\n' ∉ t.text.toList := by
  induction h with
  | nil => simp
  | @cons p cs run rest kind tokens hnext _ ih =>
    refine List.forall_mem_append.2 ⟨fun t ht hterminal => ?_, ih⟩
    cases kind with
    | skipped => cases ht
    | token terminal =>
      obtain rfl := List.mem_singleton.1 ht
      rw [String.toList_ofList]
      exact Token.no_line_end hnext hterminal

end Token

namespace Source

open Grammar

variable {C : Char → Prop} {l : Language}
variable {cs : List Char} {c : Char}

theorem mem_of_mem_trim (h : c ∈ Text.trim cs) : c ∈ cs := by
  have hend := (List.dropWhile_suffix _).subset (mem_reverse.1 h)
  exact (List.dropWhile_suffix _).subset (mem_reverse.1 hend)

theorem mem_of_mem_unquoted {s} (h : c ∈ unquoted s) : c ∈ s.toList :=
  List.mem_of_mem_drop (mem_reverse.1 (List.mem_of_mem_drop (mem_reverse.1 h)))

theorem mem_of_mem_requote (h : c ∈ requote cs) : c ∈ cs ∨ c = '\\' := by
  fun_induction requote cs with
  | case1 cs ih =>
    rcases mem_cons.1 h with rfl | h
    · simp
    · rcases ih h with h | h <;> simp [h]
  | case2 cs ih =>
    rcases mem_cons.1 h with rfl | h
    · simp
    · rcases mem_cons.1 h with rfl | h
      · simp
      · rcases ih h with h | h <;> simp [h]
  | case3 c' cs _ _ ih =>
    rcases mem_cons.1 h with rfl | h
    · simp
    · rcases ih h with h | h <;> simp [h]
  | case4 => cases h

namespace TemplatePart

theorem of_takeHole {depth acc cs} (hacc : ∀ c ∈ acc, C c) (hcs : ∀ c ∈ cs, C c) :
    (∀ c ∈ (takeHole depth acc cs).1, C c) ∧ ∀ c ∈ (takeHole depth acc cs).2, C c := by
  induction cs generalizing depth acc with
  | nil =>
    rw [takeHole]
    exact ⟨fun c hc => hacc c (List.mem_of_mem_drop (mem_reverse.1 hc)), by simp⟩
  | cons c cs ih =>
    rw [forall_mem_cons] at hcs
    rw [takeHole]
    generalize (if c == '\x7b' then depth + 1 else if c == '\x7d' then depth - 1 else depth) = inner
    by_cases hinner : inner = 0
    · rw [if_pos hinner]
      exact ⟨fun c hc => hacc c (mem_reverse.1 hc), hcs.2⟩
    · rw [if_neg hinner]
      exact ih (forall_mem_cons.2 ⟨hcs.1, hacc⟩) hcs.2

def AllParts (C : Char → Prop) (parts : List TemplatePart) : Prop :=
  (∀ s, .text s ∈ parts → Spelled C s) ∧ AllSpelled C (partNodes parts)

theorem allParts_flush {acc rest} (hacc : ∀ c ∈ acc, C c) (h : AllParts C rest) : AllParts C (flush acc rest) := by
  unfold flush
  split
  · exact h
  · refine ⟨fun s hs => ?_, h.2⟩
    rcases mem_cons.1 hs with heq | hs
    · cases heq
      intro c hc
      rw [String.toList_ofList, mem_reverse] at hc
      exact hacc c hc
    · exact h.1 s hs

theorem allParts_cut {read} (hread : ∀ cs, (∀ c ∈ cs, C c) → AllSpelled C (read cs).nodes) (fuel : Nat) {acc cs}
    (hacc : ∀ c ∈ acc, C c) (hcs : ∀ c ∈ cs, C c) : AllParts C (cut read fuel acc cs) := by
  have hnil : AllParts C [] := ⟨nofun, by simp [partNodes]⟩
  fun_induction cut read fuel acc cs with
  | case1 acc _ => exact allParts_flush hacc hnil
  | case2 acc _ => exact allParts_flush hacc hnil
  | case3 acc fuel c cs ih =>
    simp only [forall_mem_cons] at hcs
    exact ih (by simpa using ⟨hcs.2.1, hcs.1, hacc⟩) hcs.2.2
  | case4 acc fuel cs source rest hhole ih =>
    simp only [forall_mem_cons] at hcs
    have htake : (∀ c ∈ (takeHole 1 [] cs).1, C c) ∧ ∀ c ∈ (takeHole 1 [] cs).2, C c :=
      of_takeHole (by simp) hcs.2.2
    rw [hhole] at htake
    have hrest := ih (by simp) htake.2
    refine allParts_flush hacc ⟨fun s hs => hrest.1 s (by simpa using hs), ?_⟩
    rw [partNodes, allSpelled_append]
    exact ⟨hread source htake.1, hrest.2⟩
  | case5 acc fuel c cs _ _ ih =>
    rw [forall_mem_cons] at hcs
    exact ih (forall_mem_cons.2 ⟨hcs.1, hacc⟩) hcs.2

end TemplatePart

namespace Piece

variable {read : Span → List Char → Expr} {p : Piece} {c : Category} {text : List Char}
    {tree : Tree}

theorem ofToken_spelled (hC : ∀ c, c ≠ '\n' → C c)
    (hread : ∀ span cs, (∀ c ∈ cs, C c) → AllSpelled C (read span cs).nodes) {t}
    (ht : Source.Spelled C t.text) (h : ofToken read t = .ok p) : p.Spelled C := by
  have hinner : ∀ c ∈ unquoted t.text, C c := fun c hc => ht c (mem_of_mem_unquoted hc)
  have hleaf : ∀ {e : Expr}, e.nodes = [.expr e] → (∀ s ∈ (Node.expr e).texts, Source.Spelled C s) →
      (expr e).Spelled C := by
    intro e hnodes htexts
    rw [Piece.Spelled, hnodes, allSpelled_cons]
    exact ⟨⟨rfl, htexts⟩, allSpelled_nil⟩
  unfold ofToken at h
  split at h
  · cases hn : Numeral.read t.text <;> rw [hn] at h <;> cases h
    exact hleaf rfl (List.forall_mem_singleton.2 ht)
  · cases h
    refine hleaf rfl (List.forall_mem_singleton.2 fun c hc => ?_)
    rw [String.toList_ofList] at hc
    split at hc
    · rcases mem_of_mem_requote hc with hc | rfl
      · exact hinner c hc
      · exact hC _ (by decide)
    · exact hinner c hc
  · cases h
    exact hleaf rfl (List.forall_mem_singleton.2 fun c hc => hinner c (by simpa using hc))
  · cases h
    exact hleaf rfl nofun
  · cases h
    exact hleaf rfl nofun
  · cases h
    exact hleaf rfl nofun
  · cases h
    have hnil : ∀ c ∈ ([] : List Char), C c := nofun
    have hparts := TemplatePart.allParts_cut (hread t.span) (unquoted t.text).length hnil hinner
    rw [Piece.Spelled, Expr.nodes, allSpelled_cons]
    refine ⟨⟨rfl, fun s hs => hparts.1 s ?_⟩, hparts.2⟩
    obtain ⟨part, hpart, hs⟩ := List.mem_filterMap.1 hs
    cases part with
    | text s' =>
      cases hs
      exact hpart
    | hole e => cases hs
  · cases h
    exact ht

theorem ofToken_starts {S : Position → Prop} {t} (ht : S t.span.start) (h : ofToken read t = .ok p) : p.Starts S := by
  unfold ofToken at h
  split at h
  · cases hn : Numeral.read t.text <;> rw [hn] at h <;> cases h
    exact ht
  all_goals
    cases h
    exact ht

theorem ofTree_writes {S : Position → Prop} (hC : ∀ c, c ≠ '\n' → C c) (hS : S .start)
    (hread : ∀ span cs, (∀ c ∈ cs, C c) → AllSpelled C (read span cs).nodes) {t}
    (ht : t.EachLeaf fun t => Source.Spelled C t.text ∧ S t.span.start) (h : ofTree l read t = .ok p) :
    p.Spelled C ∧ p.Starts S := by
  induction ht generalizing p with
  | leaf ht =>
    rw [ofTree] at h
    exact ⟨ofToken_spelled hC hread ht.1 h, ofToken_starts ht.2 h⟩
  | @node label children _ ih =>
    obtain ⟨ps, hps, rfl⟩ := ofTree_node_eq_ok.1 h
    have hparts : ∀ i ∈ ps, i.Spelled C ∧ i.Starts S := by
      intro i hi
      obtain ⟨t, hmem, ht⟩ := exists_of_mem_ofTrees hps hi
      exact ih t hmem ht
    exact ofNode_writes hC (fun i hi => (hparts i hi).1) ⟨hS, fun i hi => (hparts i hi).2⟩

theorem ofTree_spelled (hC : ∀ c, c ≠ '\n' → C c)
    (hread : ∀ span cs, (∀ c ∈ cs, C c) → AllSpelled C (read span cs).nodes) {t}
    (ht : t.EachLeaf fun t => Source.Spelled C t.text) (h : ofTree l read t = .ok p) : p.Spelled C :=
  (ofTree_writes (S := fun _ => True) hC trivial hread (ht.mono fun _ ht => ⟨ht, trivial⟩) h).1

theorem spelled_of_parse (hC : ∀ c, c ≠ '\n' → C c) (h : Grammar.parse l c text = .ok tree)
    (htemplates : ∀ t ∈ (Token.lex l text).1, t.terminal = .template → Source.Spelled C t.text) :
    tree.EachLeaf fun t => Source.Spelled C t.text := by
  obtain ⟨hstray, trees, hderives, hhead⟩ := derives_of_parse h
  refine (hderives.eachLeaf tree (List.mem_of_head? hhead)).mono fun t ht => ?_
  by_cases hterminal : t.terminal = .template
  · exact htemplates t ht hterminal
  · exact (spelled_composes hC).of_line ((Token.lexes_of_lexAt hstray).no_line_end t ht hterminal)

theorem readHole_spelled (hC : ∀ c, c ≠ '\n' → C c) (depth : Nat) (span : Span) {cs}
    (hcs : ∀ c ∈ cs, C c) : AllSpelled C (readHole l depth span cs).nodes := by
  have hkept {span : Span} {cs : List Char} (hcs : ∀ c ∈ cs, C c) :
      AllSpelled C (Expr.identifier span (String.ofList (Text.trim cs))).nodes := by
    rw [Expr.nodes, allSpelled_cons]
    refine ⟨⟨rfl, List.forall_mem_singleton.2 fun c hc => hcs c (mem_of_mem_trim ?_)⟩, allSpelled_nil⟩
    rwa [String.toList_ofList] at hc
  induction depth generalizing span cs with
  | zero => exact hkept hcs
  | succ depth ih =>
    rw [readHole]
    split
    · exact hkept hcs
    · next tree hparse =>
      have hleaves := spelled_of_parse hC hparse fun t ht hterminal c hc => by
        obtain ⟨hstray, -⟩ := derives_of_parse hparse
        have hmem := ((Token.lexes_of_lexAt hstray).isInfix_of_template t ht hterminal).subset hc
        rw [List.dropWhile_append_of_pos (by simp)] at hmem
        exact hcs c ((List.dropWhile_suffix _).subset hmem)
      split
      · next e he => exact ofTree_spelled hC (fun span cs hcs => ih span hcs) hleaves he
      · exact hkept hcs

end Piece

theorem Stmt.readAll_spelled (hC : ∀ c, c ≠ '\n' → C c) {source ss} (h : Stmt.readAll l source = .ok ss)
    (htemplates : ∀ t ∈ (Token.lex l source).1, t.terminal = .template → Spelled C t.text) :
    AllSpelled C (stmtNodes ss) := by
  unfold Stmt.readAll Piece.read at h
  cases hparse : Grammar.parse l .program source with
  | error e =>
    rw [hparse] at h
    cases h
  | ok tree =>
    rw [hparse] at h
    have hleaves := Piece.spelled_of_parse hC hparse htemplates
    cases hpiece : Piece.ofTree l (Piece.readHole l source.length) tree with
    | error e =>
      dsimp only at h
      rw [hpiece] at h
      cases h
    | ok p =>
      dsimp only at h
      rw [hpiece] at h
      have hspelled := Piece.ofTree_spelled hC
        (fun span cs => Piece.readHole_spelled hC source.length span) hleaves hpiece
      cases p with
      | statements ss' =>
        cases h
        exact hspelled
      | _ =>
        cases h
        exact allSpelled_nil

end Source

end Blackboard
