import Blackboard.Source.Reader
import Blackboard.Proofs.Parsing.Sentence

/-!
What a text can be read as. The statements of a text are put together from a tree of its tokens; how
deep its templates are nested and which of several trees is taken do not decide whether it can be read.
-/
namespace Blackboard

open List
open Token (lex)

namespace Grammar

/-! ### Leaves -/

inductive Tree.EachLeaf (P : Token → Prop) : Tree → Prop where
  | leaf {t : Token} : P t → EachLeaf P (.leaf t)
  | node {label : Category} {children : List Tree} : (∀ t ∈ children, EachLeaf P t) →
    EachLeaf P (.node label children)

namespace Tree

variable {P Q : Token → Prop}

theorem EachLeaf.mono {t : Tree} (h : t.EachLeaf P) (hPQ : ∀ t, P t → Q t) : t.EachLeaf Q := by
  induction h with
  | leaf ht => exact .leaf (hPQ _ ht)
  | node _ ih => exact .node ih

theorem eachLeaf_shaped_iff {p parts} : (∀ t ∈ shaped p parts, t.EachLeaf P) ↔ ∀ t ∈ parts, t.EachLeaf P := by
  have hnode : (∀ t ∈ [node p.label parts], t.EachLeaf P) ↔ ∀ t ∈ parts, t.EachLeaf P := by
    rw [forall_mem_singleton]
    refine ⟨fun h => ?_, .node⟩
    cases h with
    | node h => exact h
  unfold shaped
  split
  · exact .rfl
  · exact .rfl
  · exact hnode

end Tree

namespace Derives

variable {ps : List Production} {symbols : List Symbol} {tokens : List Token} {trees : List Tree}

theorem eachLeaf (h : Derives ps symbols tokens trees) : ∀ t ∈ trees, t.EachLeaf (· ∈ tokens) := by
  induction h with
  | nil => simp
  | @terminal token kept symbols tokens trees _ ih =>
    rw [forall_mem_append]
    refine ⟨fun t ht => ?_, fun t ht => (ih t ht).mono fun _ => mem_cons_of_mem _⟩
    cases kept with
    | false => cases ht
    | true =>
      obtain rfl := mem_singleton.1 ht
      exact .leaf mem_cons_self
  | category _ _ _ ihparts ih =>
    rw [forall_mem_append, Tree.eachLeaf_shaped_iff]
    exact ⟨fun t ht => (ihparts t ht).mono fun _ => mem_append_left _,
      fun t ht => (ih t ht).mono fun _ => mem_append_right _⟩

theorem of_eachLeaf (hps : Settled ps) (h : Derives ps symbols tokens trees) {P}
    (hsymbols : .terminal .number false ∉ symbols) (hP : ∀ t ∈ trees, t.EachLeaf P) :
    ∀ t ∈ tokens, t.terminal = .number → P t := by
  induction h with
  | nil => simp
  | @terminal token kept symbols tokens trees _ ih =>
    rw [mem_cons, not_or] at hsymbols
    rw [forall_mem_append] at hP
    refine forall_mem_cons.2 ⟨fun hnumber => ?_, ih hsymbols.2 hP.2⟩
    cases kept with
    | false => exact absurd (by rw [hnumber]) hsymbols.1
    | true =>
      cases hP.1 (.leaf token) (mem_singleton.2 rfl) with
      | leaf h => exact h
  | category hp _ _ ihparts ih =>
    rw [mem_cons, not_or] at hsymbols
    rw [forall_mem_append, Tree.eachLeaf_shaped_iff] at hP
    exact forall_mem_append.2 ⟨ihparts (hps.kept hp) hP.1, ih hsymbols.2 hP.2⟩

end Derives

namespace Run

variable {ps : List Production} {tokens : List Token} {trees : List Tree}

theorem eachLeaf (h : Run ps tokens trees) : ∀ t ∈ trees, t.EachLeaf (· ∈ tokens) := by
  induction h with
  | nil => simp
  | cons hfirst _ ih =>
    exact forall_mem_append.2
      ⟨fun t ht => (hfirst.eachLeaf t ht).mono fun _ => mem_append_left _,
        fun t ht => (ih t ht).mono fun _ => mem_append_right _⟩

theorem of_eachLeaf (hps : Settled ps) (h : Run ps tokens trees) {P}
    (hP : ∀ t ∈ trees, t.EachLeaf P) : ∀ t ∈ tokens, t.terminal = .number → P t := by
  induction h with
  | nil => simp
  | cons hfirst _ ih =>
    obtain ⟨hP, hP'⟩ := forall_mem_append.1 hP
    exact forall_mem_append.2 ⟨hfirst.of_eachLeaf hps (by simp) hP, ih hP'⟩

end Run

end Grammar

def Token.IsReadable (t : Token) : Prop := t.terminal = .number → ∃ v, Numeral.read t.text = .ok v

namespace Source

open Grammar

/-! ### Templates -/

namespace TemplatePart

theorem length_takeHole_le (depth : Nat) (acc cs : List Char) :
    (takeHole depth acc cs).1.length ≤ acc.length + cs.length ∧ (takeHole depth acc cs).2.length ≤ cs.length := by
  fun_induction takeHole depth acc cs with
  | case1 => simp
  | case2 => simp
  | case3 _ acc c cs _ _ ih =>
    rw [length_cons] at ih ⊢
    omega

theorem cut_congr {read read'} (fuel : Nat) (acc cs : List Char)
    (h : ∀ hole : List Char, hole.length < cs.length → read hole = read' hole) :
    cut read fuel acc cs = cut read' fuel acc cs := by
  fun_induction cut read fuel acc cs with
  | case1 => rfl
  | case2 => rfl
  | case3 fuel acc c cs ih =>
    exact ih fun hole hhole => h hole (by simp only [length_cons]; omega)
  | case4 fuel acc cs source rest hhole ih =>
    have hlength := length_takeHole_le 1 [] cs
    rw [hhole, length_nil] at hlength
    rw [cut, hhole]
    dsimp only at hlength ⊢
    rw [h source (by simp only [length_cons]; omega),
      ih fun hole hle => h hole (by simp only [length_cons]; omega)]
  | case5 fuel acc c cs hescape hhole ih =>
    rw [cut]
    · exact ih fun hole hle => h hole (Nat.lt_succ_of_lt hle)
    · exact hescape
    · exact hhole

end TemplatePart

theorem length_unquoted_le (s : String) : (unquoted s).length ≤ s.toList.length := by
  simp only [unquoted, length_reverse, length_drop]
  omega

namespace Piece

variable {l : Language} {read read' : Span → List Char → Expr}

theorem ofToken_congr {t} (h : t.terminal = .template →
    ∀ hole : List Char, hole.length < t.text.toList.length → read t.span hole = read' t.span hole) :
    ofToken read t = ofToken read' t := by
  unfold ofToken
  split
  case h_7 hterminal =>
    dsimp only
    rw [TemplatePart.cut_congr _ _ _ fun hole hlt =>
      h hterminal hole (Nat.lt_of_lt_of_le hlt (length_unquoted_le t.text))]
  all_goals rfl

/-! ### Putting trees together -/

variable {ts : List Tree}

theorem ofTrees_congr (h : ∀ t ∈ ts, ofTree l read t = ofTree l read' t) :
    ofTrees l read ts = ofTrees l read' ts := by
  induction ts with
  | nil => rfl
  | cons t ts ih =>
    obtain ⟨ht, hts⟩ := forall_mem_cons.1 h
    rw [ofTrees, ofTrees, ht, ih hts]

variable {t : Tree}

theorem ofTree_congr (h : t.EachLeaf fun t => ofToken read t = ofToken read' t) :
    ofTree l read t = ofTree l read' t := by
  induction h with
  | leaf ht => rwa [ofTree]
  | node _ ih => rw [ofTree, ofTree, ofTrees_congr ih]

theorem ofTrees_cons_eq_ok {pieces} : ofTrees l read (t :: ts) = .ok pieces ↔
      ∃ p ps, ofTree l read t = .ok p ∧ ofTrees l read ts = .ok ps ∧ pieces = p :: ps := by
  rw [ofTrees]
  cases ofTree l read t with
  | error e => simp [bind, Except.bind]
  | ok p => cases ofTrees l read ts <;> simp [bind, Except.bind, eq_comm]

theorem ofTree_node_eq_ok {c p} : ofTree l read (.node c ts) = .ok p ↔
      ∃ ps, ofTrees l read ts = .ok ps ∧ p = ofNode l c ps := by
  rw [ofTree]
  cases ofTrees l read ts <;> simp [Except.map, eq_comm]

theorem exists_of_mem_ofTrees {ps p} (h : ofTrees l read ts = .ok ps) (hp : p ∈ ps) :
    ∃ t ∈ ts, ofTree l read t = .ok p := by
  induction ts generalizing ps with
  | nil =>
    cases h
    cases hp
  | cons t ts ih =>
    obtain ⟨q, qs, ht, hts, rfl⟩ := ofTrees_cons_eq_ok.1 h
    rcases mem_cons.1 hp with rfl | hp
    · exact ⟨t, mem_cons_self, ht⟩
    · obtain ⟨t', hmem, ht'⟩ := ih hts hp
      exact ⟨t', mem_cons_of_mem _ hmem, ht'⟩

theorem ofTrees_append {us ps qs} (h : ofTrees l read ts = .ok ps)
    (h' : ofTrees l read us = .ok qs) : ofTrees l read (ts ++ us) = .ok (ps ++ qs) := by
  induction ts generalizing ps with
  | nil =>
    cases h
    exact h'
  | cons t ts ih =>
    obtain ⟨p, ps, ht, hts, rfl⟩ := ofTrees_cons_eq_ok.1 h
    exact ofTrees_cons_eq_ok.2 ⟨p, ps ++ qs, ht, ih hts, rfl⟩

theorem exists_ofTrees (h : ∀ t ∈ ts, ∃ p, ofTree l read t = .ok p) : ∃ ps, ofTrees l read ts = .ok ps := by
  induction ts with
  | nil => exact ⟨[], rfl⟩
  | cons t ts ih =>
    obtain ⟨⟨p, hp⟩, hts⟩ := forall_mem_cons.1 h
    obtain ⟨ps, hps⟩ := ih hts
    exact ⟨p :: ps, ofTrees_cons_eq_ok.2 ⟨p, ps, hp, hps, rfl⟩⟩

theorem exists_ofTree (h : t.EachLeaf fun t => ∃ p, ofToken read t = .ok p) : ∃ p, ofTree l read t = .ok p := by
  induction h with
  | leaf ht => exact ht
  | node _ ih =>
    obtain ⟨ps, hps⟩ := exists_ofTrees ih
    exact ⟨_, by rw [ofTree, hps]; rfl⟩

mutual

theorem eachLeaf_of_ofTree : ∀ {t : Tree} {p : Piece}, ofTree l read t = .ok p →
    t.EachLeaf fun t => ∃ p, ofToken read t = .ok p
  | .leaf _, p, h => .leaf ⟨p, h⟩
  | .node c children, _, h => by
    obtain ⟨ps, hchildren, -⟩ := ofTree_node_eq_ok.1 h
    exact .node (eachLeaf_of_ofTrees hchildren)

theorem eachLeaf_of_ofTrees : ∀ {ts : List Tree} {ps : List Piece}, ofTrees l read ts = .ok ps →
    ∀ t ∈ ts, t.EachLeaf fun t => ∃ p, ofToken read t = .ok p
  | [], _, _ => by simp
  | t :: ts, _, h => by
    obtain ⟨p, ps, ht, hts, -⟩ := ofTrees_cons_eq_ok.1 h
    exact List.forall_mem_cons.2 ⟨eachLeaf_of_ofTree ht, eachLeaf_of_ofTrees hts⟩

end

end Piece

/-! ### The depth of templates -/

namespace Piece

variable {l : Language}

theorem length_template_le {c : Category} {k : Nat} {hole : List Char} {tree : Tree}
    (h : Grammar.parse l c (replicate k '\n' ++ hole) = .ok tree) :
    tree.EachLeaf fun t => t.terminal = .template → t.text.toList.length ≤ hole.length := by
  obtain ⟨hstray, trees, hderives, hhead⟩ := derives_of_parse h
  obtain ⟨rest, rfl⟩ := head?_eq_some_iff.1 hhead
  refine (hderives.eachLeaf tree mem_cons_self).mono fun t ht hterminal => ?_
  have hle := ((Token.lexes_of_lexAt hstray).isInfix_of_template t ht hterminal).length_le
  refine hle.trans ?_
  rw [dropWhile_append_of_pos (by simp)]
  exact (dropWhile_suffix _).length_le

theorem readHole_eq_of_lt {n m : Nat} (span : Span) {hole : List Char} (hn : hole.length < n)
    (hm : hole.length < m) : readHole l n span hole = readHole l m span hole := by
  induction n generalizing m span hole with
  | zero => omega
  | succ n ih =>
    obtain ⟨m, rfl⟩ : ∃ k, m = k + 1 := ⟨m - 1, by omega⟩
    rw [readHole, readHole]
    cases hparse : Grammar.parse l .expression (replicate (span.line - 1) '\n' ++ hole) with
    | error e => rfl
    | ok tree =>
      have htree : ofTree l (readHole l n) tree = ofTree l (readHole l m) tree := by
        refine ofTree_congr ((length_template_le hparse).mono fun t ht => ofToken_congr ?_)
        intro hterminal inner hinner
        have hle := ht hterminal
        exact ih t.span (by omega) (by omega)
      dsimp only
      rw [htree]

/-! ### What a text can be read as -/

theorem exists_ofToken_iff {read t} : (∃ p, ofToken read t = .ok p) ↔ t.IsReadable := by
  unfold ofToken Token.IsReadable
  split
  case h_1 hterminal => cases Numeral.read t.text <;> simp [hterminal, Except.map]
  all_goals simp_all

variable {tokens : List Token} {trees : List Tree}

theorem exists_ofTrees_iff (read : Span → List Char → Expr) (h : Run l.productions tokens trees) :
    (∃ ps, ofTrees l read trees = .ok ps) ↔ ∀ t ∈ tokens, t.IsReadable := by
  constructor
  · rintro ⟨ps, hps⟩ t ht hterminal
    exact exists_ofToken_iff.1 (h.of_eachLeaf (settled l) (eachLeaf_of_ofTrees hps) t ht hterminal) hterminal
  · intro hreadable
    refine exists_ofTrees fun t ht => exists_ofTree ((h.eachLeaf t ht).mono fun t ht => ?_)
    exact exists_ofToken_iff.2 (hreadable t ht)

theorem ofTrees_readHole_eq {n m : Nat} (h : Run l.productions tokens trees)
    (hn : ∀ t ∈ tokens, t.terminal = .template → t.text.toList.length ≤ n)
    (hm : ∀ t ∈ tokens, t.terminal = .template → t.text.toList.length ≤ m) :
    ofTrees l (readHole l n) trees = ofTrees l (readHole l m) trees := by
  refine ofTrees_congr fun tree htree => ofTree_congr ((h.eachLeaf tree htree).mono fun t ht => ?_)
  refine ofToken_congr fun hterminal hole hlt => ?_
  exact readHole_eq_of_lt t.span (Nat.lt_of_lt_of_le hlt (hn t ht hterminal))
    (Nat.lt_of_lt_of_le hlt (hm t ht hterminal))

theorem meaningful_append (ps qs : List Piece) : meaningful (ps ++ qs) = meaningful ps ++ meaningful qs := by
  rw [meaningful, filterMap_append, filter_append, meaningful, meaningful]

end Piece

namespace Stmt

variable {l : Language} {source : List Char} {ss : List Stmt}

/-- Whether a text consists of statements: it has no stray character, and its tokens are a run. -/
def IsRun (l : Language) (source : List Char) : Prop :=
  (lex l source).2 = none ∧ ∃ trees, Run l.productions (lex l source).1 trees

/-- What a row of tokens can be read as: the statements of a run that they make up, without the empty
ones. -/
def OfTokens (l : Language) (depth : Nat) (tokens : List Token) (ss : List Stmt) : Prop :=
  ∃ trees pieces, Run l.productions tokens trees ∧
    Piece.ofTrees l (Piece.readHole l depth) trees = .ok pieces ∧ Piece.meaningful pieces = ss

def Reads (l : Language) (source : List Char) (ss : List Stmt) : Prop :=
  (lex l source).2 = none ∧ OfTokens l source.length (lex l source).1 ss

namespace OfTokens

variable {depth : Nat} {tokens tokens' : List Token} {ss ss' : List Stmt}

theorem nil : OfTokens l depth [] [] := ⟨[], [], .nil, rfl, rfl⟩

theorem append (h : OfTokens l depth tokens ss) (h' : OfTokens l depth tokens' ss') :
    OfTokens l depth (tokens ++ tokens') (ss ++ ss') := by
  obtain ⟨trees, pieces, hrun, hpieces, rfl⟩ := h
  obtain ⟨trees', pieces', hrun', hpieces', rfl⟩ := h'
  exact ⟨trees ++ trees', pieces ++ pieces', hrun.append hrun', Piece.ofTrees_append hpieces hpieces',
    Piece.meaningful_append pieces pieces'⟩

theorem flatMap {α : Type} {f : α → List Token} {g : α → List Stmt} {as : List α}
    (h : ∀ a ∈ as, OfTokens l depth (f a) (g a)) : OfTokens l depth (as.flatMap f) (as.flatMap g) := by
  induction as with
  | nil => exact nil
  | cons a as ih =>
    obtain ⟨ha, has⟩ := forall_mem_cons.1 h
    exact ha.append (ih has)

end OfTokens

theorem reads_of_readAll (h : readAll l source = .ok ss) : Reads l source ss := by
  unfold readAll Piece.read at h
  cases hparse : Grammar.parse l .program source with
  | error e =>
    rw [hparse] at h
    cases h
  | ok tree =>
    obtain ⟨hstray, trees, hrun, rfl⟩ := run_of_parse hparse
    rw [hparse] at h
    dsimp only at h
    rw [Piece.ofTree] at h
    cases hpieces : Piece.ofTrees l (Piece.readHole l source.length) trees with
    | error e =>
      rw [hpieces] at h
      cases h
    | ok pieces =>
      rw [hpieces] at h
      cases h
      exact ⟨hstray, trees, pieces, hrun, hpieces, rfl⟩

theorem exists_readAll (h : IsRun l source) (hreadable : ∀ t ∈ (lex l source).1, t.IsReadable) :
    ∃ ss, readAll l source = .ok ss := by
  obtain ⟨hstray, trees, hrun⟩ := h
  obtain ⟨tree, hparse⟩ := parse_of_run hstray hrun
  obtain ⟨-, trees', hrun', rfl⟩ := run_of_parse hparse
  obtain ⟨pieces, hpieces⟩ :=
    (Piece.exists_ofTrees_iff (Piece.readHole l source.length) hrun').2 hreadable
  refine ⟨Piece.meaningful pieces, ?_⟩
  unfold readAll Piece.read
  rw [hparse]
  dsimp only
  rw [Piece.ofTree, hpieces]
  rfl

namespace Reads

theorem isRun (h : Reads l source ss) : IsRun l source := by
  obtain ⟨hstray, trees, -, hrun, -⟩ := h
  exact ⟨hstray, trees, hrun⟩

theorem length_template_le (h : Reads l source ss) : ∀ t ∈ (lex l source).1,
    t.terminal = .template → t.text.toList.length ≤ source.length := by
  intro t ht hterminal
  exact ((Token.lexes_of_lexAt h.1).isInfix_of_template t ht hterminal).length_le.trans (dropWhile_suffix _).length_le

theorem ofTokens (h : Reads l source ss) {depth} (hdepth : ∀ t ∈ (lex l source).1,
    t.terminal = .template → t.text.toList.length ≤ depth) :
    OfTokens l depth (lex l source).1 ss := by
  have hlength := h.length_template_le
  obtain ⟨-, trees, pieces, hrun, hpieces, rfl⟩ := h
  exact ⟨trees, pieces, hrun, Piece.ofTrees_readHole_eq hrun hdepth hlength ▸ hpieces, rfl⟩

theorem isReadable (h : Reads l source ss) : ∀ t ∈ (lex l source).1, t.IsReadable := by
  obtain ⟨-, trees, pieces, hrun, hpieces, -⟩ := h
  exact (Piece.exists_ofTrees_iff _ hrun).1 ⟨pieces, hpieces⟩

end Reads

end Stmt

end Source

end Blackboard
