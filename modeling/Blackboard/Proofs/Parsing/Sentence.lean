import Mathlib.Data.List.Chain
import Blackboard.Proofs.Parsing.Completeness
import Blackboard.Proofs.Parsing.Lexing

/-!
The sentences of the two languages. A text is parsed as a program exactly if nothing in it is stray
and its tokens are those of top-level statements, one after the other. In such a text no slash stands
right before a star, which would open a comment.
-/
namespace Blackboard

open List
open Bool (and_eq_true or_eq_true)
open Token (Apart lex)

namespace Grammar

/-! ### What is predicted -/

theorem mem_grouped {qs : List Production} {m : Std.TreeMap Nat (List Production)} {p : Production}
    (h : p ∈ qs ∨ p ∈ (m[p.origin]?).getD []) :
    p ∈ ((qs.foldl (fun m p => m.insert p.origin ((m[p.origin]?).getD [] ++ [p])) m)[p.origin]?).getD [] := by
  induction qs generalizing m with
  | nil => exact h.resolve_left not_mem_nil
  | cons q qs ih =>
    refine ih ?_
    rw [mem_cons, or_assoc] at h
    rcases h with rfl | h | h
    · exact .inr (by simp)
    · exact .inl h
    · right
      rw [Std.TreeMap.getElem?_insert]
      split
      · next heq => simp [Std.LawfulEqCmp.compare_eq_iff_eq.1 heq, h]
      · exact h

theorem getElem?_foldl_insert {β : Type} (f : Nat → β) {entries : List (Nat × List Production)}
    {m : Std.TreeMap Nat β} {c : Nat} (h : c ∈ entries.map (·.1) ∨ m[c]? = some (f c)) :
    (entries.foldl (fun m e => m.insert e.1 (f e.1)) m)[c]? = some (f c) := by
  induction entries generalizing m with
  | nil => exact h.resolve_left not_mem_nil
  | cons e entries ih =>
    refine ih ?_
    rw [map_cons, mem_cons, or_assoc] at h
    rcases h with rfl | h | h
    · exact .inr (by simp)
    · exact .inl h
    · right
      rw [Std.TreeMap.getElem?_insert]
      split
      · next heq => rw [Std.LawfulEqCmp.compare_eq_iff_eq.1 heq]
      · exact h

theorem mem_predict_of_mem {rules : List Rule} {p : Production} (h : p ∈ (productionsOf rules).1) :
    p ∈ (ofRules rules).predict p.origin := by
  simp only [ofRules, predict, Std.TreeMap.foldl_eq_foldl_toList]
  have hgroup := mem_grouped (m := ∅) (.inl h)
  generalize (productionsOf rules).1.foldl _ (∅ : Std.TreeMap Nat (List Production)) = byOrigin
    at hgroup ⊢
  have hkey : p.origin ∈ byOrigin.toList.map (·.1) := by
    rw [Std.TreeMap.map_fst_toList_eq_keys, Std.TreeMap.mem_keys, Std.TreeMap.mem_iff_isSome_getElem?]
    cases hget : byOrigin[p.origin]? with
    | none => simp [hget] at hgroup
    | some qs => rfl
  rw [getElem?_foldl_insert (fun c => Production.reachable _ (byOrigin.size + 1) [c] [c]) (.inl hkey)]
  exact mem_append_left _ hgroup

variable {ps : List Production} {text : List Char} {tree : Tree}

theorem mem_predict (l : Language) : ∀ p ∈ l.productions, p ∈ l.grammar.predict p.origin := by
  rw [grammar_eq]
  exact fun p => mem_predict_of_mem

theorem Settled.tiered (h : Settled ps) (n : Nat) : Tiered ps (categoryCount + n) (height (unitSteps ps) 20) where
  rank_lt c := calc height (unitSteps ps) 20 c ≤ 20 := height_le ..
    _ < categoryCount := by decide
    _ ≤ categoryCount + n := Nat.le_add_right ..
  last_solid hp before last hsymbols := by
    simpa [Symbol.endSolid, hsymbols] using h.endSolid hp
  descends {p} hp before c hsymbols hbefore := by
    refine h.descends (p.origin, c) (mem_filterMap.2 ⟨p, hp, ?_⟩)
    have hnone : before.reverse.any Symbol.isSolid = false := by
      simpa using hbefore
    simp [hsymbols, hnone]

/-! ### Slashes and stars -/

namespace Derives

variable {ps : List Production} {symbols : List Symbol} {tokens : List Token} {trees : List Tree}

theorem ne_nil (hps : Settled ps) (h : Derives ps symbols tokens trees)
    (hsolid : symbols.any Symbol.isSolid = true) : tokens ≠ [] := by
  induction h with
  | nil => cases hsolid
  | terminal => exact cons_ne_nil _ _
  | @category p symbols tokens tokens' parts trees hp _ _ ihparts ih =>
    rw [any_cons, or_eq_true] at hsolid
    rcases hsolid with hsolid | hsolid
    · have horderly := hps.orderly hp
      have hfull : mayBeEmpty p.origin = false := by simpa [Symbol.isSolid] using hsolid
      simp only [mayBeEmpty, Bool.or_eq_false_iff] at hfull
      rw [Production.isOrderly, hfull.1, hfull.2] at horderly
      exact append_ne_nil_of_left_ne_nil (ihparts horderly) _
    · exact append_ne_nil_of_right_ne_nil _ (ih hsolid)

/-- The first token is read as symbols that can begin with it, if `starts` says so of all categories that
can begin with it. -/
theorem opensWith_of_head? (hps : Settled ps) {starts}
    (hstarts : ∀ {p}, p ∈ ps → Symbol.opensWith starts p.symbols = true → starts (.category p.origin) = true)
    (h : Derives ps symbols tokens trees) {t} (ht : tokens.head? = some t)
    (hfirst : ∀ kept, starts (.terminal t.terminal kept) = true) :
    Symbol.opensWith starts symbols = true := by
  induction h with
  | nil => cases ht
  | terminal =>
    cases ht
    simp [Symbol.opensWith, hfirst]
  | @category p symbols tokens tokens' parts trees hp hparts _ ihparts ih =>
    rw [Symbol.opensWith, or_eq_true, and_eq_true]
    cases tokens with
    | cons t' tokens => exact .inl (hstarts hp (ihparts ht))
    | nil =>
      refine .inr ⟨?_, ih ht⟩
      by_contra hsolid
      refine (Derives.of_production hp hparts).ne_nil hps ?_ rfl
      simpa using hsolid

theorem opensWith_star_of_head? (hps : Settled ps) (h : Derives ps symbols tokens trees) {t}
    (ht : tokens.head? = some t) (hstar : t.terminal.isStar = true) :
    Symbol.opensWith Symbol.startsWithStar symbols = true := by
  refine h.opensWith_of_head? hps (fun hp hopens => ?_) ht fun _ => hstar
  have hapart := hps.apart hp
  simp only [Production.isApart, hopens, Bool.not_true, Bool.false_or, and_eq_true] at hapart
  exact hapart.2

theorem endsInSlash_of_getLast? (hps : Settled ps) (h : Derives ps symbols tokens trees)
    (hend : Symbol.endSolid symbols = true) {t} (ht : tokens.getLast? = some t)
    (hslash : t.terminal = .slash) : symbols.getLast?.any Symbol.endsInSlash = true := by
  induction h with
  | nil => cases ht
  | @terminal token kept symbols tokens trees hrest ih =>
    cases symbols with
    | nil =>
      cases hrest
      rw [getLast?_singleton, Option.some.injEq] at ht
      simp [Symbol.endsInSlash, ht, hslash]
    | cons s ss =>
      have hne := hrest.ne_nil hps (Symbol.any_isSolid_of_endSolid hend)
      exact ih hend (getLast?_append_of_ne_nil [token] hne ▸ ht)
  | @category p symbols tokens tokens' parts trees hp hparts hrest ihparts ih =>
    cases symbols with
    | nil =>
      cases hrest
      rw [append_nil] at ht
      have hends := ihparts (hps.endSolid hp) ht
      have hapart := hps.apart hp
      simp only [Production.isApart, hends, Bool.not_true, Bool.false_or, and_eq_true] at hapart
      exact hapart.1.2
    | cons s ss =>
      have hne := hrest.ne_nil hps (Symbol.any_isSolid_of_endSolid hend)
      exact ih hend (getLast?_append_of_ne_nil tokens hne ▸ ht)

theorem isChain (hps : Settled ps) (h : Derives ps symbols tokens trees)
    (hapart : Symbol.apart symbols = true) : tokens.IsChain Apart := by
  induction h with
  | nil => exact .nil
  | @terminal token kept symbols tokens trees hrest ih =>
    simp only [Symbol.apart, and_eq_true, Bool.not_eq_true', Bool.and_eq_false_iff] at hapart
    refine isChain_cons.2 ⟨fun t ht => ?_, ih hapart.2⟩
    rintro ⟨hslash, hstar⟩
    have hopens := hrest.opensWith_star_of_head? hps ht hstar
    simp [Symbol.endsInSlash, hslash, hopens] at hapart
  | @category p symbols tokens tokens' parts trees hp hparts hrest ihparts ih =>
    simp only [Symbol.apart, and_eq_true, Bool.not_eq_true', Bool.and_eq_false_iff] at hapart
    have hproduction := hps.apart hp
    simp only [Production.isApart, and_eq_true] at hproduction
    refine isChain_append.2 ⟨ihparts hproduction.1.1, ih hapart.2, fun t ht t' ht' => ?_⟩
    rintro ⟨hslash, hstar⟩
    have hopens := hrest.opensWith_star_of_head? hps ht' hstar
    have hends := hparts.endsInSlash_of_getLast? hps (hps.endSolid hp) ht hslash
    simp [hends, hopens] at hproduction hapart
    simp [hproduction] at hapart

end Derives

/-! ### Runs of statements -/

/-- Some tokens are read as top-level statements, one after the other, and shown as some trees. -/
inductive Run (ps : List Production) : List Token → List Tree → Prop where
  | nil : Run ps [] []
  | cons {tokens tokens' : List Token} {trees trees' : List Tree} :
    Derives ps [.category Category.topLevel.ctorIdx] tokens trees → Run ps tokens' trees' →
    Run ps (tokens ++ tokens') (trees ++ trees')

namespace Run

variable {ps : List Production} {tokens tokens' : List Token} {trees trees' : List Tree}
variable {symbols : List Symbol}

theorem single (h : Derives ps [.category Category.topLevel.ctorIdx] tokens trees) : Run ps tokens trees := by
  simpa using Run.cons h .nil

theorem append (h : Run ps tokens trees) (h' : Run ps tokens' trees') :
    Run ps (tokens ++ tokens') (trees ++ trees') := by
  induction h with
  | nil => exact h'
  | cons hfirst _ ih =>
    rw [append_assoc, append_assoc]
    exact .cons hfirst ih

/-- What is read as a repetition of statements, and what it goes on with, are statements one after the
other. -/
theorem of_symbols (hps : Settled ps) (h : Derives ps symbols tokens trees)
    (hsymbols : symbols = [.category statementRun] ∨
      symbols = [.category statementRun, .category Category.topLevel.ctorIdx]) :
    Run ps tokens trees := by
  induction h with
  | nil => simp at hsymbols
  | terminal => simp at hsymbols
  | @category p symbols tokens tokens' parts trees hp hparts hrest ihparts _ =>
    simp only [cons.injEq, Symbol.category.injEq, ← and_or_left] at hsymbols
    obtain ⟨horigin, hsymbols⟩ := hsymbols
    have hrun := hps.run hp
    simp only [Production.isRun, and_eq_true, horigin, bne_self_eq_false, Bool.false_or,
      or_eq_true, beq_iff_eq] at hrun
    obtain ⟨-, hshape, hkind⟩ := hrun
    have hfirst : Run ps tokens parts := by
      rcases hkind with hkind | hkind
      · exact single (hkind ▸ hparts)
      · exact ihparts (.inr hkind)
    have hshaped : Tree.shaped p parts = parts := by simp [Tree.shaped, hshape]
    rw [hshaped]
    refine hfirst.append ?_
    rcases hsymbols with rfl | rfl
    · cases hrest
      exact .nil
    · exact single hrest

theorem derives_of_hasProduction (hps : Settled ps)
    (hhas : hasProduction ps statementRun symbols = true) (h : Derives ps symbols tokens trees) :
    Derives ps [.category statementRun] tokens trees := by
  simp only [hasProduction, any_eq_true, and_eq_true, beq_iff_eq] at hhas
  obtain ⟨p, hp, horigin, rfl⟩ := hhas
  have hrun := hps.run hp
  simp only [Production.isRun, and_eq_true, horigin, bne_self_eq_false, Bool.false_or, beq_iff_eq] at hrun
  have hshaped : Tree.shaped p trees = trees := by simp [Tree.shaped, hrun.2.1]
  have hread := Derives.of_production hp h
  rwa [horigin, hshaped] at hread

theorem derives_append (hps : Settled ps) (h : Derives ps [.category statementRun] tokens trees)
    (h' : Run ps tokens' trees') :
    Derives ps [.category statementRun] (tokens ++ tokens') (trees ++ trees') := by
  induction h' generalizing tokens trees with
  | nil => simpa using h
  | cons hfirst _ ih =>
    rw [← append_assoc, ← append_assoc]
    exact ih (derives_of_hasProduction hps hps.run_more (h.append hfirst))

theorem derives_program_of_hasProduction (hps : Settled ps)
    (hhas : hasProduction ps Category.program.ctorIdx symbols = true)
    (h : Derives ps symbols tokens trees) :
    Derives ps [.category Category.program.ctorIdx] tokens [.node .program trees] := by
  simp only [hasProduction, any_eq_true, and_eq_true, beq_iff_eq] at hhas
  obtain ⟨p, hp, horigin, rfl⟩ := hhas
  have hread := Derives.of_production hp h
  rwa [horigin, Tree.shaped_of_program (hps.orderly hp) horigin] at hread

theorem derives_program_iff (hps : Settled ps) : Derives ps [.category Category.program.ctorIdx] tokens trees' ↔
      ∃ trees, Run ps tokens trees ∧ trees' = [.node .program trees] := by
  constructor
  · intro h
    obtain ⟨p, hp, horigin, parts, hparts, rfl⟩ := h.exists_production
    refine ⟨parts, ?_, Tree.shaped_of_program (hps.orderly hp) horigin parts⟩
    have hrun := hps.run hp
    simp only [Production.isRun, and_eq_true, horigin, bne_self_eq_false, Bool.false_or,
      or_eq_true, beq_iff_eq] at hrun
    rcases hrun.1 with hnil | hrun
    · rw [hnil] at hparts
      cases hparts
      exact .nil
    · exact of_symbols hps hparts (.inl hrun)
  · rintro ⟨trees, h, rfl⟩
    cases h with
    | nil => exact derives_program_of_hasProduction hps hps.program_empty .nil
    | cons hfirst hrest =>
      have hsingle := derives_of_hasProduction hps hps.run_single hfirst
      exact derives_program_of_hasProduction hps hps.program_run (derives_append hps hsingle hrest)

theorem isChain (hps : Settled ps) (h : Run ps tokens trees) : tokens.IsChain Apart :=
  Derives.isChain hps ((derives_program_iff hps).2 ⟨trees, h, rfl⟩) (by decide)

theorem head?_ne_else (hps : Settled ps) (h : Run ps tokens trees) {t}
    (ht : tokens.head? = some t) : t.terminal ≠ .kElse := by
  intro helse
  have hopens : Symbol.opensWith Symbol.isElse [.category Category.program.ctorIdx] = true := by
    refine Derives.opensWith_of_head? hps (fun hp hopens => ?_)
      ((derives_program_iff hps).2 ⟨trees, h, rfl⟩) ht fun _ => beq_iff_eq.2 helse
    rw [hps.elseInside hp] at hopens
    cases hopens
  exact absurd hopens (by decide)

theorem eq_nil (hps : Settled ps) (h : Run ps [] trees) : trees = [] := by
  generalize htokens : ([] : List Token) = tokens at h
  cases h with
  | nil => rfl
  | cons hfirst _ =>
    exact absurd (append_eq_nil_iff.1 htokens.symm).1 (hfirst.ne_nil hps (by decide))

end Run

/-! ### Parsing -/

variable {l : Language}

theorem derives_of_parse {c} (h : parse l c text = .ok tree) : (lex l text).2 = none ∧
      ∃ trees, Derives l.productions [.category c.ctorIdx] (lex l text).1 trees ∧ trees.head? = some tree := by
  unfold parse Tree.parse at h
  generalize lex l text = lexed at h ⊢
  obtain ⟨tokens, stray⟩ := lexed
  dsimp only at h ⊢
  split at h
  · split at h <;> cases h
  · next f hf =>
    have hgrounded := Chart.ofTerminals_grounded (orderly l) hf
    split at h
    · cases h
    · split at h
      · next tree' htree =>
        cases h
        exact ⟨rfl, Tree.ofForest?_derives (orderly l) ((settled l).tiered _) hgrounded (by simp) htree⟩
      · cases h

theorem run_of_parse (h : parse l .program text = .ok tree) : (lex l text).2 = none ∧
      ∃ trees, Run l.productions (lex l text).1 trees ∧ tree = .node .program trees := by
  obtain ⟨hstray, trees', hderives, hhead⟩ := derives_of_parse h
  obtain ⟨trees, hrun, rfl⟩ := (Run.derives_program_iff (settled l)).1 hderives
  rw [head?_cons, Option.some.injEq] at hhead
  exact ⟨hstray, trees, hrun, hhead.symm⟩

theorem parse_of_run (hlex : (lex l text).2 = none) {trees} (h : Run l.productions (lex l text).1 trees) :
    ∃ tree, parse l .program text = .ok tree := by
  unfold parse Tree.parse
  generalize lex l text = lexed at h hlex ⊢
  obtain ⟨tokens, stray⟩ := lexed
  dsimp only at h hlex ⊢
  obtain ⟨f, hf, hget⟩ := Chart.ofTerminals_complete (orderly l) (mem_predict l)
    ((Run.derives_program_iff (settled l)).2 ⟨trees, h, rfl⟩)
  have hsize : tokens.toArray.size = (tokens.map (·.terminal)).length := by simp
  obtain ⟨tree, htree⟩ := Tree.exists_ofForest? (orderly l) ((settled l).tiered _)
    (Chart.ofTerminals_grounded (orderly l) hf) hsize (by simpa using hget)
  rw [hf, hlex]
  dsimp only
  rw [htree]
  exact ⟨tree, rfl⟩

end Grammar

end Blackboard
