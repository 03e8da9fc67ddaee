import Blackboard.Proofs.WellFormed.Expression

/-!
Well-formed statements. What stands inside a statement is arranged as its kind demands: statements that
can stand anywhere stand everywhere, and clauses and branches only where they belong.
-/
namespace Blackboard

open Source.Expr (nodes)
open Conversion
open Source (Span weight exprNodes exprNode labelNodes)
open Pseudo (isOrdinary Arranged)
open List

/-! ### Ordinary statements -/

namespace Pseudo.Stmt

variable {form : Form} {children body : List Stmt} {notes : List String} {line : Option Nat}
    {c : Expr}

/-- A well-formed statement that can stand anywhere. -/
structure Ordinary (s : Stmt) : Prop where
  isOrdinary : isOrdinary s.form.kind = true
  wellFormed : s.WellFormed

theorem WellFormed.of_ordinary (hif : form.kind ≠ "if_statement")
    (hcase : form.kind ≠ "case_statement") (he : ∀ e ∈ form.expressions, e.WellFormed)
    (hc : ∀ s ∈ children, s.Ordinary) : (Stmt.mk form children notes line).WellFormed := by
  refine .mk he (.ordinary hif hcase ?_) fun s hs => (hc s hs).wellFormed
  intro k hk
  obtain ⟨s, hs, rfl⟩ := mem_map.1 hk
  exact (hc s hs).isOrdinary

def takesOrdinary (form : Form) : Bool :=
  isOrdinary form.kind && form.kind != "if_statement" && form.kind != "case_statement"

theorem ordinary_mk (hf : takesOrdinary form = true) (he : ∀ e ∈ form.expressions, e.WellFormed)
    (hc : ∀ s ∈ children, s.Ordinary) : (mk form children notes line).Ordinary := by
  simp only [takesOrdinary, Bool.and_eq_true, bne_iff_ne] at hf
  obtain ⟨⟨hordinary, hif⟩, hcase⟩ := hf
  exact ⟨hordinary, .of_ordinary hif hcase he hc⟩

theorem ordinary_simple (hf : takesOrdinary form = true) (he : ∀ e ∈ form.expressions, e.WellFormed) :
    (simple form line).Ordinary :=
  ordinary_mk hf he (by simp)

theorem ordinary_comment (text : String) (line : Option Nat) : (comment text line).Ordinary :=
  ordinary_simple rfl (by simp [Form.expressions])

theorem WellFormed.withNotes {s : Stmt} (h : s.WellFormed) (notes : List String) :
    (s.withNotes notes).WellFormed := by
  cases h with
  | mk he ha hc => exact .mk he ha hc

theorem form_withNotes (s : Stmt) (notes : List String) : (s.withNotes notes).form = s.form := by
  cases s
  rfl

theorem Ordinary.withNotes {s : Stmt} (h : s.Ordinary) (notes : List String) : (s.withNotes notes).Ordinary :=
  ⟨(form_withNotes s notes).symm ▸ h.isOrdinary, h.wellFormed.withNotes notes⟩

structure Clauses (cs : List Stmt) : Prop where
  kinds : ∃ n last, cs.map (fun s => s.form.kind) = List.replicate n "else_if_clause" ++ last ∧
    (last = [] ∨ last = ["else_clause"])
  wellFormed : ∀ s ∈ cs, s.WellFormed

theorem Clauses.nil : Clauses [] := ⟨⟨0, [], rfl, .inl rfl⟩, by simp⟩

theorem Clauses.else_ (h : ∀ s ∈ body, s.Ordinary) : Clauses [Stmt.mk .else_ body [] line] where
  kinds := ⟨0, ["else_clause"], rfl, .inr rfl⟩
  wellFormed := forall_mem_singleton.2 (.of_ordinary (by decide) (by decide) (by simp [Form.expressions]) h)

theorem Clauses.elseIf {cs} (hc : c.WellFormed) (h : ∀ s ∈ body, s.Ordinary)
    (hcs : Clauses cs) : Clauses (Stmt.mk (.elseIf c) body [] line :: cs) := by
  obtain ⟨⟨n, last, hkinds, hlast⟩, hwf⟩ := hcs
  refine ⟨⟨n + 1, last, ?_, hlast⟩, forall_mem_cons.2 ⟨?_, hwf⟩⟩
  · rw [map_cons, hkinds]
    rfl
  · exact .of_ordinary (by simp [Form.kind]) (by simp [Form.kind]) (forall_mem_singleton.2 hc) h

theorem ordinary_choice {clauses} (hc : c.WellFormed) (hbody : ∀ s ∈ body, s.Ordinary)
    (hclauses : Clauses clauses) : (mk (.ifThen c) (body ++ clauses) notes line).Ordinary := by
  obtain ⟨⟨n, last, hkinds, hlast⟩, hwf⟩ := hclauses
  refine ⟨rfl, .mk (forall_mem_singleton.2 hc) ?_ ?_⟩
  · rw [map_append, hkinds, ← append_assoc]
    refine .choice n ?_ hlast
    intro k hk
    obtain ⟨s, hs, rfl⟩ := mem_map.1 hk
    exact (hbody s hs).isOrdinary
  · exact forall_mem_append.2 ⟨fun s hs => (hbody s hs).wellFormed, hwf⟩

end Pseudo.Stmt

namespace Convert

open Pseudo.Stmt (Ordinary ordinary_mk ordinary_simple ordinary_comment)
open Pseudo.Form (expressions)
open Source (weight_cons weight_append weight_nil)

variable {s : Pseudo.Stmt} {span : Span} {e callee : Source.Expr} {args : List Source.Expr}
    {shown : Option Source.Expr} {v : View} {type : Pseudo.Scalar} {start : Pseudo.Expr}
    {name : String} {line : Option Nat}

abbrev AllOrdinary (ss : List Pseudo.Stmt) : Prop := ∀ s ∈ ss, s.Ordinary

theorem AllOrdinary.append {ss ts} (hs : AllOrdinary ss) (ht : AllOrdinary ts) : AllOrdinary (ss ++ ts) :=
  forall_mem_append.2 ⟨hs, ht⟩

theorem AllOrdinary.nil : AllOrdinary [] := forall_mem_nil _

theorem AllOrdinary.singleton (h : s.Ordinary) : AllOrdinary [s] :=
  forall_mem_singleton.2 h

theorem AllOrdinary.cons {ss} (h : s.Ordinary) (hs : AllOrdinary ss) : AllOrdinary (s :: ss) :=
  forall_mem_cons.2 ⟨h, hs⟩

theorem AllOrdinary.attach {ss : List Pseudo.Stmt} (h : AllOrdinary ss) (notes : List String)
    (line : Nat) : AllOrdinary (attach notes line ss) := by
  unfold Convert.attach
  split
  · intro s hs
    obtain ⟨note, -, rfl⟩ := mem_map.1 hs
    exact ordinary_comment note _
  · obtain ⟨hs, hss⟩ := forall_mem_cons.1 h
    split
    · exact h
    · exact forall_mem_cons.2 ⟨hs.withNotes _, hss⟩

theorem ordinary_assign {target value} (ht : target.WellFormed)
    (hv : value.WellFormed) : (assign target value span).Ordinary :=
  ordinary_simple rfl (forall_mem_cons.2 ⟨ht, forall_mem_singleton.2 hv⟩)

theorem ordinary_for {stop step ss}
    (hstart : start.WellFormed) (hstop : stop.WellFormed) (hstep : ∀ e ∈ step, e.WellFormed)
    (hss : AllOrdinary ss) : Ordinary (.mk (.for_ name start stop step) ss [] line) := by
  refine ordinary_mk rfl ?_ hss
  cases step <;> simp_all [expressions]

theorem allOrdinary_interfaceComments (span : Span) (name : String) (bases : List Source.TypeRef)
    (members : List Source.InterfaceMember) :
    AllOrdinary (interfaceComments span name bases members) := by
  refine .cons (ordinary_comment _ _) ?_
  intro s hs
  obtain ⟨m, -, rfl⟩ := mem_map.1 hs
  exact ordinary_comment _ _

theorem wellFormed_children {e : Pseudo.Expr} (h : e.WellFormed) : ∀ a ∈ e.children, a.WellFormed := by
  cases h <;> simp_all [Pseudo.Expr.children]

theorem wellFormed_element (name : String) (line : Option Nat) (path : List Nat) :
    (element name line path).WellFormed := by
  have hfold : ∀ (path : List Nat) (e : Pseudo.Expr), e.WellFormed →
      (path.foldl (fun e (i : Nat) => Pseudo.Expr.index e (.number i) line) e).WellFormed := by
    intro path
    induction path with
    | nil => exact fun _ h => h
    | cons i path ih => exact fun e h => ih _ (.index h .literal)
  exact hfold path _ .identifier

/-! ### Choices -/

/-- A well-formed branch of a choice between values. -/
structure IsBranch (b : Pseudo.Stmt) : Prop where
  wellFormed : b.WellFormed
  kind : b.form.kind = if isOtherwise b then "otherwise_branch" else "case_branch"

theorem exprNodes_filterMap (labels : List (Option Source.Expr)) : exprNodes (labels.filterMap id) = labelNodes labels := by
  induction labels with
  | nil => rfl
  | cons l ls ih =>
    cases l with
    | none => simpa [labelNodes, exprNode] using ih
    | some e =>
      rw [labelNodes, ← ih]
      rfl

theorem ordinary_caseOf {e bs} (he : e.WellFormed)
    (hbs : ∀ b ∈ bs, IsBranch b) : Ordinary (.mk (.caseOf e) (orderBranches bs) [] line) := by
  have hlabelled : (bs.filter fun b => !isOtherwise b).map (fun s => s.form.kind) =
      replicate (bs.filter fun b => !isOtherwise b).length "case_branch" := by
    rw [map_eq_replicate_iff]
    intro b hb
    rw [mem_filter, Bool.not_eq_true'] at hb
    rw [(hbs b hb.1).kind, hb.2]
    rfl
  have hlast : (bs.filter isOtherwise).getLast?.toList.map (fun s => s.form.kind) = [] ∨
      (bs.filter isOtherwise).getLast?.toList.map (fun s => s.form.kind) = ["otherwise_branch"] := by
    cases hb : (bs.filter isOtherwise).getLast? with
    | none => exact .inl rfl
    | some b =>
      have hmem := mem_filter.1 (mem_of_getLast? hb)
      refine .inr ?_
      rw [Option.toList_some, map_singleton, (hbs b hmem.1).kind, hmem.2]
      rfl
  refine ⟨rfl, .mk (forall_mem_singleton.2 he) ?_ ?_⟩
  · rw [orderBranches, map_append, hlabelled]
    exact .cases _ hlast
  · intro b hb
    rcases mem_append.1 hb with hb | hb
    · exact (hbs b (mem_filter.1 hb).1).wellFormed
    · have hmem := mem_filter.1 (mem_of_getLast? (Option.mem_toList.1 hb))
      exact (hbs b hmem.1).wellFormed

/-! ### Input -/

theorem inputCall?_sublist (h : v.inputCall? callee args = some (type, shown)) :
    (exprNode shown).Sublist (exprNodes args) := by
  unfold View.inputCall? at h
  split at h
  · split at h
    · split at h
      · obtain ⟨_, -, heq⟩ := Option.map_eq_some_iff.1 h
        cases heq
        exact nil_sublist _
      · cases h
    · cases h
  · split at h
    · cases h
      cases args with
      | nil => exact nil_sublist _
      | cons e es => exact sublist_append_left _ _
    · cases h

/-- What is shown before input is read stands in the source. -/
theorem input?_sublist (h : v.input? e = some (type, shown)) : (exprNode shown).Sublist e.nodes := by
  unfold View.input? at h
  split at h
  · split at h
    · next found hfound =>
      cases h
      exact ((inputCall?_sublist hfound).trans (sublist_append_right _ _)).cons _
    · next inner innerArgs _ _ =>
      obtain ⟨⟨_, found⟩, hfound, heq⟩ := Option.map_eq_some_iff.1 h
      cases heq
      have hargs := (inputCall?_sublist hfound).trans (sublist_append_right inner.nodes _)
      simp only [nodes, exprNodes, append_nil]
      exact ((hargs.cons _).trans (sublist_append_right _ _)).cons _
    · cases h
  · cases h

end Convert

end Blackboard
