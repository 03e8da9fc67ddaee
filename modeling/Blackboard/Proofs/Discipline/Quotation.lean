import Blackboard.Proofs.Discipline.Basic

/-!
The texts that notes and comments quote. They are put together from the texts of nodes and from fixed
words, so what a discipline says of those it says of them.
-/
namespace Blackboard

@[simp]
theorem toString_text (s : String) : toString s = s := rfl

theorem toString_nat_lines (n : Nat) : '\n' ∉ (toString n).toList := by
  intro h
  have hdigit := Nat.isDigit_of_mem_toDigits (b := 10) (by decide) (by decide)
    (show '\n' ∈ Nat.toDigits 10 n by simpa [Nat.toString_eq_repr, Nat.repr] using h)
  exact absurd hdigit (by decide)

namespace Discipline

open Source

variable {T : Discipline} {P : String → Prop}

-- generates the equations once, before the proofs that rewrite by them
attribute [local simp] Source.Expr.text Source.Expr.nodes

@[simp]
theorem text_append [law : T.Lawful] {a b} : T.Text (a ++ b) ↔ T.Text a ∧ T.Text b :=
  law.text_append

@[simp]
theorem text_of_line [law : T.Lawful] {s} (h : '\n' ∉ s.toList) : T.Text s :=
  law.text_of_line h

def Texts (T : Discipline) (ss : List String) : Prop := ∀ s ∈ ss, T.Text s

def Quoted (T : Discipline) (ns : List Node) : Prop := ∀ n ∈ ns, T.Texts n.texts

@[simp]
theorem texts_nil : T.Texts [] := nofun

@[simp]
theorem texts_cons {s ss} : T.Texts (s :: ss) ↔ T.Text s ∧ T.Texts ss := List.forall_mem_cons

@[simp]
theorem quoted_nil : T.Quoted [] := nofun

@[simp]
theorem quoted_cons {n ns} : T.Quoted (n :: ns) ↔ T.Texts n.texts ∧ T.Quoted ns := List.forall_mem_cons

@[simp]
theorem quoted_append {ms ns} : T.Quoted (ms ++ ns) ↔ T.Quoted ms ∧ T.Quoted ns := List.forall_mem_append

namespace Lawful

theorem composes (law : T.Lawful) : Composes T.Text := ⟨law.text_of_line, law.text_append⟩

theorem text_of_nodes (law : T.Lawful) {ns} (h : T.Nodes P ns) : T.Quoted ns :=
  fun n hn _ hs => law.text_of_node (h n hn) hs

theorem text_type (law : T.Lawful) (t : TypeRef) (h : T.Nodes P t.nodes) : T.Text t.text :=
  law.composes.type t (law.text_of_nodes h)

theorem text_types (law : T.Lawful) (ts : List TypeRef) (h : T.Nodes P (typeNodes ts)) :
    ∀ s ∈ TypeRef.texts ts, T.Text s :=
  law.composes.types ts (law.text_of_nodes h)

/-! ### Expressions -/

section

variable (law : T.Lawful)

include law

theorem text_binaryOp (op : BinaryOp) : T.Text op.text :=
  law.text_of_line (by cases op <;> decide)

theorem text_unaryOp (op : UnaryOp) : T.Text op.text :=
  law.text_of_line (by cases op <;> decide)

theorem text_updateOp (op : UpdateOp) : T.Text op.text :=
  law.text_of_line (by cases op <;> decide)

theorem text_assignOp (op : AssignOp) : T.Text op.text := by
  cases op with
  | set => exact law.text_of_line (unbroken rfl)
  | with_ op =>
    rw [AssignOp.text, law.text_append]
    exact ⟨law.text_binaryOp op, law.text_of_line (unbroken rfl)⟩

theorem text_operand {e : Source.Expr} {text : String} (h : T.Text text) (outer : Nat)
    (isRight : Bool) : T.Text (e.operandText text outer isRight) := by
  unfold Expr.operandText
  split
  · split
    · simp (disch := exact unbroken rfl) [h]
    · exact h
  · exact h

omit law in
theorem text_paramNames {ps} (h : T.Quoted (paramNodes ps)) : T.Texts (ps.map (·.name)) := by
  induction ps with
  | nil => simp
  | cons p ps ih =>
    obtain ⟨span, name, type, o, r, default, ms⟩ := p
    simp only [paramNodes, quoted_cons, quoted_append, Node.texts, texts_cons] at h
    rw [List.map_cons, texts_cons]
    exact ⟨h.1.1, ih h.2.2⟩

end

/-- The texts of an expression and of its parts are put together from those of their nodes. -/
theorem text_quoted (law : T.Lawful) : (∀ e : Source.Expr, T.Quoted e.nodes → T.Text e.text) ∧
    (∀ b, T.Quoted (bodyNodes b) → T.Text (Expr.bodyText b)) ∧
    (∀ ps, T.Quoted (propertyNodes ps) → T.Texts (Expr.propertyTexts ps)) ∧
    (∀ es, T.Quoted (exprNodes es) → T.Texts (Expr.texts es)) ∧
    ∀ ps, T.Quoted (partNodes ps) → T.Texts (Node.expr (.template .unplaced ps)).texts → T.Texts (Expr.partTexts ps) := by
  have hbrackets : T.Text "[]" := law.text_of_line (unbroken rfl)
  have hlisted {ss} : T.Texts ss → T.Text (", ".intercalate ss) := law.composes.listed
  have htype (t : TypeRef) : T.Quoted t.nodes → T.Text t.text := law.composes.type t
  apply Expr.text.mutual_induct
  case case7 =>
    intro span parts ih h
    rw [Expr.nodes, quoted_cons] at h
    simp (disch := exact unbroken rfl) [Expr.text, law.composes.join (ih h.2 h.1)]
  case case13 =>
    intro span element sizes d ih h
    rw [Expr.nodes, quoted_cons, quoted_append] at h
    have hsizes : ∀ s ∈ (Expr.texts sizes).map fun s => "[" ++ s ++ "]", T.Text s := by
      intro s hs
      obtain ⟨x, hx, rfl⟩ := List.mem_map.1 hs
      simp (disch := exact unbroken rfl) [ih h.2.2 x hx]
    simp (disch := exact unbroken rfl) [Expr.text, htype element h.2.1, law.composes.join hsizes,
      law.composes.repeated hbrackets]
  case case24 =>
    intro span params body isAsync ih h
    simp only [Expr.nodes, quoted_cons, quoted_append] at h
    simp (disch := exact unbroken rfl) [Expr.text, hlisted (text_paramNames h.2.1), ih h.2.2]
  case case30 =>
    intro s ps ih h hown
    simp only [Node.texts, List.filterMap_cons, texts_cons] at hown
    rw [partNodes] at h
    simpa [Expr.partTexts, hown.1] using ih h hown.2
  case case31 =>
    intro e ps ih ihs h hown
    rw [partNodes, quoted_append] at h
    simp (disch := exact unbroken rfl) [Expr.partTexts, ih h.1, ihs h.2 hown]
  all_goals
    intros
    simp_all only [Expr.nodes, bodyNodes, propertyNodes, exprNodes, partNodes, exprNode, quoted_cons, quoted_append,
      Node.texts, texts_cons, forall_const, and_true, true_and, quoted_nil]
    simp (disch := first | exact unbroken rfl | simp [*]) [Expr.text, Expr.bodyText, Expr.propertyTexts, Expr.texts,
      Expr.partTexts, apply_ite T.Text, law.text_operand, law.text_binaryOp, law.text_unaryOp, law.text_updateOp,
      law.text_assignOp, law.composes.repeated, *]

theorem text_expr (law : T.Lawful) (e : Source.Expr) (h : T.Nodes P e.nodes) : T.Text e.text :=
  law.text_quoted.1 e (law.text_of_nodes h)

end Lawful

end Discipline

end Blackboard
