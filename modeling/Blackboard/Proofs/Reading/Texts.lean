import Blackboard.Source.Node
import Blackboard.Text.Blank

/-!
The texts of a program, and kinds of text that are closed under putting texts together. What is said of
a program quotes its texts between fixed words, and each fixed word stands on one line.
-/
namespace Blackboard.Source

open List

def Node.texts : Node → List String
  | type t => [t.name]
  | expr (.number _ _ raw) => [raw]
  | expr (.string _ s) | expr (.char _ s) | expr (.identifier _ s) | expr (.member _ _ s _) => [s]
  | expr (.template _ parts) => parts.filterMap fun
    | .text s => some s
    | .hole _ => none
  | expr _ => []
  | property p => [p.key]
  | param p => [p.name]
  | declarator d => [d.name]
  | handler h => h.param.toList
  | signature s => [s.name]
  | switchCase _ | enumMember _ => []
  | stmt s => match s with
    | .breakStmt _ label | .continueStmt _ label => label.toList
    | .unparsed _ _ message => [message]
    | .function f => f.name :: f.typeParams ++ f.decorators
    | .classDecl _ name superclass _ typeParams _ _ decorators =>
      name :: (superclass.map (·.name)).toList ++ typeParams ++ decorators
    | .interface _ name _ _ _ | .enum _ name _ | .typeAlias _ name _ | .namespaceDecl _ name _ =>
      [name]
    | .importLine _ text => [Text.strip text]
    | _ => []

/-- A text that is written out is read as the list of its characters, not decoded. -/
theorem unbroken {cs : List Char} (h : cs.all (· != '\n') = true) : '\n' ∉ (String.ofList cs).toList := by
  rw [String.toList_ofList]
  exact fun hmem => bne_iff_ne.1 (all_eq_true.1 h _ hmem) rfl

/-- A text is of the kind `Text` if and only if its parts are, and every text on one line is. -/
structure Composes (Text : String → Prop) : Prop where
  of_line : ∀ {s : String}, '\n' ∉ s.toList → Text s
  append : ∀ {a b : String}, Text (a ++ b) ↔ Text a ∧ Text b

namespace Composes

variable {Text : String → Prop}

section

variable (law : Composes Text)
variable {ss : List String}

include law

theorem empty : Text "" := law.of_line (unbroken rfl)

theorem join (h : ∀ s ∈ ss, Text s) : Text (String.join ss) := by
  induction ss with
  | nil => exact law.empty
  | cons s ss ih =>
    rw [forall_mem_cons] at h
    rw [String.join_cons, law.append]
    exact ⟨h.1, ih h.2⟩

theorem intercalate {sep} (hsep : Text sep) (h : ∀ s ∈ ss, Text s) : Text (sep.intercalate ss) := by
  induction ss with
  | nil => exact law.empty
  | cons s ss ih =>
    rw [forall_mem_cons] at h
    cases ss with
    | nil =>
      exact h.1
    | cons t ss =>
      rw [String.intercalate_cons_cons, law.append, law.append]
      exact ⟨⟨h.1, hsep⟩, ih h.2⟩

theorem listed (h : ∀ s ∈ ss, Text s) : Text (", ".intercalate ss) :=
  law.intercalate (law.of_line (unbroken rfl)) h

theorem repeated {s} (h : Text s) (n : Nat) : Text (TypeRef.repeated s n) := by
  induction n with
  | zero => exact law.empty
  | succ n ih =>
    rw [TypeRef.repeated, law.append]
    exact ⟨h, ih⟩

end

mutual

theorem type (law : Composes Text) (t : TypeRef) (h : ∀ n ∈ t.nodes, ∀ s ∈ n.texts, Text s) : Text t.text := by
  match t with
  | ⟨span, name, args, dimensions, form⟩ =>
    rw [TypeRef.nodes, List.forall_mem_cons] at h
    have hname : Text name := h.1 name (List.mem_singleton_self _)
    have hargs := law.listed (law.types args h.2)
    rw [TypeRef.text, law.append]
    refine ⟨?_, law.repeated (law.of_line (unbroken rfl)) _⟩
    split
    · simp (disch := exact unbroken rfl) only [law.append, law.of_line, hname, hargs, and_self]
    · exact hname

theorem types (law : Composes Text) (ts : List TypeRef)
    (h : ∀ n ∈ typeNodes ts, ∀ s ∈ n.texts, Text s) : ∀ s ∈ TypeRef.texts ts, Text s := by
  match ts with
  | [] => simp [TypeRef.texts]
  | t :: ts =>
    rw [typeNodes, List.forall_mem_append] at h
    rw [TypeRef.texts, List.forall_mem_cons]
    exact ⟨law.type t h.1, law.types ts h.2⟩

end

end Composes

end Blackboard.Source
