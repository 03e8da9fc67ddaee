import Blackboard.Proofs.Discipline.Basic
import Blackboard.Proofs.Printing.Block

/-!
Annotations can be left out. Without them a program has the lines it has with them, less those that are
annotations; what a left-out comment leaves behind is at most an empty line.
-/
namespace Blackboard.Pseudo

namespace Site

open List (filter_append filter_eq_self)

/-- Whether a line is there for the sake of annotations only: it is a note on a statement, or a comment
that annotates. -/
def annotates : Site → Bool
  | ⟨.note _, _, _⟩ => true
  | ⟨.header, f, _⟩ => f.isAnnotation
  | _ => false

def without (ss : List Site) : List Site := ss.filter (!·.annotates)

theorem without_append (ss ts : List Site) : without (ss ++ ts) = without ss ++ without ts := filter_append ..

theorem without_eq_self {ss : List Site} (h : ∀ s ∈ ss, s.annotates = false) : without ss = ss :=
  filter_eq_self.2 fun s hs => by simp [h s hs]

theorem without_notes (notes : List String) (f : Form) (above : List Form) :
    without (notes.map fun n => ⟨.note n, f, above⟩) = [] := by
  simp [without, annotates]

/-- Annotating comments have nothing in them. -/
def Childless (ss : List Stmt) : Prop := ∀ s ∈ ss, s.form.isAnnotation = true → s.children = []

mutual

theorem ofStmt_without : (s : Stmt) → (above : List Form) → Childless s.all →
    ofStmt false above s = without (ofStmt true above s)
  | .mk f cs notes l, above, h => by
    obtain ⟨hown, hchildren⟩ := List.forall_mem_cons.1 h
    have hcs := ofStmts_without cs f.isClass none (f :: above) hchildren
    have hkept : without (f.kept.map (⟨.kept ·, f, above⟩)) = f.kept.map (⟨.kept ·, f, above⟩) :=
      without_eq_self (by simp [annotates])
    rw [ofStmt, ofStmt, without_append, if_pos rfl, without_notes]
    cases hf : f.isAnnotation with
    | true =>
      -- such a comment is one line, and that line is an annotation
      obtain rfl : cs = [] := hown hf
      cases f <;> simp_all [ofStmts, without, annotates, Form.kept, Form.role, Form.isAnnotation]
    | false =>
      have hcloser : without (if f.role = .opener then [⟨.closer, f, above⟩] else []) =
          if f.role = .opener then [⟨.closer, f, above⟩] else [] :=
        without_eq_self (by split <;> simp [annotates])
      have hheader : without [⟨.header, f, above⟩] = [⟨.header, f, above⟩] :=
        without_eq_self (by simp [annotates, hf])
      simp only [Bool.false_and, Bool.false_eq_true, if_false, List.nil_append]
      rw [without_append, without_append, ← List.singleton_append, without_append, hheader, hkept, hcloser, hcs]

theorem ofStmts_without : (ss : List Stmt) → (separate : Bool) → (previous : Option Form) → (above : List Form) →
    Childless (Stmt.allOf ss) → ofStmts false separate previous above ss = without (ofStmts true separate previous above ss)
  | [], _, _, _, _ => rfl
  | .mk f cs notes l :: ss, separate, previous, above, h => by
    obtain ⟨hfirst, hrest⟩ := List.forall_mem_append.1 h
    rw [ofStmts, ofStmts, without_append, without_append, ← ofStmt_without _ above hfirst,
      ← ofStmts_without ss separate (some f) above hrest, without_eq_self (by simp [annotates])]

end

theorem ofProgram_without (errors : List String) {body : List Stmt} (h : Childless (Stmt.allOf body)) :
    ofProgram false errors body = without (ofProgram true errors body) := by
  have hfaults : without (errors.map fun e => ⟨.fault e, .program none errors, []⟩) = _ :=
    without_eq_self (by simp [annotates])
  rw [ofProgram, ofProgram, without_append, ofStmts_without body true none [] h, hfaults]

end Site

open Site in
/-- The lines of a program with annotations are those of its sites, in order; without annotations they are
those of the sites that are none, in the same order and each indented as before. -/
theorem annotations_are_only_removed (width : Int) (errors : List String) (body : List Stmt)
    (h : Childless (Stmt.allOf body)) :
    let sites := ofProgram true errors body
    sites.map line = Layout.programLines true errors body ∧
      (Layout.format width (Layout.programLines true errors body)).filter (· ≠ "") =
        (sites.filter hasInk).map (shown width.toNat) ∧
      (Layout.format width (Layout.programLines false errors body)).filter (· ≠ "") =
        ((sites.filter hasInk).filter (!·.annotates)).map (shown width.toNat) := by
  refine ⟨map_line_ofProgram .., filter_format .., ?_⟩
  rw [filter_format, ofProgram_without errors h, without, List.filter_filter, List.filter_filter]
  simp only [Bool.and_comm]

/-- An annotating comment, and an output with a note. -/
def notedOutput : List Stmt := [.comment "starts here" none, .mk (.output [.number 1]) [] ["prints one"] none]

theorem annotations_are_only_removed_output : Site.Childless (Stmt.allOf notedOutput) ∧
    (Layout.format 3 (Layout.programLines true [] notedOutput)).filter (· ≠ "") =
      ["// starts here", "// prints one", "OUTPUT 1"] ∧
    (Layout.format 3 (Layout.programLines false [] notedOutput)).filter (· ≠ "") = ["OUTPUT 1"] := by
  have hchildless : Site.Childless (Stmt.allOf notedOutput) := by
    simp [Site.Childless, notedOutput, Stmt.allOf, Stmt.all, Stmt.comment, Stmt.simple, Stmt.children]
  obtain ⟨-, hwith, hwithout⟩ := annotations_are_only_removed 3 [] notedOutput hchildless
  exact ⟨hchildless, hwith.trans (by decide), hwithout.trans (by decide)⟩

end Blackboard.Pseudo
