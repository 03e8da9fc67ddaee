import Blackboard.Conversion.Statement
import Blackboard.Proofs.Placement.Tree
import Blackboard.Proofs.WellFormed.Magnitude

/-!
Pseudocode for a program at another place. Relocating pseudocode changes only the source lines that its
nodes know; texts, offsets and built-in operations are those of the pseudocode, relocated.
-/
namespace Blackboard.Pseudo

open List
open Source (Relocation)

section

variable (m : Relocation)

mutual

def Expr.relocate : Expr → Expr
  | .literal t v l => .literal t v (l.map m.line)
  | .identifier n d l => .identifier n d (l.map m.line)
  | .binary op a b l => .binary op a.relocate b.relocate (l.map m.line)
  | .unary op a l => .unary op a.relocate (l.map m.line)
  | .call n args d l => .call n (Expr.relocateAll args) d (l.map m.line)
  | .method n target args p l => .method n target.relocate (Expr.relocateAll args) p (l.map m.line)
  | .builtin n t p target args l =>
    .builtin n t p target.relocate (Expr.relocateAll args) (l.map m.line)
  | .member target n l => .member target.relocate n (l.map m.line)
  | .index target i l => .index target.relocate i.relocate (l.map m.line)
  | .array items l => .array (Expr.relocateAll items) (l.map m.line)
  | .conditional c a b l => .conditional c.relocate a.relocate b.relocate (l.map m.line)
  | .newObject n args l => .newObject n (Expr.relocateAll args) (l.map m.line)
  | .raw t l => .raw t (l.map m.line)

def Expr.relocateAll : List Expr → List Expr
  | [] => []
  | e :: es => e.relocate :: Expr.relocateAll es

end

def Form.relocate : Form → Form
  | .constant name value => .constant name (value.relocate m)
  | .ifThen e => .ifThen (e.relocate m)
  | .elseIf e => .elseIf (e.relocate m)
  | .while_ e => .while_ (e.relocate m)
  | .for_ name start stop step =>
    .for_ name (start.relocate m) (stop.relocate m) (step.map (·.relocate m))
  | .repeatUntil e => .repeatUntil (e.relocate m)
  | .caseOf e => .caseOf (e.relocate m)
  | .caseBranch labels falls => .caseBranch (labels.map (·.relocate m)) falls
  | .assign target value => .assign (target.relocate m) (value.relocate m)
  | .output items => .output (items.map (·.relocate m))
  | .input e => .input (e.relocate m)
  | .call e => .call (e.relocate m)
  | .return_ value => .return_ (value.map (·.relocate m))
  | .expression e => .expression (e.relocate m)
  | .program l es => .program l es
  | .variable_ n t => .variable_ n t
  | .class_ n => .class_ n
  | .procedure n ps => .procedure n ps
  | .function n ps r => .function n ps r
  | .else_ => .else_
  | .otherwise falls => .otherwise falls
  | .comment t a => .comment t a
  | .unparsed t message => .unparsed t message

mutual

def Stmt.relocate : Stmt → Stmt
  | .mk f cs notes l => .mk (f.relocate m) (Stmt.relocateAll cs) notes (l.map m.line)

def Stmt.relocateAll : List Stmt → List Stmt
  | [] => []
  | s :: ss => s.relocate :: Stmt.relocateAll ss

end

namespace Expr

@[simp]
theorem relocateAll_eq_map (es : List Expr) : relocateAll m es = es.map (·.relocate m) := by
  induction es with
  | nil => rfl
  | cons e es ih => rw [relocateAll, ih, map_cons]

@[simp]
theorem line_relocate (e : Expr) : (e.relocate m).line = e.line.map m.line := by
  cases e <;> rfl

@[simp]
theorem precedence_relocate (e : Expr) : (e.relocate m).precedence = e.precedence := by
  cases e with
  | builtin n t p target args l => cases p with
    | none => rfl
    | some p => cases p <;> rfl
  | _ => rfl

@[simp]
theorem wrapped_relocate (e : Expr) (text : String) (least : Nat) :
    (e.relocate m).wrapped text least = e.wrapped text least := by
  rw [wrapped, wrapped, precedence_relocate]

mutual

@[simp]
theorem text_relocate (e : Expr) : (e.relocate m).text = e.text := by
  cases e <;> simp only [relocate, text, wrapped_relocate, text_relocate, texts_relocate, wrappedTexts_relocate]

theorem texts_relocate : (es : List Expr) → texts (relocateAll m es) = texts es
  | [] => rfl
  | e :: es => by rw [relocateAll, texts, texts, text_relocate e, texts_relocate es]

theorem wrappedTexts_relocate (least : Nat) : (es : List Expr) →
    wrappedTexts least (relocateAll m es) = wrappedTexts least es
  | [] => rfl
  | e :: es => by
    rw [relocateAll, wrappedTexts, wrappedTexts, wrapped_relocate, text_relocate e, wrappedTexts_relocate least es]

end

mutual

@[simp]
theorem writable_relocate (e : Expr) : (e.relocate m).writable = e.writable := by
  cases e with
  | literal t v l =>
    cases v with
    | none => rfl
    | some v => cases v <;> rfl
  | _ => simp only [relocate, writable, writable_relocate, allWritable_relocate]

theorem allWritable_relocate : (es : List Expr) → allWritable (relocateAll m es) = allWritable es
  | [] => rfl
  | e :: es => by
    rw [relocateAll, allWritable, allWritable, writable_relocate e, allWritable_relocate es]

end

@[simp]
theorem children_relocate (e : Expr) : (e.relocate m).children = e.children.map (·.relocate m) := by
  cases e <;> simp [relocate, children]

theorem number_relocate (n : Int) (line : Option Nat) : (number n line).relocate m = number n (line.map m.line) := rfl

@[simp]
theorem literalInt?_relocate (e : Expr) : (e.relocate m).literalInt? = e.literalInt? := by
  cases e with
  | literal t v l =>
    cases v with
    | none => rfl
    | some v => cases v <;> rfl
  | _ => rfl

theorem plainOffset_relocate (e : Expr) (k : Int) : (e.plainOffset k).relocate m = (e.relocate m).plainOffset k := by
  unfold plainOffset
  split <;> simp [relocate, number_relocate]

theorem addOffset_relocate (e : Expr) (k : Int) : (e.addOffset k).relocate m = (e.relocate m).addOffset k := by
  fun_induction addOffset e k with
  | case1 t v l => simp [relocate, addOffset]
  | case2 t l k hk n => simp [relocate, addOffset, hk, number_relocate]
  | case3 t l k hk v hv =>
    rw [plainOffset_relocate, relocate, addOffset, if_neg hk]
    exact hv
  | case4 op left right l => simp [relocate, addOffset]
  | case5 left right l k hk n hn ih => simp [relocate, addOffset, hk, hn, ih]
  | case6 left right l k hk n hn ih => simp [relocate, addOffset, hk, hn, ih]
  | case7 left right l k hk op hadd hsub =>
    rw [plainOffset_relocate, relocate, addOffset, if_neg hk]
    · simpa using hadd
    · simpa using hsub
  | case8 e hlit hbin =>
    cases e with
    | literal t v l => exact absurd rfl (hlit t v l)
    | binary op left right l => exact absurd rfl (hbin op left right l)
    | _ => simp [relocate, addOffset]
  | case9 e k hlit hbin hk =>
    cases e with
    | literal t v l => exact absurd rfl (hlit t v l)
    | binary op left right l => exact absurd rfl (hbin op left right l)
    | _ => simp [relocate, addOffset, hk, plainOffset_relocate]

theorem subtract_relocate (a b : Expr) : (a.subtract b).relocate m = (a.relocate m).subtract (b.relocate m) := by
  rw [subtract, subtract, literalInt?_relocate, literalInt?_relocate]
  split
  · rw [number_relocate, line_relocate]
  · exact addOffset_relocate m a _
  · rw [relocate, line_relocate]

end Expr

namespace StringMethod

theorem substring_relocate (target start : Expr) (stop : Option Expr) : (substring target start stop).relocate m =
      substring (target.relocate m) (start.relocate m) (stop.map (·.relocate m)) := by
  cases stop <;>
    simp [substring, Expr.relocate, Expr.subtract_relocate, Expr.addOffset_relocate]

theorem apply_relocate (f : StringMethod) (target : Expr) (args : List Expr) :
    (f.apply target args).relocate m = f.apply (target.relocate m) (args.map (·.relocate m)) := by
  rw [apply.eq_def]
  split
  · next start hname =>
    simp [apply, hname, substring_relocate]
  · next start stop hname =>
    simp [apply, hname, substring_relocate]
  · next hone htwo =>
    rw [apply]
    · cases f.positions <;>
        simp [Expr.relocate, Expr.addOffset_relocate]
    · intro start hname hargs
      obtain ⟨a, rfl, -⟩ := map_eq_singleton_iff.1 hargs
      exact hone a hname rfl
    · intro start stop hname hargs
      obtain ⟨a, rest, rfl, -, hrest⟩ := map_eq_cons_iff.1 hargs
      obtain ⟨b, rfl, -⟩ := map_eq_singleton_iff.1 hrest
      exact htwo a b hname rfl

end StringMethod

theorem mapMathFunction?_relocate (name : String) (args : List Expr) :
    mapMathFunction? name (args.map (·.relocate m)) = (mapMathFunction? name args).map (·.relocate m) := by
  rw [mapMathFunction?, mapMathFunction?, Option.map_map]
  congr 1
  funext builtin
  by_cases hfloor : ∃ left right line, name = "floor" ∧ args = [.binary .div left right line]
  · obtain ⟨left, right, line, rfl, rfl⟩ := hfloor
    simp [Expr.relocate]
  · rw [Function.comp]
    split
    · next left right line heq =>
      obtain ⟨e, rfl, he⟩ := map_eq_singleton_iff.1 heq
      cases e with
      | binary op a b l =>
        obtain ⟨rfl, -⟩ := he
        exact absurd ⟨a, b, l, rfl, rfl⟩ hfloor
      | _ => simp [Expr.relocate] at he
    · split
      · next left right line _ => exact absurd ⟨left, right, line, rfl, rfl⟩ hfloor
      · simp [Expr.relocate]

namespace Stmt

@[simp]
theorem relocateAll_eq_map (ss : List Stmt) : relocateAll m ss = ss.map (·.relocate m) := by
  induction ss with
  | nil => rfl
  | cons s ss ih => rw [relocateAll, ih, map_cons]

@[simp]
theorem notes_relocate (s : Stmt) : (s.relocate m).notes = s.notes := by
  cases s; rfl

@[simp]
theorem form_relocate (s : Stmt) : (s.relocate m).form = s.form.relocate m := by
  cases s; rfl

@[simp]
theorem withNotes_relocate (s : Stmt) (notes : List String) :
    (s.withNotes notes).relocate m = (s.relocate m).withNotes notes := by
  cases s; rfl

theorem mk_relocate (f : Form) (cs : List Stmt) (notes : List String) (l : Option Nat) :
    (mk f cs notes l).relocate m = mk (f.relocate m) (cs.map (·.relocate m)) notes (l.map m.line) := by
  rw [relocate, relocateAll_eq_map]

theorem simple_relocate (f : Form) (l : Option Nat) :
    (simple f l).relocate m = simple (f.relocate m) (l.map m.line) := rfl

theorem comment_relocate (text : String) (l : Option Nat) :
    (comment text l).relocate m = comment text (l.map m.line) := rfl

end Stmt

end

/-! ### Staying in place -/

section

open Source.Relocation (map_line_stay)

mutual

theorem Expr.relocate_stay (e : Expr) : e.relocate .stay = e := by
  cases e <;> rw [Expr.relocate] <;> simp only [Expr.relocate_stay, Expr.relocateAll_stay, map_line_stay]

theorem Expr.relocateAll_stay : (es : List Expr) → Expr.relocateAll .stay es = es
  | [] => rfl
  | e :: es => by rw [Expr.relocateAll, Expr.relocate_stay e, Expr.relocateAll_stay es]

end

theorem Form.relocate_stay (f : Form) : f.relocate .stay = f := by
  cases f <;> simp [Form.relocate, Expr.relocate_stay]

mutual

theorem Stmt.relocate_stay : (s : Stmt) → s.relocate .stay = s
  | .mk f cs notes l => by
    rw [Stmt.relocate, Form.relocate_stay, Stmt.relocateAll_stay cs, map_line_stay]

theorem Stmt.relocateAll_stay : (ss : List Stmt) → Stmt.relocateAll .stay ss = ss
  | [] => rfl
  | s :: ss => by rw [Stmt.relocateAll, Stmt.relocate_stay s, Stmt.relocateAll_stay ss]

end

end

end Blackboard.Pseudo

namespace Blackboard.Convert

open Source (Relocation Span)

variable (m : Relocation)

theorem attach_relocate (notes : List String) (line : Nat) (ss : List Pseudo.Stmt) :
    (attach notes line ss).map (·.relocate m) = attach notes (m.line line) (ss.map (·.relocate m)) := by
  cases ss with
  | nil => simp [attach, Pseudo.Stmt.comment_relocate]
  | cons s ss =>
    rw [List.map_cons, attach, attach]
    split <;> simp

theorem negated_relocate (span : Span) (e : Pseudo.Expr) :
    (negated span e).relocate m = negated (m.span span) (e.relocate m) := by
  cases e with
  | literal t v l =>
    cases v with
    | none => simp [negated, Pseudo.Expr.relocate]
    | some v => cases v <;> simp [negated, Pseudo.Expr.relocate]
  | _ => simp [negated, Pseudo.Expr.relocate]

theorem join_relocate (line : Option Nat) (es : List Pseudo.Expr) :
    (join line es).relocate m = join (line.map m.line) (es.map (·.relocate m)) := by
  cases es with
  | nil => rfl
  | cons e es =>
    rw [List.map_cons, join, join]
    induction es generalizing e with
    | nil => rfl
    | cons b es ih => rw [List.map_cons, List.foldl_cons, List.foldl_cons, ih, Pseudo.Expr.relocate]

theorem element_relocate (name : String) (line : Option Nat) (path : List Nat) :
    (element name line path).relocate m = element name (line.map m.line) path := by
  have h (e : Pseudo.Expr) : (path.foldl (fun e (i : Nat) => Pseudo.Expr.index e (.number i) line) e).relocate m =
        path.foldl (fun e (i : Nat) => Pseudo.Expr.index e (.number i) (line.map m.line)) (e.relocate m) := by
    induction path generalizing e with
    | nil => rfl
    | cons i path ih =>
      rw [List.foldl_cons, ih, Pseudo.Expr.relocate]
      rfl
  exact h _

theorem assign_relocate (target value : Pseudo.Expr) (span : Span) : (assign target value span).relocate m =
      assign (target.relocate m) (value.relocate m) (m.span span) := by
  rw [assign, Pseudo.Stmt.simple_relocate, Option.map_some, ← m.line_span]
  rfl

@[simp]
theorem calledName?_relocate (e : Pseudo.Expr) : calledName? (e.relocate m) = calledName? e := by
  cases e with
  | call name args declared line => cases declared <;> rfl
  | method name target args passedOn line => cases passedOn <;> rfl
  | _ => rfl

@[simp]
theorem isOtherwise_relocate (s : Pseudo.Stmt) : isOtherwise (s.relocate m) = isOtherwise s := by
  rw [isOtherwise, isOtherwise, Pseudo.Stmt.form_relocate]
  cases s.form <;> rfl

theorem orderBranches_relocate (ss : List Pseudo.Stmt) :
    (orderBranches ss).map (·.relocate m) = orderBranches (ss.map (·.relocate m)) := by
  have hother : isOtherwise ∘ (·.relocate m) = isOtherwise := funext (isOtherwise_relocate m)
  have hlabelled : (fun b => !isOtherwise b) ∘ (·.relocate m) = fun b => !isOtherwise b :=
    funext fun b => congrArg not (isOtherwise_relocate m b)
  rw [orderBranches, orderBranches, List.map_append, List.filter_map, List.filter_map, hother,
    hlabelled, List.getLast?_map, Option.toList_map]

end Blackboard.Convert
