import Mathlib.Data.List.TakeWhile
import Blackboard.Pseudo.Layout

/-!
Indentation follows the blocks of a program. Every line belongs to a statement, and its indentation
is the number of block openers among the statements around that one, whatever the single counter
that lays out the lines has forgotten of them.
-/
namespace Blackboard.Pseudo

open List
open Text (isBlank trimEnd)

/-! ### Lines and their statements -/

inductive Part where
  /-- a fault of the source, shown before all statements -/
  | fault (text : String)
  | note (text : String)
  | header
  /-- a source line kept by the statement -/
  | kept (text : String)
  | closer
  /-- the empty line before the statement -/
  | separator

/-- A part of a statement of the form `form` that lies inside statements of the forms `above`, the
innermost first. -/
structure Site where
  part : Part
  form : Form
  above : List Form

namespace Site

def line : Site → Line
  | ⟨.fault s, _, _⟩ => ⟨.plain, "// " ++ s⟩
  | ⟨.note s, f, _⟩ => ⟨f.noteRole, "// " ++ s⟩
  | ⟨.header, f, _⟩ => ⟨f.role, f.header⟩
  | ⟨.kept s, _, _⟩ => ⟨.plain, s⟩
  | ⟨.closer, f, _⟩ => ⟨.closer, f.closer⟩
  | ⟨.separator, _, _⟩ => ⟨.blank, ""⟩

def depth (s : Site) : Nat := s.above.countP (·.role = .opener)

/-- Headers that continue a block, and the notes on them, stand one level further out. -/
def level (s : Site) : Nat := if s.line.role = .continuation then s.depth - 1 else s.depth

def hasInk (s : Site) : Bool := !s.line.text.toList.all isBlank

def shown (width : Nat) (s : Site) : String :=
  String.ofList (Layout.spaces (width * s.level) ++ trimEnd s.line.text.toList)

mutual

def ofStmt (annotated : Bool) (above : List Form) : Stmt → List Site
  | .mk f cs notes _ =>
    (if annotated then notes.map fun n => ⟨.note n, f, above⟩ else []) ++
      if f.isAnnotation && !annotated then []
      else ⟨.header, f, above⟩ :: f.kept.map (⟨.kept ·, f, above⟩) ++
        ofStmts annotated f.isClass none (f :: above) cs ++
        if f.role = .opener then [⟨.closer, f, above⟩] else []

/-- The lines of some statements that follow a statement of the form `previous`. -/
def ofStmts (annotated separate : Bool) (previous : Option Form) (above : List Form) : List Stmt → List Site
  | [] => []
  | .mk f cs notes l :: ss =>
    (Stmt.separator separate previous f).map (fun _ => ⟨.separator, f, above⟩) ++
      ofStmt annotated above (.mk f cs notes l) ++
      ofStmts annotated separate (some f) above ss

end

def ofProgram (annotated : Bool) (errors : List String) (body : List Stmt) : List Site :=
  errors.map (fun e => ⟨.fault e, .program none errors, []⟩) ++ ofStmts annotated true none [] body

theorem map_line_separator (separate : Bool) (previous : Option Form) (f : Form) (above : List Form) :
    ((Stmt.separator separate previous f).map fun _ => (⟨.separator, f, above⟩ : Site)).map line =
      Stmt.separator separate previous f := by
  unfold Stmt.separator
  split
  · split <;> rfl
  · rfl

mutual

theorem map_line_ofStmt (annotated : Bool) (above : List Form) :
    (s : Stmt) → (ofStmt annotated above s).map line = s.lines annotated
  | .mk f cs notes _ => by
    have hchildren := map_line_ofStmts annotated f.isClass none (f :: above) cs
    rw [ofStmt, Stmt.lines, map_append]
    congr 1
    · cases annotated with
      | true => simp [Stmt.noteLines, line, Function.comp_def]
      | false => rfl
    · split
      · rfl
      · rw [map_append, map_append, hchildren]
        congr 1
        · simp [Form.opening, line, Function.comp_def]
        · unfold Form.closing
          split <;> rfl

theorem map_line_ofStmts (annotated separate : Bool) (previous : Option Form) (above : List Form) :
    (ss : List Stmt) → (ofStmts annotated separate previous above ss).map line =
      Stmt.linesOf annotated separate previous ss
  | [] => rfl
  | .mk f cs notes l :: ss => by
    rw [ofStmts, Stmt.linesOf, map_append, map_append, map_line_separator,
      map_line_ofStmt annotated above (.mk f cs notes l),
      map_line_ofStmts annotated separate (some f) above ss]

end

theorem map_line_ofProgram (annotated : Bool) (errors : List String) (body : List Stmt) :
    (ofProgram annotated errors body).map line = Layout.programLines annotated errors body := by
  rw [ofProgram, Layout.programLines, map_append, map_line_ofStmts]
  simp [line]

/-! ### Nesting -/

/-- Whether openers and closers are nested, each closer being that of the statement whose header
opened the block. -/
inductive Nested : List Site → Prop where
  | nil : Nested []
  | single {s : Site} {ss : List Site} : s.line.role ≠ .opener → s.line.role ≠ .closer →
    Nested ss → Nested (s :: ss)
  | block {f : Form} {above : List Form} {inner ss : List Site} : f.role = .opener →
    Nested inner → Nested ss →
    Nested (⟨.header, f, above⟩ :: (inner ++ ⟨.closer, f, above⟩ :: ss))

theorem Nested.append {ss ts} (hss : Nested ss) (hts : Nested ts) : Nested (ss ++ ts) := by
  induction hss with
  | nil => exact hts
  | single hopener hcloser _ ih => exact .single hopener hcloser ih
  | block hrole hinner _ _ ih =>
    rw [cons_append, append_assoc]
    exact .block hrole hinner ih

theorem nested_of_forall {ss} (h : ∀ s ∈ ss, s.line.role ≠ .opener ∧ s.line.role ≠ .closer) : Nested ss := by
  induction ss with
  | nil => exact .nil
  | cons s ss ih =>
    rw [forall_mem_cons] at h
    exact .single h.1.1 h.1.2 (ih h.2)

theorem role_cases (f : Form) : f.role = .opener ∨ f.role = .continuation ∨ f.role = .plain := by
  cases f <;> simp [Form.role]

theorem noteRole_cases (f : Form) : f.noteRole = .continuation ∨ f.noteRole = .plain := by
  unfold Form.noteRole
  split
  · exact .inl rfl
  · exact .inr rfl

mutual

theorem nested_ofStmt (annotated : Bool) (above : List Form) : (s : Stmt) → Nested (ofStmt annotated above s)
  | .mk f cs notes _ => by
    have hchildren := nested_ofStmts annotated f.isClass none (f :: above) cs
    have hkept : Nested (f.kept.map (⟨.kept ·, f, above⟩)) :=
      nested_of_forall (by simp [line])
    rw [ofStmt]
    refine .append ?_ ?_
    · split
      · refine nested_of_forall ?_
        rcases noteRole_cases f with h | h <;> simp [line, h]
      · exact .nil
    · split
      · exact .nil
      · split
        · next hrole =>
          rw [cons_append, cons_append]
          exact .block hrole (hkept.append hchildren) .nil
        · next hrole =>
          rw [List.append_nil, cons_append]
          have hcloser : f.role ≠ .closer := by rcases role_cases f with h | h | h <;> simp [h]
          exact .single hrole hcloser (hkept.append hchildren)

theorem nested_ofStmts (annotated separate : Bool) (previous : Option Form) (above : List Form) :
    (ss : List Stmt) → Nested (ofStmts annotated separate previous above ss)
  | [] => .nil
  | .mk f cs notes l :: ss => by
    rw [ofStmts]
    refine .append (.append (nested_of_forall ?_) (nested_ofStmt annotated above _))
      (nested_ofStmts annotated separate (some f) above ss)
    simp [line]

end

theorem nested_ofProgram (annotated : Bool) (errors : List String) (body : List Stmt) :
    Nested (ofProgram annotated errors body) :=
  .append (nested_of_forall (by simp [line])) (nested_ofStmts annotated true none [] body)

end Site

/-! ### The counter of open blocks -/

namespace Layout

def levelAfter (level : Nat) : Role → Nat
  | .opener => level + 1
  | .closer => level - 1
  | _ => level

def levelAfterAll : (level : Nat) → List Line → Nat
  | level, [] => level
  | level, l :: ls => levelAfterAll (levelAfter level l.role) ls

def levelOf (level : Nat) : Role → Nat
  | .closer | .continuation => level - 1
  | _ => level

def Unclamped : (level : Nat) → List Line → Prop
  | _, [] => True
  | level, l :: ls => (l.role = .closer → 0 < level) ∧ Unclamped (levelAfter level l.role) ls

def inked (width level : Nat) (l : Line) : List String :=
  if l.role = .blank then []
  else [indented width (levelOf level l.role) l.text].filter (· ≠ "")

def inkedAll (width : Nat) : (level : Nat) → List Line → List String
  | _, [] => []
  | level, l :: ls => inked width level l ++ inkedAll width (levelAfter level l.role) ls

theorem inkedAll_append (width level : Nat) (ls ms : List Line) :
    inkedAll width level (ls ++ ms) =
      inkedAll width level ls ++ inkedAll width (levelAfterAll level ls) ms := by
  induction ls generalizing level with
  | nil => rfl
  | cons l ls ih => simp [inkedAll, levelAfterAll, ih]

theorem levelAfterAll_append (level : Nat) (ls ms : List Line) :
    levelAfterAll level (ls ++ ms) = levelAfterAll (levelAfterAll level ls) ms := by
  induction ls generalizing level with
  | nil => rfl
  | cons l ls ih => exact ih _

theorem unclamped_append {level ls ms} :
    Unclamped level (ls ++ ms) ↔ Unclamped level ls ∧ Unclamped (levelAfterAll level ls) ms := by
  induction ls generalizing level with
  | nil => simp [Unclamped, levelAfterAll]
  | cons l ls ih => simp [Unclamped, levelAfterAll, ih, and_assoc]

theorem formatFrom_append (width level : Nat) (last : String) (ls ms : List Line) :
    ∃ last', formatFrom width level last (ls ++ ms) =
      formatFrom width level last ls ++ formatFrom width (levelAfterAll level ls) last' ms := by
  induction ls generalizing level last with
  | nil => exact ⟨last, rfl⟩
  | cons l ls ih =>
    obtain ⟨role, text⟩ := l
    cases role with
    | blank =>
      rw [cons_append, formatFrom, formatFrom]
      split
      · exact ih level last
      · obtain ⟨last', h⟩ := ih level ""
        exact ⟨last', congrArg _ h⟩
    | opener | closer | continuation | plain =>
      obtain ⟨last', h⟩ := ih _ _
      exact ⟨last', congrArg _ h⟩

theorem filter_formatFrom (width level : Nat) (last : String) (ls : List Line) :
    (formatFrom width level last ls).filter (· ≠ "") = inkedAll width level ls := by
  induction ls generalizing level last with
  | nil => rfl
  | cons l ls ih =>
    obtain ⟨role, text⟩ := l
    cases role with
    | blank =>
      rw [formatFrom]
      split
      · exact ih level last
      · exact ih level ""
    | opener | closer | continuation | plain =>
      rw [formatFrom, inkedAll, ← ih, ← singleton_append, filter_append]
      rfl

theorem filter_dropEmptyEnd (ls : List String) : (dropEmptyEnd ls).filter (· ≠ "") = ls.filter (· ≠ "") := by
  have hdrop : ∀ ls : List String, (ls.dropWhile (· == "")).filter (· ≠ "") = ls.filter (· ≠ "") := by
    intro ls
    induction ls with
    | nil => rfl
    | cons s ls ih => by_cases hs : s = "" <;> simp_all
  rw [dropEmptyEnd, filter_reverse, hdrop, filter_reverse, reverse_reverse]

theorem indented_of_blank (width level : Nat) {text}
    (h : text.toList.all isBlank = true) : indented width level text = "" := by
  have hall : ∀ c ∈ (spaces (width * level) ++ text.toList).reverse, isBlank c = true := by
    rw [reverse_append, forall_mem_append]
    refine ⟨by simpa using h, fun c hc => ?_⟩
    rw [eq_of_mem_replicate (mem_reverse.1 hc)]
    rfl
  rw [indented, trimEnd, dropWhile_eq_nil_iff.2 hall]
  rfl

theorem indented_of_ink (width level : Nat) {text} (h : ¬text.toList.all isBlank = true) :
    indented width level text = String.ofList (spaces (width * level) ++ trimEnd text.toList) ∧
      indented width level text ≠ "" := by
  have hink : text.toList.reverse.dropWhile isBlank ≠ [] := by
    simpa using h
  have htrim : trimEnd (spaces (width * level) ++ text.toList) = spaces (width * level) ++ trimEnd text.toList := by
    rw [trimEnd, reverse_append, dropWhile_append,
      if_neg (by simpa using hink), reverse_append, reverse_reverse]
    rfl
  rw [indented, htrim]
  refine ⟨rfl, ?_⟩
  rw [ne_eq, String.ofList_eq_empty_iff, append_eq_nil_iff, trimEnd, reverse_eq_nil_iff]
  exact fun hnil => hink hnil.2

end Layout

/-! ### The counter against the tree -/

namespace Site

open Layout

variable {width : Nat} {f : Form}

variable {ss : List Site}

theorem Nested.unclamped (h : Nested ss) (level : Nat) :
    Unclamped level (ss.map line) ∧ levelAfterAll level (ss.map line) = level := by
  induction h generalizing level with
  | nil => exact ⟨trivial, rfl⟩
  | @single s ss hopener hcloser _ ih =>
    have hlevel : levelAfter level s.line.role = level := by
      unfold levelAfter
      split <;> simp_all
    simp only [map_cons, Unclamped, levelAfterAll, hlevel, hcloser, false_implies, true_and]
    exact ih level
  | @block f above inner ss hrole _ _ ihinner ih =>
    obtain ⟨hinner, hafter⟩ := ihinner (level + 1)
    simp only [map_cons, map_append, line, Unclamped, levelAfterAll, hrole, levelAfter,
      unclamped_append, levelAfterAll_append, hinner, hafter, Nat.add_sub_cancel, Nat.succ_pos,
      reduceCtorEq, false_implies, true_and, implies_true]
    exact ih level

variable {s : Site}

theorem text_of_blank (h : s.line.role = .blank) : s.line.text = "" := by
  obtain ⟨part, f, above⟩ := s
  cases part with
  | separator => rfl
  | fault | kept | closer => cases h
  | note => rcases noteRole_cases f with hf | hf <;> simp [line, hf] at h
  | header => rcases role_cases f with hf | hf | hf <;> simp [line, hf] at h

theorem inked_line {level} (h : levelOf level s.line.role = s.level) :
    inked width level s.line = ([s].filter hasInk).map (shown width) := by
  by_cases hink : s.hasInk = true
  · have htext : ¬s.line.text.toList.all isBlank = true := by simpa [hasInk] using hink
    have hrole : s.line.role ≠ .blank := fun hblank => htext (by simp [text_of_blank hblank])
    obtain ⟨heq, hne⟩ := indented_of_ink width s.level htext
    rw [inked, if_neg hrole, h, filter_cons_of_pos (by simpa using hne), filter_cons_of_pos hink, heq]
    rfl
  · have htext : s.line.text.toList.all isBlank = true := by simpa [hasInk] using hink
    simp [inked, h, indented_of_blank width s.level htext, hink]

/-- Whether the lines of some statements, inside statements that open `depth` blocks, are laid out
as they are to be. -/
def LaidOut (width depth : Nat) (ss : List Site) : Prop :=
  inkedAll width depth (ss.map line) = (ss.filter hasInk).map (shown width)

theorem LaidOut.append {depth ts} (hss : LaidOut width depth ss)
    (hnested : Nested ss) (hts : LaidOut width depth ts) : LaidOut width depth (ss ++ ts) := by
  unfold LaidOut at *
  rw [map_append, inkedAll_append, (hnested.unclamped depth).2, hss, hts, filter_append, map_append]

theorem laidOut_of_forall {depth} (h : ∀ s ∈ ss, (s.line.role ≠ .opener ∧ s.line.role ≠ .closer) ∧ s.depth = depth) :
    LaidOut width depth ss := by
  induction ss with
  | nil => rfl
  | cons s ss ih =>
    rw [forall_mem_cons] at h
    obtain ⟨⟨⟨hopener, hcloser⟩, hdepth⟩, hss⟩ := h
    have hlevel : levelOf depth s.line.role = s.level := by
      unfold levelOf level
      split <;> simp_all
    have hafter : levelAfter depth s.line.role = depth := by
      unfold levelAfter
      split <;> simp_all
    have := ih hss
    unfold LaidOut at *
    rw [map_cons, inkedAll, hafter, this, inked_line hlevel, ← map_append, ← filter_append]
    rfl

theorem laidOut_block {above inner} (hrole : f.role = .opener)
    (hnested : Nested inner) (h : LaidOut width ((f :: above).countP (·.role = .opener)) inner) :
    LaidOut width (above.countP (·.role = .opener)) (⟨.header, f, above⟩ :: (inner ++ [⟨.closer, f, above⟩])) := by
  have hcount : (f :: above).countP (·.role = .opener) = above.countP (·.role = .opener) + 1 :=
    countP_cons_of_pos (by simpa using hrole)
  have hheader : levelOf (above.countP (·.role = .opener)) (line ⟨.header, f, above⟩).role =
      level ⟨.header, f, above⟩ := by simp [line, level, levelOf, hrole, depth]
  have hcloser : levelOf (above.countP (·.role = .opener) + 1) (line ⟨.closer, f, above⟩).role =
      level ⟨.closer, f, above⟩ := by simp [line, level, levelOf, depth]
  have hafter : levelAfter (above.countP (·.role = .opener)) (line ⟨.header, f, above⟩).role =
      above.countP (·.role = .opener) + 1 := by simp [line, levelAfter, hrole]
  rw [hcount] at h
  unfold LaidOut at h ⊢
  rw [map_cons, map_append, inkedAll, hafter, inkedAll_append, (hnested.unclamped _).2, h,
    map_singleton, inkedAll, inkedAll, append_nil, inked_line hheader,
    inked_line hcloser, ← map_append, ← map_append, ← filter_append,
    ← filter_append]
  rfl

theorem kept_of_opener (h : f.role = .opener) : f.kept = [] := by
  cases f <;> simp_all [Form.role, Form.kept]

mutual

theorem laidOut_ofStmt (annotated : Bool) (width : Nat) (above : List Form) :
    (s : Stmt) → LaidOut width (above.countP (·.role = .opener)) (ofStmt annotated above s)
  | .mk f cs notes _ => by
    have hnested := nested_ofStmts annotated f.isClass none (f :: above) cs
    have hchildren := laidOut_ofStmts annotated width f.isClass none (f :: above) cs
    have hnotes : ∀ s ∈ (if annotated then notes.map fun n => ⟨.note n, f, above⟩ else [] : List Site),
        (s.line.role ≠ .opener ∧ s.line.role ≠ .closer) ∧ s.depth = above.countP (·.role = .opener) := by
      split
      · rcases noteRole_cases f with h | h <;> simp [line, depth, h]
      · simp
    rw [ofStmt]
    refine .append (laidOut_of_forall hnotes) (nested_of_forall fun s hs => (hnotes s hs).1) ?_
    split
    · rfl
    · split
      · next hrole =>
        rw [kept_of_opener hrole]
        exact laidOut_block hrole hnested hchildren
      · next hrole =>
        have hcount : (f :: above).countP (·.role = .opener) = above.countP (·.role = .opener) :=
          List.countP_cons_of_neg (by simpa using hrole)
        have hcloser : f.role ≠ .closer := by rcases role_cases f with h | h | h <;> simp [h]
        have hopening : ∀ s ∈ (⟨.header, f, above⟩ :: f.kept.map (⟨.kept ·, f, above⟩) : List Site),
            (s.line.role ≠ .opener ∧ s.line.role ≠ .closer) ∧ s.depth = above.countP (·.role = .opener) := by
          simp [line, depth, hrole, hcloser]
        rw [List.append_nil]
        refine .append (laidOut_of_forall hopening) ?_ (hcount ▸ hchildren)
        exact nested_of_forall fun s hs => (hopening s hs).1

theorem laidOut_ofStmts (annotated : Bool) (width : Nat) (separate : Bool)
    (previous : Option Form) (above : List Form) :
    (ss : List Stmt) → LaidOut width (above.countP (·.role = .opener)) (ofStmts annotated separate previous above ss)
  | [] => rfl
  | .mk f cs notes l :: ss => by
    have hseparator : ∀ s ∈ (Stmt.separator separate previous f).map fun _ => (⟨.separator, f, above⟩ : Site),
        (s.line.role ≠ .opener ∧ s.line.role ≠ .closer) ∧ s.depth = above.countP (·.role = .opener) := by
      simp [line, depth]
    have hfirst := nested_of_forall fun s hs => (hseparator s hs).1
    have hstmt := nested_ofStmt annotated above (.mk f cs notes l)
    rw [ofStmts]
    refine .append (.append (laidOut_of_forall hseparator) hfirst ?_) (hfirst.append hstmt) ?_
    · exact laidOut_ofStmt annotated width above _
    · exact laidOut_ofStmts annotated width separate (some f) above ss

end

theorem laidOut_ofProgram (annotated : Bool) (width : Nat) (errors : List String)
    (body : List Stmt) : LaidOut width 0 (ofProgram annotated errors body) := by
  refine .append (laidOut_of_forall ?_) (nested_of_forall ?_) (laidOut_ofStmts annotated width true none [] body)
  · simp [line, depth]
  · simp [line]

theorem filter_format (width : Int) (annotated : Bool) (errors : List String) (body : List Stmt) :
    (Layout.format width (Layout.programLines annotated errors body)).filter (· ≠ "") =
      ((ofProgram annotated errors body).filter hasInk).map (shown width.toNat) := by
  rw [Layout.format, Layout.filter_dropEmptyEnd, Layout.filter_formatFrom, ← map_line_ofProgram]
  exact laidOut_ofProgram ..

end Site

open Site in
/-- Every line of a program belongs to a statement. Openers and closers are nested, each closer being
that of its own opener. The lines are laid out with a counter of open blocks, which is not zero before
a closer and is zero at the end. The lines that are not blank are laid out in order, each indented by
the blocks opened around its statement, less one for what continues a block; and a closer is indented
like the header of its statement. -/
theorem layout_follows_blocks (options : Options) (errors : List String) (body : List Stmt) :
    let sites := ofProgram options.annotationComments errors body
    let lines := Layout.programLines options.annotationComments errors body
    let width := options.indentWidth.toNat
    sites.map line = lines ∧ Nested sites ∧ (∀ before after, lines = before ++ after → ∃ last,
        Layout.formatFrom width 0 "" lines = Layout.formatFrom width 0 "" before ++
          Layout.formatFrom width (Layout.levelAfterAll 0 before) last after) ∧
      Layout.Unclamped 0 lines ∧ Layout.levelAfterAll 0 lines = 0 ∧
      (Layout.format options.indentWidth lines).filter (· ≠ "") = (sites.filter hasInk).map (shown width) ∧
      ∀ (f : Form) (above : List Form), f.role = .opener → level ⟨.closer, f, above⟩ = level ⟨.header, f, above⟩ := by
  intro sites lines width
  have hlines : sites.map line = lines := map_line_ofProgram ..
  have hnested : Nested sites := nested_ofProgram ..
  obtain ⟨hunclamped, hafter⟩ := hnested.unclamped 0
  rw [hlines] at hunclamped hafter
  refine ⟨hlines, hnested, ?_, hunclamped, hafter, ?_, ?_⟩
  · intro before after hsplit
    rw [hsplit]
    exact Layout.formatFrom_append ..
  · exact filter_format ..
  · intro f above hrole
    simp [level, line, hrole, depth]

end Blackboard.Pseudo
