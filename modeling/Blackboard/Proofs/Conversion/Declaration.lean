import Blackboard.Proofs.Conversion.Frame

/-!
What a declaration leaves behind. A variable that starts as a literal is declared in the same way wherever
its declaration stands. A callable is known from the start, so its definition changes nothing for what
follows it, as long as it returns what was assumed of it.
-/
namespace Blackboard

open List
open Source (Expr Callable TypeRef)

namespace Scopes

/-! ### Several variables -/

def declareAll (vs : List Variable) (s : Scopes) : Scopes := vs.foldl (fun s v => s.declareVariable v) s

variable {s t : Scopes}

theorem declareAll_cons (v : Variable) (vs : List Variable) (s : Scopes) :
    s.declareAll (v :: vs) = (s.declareVariable v).declareAll vs := rfl

theorem declareAll_append (vs ws : List Variable) (s : Scopes) :
    s.declareAll (vs ++ ws) = (s.declareAll vs).declareAll ws := foldl_append

theorem Sound.declareVariable (h : s.Sound) (v : Variable) : (s.declareVariable v).Sound :=
  h.modifyCurrent fun _ => rfl

theorem Sound.declareAll (h : s.Sound) (vs : List Variable) : (s.declareAll vs).Sound := by
  induction vs generalizing s with
  | nil => exact h
  | cons v vs ih => exact ih (h.declareVariable v)

theorem Sound.findVariable?_declareVariable (h : s.Sound) (v : Variable) :
    (s.declareVariable v).findVariable? v.name = some v := by
  obtain ⟨scope, around, -, hchain, -⟩ := h.exists_chain
  rw [findVariable?_eq, h.chain_declareVariable v hchain, variableIn_put, if_pos rfl]

theorem Sound.findCallable?_declareAll (h : s.Sound) (vs : List Variable) (name : String) :
    (s.declareAll vs).findCallable? name = s.findCallable? name := by
  induction vs generalizing s with
  | nil => rfl
  | cons v vs ih =>
    obtain ⟨scope, around, -, hchain, -⟩ := h.exists_chain
    rw [declareAll_cons, ih (h.declareVariable v), findCallable?_eq, h.chain_declareVariable v hchain,
      callableIn_vars, findCallable?_eq, hchain]

namespace Alike

theorem declareAll (h : Alike s t) (vs : List Variable) : Alike (s.declareAll vs) (t.declareAll vs) := by
  induction vs generalizing s t with
  | nil => exact h
  | cons v vs ih => exact ih (h.declareVariable v)

theorem declareVariable_comm (h : s.Sound) {v w} (hne : v.name ≠ w.name) :
    Alike ((s.declareVariable v).declareVariable w) ((s.declareVariable w).declareVariable v) := by
  obtain ⟨scope, around, -, hchain, -⟩ := h.exists_chain
  have hv := h.chain_declareVariable v hchain
  have hw := h.chain_declareVariable w hchain
  refine ⟨(h.declareVariable v).declareVariable w, (h.declareVariable w).declareVariable v, ?_⟩
  rw [Resembles, (h.declareVariable v).chain_declareVariable w hv, (h.declareVariable w).chain_declareVariable v hw]
  refine .cons rfl (fun n => ?_) (fun _ => rfl) (.refl around)
  simp only [Table.lookup_put]
  by_cases hn : n = v.name
  · have hn' : n ≠ w.name := fun h => hne (hn.symm.trans h)
    rw [if_neg hn', if_pos hn, if_pos hn]
  · rw [if_neg hn, if_neg hn]

theorem declareAll_perm {vs ws} (hperm : vs.Perm ws) (h : Alike s t)
    (hnames : (vs.map (·.name)).Nodup) : Alike (s.declareAll vs) (t.declareAll ws) := by
  induction hperm generalizing s t with
  | nil => exact h
  | cons v _ ih => exact ih (h.declareVariable v) (nodup_cons.1 hnames).2
  | swap v w vs =>
    have hne : w.name ≠ v.name := by
      rw [map_cons, nodup_cons] at hnames
      exact fun heq => hnames.1 (mem_cons.2 (.inl heq))
    exact ((declareVariable_comm h.left hne).trans ((h.declareVariable v).declareVariable w)).declareAll vs
  | trans hvs _ ih ih' =>
    exact (ih h hnames).trans (ih' (.refl h.right) ((hvs.map _).nodup_iff.1 hnames))

theorem declareAgain (h : s.Sound) {p} (hknown : (s.findCallable? p.name).map (·.returns) = some p.returns) :
    Alike s (s.declareCallable p) := by
  obtain ⟨scope, around, -, hchain, -⟩ := h.exists_chain
  refine ⟨h, h.modifyCurrent fun _ => rfl, ?_⟩
  rw [Resembles, h.chain_declareCallable p hchain, hchain]
  rw [findCallable?_eq, hchain] at hknown
  exact AlikeChain.declareAgain around hknown

end Alike

end Scopes

namespace Source

def TemplatePart.isText : TemplatePart → Bool
  | .text _ => true
  | .hole _ => false

mutual

def Expr.isLiteral : Expr → Bool
  | .number .. | .string .. | .char .. | .boolean .. | .null _ => true
  | .unary _ .neg (.number ..) => true
  | .template _ parts => parts.all TemplatePart.isText
  | .array _ items => areLiterals items
  | _ => false

def areLiterals : List Expr → Bool
  | [] => true
  | e :: es => e.isLiteral && areLiterals es

end

end Source

def Pseudo.Form.declaredName? : Form → Option String
  | .variable_ name _ | .constant name _ | .procedure name _ | .function name _ _ => some name
  | _ => none

namespace Conversion

/-- From `s` to `t` variables were declared and notes were made. -/
structure State.Declares (vs : List Variable) (ns : List String) (s t : State) : Prop where
  scopes : t.scopes = s.scopes.declareAll vs
  notes : t.notes = s.notes ++ ns
  typeNames : t.typeNames = s.typeNames
  enumNames : t.enumNames = s.enumNames

theorem State.Declares.trans {vs ws ns ms s t u}
    (h : Declares vs ns s t) (h' : Declares ws ms t u) : Declares (vs ++ ws) (ns ++ ms) s u where
  scopes := by rw [h'.scopes, h.scopes, Scopes.declareAll_append]
  notes := by rw [h'.notes, h.notes, append_assoc]
  typeNames := h'.typeNames.trans h.typeNames
  enumNames := h'.enumNames.trans h.enumNames

end Conversion

namespace Convert

open Conversion Ensures
open Pseudo (Kind Stmt normalize Param)
open Source (Span)

variable {α β : Type} {c : Context}
variable {init : Option Expr} {f : Callable}

/-! ### Steps that are the same everywhere -/

/-- Wherever a step is taken, it has the same result, declares the same variables and makes the same
notes, if it does not fail. -/
def Uniform (c : Context) (act : Convert α) (a : α) (vs : List Variable) (ns : List String) : Prop :=
  ∀ s : State, s.scopes.Sound → Ensures True act c s fun b t => b = a ∧ s.Declares vs ns t

namespace Uniform

theorem pure (a : α) : Uniform c (pure a) a [] [] := fun _ _ => ⟨rfl, rfl, by simp, rfl, rfl⟩

theorem read : Uniform c read c [] [] := fun _ _ => ⟨rfl, rfl, by simp, rfl, rfl⟩

theorem throw (e : Fault) (a : α) : Uniform c (throw e) a [] [] := fun _ _ => trivial

theorem note (text : String) : Uniform c (note text) () [] [text] := fun _ _ => ⟨rfl, rfl, rfl, rfl, rfl⟩

theorem report (d : Diagnostic) : Uniform c (report d) () [] [] := fun _ _ => ⟨rfl, rfl, by simp, rfl, rfl⟩

theorem bind {x : Convert α} {f : α → Convert β} {a : α} {b : β} {vs ws : List Variable}
    {ns ms : List String} (hx : Uniform c x a vs ns) (hf : Uniform c (f a) b ws ms) :
    Uniform c (x >>= f) b (vs ++ ws) (ns ++ ms) := by
  intro s hs
  rw [bind_iff]
  refine (hx s hs).mono fun a' t ⟨ha, ht⟩ => ?_
  subst ha
  refine (hf t (by rw [ht.scopes]; exact hs.declareAll vs)).mono fun b' u ⟨hb, hu⟩ => ⟨hb, ht.trans hu⟩

theorem view_bind {f : View → Convert α} {a : α} {vs : List Variable} {ns : List String}
    (h : ∀ v : View, v.language = c.language → Uniform c (f v) a vs ns) :
    Uniform c (view >>= f) a vs ns := fun s hs => h _ rfl s hs

theorem ite {p} [Decidable p] {x y ns ms} (hx : Uniform c x () [] ns) (hy : Uniform c y () [] ms) :
    Uniform c (if p then x else y) () [] (if p then ns else ms) := by
  split
  · exact hx
  · exact hy

end Uniform

/-! ### Notes -/

/-- What a step notes that makes remarks about a place does not depend on the place. -/
def Notes (c : Context) (act : Span → Convert Unit) : Prop :=
  ∃ ns, ∀ span, Uniform c (act span) () [] ns

namespace Notes

theorem pure : Notes c fun _ => pure () := ⟨[], fun _ => .pure ()⟩

theorem note_bind (text : String) {f : Span → Convert Unit} (h : Notes c f) :
    Notes c fun span => note text >>= fun _ => f span := by
  obtain ⟨ns, hns⟩ := h
  exact ⟨text :: ns, fun span => (Uniform.note text).bind (hns span)⟩

theorem note (text : String) : Notes c fun _ => note text := ⟨[text], fun _ => .note text⟩

theorem report_bind (d : Span → Diagnostic) {f : Span → Convert Unit} (h : Notes c f) :
    Notes c fun span => report (d span) >>= fun _ => f span := by
  obtain ⟨ns, hns⟩ := h
  exact ⟨ns, fun span => (Uniform.report (d span)).bind (hns span)⟩

theorem ite {p} [Decidable p] {f g} (hf : Notes c f) (hg : Notes c g) :
    Notes c fun span => if p then f span else g span := by
  obtain ⟨ns, hns⟩ := hf
  obtain ⟨ms, hms⟩ := hg
  exact ⟨_, fun span => (hns span).ite (hms span)⟩

end Notes

theorem droppedNotes_notes (typeParams decorators : List String) :
    Notes c fun span => droppedNotes span typeParams decorators :=
  have hdecorators := .ite (.report_bind _ (.note _)) .pure
  .ite (.report_bind _ (.note_bind _ hdecorators)) hdecorators

theorem classNotes_notes (name : String) (superclass : Option TypeRef)
    (interfaces : List TypeRef) (modifiers typeParams decorators : List String) :
    Notes c fun span => classNotes span name superclass interfaces modifiers typeParams decorators := by
  have hdropped : Notes c fun span => droppedNotes span typeParams decorators :=
    droppedNotes_notes typeParams decorators
  have habstract := Notes.ite (p := modifiers.contains "abstract" = true)
    (.note_bind s!"{name} is abstract" hdropped) hdropped
  have hinterfaces := Notes.ite (p := (!interfaces.isEmpty) = true)
    (.note_bind s!"{name} implements {typeTexts interfaces}" habstract) habstract
  cases superclass with
  | none => exact .report_bind _ hinterfaces
  | some t => exact .report_bind _ (.note_bind _ hinterfaces)

theorem callableNotes_notes (f : Callable) (owner : Option String) :
    ∃ ns, Uniform c (callableNotes f owner) () [] ns := by
  obtain ⟨dropped, hdropped⟩ : Notes c fun span => droppedNotes span f.typeParams f.decorators :=
    droppedNotes_notes f.typeParams f.decorators
  unfold callableNotes
  extract_lets rest abstract async static
  have habstract : ∀ r, Uniform c (abstract r) () [] _ := fun _ =>
    .ite ((Uniform.note _).bind (hdropped f.span)) (hdropped f.span)
  have hasync : ∀ r, Uniform c (async r) () [] _ := fun _ =>
    .ite ((Uniform.report _).bind ((Uniform.note _).bind (habstract ()))) (habstract ())
  have hstatic : ∀ r, Uniform c (static r) () [] _ := fun _ =>
    .ite ((Uniform.note _).bind (hasync ())) (hasync ())
  split
  · exact ⟨_, (Uniform.note _).bind (hstatic ())⟩
  · exact ⟨_, hstatic ()⟩

/-! ### Literals -/

theorem number_uniform (span : Span) (value : Numeral) (raw : String) :
    ∃ a, Uniform c (number span value raw) a [] [] := by
  unfold number
  split
  · exact ⟨_, .pure _⟩
  · exact ⟨nothing none, .throw _ _⟩

theorem templateItems_uniform (line : Option Nat) : {parts : List Source.TemplatePart} →
    parts.all Source.TemplatePart.isText = true → ∃ es, Uniform c (templateItems line parts) es [] []
  | [], _ => by rw [templateItems]; exact ⟨_, .pure _⟩
  | .text s :: parts, h => by
    have hparts : parts.all Source.TemplatePart.isText = true := h
    obtain ⟨es, hes⟩ := templateItems_uniform line hparts
    rw [templateItems]
    exact ⟨_, hes.bind (.pure _)⟩

mutual

theorem expr_uniform : {e : Expr} → e.isLiteral = true → ∃ a ns, Uniform c (expr e) a [] ns
  | .number span value raw, _ => by
    obtain ⟨a, ha⟩ := number_uniform (c := c) span value raw
    rw [expr]
    exact ⟨a, [], ha⟩
  | .string .., _ | .char .., _ | .boolean .., _ | .null .., _ => by rw [expr]; exact ⟨_, [], .pure _⟩
  | .unary s .neg (.number span value raw), _ => by
    obtain ⟨a, ha⟩ := number_uniform (c := c) span value raw
    rw [expr, expr]
    exact ⟨negated s a, [], ha.bind (.pure _)⟩
  | .template span parts, h => by
    rw [Source.Expr.isLiteral] at h
    obtain ⟨es, hes⟩ := templateItems_uniform (c := c) (some span.line) h
    rw [expr]
    exact ⟨_, _, (Uniform.report _).bind ((Uniform.note _).bind (hes.bind (.pure _)))⟩
  | .array span items, h => by
    rw [Source.Expr.isLiteral] at h
    obtain ⟨es, ns, hes⟩ := exprs_uniform h
    rw [expr]
    exact ⟨_, _, hes.bind (.pure _)⟩

theorem exprs_uniform : {es : List Expr} → Source.areLiterals es = true → ∃ as ns, Uniform c (exprs es) as [] ns
  | [], _ => by rw [exprs]; exact ⟨_, _, .pure _⟩
  | e :: es, h => by
    rw [Source.areLiterals, Bool.and_eq_true] at h
    obtain ⟨a, ns, ha⟩ := expr_uniform h.1
    obtain ⟨as, ms, has⟩ := exprs_uniform h.2
    rw [exprs]
    exact ⟨_, _, ha.bind (has.bind (.pure _))⟩

end

theorem infer_literal (v w : View) : {e : Expr} → e.isLiteral = true → infer v e = infer w e
  | .number _ (.int _) _, _ | .number _ (.real _) _, _ => by rw [infer, infer]
  | .string .., _ | .char .., _ | .boolean .., _ | .null .., _ | .template .., _ | .array _ [], _ => by
    rw [infer, infer]
  | .unary _ .neg (.number _ (.int _) _), _ | .unary _ .neg (.number _ (.real _) _), _ => by
    simp only [infer]
  | .array _ (item :: items), h => by
    rw [Expr.isLiteral, Source.areLiterals, Bool.and_eq_true] at h
    rw [infer, infer, infer_literal v w h.1]

theorem initialSizes_literal (h : init.all (·.isLiteral) = true) : ∃ sizes, initialSizes init = pure sizes := by
  unfold initialSizes
  split
  · cases h
  · cases h
  · exact ⟨_, rfl⟩
  · exact ⟨_, rfl⟩

theorem declaredKind_uniform (name : String) (type : Option TypeRef)
    (h : init.all (·.isLiteral) = true) (span : Span) :
    ∃ k, Uniform c (declaredKind name type init span) k [] [] := by
  have hinfer (v : View) : init.bind (infer v) = init.bind (infer ⟨c.language, {}, []⟩) := by
    cases init with
    | none => rfl
    | some e => exact infer_literal _ _ h
  obtain ⟨sizes, hsizes⟩ := initialSizes_literal h
  have hknown (k : Kind) : Uniform c (return k.withSizes (← initialSizes init)) (k.withSizes sizes) [] [] := by
    rw [hsizes]
    exact .pure _
  cases hinferred : isInferred c.language type with
  | true =>
    cases hkind : init.bind (infer ⟨c.language, {}, []⟩) with
    | none =>
      refine ⟨unknownKind.withSizes sizes, .view_bind fun v hv => ?_⟩
      simp only [hv, hinferred, hinfer, hkind]
      exact (Uniform.report _).bind (hknown unknownKind)
    | some k =>
      refine ⟨k.withSizes sizes, .view_bind fun v hv => ?_⟩
      simp only [hv, hinferred, hinfer, hkind]
      exact hknown k
  | false =>
    cases type with
    | none => cases hinferred
    | some t =>
      cases hfallback : (normalize c.language t).fallback with
      | true =>
        refine ⟨(normalize c.language t).withSizes sizes, .view_bind fun v hv => ?_⟩
        simp only [hv, hinferred, hfallback, if_true]
        exact (Uniform.report _).bind (hknown (normalize c.language t))
      | false =>
        refine ⟨(refine c.language (normalize c.language t) init).withSizes sizes, .view_bind fun v hv => ?_⟩
        simp only [hv, hinferred, hfallback, Bool.false_eq_true, if_false]
        exact hknown (refine c.language (normalize c.language t) init)

/-! ### Variables -/

theorem declareVariable_uniform (v : Variable) : Uniform c (declareVariable v) () [v] [] :=
  fun _ _ => ⟨rfl, rfl, by simp, rfl, rfl⟩

theorem arrayElements_uniform (name : String) (span : Span) (path : List Nat) (i : Nat)
    {items : List Expr} (h : Source.areLiterals items = true) :
    ∃ ss ns, (∀ t ∈ ss, t.form.declaredName? = none) ∧ Uniform c (arrayElements name span path i items) ss [] ns := by
  fun_induction arrayElements name span path i items with
  | case1 => exact ⟨[], [], forall_mem_nil _, .pure _⟩
  | case2 path i s inner items ihinner ihitems =>
    rw [Source.areLiterals, Bool.and_eq_true] at h
    obtain ⟨ss, ns, hss, hinner⟩ := ihinner h.1
    obtain ⟨ss', ns', hss', hitems⟩ := ihitems h.2
    exact ⟨_, _, forall_mem_append.2 ⟨hss, hss'⟩, hinner.bind (hitems.bind (.pure _))⟩
  | case3 path i item items _ ihitems =>
    rw [Source.areLiterals, Bool.and_eq_true] at h
    obtain ⟨value, ns, hvalue⟩ := expr_uniform (c := c) h.1
    obtain ⟨ss, ns', hss, hitems⟩ := ihitems h.2
    exact ⟨_, _, forall_mem_cons.2 ⟨rfl, hss⟩, hvalue.bind (hitems.bind (.pure _))⟩

theorem startValue_literal (name : String) (span : Span) : {e : Expr} → e.isLiteral = true →
    (∀ s items, e ≠ .array s items) → startValue name span e = do
      let target ← Convert.name name span
      return [assign target (← expr e) span]
  | .array s items, _, h => absurd rfl (h s items)
  | .number .., _, _ | .string .., _, _ | .char .., _, _ | .boolean .., _, _ | .null .., _, _
  | .unary _ .neg (.number ..), _, _ | .template .., _, _ => by
    simp only [startValue, isEmptyList, assignValue, View.input?, Bool.false_eq_true, if_false]
    rw [expr]
    rfl

theorem name_ensures (v : Variable) (hcount : v.oneBased = false) (span : Span) :
    ∃ e, ∀ s : State, s.scopes.findVariable? v.name = some v →
      Ensures True (name v.name span) c s fun a t => a = e ∧ t = s := by
  unfold name
  split
  · exact ⟨_, fun s _ => ⟨rfl, rfl⟩⟩
  · split
    · exact ⟨_, fun s _ => ⟨rfl, rfl⟩⟩
    · refine ⟨declaredName v.name span, fun s hs => ?_⟩
      unfold variableName
      simp only [bind_iff, get_iff, hs]
      simp only [Option.any_some, hcount, Bool.false_and, Bool.false_eq_true, if_false]
      exact ⟨rfl, rfl⟩

theorem startValue_uniform {v : Variable} (hcount : v.oneBased = false) (span : Span) {e : Expr}
    (h : e.isLiteral = true) :
    ∃ ss ns, (∀ t ∈ ss, t.form.declaredName? = none) ∧
      Uniform c (do declareVariable v; startValue v.name span e) ss [v] ns := by
  by_cases harray : ∃ s items, e = .array s items
  · obtain ⟨s, items, rfl⟩ := harray
    obtain ⟨ss, ns, hss, hitems⟩ := arrayElements_uniform (c := c) v.name span [] 1 h
    exact ⟨ss, ns, hss, (declareVariable_uniform v).bind hitems⟩
  · obtain ⟨target, htarget⟩ := name_ensures (c := c) v hcount span
    obtain ⟨value, ns, hvalue⟩ := expr_uniform (c := c) h
    refine ⟨[assign target value span], ns, forall_mem_singleton.2 rfl, fun s hs => ?_⟩
    rw [bind_iff, declareVariable_iff,
      startValue_literal _ _ h fun s items heq => harray ⟨s, items, heq⟩, bind_iff]
    refine (htarget _ (hs.findVariable?_declareVariable v)).mono fun a t ⟨ha, ht⟩ => ?_
    subst ha ht
    rw [bind_iff]
    refine (hvalue _ (hs.declareVariable v)).mono fun b u ⟨hb, hu⟩ => ?_
    subst hb
    exact ⟨rfl, hu.scopes, hu.notes, hu.typeNames, hu.enumNames⟩

/-- A step that declares variables of the given names, and nothing else, in the same way everywhere. -/
def Introduces (c : Context) (names : List String) (act : Convert (List Stmt)) : Prop :=
  ∃ ss vs ns, vs.map (·.name) = names ∧
    (∀ t ∈ ss, ∀ n, t.form.declaredName? = some n → n ∈ names) ∧ Uniform c act ss vs ns

namespace Introduces

theorem after {x : Convert α} {a : α} {ns : List String} (hx : Uniform c x a [] ns)
    {f : α → Convert (List Stmt)} {names : List String} (hf : Introduces c names (f a)) :
    Introduces c names (x >>= f) := by
  obtain ⟨ss, vs, ms, hnames, hdeclares, huniform⟩ := hf
  exact ⟨ss, vs, ns ++ ms, hnames, hdeclares, hx.bind huniform⟩

theorem append {x y : Convert (List Stmt)} {names names' : List String}
    (hx : Introduces c names x) (hy : Introduces c names' y) :
    Introduces c (names ++ names') (do return (← x) ++ (← y)) := by
  obtain ⟨ss, vs, ns, hnames, hdeclares, huniform⟩ := hx
  obtain ⟨ss', vs', ns', hnames', hdeclares', huniform'⟩ := hy
  refine ⟨ss ++ ss', vs ++ (vs' ++ []), ns ++ (ns' ++ []), by simp [hnames, hnames'], ?_,
    huniform.bind (huniform'.bind (.pure _))⟩
  intro t ht n hn
  rw [mem_append] at ht ⊢
  exact ht.imp (hdeclares t · n hn) (hdeclares' t · n hn)

end Introduces

theorem declarePlain_introduces (name : String) (span : Span) (type : Option TypeRef)
    (h : init.all (·.isLiteral) = true) (isConstant : Bool) :
    Introduces c [name] (declarePlain name span type init isConstant) := by
  obtain ⟨k, hk⟩ := declaredKind_uniform (c := c) name type h span
  refine .after hk ?_
  have hdeclares {f : Pseudo.Form} {line : Option Nat} (hf : f.declaredName? = some name) :
      ∀ n, (Stmt.simple f line).form.declaredName? = some n → n ∈ [name] := by
    intro n hn
    exact mem_singleton.2 (Option.some.inj (hn.symm.trans hf))
  have hplain (v : Variable) (hv : v.name = name) (hcount : v.oneBased = false) {e : Expr}
      (he : e.isLiteral = true) : Introduces c [name] do
        declareVariable v
        let rest ← startValue name span e
        return .simple (.variable_ name k.text) (some span.line) :: rest := by
    subst hv
    obtain ⟨rest, ns, hrest, huniform⟩ := startValue_uniform (c := c) hcount span he
    have huniform := huniform.bind
      (f := fun rest => pure (.simple (.variable_ v.name k.text) (some span.line) :: rest)) (.pure _)
    refine ⟨_, [v], _, rfl, forall_mem_cons.2 ⟨hdeclares rfl, fun t ht n hn => ?_⟩, huniform⟩
    rw [hrest t ht] at hn
    cases hn
  cases init with
  | none =>
    rw [show (isConstant && isConstantValue none && !k.isArray) = false by simp [isConstantValue]]
    exact ⟨_, [_], [], rfl, forall_mem_singleton.2 (hdeclares rfl), (declareVariable_uniform _).bind (.pure _)⟩
  | some e =>
    cases isConstant && isConstantValue (some e) && !k.isArray with
    | true =>
      obtain ⟨value, ns, hvalue⟩ := expr_uniform (c := c) (e := e) h
      exact ⟨_, [_], _, rfl, forall_mem_singleton.2 (hdeclares rfl),
        hvalue.bind ((declareVariable_uniform _).bind (.pure _))⟩
    | false => exact hplain _ rfl rfl h

theorem declarator_introduces (d : Source.Declarator) (common : Option TypeRef)
    (h : d.init.all (·.isLiteral) = true) (isConstant : Bool) :
    Introduces c [d.name] (declarator d common isConstant none) := by
  refine .after .read ?_
  dsimp only
  split
  · refine ⟨_, [_], [], rfl, ?_, (declareVariable_uniform _).bind (.pure _)⟩
    exact forall_mem_singleton.2 nofun
  · next h => cases h
  · exact declarePlain_introduces _ _ _ h _

theorem valueOf?_literal (name : String) (span : Span) (h : init.all (·.isLiteral) = true) :
    valueOf? name span init = none := by
  unfold valueOf?
  split
  · cases h
  · cases h
  · rfl

theorem declarators_introduces (type : Option TypeRef) (isConstant : Bool)
    (ds : List Source.Declarator) (h : ∀ d ∈ ds, d.init.all (·.isLiteral) = true) :
    Introduces c (ds.map (·.name)) (declarators type isConstant ds) := by
  induction ds with
  | nil =>
    exact ⟨[], [], [], rfl, nofun, .pure _⟩
  | cons d ds ih =>
    obtain ⟨hd, hds⟩ := forall_mem_cons.1 h
    obtain ⟨span, name, own, extra, init⟩ := d
    rw [declarators, valueOf?_literal name span hd]
    exact (declarator_introduces _ type hd isConstant).append (ih hds)

theorem varDecl_introduces (v : Source.VarDecl) (h : ∀ d ∈ v.declarators, d.init.all (·.isLiteral) = true) :
    Introduces c (v.declarators.map (·.name)) (stmt (.varDecl v)) := by
  obtain ⟨span, ds, type, modifiers, kind⟩ := v
  have hds := declarators_introduces (c := c) type (isConstantDecl modifiers kind) ds h
  rw [stmt, varDecl]
  split
  · exact .after (.note _) hds
  · exact hds

theorem declaredName?_of_mem_attach {notes line ss t} (ht : t ∈ attach notes line ss) {n} (hn : t.form.declaredName? = some n) :
    ∃ u ∈ ss, u.form.declaredName? = some n := by
  cases ss with
  | nil =>
    obtain ⟨text, -, rfl⟩ := mem_map.1 ht
    cases hn
  | cons s ss =>
    rw [attach] at ht
    split at ht
    · exact ⟨t, ht, hn⟩
    · rcases mem_cons.1 ht with rfl | ht
      · exact ⟨s, mem_cons_self, by cases s; exact hn⟩
      · exact ⟨t, mem_cons_of_mem _ ht, hn⟩

theorem Introduces.uniform_statement {kind act names} (h : Introduces { c with statement := kind } names act) (span : Span) :
    ∃ ss vs, vs.map (·.name) = names ∧ (∀ t ∈ ss, ∀ n, t.form.declaredName? = some n → n ∈ names) ∧
      Uniform c (statement kind span act) ss vs [] := by
  obtain ⟨ss, vs, ns, hnames, hdeclares, huniform⟩ := h
  refine ⟨attach ns.eraseDups span.line ss, vs, hnames, fun t ht n hn => ?_, fun s hs => ?_⟩
  · obtain ⟨u, hu, hn⟩ := declaredName?_of_mem_attach ht hn
    exact hdeclares u hu n hn
  · rw [statement_iff]
    refine (huniform { s with notes := [] } hs).mono fun ss' t ⟨hss, ht⟩ => ?_
    subst hss
    rw [ht.notes]
    exact ⟨rfl, ht.scopes, (append_nil _).symm, ht.typeNames, ht.enumNames⟩

/-! ### Callables -/

/-- What a callable turns out to return is what was assumed of it, or else it was assumed to return a
text because its heading does not say. -/
theorem returnKind_assumed (f : Callable) (name : String) (s : State) :
    Ensures True (returnKind f name) c s fun k _ => k.map (·.text) = quietReturn c.language f ∨
      (f.result = none ∧ f.isConstructor = false ∧ k.isSome = true ∧ quietReturn c.language f = some "STRING") := by
  unfold returnKind quietReturn
  rw [bind_iff, view_iff]
  cases f.isConstructor with
  | true => exact Or.inl rfl
  | false =>
    rw [if_neg Bool.false_ne_true]
    cases f.result with
    | some t =>
      dsimp only
      by_cases hvoid : Pseudo.isVoid (some t) = true
      · rw [if_pos hvoid, if_pos hvoid]
        exact Or.inl rfl
      · rw [if_neg hvoid]
        split
        · exact Or.inl rfl
        · exact Or.inl rfl
    | none =>
      cases returnedValues f with
      | nil => exact Or.inl rfl
      | cons e es =>
        dsimp only
        cases infer ⟨c.language, s.scopes, s.enumNames⟩ e with
        | none => exact Or.inr ⟨rfl, rfl, rfl, rfl⟩
        | some k => exact Or.inr ⟨rfl, rfl, rfl, rfl⟩

/-- A callable whose heading does not say what it returns is taken to return a text. The statement it is
converted to says the same. -/
def AsAssumed (f : Callable) (t : Stmt) : Prop :=
  f.result = none → ∀ ps type, t.form = .function f.name ps type → type = "STRING"

variable {s : State}

/-- A callable is one statement of the result. If it returns what was assumed of it, nothing that follows
can tell whether it has been defined. -/
theorem callable_ensures {convert}
    (hconvert : ∀ c s, Ensures True convert c s fun _ t => s.Extends (fun _ => False) c.limit t)
    (hs : s.scopes.Sound)
    (hknown : (s.scopes.findCallable? (callableName f (c.owner.map (·.name)))).map (·.returns) =
      some (quietReturn c.language f)) :
    Ensures True (callable f convert) c s fun ss t => ∃ p, ss = [p] ∧
      p.form.declaredName? = some (callableName f (c.owner.map (·.name))) ∧
      (AsAssumed f p → s.scopes.Alike t.scopes ∧ t.typeNames = s.typeNames ∧ t.enumNames = s.enumNames) := by
  obtain ⟨ns, hnotes⟩ := callableNotes_notes (c := c) f (c.owner.map (·.name))
  unfold callable
  rw [bind_iff, read_iff]
  extract_lets owner name rest
  rw [bind_iff]
  refine (hnotes s hs).mono ?_
  rintro _ u ⟨-, hu⟩
  have hscopes : u.scopes = s.scopes := hu.scopes
  have hrest (ps : List (Parameter × Param)) (body : List Stmt) {returns : Option String}
      (hreturns : returns = quietReturn c.language f ∨
        (f.result = none ∧ f.isConstructor = false ∧ returns.isSome = true ∧
          quietReturn c.language f = some "STRING"))
      {t : State} (ht : s.scopes.Alike t.scopes) (htypes : t.typeNames = s.typeNames)
      (henums : t.enumNames = s.enumNames) :
      Ensures True (rest (ps, body, returns)) c t fun ss t => ∃ p, ss = [p] ∧ p.form.declaredName? = some name ∧
        (AsAssumed f p → s.scopes.Alike t.scopes ∧ t.typeNames = s.typeNames ∧ t.enumNames = s.enumNames) := by
    refine ⟨_, rfl, ?_, fun hassumed => ⟨?_, htypes, henums⟩⟩
    · cases returns <;> rfl
    · have hquiet : returns = quietReturn c.language f := by
        rcases hreturns with h | ⟨hresult, hc, hsome, hquiet⟩
        · exact h
        · obtain ⟨type, rfl⟩ := Option.isSome_iff_exists.1 hsome
          have hname : name = f.name := by simp [name, callableName, hc]
          rw [hquiet, hassumed hresult (ps.map (·.2)) type (by rw [← hname]; rfl)]
      have hfound := ht.chain.findCallable?_returns name
      rw [hknown] at hfound
      exact ht.trans (.declareAgain ht.right (by rw [← hfound, hquiet]))
  rw [bind_iff, inScope_iff]
  split
  · -- what is known of the name is said again
    obtain ⟨p, hp, hreturns⟩ := Option.map_eq_some_iff.1 hknown
    refine hrest [] _ (.inl ?_) (by rw [hscopes]; exact .refl hs) hu.typeNames hu.enumNames
    rw [hscopes, hp, Option.bind_some, hreturns]
  · have hparams : SameStep (.free c.language 0 .stay (fun _ => False) true) false (fun _ => True) _
        (parameters f.params) _ _ := parameters_step f.params
    have hkind : SameStep (.free c.language 0 .stay (fun _ => False) true) false (fun _ => True) True
        (returnKind f name) _ _ := returnKind_step (fun _ => id) fun _ => trivial
    simp only [bind_iff, pure_iff]
    refine (hparams.frame c _ rfl).mono fun ps t ht => (hconvert c t).mono fun body t' ht' => ?_
    refine ((hkind.frame c t' rfl).and (returnKind_assumed f name t')).mono fun k t'' hk => ?_
    have hinside := (ht.2.trans ht').trans hk.1.2
    have hevolves := hinside.scopes.evolves ((hscopes ▸ hs : u.scopes.Sound).enter .function)
    refine hrest ps body ?_ ⟨hs, (hevolves.leave (hscopes ▸ hs)).sound, ?_⟩ ?_ ?_
    · exact hk.2.imp id fun h => ⟨h.1, h.2.1, by simpa using h.2.2.1, h.2.2.2⟩
    · rw [Scopes.Resembles, hevolves.chain_leave (hscopes ▸ hs), hscopes]
      exact .refl _
    · obtain ⟨ns, hns, hnone⟩ := hinside.typeNames
      rw [eq_nil_iff_forall_not_mem.2 hnone] at hns
      exact hns.trans hu.typeNames
    · obtain ⟨ns, hns, hnone⟩ := hinside.enumNames
      rw [eq_nil_iff_forall_not_mem.2 hnone] at hns
      exact hns.trans hu.enumNames

theorem function_ensures (htypes : (Source.Stmt.function f).typeNames = []) (hs : s.scopes.Sound)
    (hknown : (s.scopes.findCallable? (callableName f (c.owner.map (·.name)))).map (·.returns) =
      some (quietReturn c.language f))
    (kind : String) (span : Span) :
    Ensures True (statement kind span (stmt (.function f))) c s fun ss t => ∃ p, ss = [p] ∧
      p.form.declaredName? = some (callableName f (c.owner.map (·.name))) ∧
      (AsAssumed f p → s.Alike t) := by
  have hcallable : Ensures True (stmt (.function f)) { c with statement := kind } { s with notes := [] }
      fun ss t => ∃ p, ss = [p] ∧ p.form.declaredName? = some (callableName f (c.owner.map (·.name))) ∧
        (AsAssumed f p → s.scopes.Alike t.scopes ∧ t.typeNames = s.typeNames ∧ t.enumNames = s.enumNames) := by
    obtain ⟨fspan, name, params, result, body, modifiers, typeParams, decorators, isConstructor⟩ := f
    cases body with
    | none =>
      rw [stmt]
      · have hnothing : ∀ c s, Ensures True (pure [] : Convert (List Stmt)) c s fun _ t =>
            s.Extends (fun _ => False) c.limit t := fun _ s => State.Extends.refl s
        exact callable_ensures hnothing hs hknown
      · simp
    | some b =>
      obtain ⟨bodySpan, ss⟩ := b
      have hnone (n) (hn : n ∈ Source.typeNamesOf ss) : False := by
        rw [Source.Stmt.typeNames, Source.typeNamesOfBlock?] at htypes
        rw [htypes] at hn
        cases hn
      exact callable_ensures (fun c s => ((stmts_ensures hnone c s).weaken fun _ => trivial).mono fun _ _ h => h.2) hs hknown
  rw [statement_iff]
  refine hcallable.mono fun ss t ⟨p, hss, hname, halike⟩ => ?_
  subst hss
  have hform (q : Stmt) (hq : q.form = p.form) : q.form.declaredName? =
      some (callableName f (c.owner.map (·.name))) ∧ (AsAssumed f q → s.Alike { t with notes := s.notes }) := by
    refine ⟨by rw [hq, hname], fun hassumed => ?_⟩
    rw [AsAssumed, hq] at hassumed
    obtain ⟨hscopes, htypes, henums⟩ := halike hassumed
    exact ⟨hscopes, rfl, fun n => by rw [htypes], fun n => by rw [henums]⟩
  rw [attach]
  split
  · exact ⟨p, rfl, hform p rfl⟩
  · exact ⟨_, rfl, hform _ (by cases p; rfl)⟩

end Convert

end Blackboard
