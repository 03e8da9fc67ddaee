import Mathlib.Data.List.Pairwise
import Blackboard.Proofs.Conversion.Declaration
import Blackboard.Proofs.Conversion.Limit

/-!
Declarations in another order. A callable sees the other callables wherever they stand, for all of them are
known from the start, but of the variables it sees only those before it. So declarations can be reordered
as long as each callable keeps the variables before it, and returns what was assumed of it: they are then
converted to the same statements, in the new order.
-/
namespace Blackboard

open Conversion
open Convert (callableName callableName_relocate stmt Ensures Uniform quietReturn AsAssumed stmts predeclareAll predeclare attach)
open List hiding attach
open Pseudo.Stmt (relocate form form_relocate)
open Source (TypeRef Program)

namespace Source

/-! ### Declarations -/

def Stmt.bare (s : Stmt) : Stmt := s.relocate .forget

def Stmt.variableNames : Stmt → List String
  | .varDecl v => v.declarators.map (·.name)
  | _ => []

def Stmt.callableNames (owner : Option String) : Stmt → List String
  | .function f => [callableName f owner]
  | _ => []

/-- A callable that declares no types in its body, or variables that start as literals. -/
def Stmt.isDeclaration : Stmt → Bool
  | .function f => (Stmt.function f).typeNames.isEmpty
  | .varDecl v => v.declarators.all (·.init.all Expr.isLiteral)
  | _ => false

def variablesBefore (owner : Option String) (name : String) (ds : List Stmt) : List String :=
  (ds.takeWhile fun d => !(d.callableNames owner).contains name).flatMap Stmt.variableNames

/-- Declarations in another order, and perhaps at other places. Each callable keeps the variables that are
declared before it. -/
structure Reordered (owner : Option String) (ds ds' : List Stmt) : Prop where
  declarations : ∀ d ∈ ds, d.isDeclaration = true
  distinctVariables : (ds.flatMap Stmt.variableNames).Nodup
  distinctCallables : (ds.flatMap (Stmt.callableNames owner)).Nodup
  perm : (ds'.map Stmt.bare).Perm (ds.map Stmt.bare)
  visible : ∀ name ∈ ds.flatMap (Stmt.callableNames owner),
    (variablesBefore owner name ds').Perm (variablesBefore owner name ds)

theorem all_isText_relocate (m : Relocation) (parts : List TemplatePart) :
    (relocateParts m parts).all TemplatePart.isText = parts.all TemplatePart.isText := by
  induction parts with
  | nil => rfl
  | cons p parts ih => cases p <;> simp only [relocateParts, all_cons, TemplatePart.isText, ih]

mutual

theorem Expr.isLiteral_relocate (m : Relocation) : (e : Expr) → (e.relocate m).isLiteral = e.isLiteral
  | .array s items => by simp only [Expr.relocate, Expr.isLiteral, areLiterals_relocate m items]
  | .template s parts => by simp only [Expr.relocate, Expr.isLiteral, all_isText_relocate]
  | .unary s op operand => by cases op <;> cases operand <;> simp only [Expr.relocate, Expr.isLiteral]
  | .number .. | .string .. | .char .. | .boolean .. | .null .. | .identifier .. | .member .. | .index ..
  | .call .. | .newObject .. | .newArray .. | .newArrayOf .. | .object .. | .binary .. | .update ..
  | .assignment .. | .conditional .. | .cast .. | .lambda .. | .await .. | .spread .. => by
    simp only [Expr.relocate, Expr.isLiteral]

theorem areLiterals_relocate (m : Relocation) : (es : List Expr) → areLiterals (relocateExprs m es) = areLiterals es
  | [] => by simp only [relocateExprs, areLiterals]
  | e :: es => by
    simp only [relocateExprs, areLiterals, e.isLiteral_relocate m, areLiterals_relocate m es]

end

section

variable (owner : Option String) (d : Stmt)

theorem Stmt.variableNames_bare : d.bare.variableNames = d.variableNames := by
  cases d with
  | varDecl v =>
    obtain ⟨span, ds, type, modifiers, kind⟩ := v
    simp only [Stmt.bare, Stmt.relocate, VarDecl.relocate, Stmt.variableNames, relocateDeclarators_eq_map,
      map_map]
    rfl
  | _ => simp [Stmt.bare, Stmt.relocate, Stmt.variableNames]

theorem Stmt.callableNames_bare : d.bare.callableNames owner = d.callableNames owner := by
  cases d with
  | function f =>
    simp [Stmt.bare, Stmt.relocate, Stmt.callableNames, callableName_relocate]
  | _ => simp [Stmt.bare, Stmt.relocate, Stmt.callableNames]

theorem Stmt.isDeclaration_bare : d.bare.isDeclaration = d.isDeclaration := by
  cases d with
  | function f =>
    have htypes := Stmt.typeNames_relocate .forget (.function f)
    simp only [Stmt.relocate] at htypes
    simp [Stmt.bare, Stmt.relocate, Stmt.isDeclaration, htypes]
  | varDecl v =>
    obtain ⟨span, ds, type, modifiers, kind⟩ := v
    simp only [Stmt.bare, Stmt.relocate, VarDecl.relocate, Stmt.isDeclaration,
      relocateDeclarators_eq_map, all_map]
    refine congrArg ds.all (funext fun d => ?_)
    obtain ⟨_, _, _, _, init⟩ := d
    cases init with
    | none => rfl
    | some e => exact e.isLiteral_relocate .forget
  | _ => simp [Stmt.bare, Stmt.relocate, Stmt.isDeclaration]

end

theorem flatMap_bare {α : Type} {g : Stmt → List α} (hg : ∀ d : Stmt, g d.bare = g d) (ds : List Stmt) :
    (ds.map Stmt.bare).flatMap g = ds.flatMap g := by
  simp [flatMap_map, hg]

theorem eq_of_mem_flatMap {α β : Type} {g : α → List β} {as : List α} (h : (as.flatMap g).Nodup)
    {a b : α} (ha : a ∈ as) (hb : b ∈ as) {n : β} (hn : n ∈ g a) (hn' : n ∈ g b) : a = b := by
  by_contra hne
  have : Std.Symm (Function.onFun List.Disjoint g) := ⟨fun _ _ h _ hb ha => h ha hb⟩
  exact (nodup_flatMap.1 h).2.forall ha hb hne hn hn'

theorem variablesBefore_eq {owner ds pre post d name}
    (h : (ds.flatMap (Stmt.callableNames owner)).Nodup) (hds : ds = pre ++ d :: post)
    (hname : name ∈ d.callableNames owner) :
    variablesBefore owner name ds = pre.flatMap Stmt.variableNames := by
  rw [hds, flatMap_append, nodup_append] at h
  have hbefore : ∀ e ∈ pre, (!(e.callableNames owner).contains name) = true := by
    intro e he
    have hother : name ∉ e.callableNames owner := fun hmem =>
      h.2.2 name (mem_flatMap.2 ⟨e, he, hmem⟩) name (mem_append_left _ hname) rfl
    simpa using hother
  have hhere : (!(d.callableNames owner).contains name) = false := by simpa using hname
  rw [variablesBefore, hds, takeWhile_append_of_pos hbefore, takeWhile_cons, hhere]
  simp

namespace Reordered

variable {owner : Option String} {ds ds' : List Stmt}

theorem refl (h : Reordered owner ds ds') : Reordered owner ds ds :=
  { h with perm := .refl _, visible := fun _ _ => .refl _ }

theorem symm (h : Reordered owner ds ds') : Reordered owner ds' ds where
  declarations d hd := by
    obtain ⟨e, he, hbare⟩ := mem_map.1 (h.perm.mem_iff.1 (mem_map_of_mem hd))
    rw [← d.isDeclaration_bare, ← hbare, e.isDeclaration_bare]
    exact h.declarations e he
  distinctVariables := by
    rw [← flatMap_bare Stmt.variableNames_bare, (h.perm.flatMap_right _).nodup_iff,
      flatMap_bare Stmt.variableNames_bare]
    exact h.distinctVariables
  distinctCallables := by
    rw [← flatMap_bare (Stmt.callableNames_bare owner), (h.perm.flatMap_right _).nodup_iff,
      flatMap_bare (Stmt.callableNames_bare owner)]
    exact h.distinctCallables
  perm := h.perm.symm
  visible name hname := by
    rw [← flatMap_bare (Stmt.callableNames_bare owner), (h.perm.flatMap_right _).mem_iff,
      flatMap_bare (Stmt.callableNames_bare owner)] at hname
    exact (h.visible name hname).symm

theorem exists_function (h : Reordered owner ds ds') {f} (hf : .function f ∈ ds') :
    ∃ g, .function g ∈ ds ∧ g.relocate .forget = f.relocate .forget := by
  obtain ⟨d, hd, hbare⟩ := mem_map.1 (h.perm.mem_iff.1 (mem_map_of_mem hf))
  cases d with
  | function g => exact ⟨g, hd, by simpa [Stmt.bare, Stmt.relocate] using hbare⟩
  | _ => simp [Stmt.bare, Stmt.relocate] at hbare

theorem of_either (h : Reordered owner ds ds') {es es'} (hes : es = ds ∨ es = ds')
    (hes' : es' = ds ∨ es' = ds') : Reordered owner es es' := by
  rcases hes with rfl | rfl <;> rcases hes' with rfl | rfl
  · exact h.refl
  · exact h
  · exact h.symm
  · exact h.symm.refl

section

variable {V : Stmt → List Variable} {pre pre' : List Stmt}

theorem declares (h : Reordered owner ds ds') (hV : ∀ d ∈ ds, (V d.bare).map (·.name) = d.variableNames) :
    ∀ d ∈ ds', (V d.bare).map (·.name) = d.variableNames := by
  intro d hd
  obtain ⟨e, he, hbare⟩ := mem_map.1 (h.perm.mem_iff.1 (mem_map_of_mem hd))
  rw [← hbare, hV e he, ← e.variableNames_bare, hbare, d.variableNames_bare]

theorem map_name_declared (hV : ∀ d ∈ pre, (V d.bare).map (·.name) = d.variableNames) :
    (pre.flatMap fun d => V d.bare).map (·.name) = pre.flatMap Stmt.variableNames := by
  rw [map_flatMap]
  exact flatMap_congr hV

theorem declared_subset (h : Reordered owner ds ds')
    (hV : ∀ d ∈ ds, (V d.bare).map (·.name) = d.variableNames) (hpre : pre ⊆ ds) (hpre' : pre' ⊆ ds')
    (hnames : pre.flatMap Stmt.variableNames ⊆ pre'.flatMap Stmt.variableNames) :
    (pre.flatMap fun d => V d.bare) ⊆ pre'.flatMap fun d => V d.bare := by
  intro v hv
  obtain ⟨d, hd, hv⟩ := mem_flatMap.1 hv
  have hname : v.name ∈ d.variableNames := by
    rw [← hV d (hpre hd)]
    exact mem_map_of_mem hv
  obtain ⟨e, he, hname'⟩ := mem_flatMap.1 (hnames (mem_flatMap.2 ⟨d, hd, hname⟩))
  have hdistinct := h.distinctVariables
  rw [← flatMap_bare Stmt.variableNames_bare] at hdistinct
  have hbare : d.bare = e.bare := by
    refine eq_of_mem_flatMap hdistinct (mem_map_of_mem (hpre hd))
      (h.perm.mem_iff.1 (mem_map_of_mem (hpre' he))) (n := v.name) ?_ ?_
    · rw [d.variableNames_bare]
      exact hname
    · rw [e.variableNames_bare]
      exact hname'
  exact mem_flatMap.2 ⟨e, he, hbare ▸ hv⟩

theorem declared_perm (h : Reordered owner ds ds')
    (hV : ∀ d ∈ ds, (V d.bare).map (·.name) = d.variableNames) {post post' d d'}
    (hds : ds = pre ++ d :: post) (hds' : ds' = pre' ++ d' :: post') (hbare : d.bare = d'.bare)
    {name} (hname : name ∈ d.callableNames owner) :
    ((pre.flatMap fun d => V d.bare).map (·.name)).Nodup ∧
      (pre.flatMap fun d => V d.bare).Perm (pre'.flatMap fun d => V d.bare) := by
  have hname' : name ∈ d'.callableNames owner := by
    rw [← d'.callableNames_bare, ← hbare, d.callableNames_bare]
    exact hname
  have hvisible := h.visible name (mem_flatMap.2 ⟨d, by simp [hds], hname⟩)
  rw [variablesBefore_eq h.distinctCallables hds hname,
    variablesBefore_eq h.symm.distinctCallables hds' hname'] at hvisible
  have hpre : pre ⊆ ds := hds ▸ subset_append_left _ _
  have hpre' : pre' ⊆ ds' := hds' ▸ subset_append_left _ _
  have hV' := h.declares hV
  have hnodup {es pre post : List Stmt} (hes : es = pre ++ post) (hdistinct : (es.flatMap Stmt.variableNames).Nodup)
      (hV : ∀ d ∈ es, (V d.bare).map (·.name) = d.variableNames) :
      ((pre.flatMap fun d => V d.bare).map (·.name)).Nodup := by
    rw [map_name_declared fun d hd => hV d (hes ▸ mem_append_left _ hd)]
    rw [hes, flatMap_append] at hdistinct
    exact hdistinct.of_append_left
  have hleft := hnodup hds h.distinctVariables hV
  have hright := hnodup hds' h.symm.distinctVariables hV'
  refine ⟨hleft, (perm_ext_iff_of_nodup hleft.of_map hright.of_map).2 fun v => ⟨?_, ?_⟩⟩
  · exact fun hv => h.declared_subset hV hpre hpre' hvisible.symm.subset hv
  · exact fun hv => h.symm.declared_subset hV' hpre' hpre hvisible.subset hv

end

end Reordered

end Source

namespace Conversion

open Source (Stmt Reordered)

variable {c : Context} {s t s' t' : State} {ss ss' : List Pseudo.Stmt}

theorem State.Alike.symm (h : s.Alike t) : t.Alike s :=
  ⟨h.scopes.symm, h.notes.symm, fun n => (h.typeNames n).symm, fun n => (h.enumNames n).symm⟩

theorem State.Alike.trans {u} (h : s.Alike t) (h' : t.Alike u) : s.Alike u :=
  ⟨h.scopes.trans h'.scopes, h.notes.trans h'.notes, fun n => (h.typeNames n).trans (h'.typeNames n),
    fun n => (h.enumNames n).trans (h'.enumNames n)⟩

/-! ### One declaration -/

def convertStmt (d : Stmt) : Convert (List Pseudo.Stmt) :=
  Convert.statement d.kind d.span (stmt d)

theorem convertStmt_bare {d} (halike : s.Alike t) (hrun : convertStmt d c s = .ok (ss, s')) :
    ∃ t', convertStmt d.bare c t = .ok (ss.map (·.relocate .forget), t') ∧ s'.Alike t' := by
  have hstep : Convert.StmtStep (.free c.language _ .forget (fun _ => True) true) (fun _ => True) _ _ (stmt d) _ :=
    Convert.stmt_step d _ (Nat.le_refl _) fun _ _ => trivial
  have hrelated : Ensures True (convertStmt d) c s _ :=
    (Convert.StmtStep.statement d.kind hstep).agrees c c s t rfl (.refl c) halike.like
  rw [Ensures, hrun] at hrelated
  rcases hrelated with h | h
  · exact absurd rfl h.1
  · obtain ⟨ts, t', hbare, rfl, hagrees⟩ := h.exists_ok
    rw [← Stmt.kind_relocate .forget d, ← Stmt.span_relocate .forget d] at hbare
    exact ⟨t', hbare, hagrees.alike halike.notes⟩

theorem convertStmt_alike {d d'} (hbare : d.bare = d'.bare) (halike : s.Alike t)
    (hrun : convertStmt d c s = .ok (ss, s')) (hrun' : convertStmt d' c t = .ok (ss', t')) :
    ss.map (relocate .forget) = ss'.map (relocate .forget) := by
  obtain ⟨u, hu, -⟩ := convertStmt_bare halike hrun
  obtain ⟨u', hu', -⟩ := convertStmt_bare (halike.symm.trans halike) hrun'
  rw [hbare, hu'] at hu
  exact (congrArg Prod.fst (Except.ok.inj hu)).symm

variable {s₀ : State} {V : Stmt → List Variable} {S : Stmt → List Pseudo.Stmt}

/-- The state that declarations lead to, up to what no conversion can tell: the variables `V` of each are
declared. -/
def Reaches (s₀ : State) (V : Stmt → List Variable) (ds : List Stmt) (s : State) : Prop :=
  s.Alike { s₀ with scopes := s₀.scopes.declareAll (ds.flatMap fun d => V d.bare) }

theorem Reaches.alike {ds ds'} (hs : Reaches s₀ V ds s) (hsound : s₀.scopes.Sound)
    (hnames : ((ds.flatMap fun d => V d.bare).map (·.name)).Nodup)
    (hperm : (ds.flatMap fun d => V d.bare).Perm (ds'.flatMap fun d => V d.bare))
    (ht : Reaches s₀ V ds' t) : s.Alike t := by
  have hbetween : State.Alike { s₀ with scopes := s₀.scopes.declareAll (ds.flatMap fun d => V d.bare) }
      { s₀ with scopes := s₀.scopes.declareAll (ds'.flatMap fun d => V d.bare) } :=
    ⟨.declareAll_perm hperm (.refl hsound) hnames, rfl, fun _ => rfl, fun _ => rfl⟩
  exact (State.Alike.trans hs hbetween).trans ht.symm

/-- What is known of a declaration: the variables `V` that it declares, and, if it declares any, the
statements `S` that it is converted to everywhere. A callable is known from the start. -/
structure Known (c : Context) (s₀ : State) (V : Stmt → List Variable) (S : Stmt → List Pseudo.Stmt)
    (d : Stmt) : Prop where
  names : (V d).map (·.name) = d.variableNames
  uniform : ∀ v, d = .varDecl v → Uniform c (convertStmt d) (S d) (V d) []
  declares : ∀ v, d = .varDecl v → ∀ t ∈ S d, ∀ n, t.form.declaredName? = some n → n ∈ d.variableNames
  callable : ∀ f, d = .function f →
    (s₀.scopes.findCallable? (callableName f (c.owner.map (·.name)))).map (·.returns) =
      some (quietReturn c.language f)

theorem quietReturn_relocate (l : Language) (m : Source.Relocation) (f : Source.Callable) :
    quietReturn l (f.relocate m) = quietReturn l f := by
  unfold quietReturn
  rw [Convert.returnedValues_relocate, isEmpty_map]
  obtain ⟨span, name, params, result, body, modifiers, typeParams, decorators, isConstructor⟩ := f
  simp only [Source.Callable.relocate]
  cases result with
  | none => rfl
  | some t =>
    have hvoid := Pseudo.isVoid_relocate m (some t)
    rw [Option.map_some] at hvoid
    simp [hvoid]

theorem variables_step {pre v} (hknown : Known c s₀ V S (Stmt.varDecl v).bare) (hs : Reaches s₀ V pre s)
    (hrun : convertStmt (.varDecl v) c s = .ok (ss, s')) :
    Reaches s₀ V (pre ++ [.varDecl v]) s' ∧ ss.map (·.relocate .forget) = S (Stmt.varDecl v).bare := by
  obtain ⟨t, ht, halike⟩ := convertStmt_bare (hs.trans hs.symm) hrun
  have huniform := hknown.uniform (v.relocate .forget) (by rw [Stmt.bare, Stmt.relocate]) s hs.scopes.left
  rw [Ensures, ht] at huniform
  obtain ⟨hss, hdeclares⟩ := huniform
  refine ⟨halike.trans ⟨?_, ?_, fun n => ?_, fun n => ?_⟩, hss⟩
  · rw [hdeclares.scopes, flatMap_append, Scopes.declareAll_append, flatMap_singleton]
    exact hs.scopes.declareAll _
  · rw [hdeclares.notes, append_nil]
    exact hs.notes
  · rw [hdeclares.typeNames]
    exact hs.typeNames n
  · rw [hdeclares.enumNames]
    exact hs.enumNames n

theorem callable_step {pre f} (hsound : s₀.scopes.Sound)
    (hf : (Stmt.function f).isDeclaration = true) (hknown : Known c s₀ V S (Stmt.function f).bare)
    (hs : Reaches s₀ V pre s) (hrun : convertStmt (.function f) c s = .ok (ss, s')) :
    ∃ p, ss = [p] ∧ p.form.declaredName? = some (callableName f (c.owner.map (·.name))) ∧
      (AsAssumed f p → Reaches s₀ V (pre ++ [.function f]) s') := by
  have hfound := hknown.callable (f.relocate .forget) (by rw [Stmt.bare, Stmt.relocate])
  rw [callableName_relocate, quietReturn_relocate, ← hsound.findCallable?_declareAll,
    ← hs.scopes.chain.findCallable?_returns] at hfound
  have hfunction := Convert.function_ensures (List.isEmpty_iff.1 hf) hs.scopes.left hfound
    (Stmt.function f).kind (Stmt.function f).span
  have hrun' := hrun
  unfold convertStmt at hrun'
  rw [Ensures, hrun'] at hfunction
  obtain ⟨p, hp, hname, halike⟩ := hfunction
  refine ⟨p, hp, hname, fun hassumed => ?_⟩
  have hnone : V (Stmt.function f).bare = [] := by
    rw [← map_eq_nil_iff, hknown.names]
    rfl
  rw [Reaches, flatMap_append, flatMap_singleton, hnone, append_nil]
  exact (halike hassumed).symm.trans hs

/-! ### All declarations -/

/-- A declaration is met in one of two orders, after the declarations before it, and converted. -/
def Meets (c : Context) (s₀ : State) (V : Stmt → List Variable) (ds ds' : List Stmt) (d : Stmt)
    (ss : List Pseudo.Stmt) : Prop :=
  ∃ es pre post s s', (es = ds ∨ es = ds') ∧ es = pre ++ d :: post ∧ Reaches s₀ V pre s ∧
    convertStmt d c s = .ok (ss, s')

variable {ds ds' : List Stmt} {ts ts' : List Pseudo.Stmt}

theorem meets_unique (h : Reordered (c.owner.map (·.name)) ds ds') (hsound : s₀.scopes.Sound)
    (hknown : ∀ d ∈ ds.map Stmt.bare, Known c s₀ V S d) {d d'} (hbare : d.bare = d'.bare)
    (hd : Meets c s₀ V ds ds' d ss) (hd' : Meets c s₀ V ds ds' d' ss') :
    ss.map (relocate .forget) = ss'.map (relocate .forget) := by
  obtain ⟨es, pre, post, s, u, hes, hpart, hs, hrun⟩ := hd
  obtain ⟨es', pre', post', s', u', hes', hpart', hs', hrun'⟩ := hd'
  have hbetween := h.of_either hes hes'
  have hmem : d ∈ es := by simp [hpart]
  have hknown' {e : Stmt} (he : e ∈ es) : Known c s₀ V S e.bare :=
    hknown _ ((h.of_either (.inl rfl) hes).perm.mem_iff.1 (mem_map_of_mem he))
  have hdeclaration := hbetween.declarations d hmem
  cases d with
  | varDecl v =>
    obtain ⟨v', rfl⟩ : ∃ v', d' = .varDecl v' := by
      cases d' <;> simp [Stmt.bare, Stmt.relocate] at hbare ⊢
    have hleft := (variables_step (hknown' hmem) hs hrun).2
    have hright := (variables_step (hbare ▸ hknown' hmem) hs' hrun').2
    rw [hleft, hright, hbare]
  | function f =>
    have hname : callableName f (c.owner.map (·.name)) ∈
        (Stmt.function f).callableNames (c.owner.map (·.name)) := mem_singleton_self _
    obtain ⟨hnames, hperm⟩ := hbetween.declared_perm
      (fun e he => (hknown' he).names.trans e.variableNames_bare) hpart hpart' hbare hname
    exact convertStmt_alike hbare (hs.alike hsound hnames hperm hs') hrun hrun'
  | _ => cases hdeclaration

theorem stmts_cons {d} (hrun : stmts (d :: ds) c s = .ok (ts, s')) :
    ∃ ss u rest, convertStmt d c s = .ok (ss, u) ∧ stmts ds c u = .ok (rest, s') ∧ ts = ss ++ rest := by
  have hcons : Ensures True (stmts (d :: ds)) c s fun ts s' => ∃ ss u rest,
      convertStmt d c s = .ok (ss, u) ∧ stmts ds c u = .ok (rest, s') ∧ ts = ss ++ rest := by
    rw [stmts, Ensures.bind_iff]
    refine (Ensures.run _ c s).mono fun ss u hss => ?_
    rw [Ensures.bind_iff]
    exact (Ensures.run _ c u).mono fun rest t hrest => ⟨ss, u, rest, hss, hrest, rfl⟩
  rwa [Ensures, hrun] at hcons

/-- Declarations are converted one by one, each to its own statements, if all callables return what was
assumed of them. -/
theorem stmts_blocks (h : Reordered (c.owner.map (·.name)) ds ds') (hsound : s₀.scopes.Sound)
    (hknown : ∀ d ∈ ds.map Stmt.bare, Known c s₀ V S d) {block}
    (hblock : ∀ d ss, Meets c s₀ V ds ds' d ss → ss.map (·.relocate .forget) = block d.bare)
    {es pre post} (hes : es = ds ∨ es = ds') (hpart : es = pre ++ post)
    (hs : Reaches s₀ V pre s) (hrun : stmts post c s = .ok (ts, s'))
    (hassumed : ∀ f, .function f ∈ post → ∀ p ∈ ts, block (Stmt.function f).bare = [p.relocate .forget] →
      AsAssumed f p) :
    ts.map (·.relocate .forget) = (post.map Stmt.bare).flatMap block ∧
      ∀ d ∈ post, ∃ ss, Meets c s₀ V ds ds' d ss ∧ ss ⊆ ts := by
  induction post generalizing pre s ts with
  | nil =>
    cases hrun
    exact ⟨rfl, nofun⟩
  | cons d post ih =>
    obtain ⟨ss, u, rest, hd, hpost, rfl⟩ := stmts_cons hrun
    have hmeets : Meets c s₀ V ds ds' d ss := ⟨es, pre, post, s, u, hes, hpart, hs, hd⟩
    have hmem : d ∈ es := by simp [hpart]
    have hbetween := h.of_either (.inl rfl) hes
    have hdeclaration := hbetween.symm.declarations d hmem
    have hknown' := hknown _ (hbetween.perm.mem_iff.1 (mem_map_of_mem hmem))
    have hreaches : Reaches s₀ V (pre ++ [d]) u := by
      cases d with
      | varDecl v => exact (variables_step hknown' hs hd).1
      | function f =>
        obtain ⟨p, rfl, -, hreaches⟩ := callable_step hsound hdeclaration hknown' hs hd
        exact hreaches (hassumed f mem_cons_self p (by simp) (hblock _ _ hmeets).symm)
      | _ => cases hdeclaration
    have hpart' : es = (pre ++ [d]) ++ post := by simpa using hpart
    obtain ⟨hrest, hall⟩ := ih hpart' hreaches hpost fun f hf p hp =>
      hassumed f (mem_cons_of_mem _ hf) p (mem_append_right _ hp)
    refine ⟨?_, forall_mem_cons.2 ⟨⟨ss, hmeets, subset_append_left _ _⟩, fun e he => ?_⟩⟩
    · rw [map_append, hrest, hblock d ss hmeets, map_cons, flatMap_cons]
    · obtain ⟨ss', hmeets', hsub⟩ := hall e he
      exact ⟨ss', hmeets', Subset.trans hsub (subset_append_right _ _)⟩

theorem exists_variables (c : Context) (d : Stmt) : ∃ vs ss, d.isDeclaration = true →
    vs.map Variable.name = d.variableNames ∧ ∀ v, d = .varDecl v → Uniform c (convertStmt d) ss vs [] ∧
        ∀ t ∈ ss, ∀ n, t.form.declaredName? = some n → n ∈ d.variableNames := by
  cases d with
  | varDecl v =>
    by_cases hv : (Stmt.varDecl v).isDeclaration = true
    · have hintroduces : Convert.Introduces { c with statement := (Stmt.varDecl v).kind }
          (Stmt.varDecl v).variableNames (stmt (.varDecl v)) :=
        Convert.varDecl_introduces v (all_eq_true.1 hv)
      obtain ⟨ss, vs, hnames, hdeclares, huniform⟩ :=
        hintroduces.uniform_statement (Stmt.varDecl v).span
      exact ⟨vs, ss, fun _ => ⟨hnames, fun _ _ => ⟨huniform, hdeclares⟩⟩⟩
    · exact ⟨[], [], fun h => absurd h hv⟩
  | _ => exact ⟨[], [], fun _ => ⟨rfl, nofun⟩⟩

/-- The statements of two results that stand for the same declarations: each declaration is converted to
the same block in both, lines aside. The block of a callable is its definition, and that of variables
declares no others. -/
structure Corresponds (owner : Option String) (ds ds' : List Stmt) (ts ts' : List Pseudo.Stmt)
    (block : Stmt → List Pseudo.Stmt) : Prop where
  original : ts.map (·.relocate .forget) = (ds.map Stmt.bare).flatMap block
  reordered : ts'.map (·.relocate .forget) = (ds'.map Stmt.bare).flatMap block
  callable : ∀ f, .function f ∈ ds → ∃ t, block (Stmt.function f).bare = [t] ∧
    t.form.declaredName? = some (callableName f owner)
  variables_ : ∀ v, .varDecl v ∈ ds → ∀ t ∈ block (Stmt.varDecl v).bare, ∀ n,
    t.form.declaredName? = some n → n ∈ (Stmt.varDecl v).variableNames

theorem declaredName?_relocate (m : Source.Relocation) (f : Pseudo.Form) :
    (f.relocate m).declaredName? = f.declaredName? := by
  cases f <;> rfl

theorem asAssumed_of_bare {f f' p p'} (hf : f.relocate .forget = f'.relocate .forget)
    (hp : p.relocate .forget = p'.relocate .forget) (h : AsAssumed f p) :
    AsAssumed f' p' := by
  obtain ⟨span, name, params, result, body, modifiers, typeParams, decorators, isConstructor⟩ := f
  obtain ⟨_, name', _, result', _, _, _, _, _⟩ := f'
  simp only [Source.Callable.relocate, Source.Callable.mk.injEq] at hf
  obtain ⟨-, rfl, -, hresult, -⟩ := hf
  intro hnone ps type hform
  have hnone' : result = none := by
    rw [show result' = none from hnone] at hresult
    exact Option.map_eq_none_iff.1 hresult
  refine h hnone' ps type ?_
  have hforms := congrArg form hp
  rw [form_relocate, form_relocate, hform] at hforms
  cases hshape : p.form <;> rw [hshape] at hforms <;> first | exact hforms | cases hforms

theorem stmts_reordered (h : Reordered (c.owner.map (·.name)) ds ds') (hs : s.Alike t)
    (hfound : ∀ f, .function f ∈ ds →
      (s.scopes.findCallable? (callableName f (c.owner.map (·.name)))).map (·.returns) =
        some (quietReturn c.language f))
    (hrun : stmts ds c s = .ok (ts, s')) (hrun' : stmts ds' c t = .ok (ts', t'))
    (hassumed : ∀ f, .function f ∈ ds → ∀ p ∈ ts, AsAssumed f p) :
    ∃ block, Corresponds (c.owner.map (·.name)) ds ds' ts ts' block := by
  choose V S hVS using exists_variables c
  have hsound := hs.scopes.left
  have hknown : ∀ d ∈ ds.map Stmt.bare, Known c s V S d := by
    intro d hd
    obtain ⟨e, he, rfl⟩ := mem_map.1 hd
    obtain ⟨hnames, hvariables⟩ := hVS e.bare (by rw [e.isDeclaration_bare]; exact h.declarations e he)
    refine ⟨hnames, fun v hv => (hvariables v hv).1, fun v hv => (hvariables v hv).2, fun f hf => ?_⟩
    cases e with
    | function g =>
      simp only [Stmt.bare, Stmt.relocate, Stmt.function.injEq] at hf
      rw [← hf, callableName_relocate, quietReturn_relocate]
      exact hfound g he
    | _ => simp [Stmt.bare, Stmt.relocate] at hf
  have hblocks : ∀ d, ∃ b, ∀ e ss, e.bare = d → Meets c s V ds ds' e ss → ss.map (relocate .forget) = b := by
    intro d
    by_cases hmet : ∃ e ss, e.bare = d ∧ Meets c s V ds ds' e ss
    · obtain ⟨e, ss, hbare, hmeets⟩ := hmet
      exact ⟨_, fun e' ss' hbare' hmeets' =>
        meets_unique h hsound hknown (hbare'.trans hbare.symm) hmeets' hmeets⟩
    · exact ⟨[], fun e ss hbare hmeets => absurd ⟨e, ss, hbare, hmeets⟩ hmet⟩
  choose block hblock using hblocks
  have hblock' (d : Stmt) (ss : List Pseudo.Stmt) (hmeets : Meets c s V ds ds' d ss) :=
    hblock d.bare d ss rfl hmeets
  have hstart : Reaches s V [] s := hs.trans hs.symm
  have hstart' : Reaches s V [] t := hs.symm
  obtain ⟨horiginal, hmet⟩ := stmts_blocks h hsound hknown hblock' (.inl rfl) (nil_append ds).symm
    hstart hrun fun f hf p hp _ => hassumed f hf p hp
  have hassumed' : ∀ f, .function f ∈ ds' → ∀ p ∈ ts',
      block (Stmt.function f).bare = [p.relocate .forget] → AsAssumed f p := by
    intro f hf p _ hp
    obtain ⟨g, hg, hbare⟩ := h.exists_function hf
    obtain ⟨ss, hmeets, hsub⟩ := hmet _ hg
    have hss := hblock' _ ss hmeets
    rw [Stmt.bare, Stmt.relocate, hbare, ← Stmt.relocate, ← Stmt.bare, hp] at hss
    obtain ⟨q, rfl, hq⟩ := map_eq_singleton_iff.1 hss
    exact asAssumed_of_bare hbare hq (hassumed g hg q (hsub (mem_singleton_self q)))
  obtain ⟨hreordered, -⟩ := stmts_blocks h hsound hknown hblock' (.inr rfl) (nil_append ds').symm
    hstart' hrun' hassumed'
  refine ⟨block, horiginal, hreordered, fun f hf => ?_, fun v hv => ?_⟩
  · obtain ⟨ss, hmeets, -⟩ := hmet _ hf
    have hss := hblock' _ ss hmeets
    obtain ⟨es, pre, post, u, u', -, -, hu, hd⟩ := hmeets
    obtain ⟨p, rfl, hname, -⟩ := callable_step hsound (h.declarations _ hf) (hknown _ (mem_map_of_mem hf)) hu hd
    refine ⟨p.relocate .forget, hss.symm, ?_⟩
    rw [form_relocate, declaredName?_relocate, hname]
  · obtain ⟨ss, hmeets, -⟩ := hmet _ hv
    have hss := hblock' _ ss hmeets
    have hbare := hknown _ (mem_map_of_mem hv)
    obtain ⟨es, pre, post, u, u', -, -, hu, hd⟩ := hmeets
    rw [← hss, (variables_step hbare hu hd).2, ← Stmt.variableNames_bare]
    exact hbare.declares (v.relocate .forget) (by rw [Stmt.bare, Stmt.relocate])

end Conversion

/-! ### What is known from the start -/

namespace Scopes

variable {s : Scopes}

def declareCallables (ps : List Procedure) (s : Scopes) : Scopes :=
  ps.foldl (fun s p => s.declareCallable p) s

theorem Sound.declareCallable (h : s.Sound) (p : Procedure) : (s.declareCallable p).Sound :=
  h.modifyCurrent fun _ => rfl

theorem Sound.chain_declareCallables (h : s.Sound) (ps : List Procedure) {scope around} (hchain : s.chain = scope :: around) :
    (s.declareCallables ps).Sound ∧
      ∃ callables, (s.declareCallables ps).chain = { scope with callables := callables } :: around := by
  induction ps generalizing s scope with
  | nil => exact ⟨h, scope.callables, hchain⟩
  | cons p ps ih =>
    have hps := ih (h.declareCallable p) (h.chain_declareCallable p hchain)
    exact hps

theorem Sound.findCallable?_declareCallable (h : s.Sound) (p : Procedure) (name : String) :
    (s.declareCallable p).findCallable? name = if name = p.name then some p else s.findCallable? name := by
  obtain ⟨scope, around, -, hchain, -⟩ := h.exists_chain
  rw [findCallable?_eq, h.chain_declareCallable p hchain, callableIn_put, findCallable?_eq, hchain]

theorem Sound.findCallable?_of_notMem (h : s.Sound) {ps name}
    (hname : name ∉ ps.map (·.name)) : (s.declareCallables ps).findCallable? name = s.findCallable? name := by
  induction ps generalizing s with
  | nil => rfl
  | cons p ps ih =>
    rw [map_cons, mem_cons, not_or] at hname
    exact (ih (h.declareCallable p) hname.2).trans ((h.findCallable?_declareCallable p name).trans (if_neg hname.1))

theorem Sound.findCallable?_of_mem (h : s.Sound) {ps} (hnames : (ps.map (·.name)).Nodup)
    {p} (hp : p ∈ ps) : (s.declareCallables ps).findCallable? p.name = some p := by
  induction ps generalizing s with
  | nil => cases hp
  | cons q ps ih =>
    rw [map_cons, nodup_cons] at hnames
    have hsound := h.declareCallable q
    rcases mem_cons.1 hp with rfl | hp
    · exact (hsound.findCallable?_of_notMem hnames.1).trans
        ((h.findCallable?_declareCallable p p.name).trans (if_pos rfl))
    · exact ih hsound hnames.2 hp

theorem Sound.depth_declareCallables (h : s.Sound) (ps : List Procedure) :
    (s.declareCallables ps).depth = s.depth := by
  obtain ⟨scope, around, -, hchain, -⟩ := h.exists_chain
  obtain ⟨-, callables, hps⟩ := h.chain_declareCallables ps hchain
  rw [depth, depth, hps, hchain, length_cons, length_cons]

theorem Sound.findCallable?_enter (h : s.Sound) (kind : ScopeKind) (name : String) :
    (s.enter kind).findCallable? name = s.findCallable? name := by
  rw [findCallable?_eq, h.chain_enter, callableIn_enter, findCallable?_eq]

theorem Alike.declareCallables (h : s.Sound) {ps qs}
    (hsame : ∀ name, ((s.declareCallables ps).findCallable? name).map (·.returns) =
      ((s.declareCallables qs).findCallable? name).map (·.returns)) :
    Alike (s.declareCallables ps) (s.declareCallables qs) := by
  obtain ⟨scope, around, -, hchain, -⟩ := h.exists_chain
  obtain ⟨hleft, callables, hps⟩ := h.chain_declareCallables ps hchain
  obtain ⟨hright, callables', hqs⟩ := h.chain_declareCallables qs hchain
  refine ⟨hleft, hright, ?_⟩
  simp only [findCallable?_eq, hps, hqs] at hsame
  rw [Resembles, hps, hqs]
  exact .cons rfl (fun _ => rfl) hsame (.refl around)

end Scopes

namespace Conversion

open Source (Stmt Reordered)

variable {l : Language} {owner : Option String} {s : State} {ds ds' : List Stmt}

def quietCallables (l : Language) (owner : Option String) : Stmt → List Procedure
  | .function f => [Convert.quietCallable l owner f]
  | _ => []

theorem map_name_quietCallables (l : Language) (owner : Option String) (ds : List Stmt) :
    (ds.flatMap (quietCallables l owner)).map (·.name) = ds.flatMap (Stmt.callableNames owner) := by
  rw [map_flatMap]
  refine flatMap_congr fun d _ => ?_
  cases d <;> rfl

theorem predeclareVariables_literal {v} (h : (Stmt.varDecl v).isDeclaration = true) :
    Convert.predeclareVariables l s v = s := by
  have hliteral := all_eq_true.1 h
  unfold Convert.predeclareVariables
  generalize v.declarators = ds at hliteral
  induction ds with
  | nil => rfl
  | cons d ds ih =>
    obtain ⟨hd, hds⟩ := forall_mem_cons.1 hliteral
    rw [foldl_cons]
    refine .trans ?_ (ih hds)
    congr 1
    split
    · next hinit =>
      rw [hinit] at hd
      cases hd
    · rfl

theorem predeclareAll_declarations (h : ∀ d ∈ ds, d.isDeclaration = true) (s : State) : predeclareAll l owner s ds =
      { s with scopes := s.scopes.declareCallables (ds.flatMap (quietCallables l owner)) } := by
  induction ds generalizing s with
  | nil => rfl
  | cons d ds ih =>
    obtain ⟨hd, hds⟩ := forall_mem_cons.1 h
    rw [predeclareAll, ih hds]
    cases d with
    | function f => rw [predeclare]; rfl
    | varDecl v => rw [predeclare, predeclareVariables_literal hd]; rfl
    | _ => cases hd

theorem predeclareAll_known (h : Reordered owner ds ds') (hs : s.scopes.Sound) {f} (hf : .function f ∈ ds) :
    ((predeclareAll l owner s ds).scopes.findCallable? (callableName f owner)).map
      (·.returns) = some (quietReturn l f) := by
  have hmem : Convert.quietCallable l owner f ∈ ds.flatMap (quietCallables l owner) :=
    mem_flatMap.2 ⟨_, hf, mem_singleton_self _⟩
  have hnames := h.distinctCallables
  rw [← map_name_quietCallables l] at hnames
  rw [predeclareAll_declarations h.declarations]
  exact congrArg (Option.map (·.returns)) (hs.findCallable?_of_mem hnames hmem)

theorem predeclareAll_alike (h : Reordered owner ds ds') (hs : s.scopes.Sound) :
    (predeclareAll l owner s ds).Alike (predeclareAll l owner s ds') := by
  have hknown (name : String) : ((predeclareAll l owner s ds).scopes.findCallable? name).map (·.returns) =
        ((predeclareAll l owner s ds').scopes.findCallable? name).map (·.returns) := by
    by_cases hname : name ∈ ds.flatMap (Stmt.callableNames owner)
    · obtain ⟨d, hd, hname⟩ := mem_flatMap.1 hname
      cases d with
      | function f =>
        obtain rfl := mem_singleton.1 hname
        obtain ⟨g, hg, hbare⟩ := h.symm.exists_function hd
        have hname' := callableName_relocate (m := .forget) g owner
        have hreturns := quietReturn_relocate l .forget g
        rw [hbare, callableName_relocate] at hname'
        rw [hbare, quietReturn_relocate] at hreturns
        rw [predeclareAll_known h hs hd, hname', hreturns, predeclareAll_known h.symm hs hg]
      | _ => cases hname
    · have hname' : name ∉ ds'.flatMap (Stmt.callableNames owner) := by
        rw [← Source.flatMap_bare (Stmt.callableNames_bare owner), (h.perm.flatMap_right _).mem_iff,
          Source.flatMap_bare (Stmt.callableNames_bare owner)]
        exact hname
      rw [← map_name_quietCallables l] at hname hname'
      rw [predeclareAll_declarations h.declarations, predeclareAll_declarations h.symm.declarations]
      exact congrArg (Option.map (·.returns))
        ((hs.findCallable?_of_notMem hname).trans (hs.findCallable?_of_notMem hname').symm)
  rw [predeclareAll_declarations h.declarations, predeclareAll_declarations h.symm.declarations]
    at hknown ⊢
  exact ⟨.declareCallables hs hknown, rfl, fun _ => rfl, fun _ => rfl⟩

/-! ### Classes -/

theorem attach_singleton (notes : List String) (line : Nat) (form : Pseudo.Form) (body : List Pseudo.Stmt)
    (l : Option Nat) :
    ∃ notes', attach notes line [.mk form body [] l] = [.mk form body notes' l] := by
  rw [attach]
  split
  · exact ⟨[], rfl⟩
  · exact ⟨_, rfl⟩

def memberContext (l : Language) (limit : Nat) (owner : Owner) : Context :=
  { language := l, limit := limit, statement := "class", owner := some owner }

/-- The members of a class are converted in a scope of their own. What else holds there does not depend on
where the class stands. -/
theorem class_members (l : Language) (limit : Nat) (name : String) (superclass : Option TypeRef)
    (interfaces : List TypeRef) (typeParams modifiers decorators : List String) :
    ∃ notes, ∀ {span : Source.Span} {members : List Stmt} {s s' : State} {body : List Pseudo.Stmt},
      s.scopes.Sound → s.scopes.depth < limit →
      stmts [.classDecl span name superclass interfaces typeParams members modifiers decorators]
        { language := l, limit := limit } s = .ok (body, s') →
      ∃ ts t t' notes', stmts members (memberContext l limit ⟨name, superclass.map (·.name)⟩) t = .ok (ts, t') ∧
        body = [.mk (.class_ name) ts notes' (some span.line)] ∧
        t.scopes = s.scopes.enter .class_ ∧ t.notes = notes ∧ t.typeNames = name :: s.typeNames ∧
        t.enumNames = s.enumNames := by
  obtain ⟨notes, hnotes⟩ := Convert.classNotes_notes
    (c := { language := l, limit := limit, statement := "class" }) name superclass interfaces modifiers
    typeParams decorators
  refine ⟨notes, fun {span members s s' body} hs hroom hrun => ?_⟩
  obtain ⟨ss, u, rest, hclass, hrest, rfl⟩ := stmts_cons hrun
  cases hrest
  rw [append_nil]
  suffices hensures : Ensures True (convertStmt
      (.classDecl span name superclass interfaces typeParams members modifiers decorators))
      { language := l, limit := limit } s fun ss _ => ∃ ts t t' notes',
        stmts members (memberContext l limit ⟨name, superclass.map (·.name)⟩) t = .ok (ts, t') ∧
        ss = [.mk (.class_ name) ts notes' (some span.line)] ∧
        t.scopes = s.scopes.enter .class_ ∧ t.notes = notes ∧ t.typeNames = name :: s.typeNames ∧
        t.enumNames = s.enumNames by
    rwa [Ensures, hclass] at hensures
  unfold convertStmt
  rw [Ensures.statement_iff, stmt, Ensures.bind_iff]
  refine Ensures.modify_iff.2 ?_
  rw [Ensures.bind_iff]
  refine (hnotes span { s with notes := [], typeNames := name :: s.typeNames } hs).mono ?_
  rintro _ u ⟨-, hu⟩
  have hscopes : u.scopes = s.scopes := hu.scopes
  rw [Ensures.bind_iff, Ensures.withReader_iff, Convert.nested, Ensures.bind_iff,
    Ensures.inScope_iff, if_neg (by rw [hscopes]; exact Nat.not_le.2 hroom)]
  refine (Ensures.run _ _ _).mono fun ts t' hts => ?_
  obtain ⟨notes', hnotes'⟩ := attach_singleton t'.notes.eraseDups span.line (.class_ name) ts (some span.line)
  exact ⟨ts, _, t', notes', hts, hnotes', by rw [hscopes], hu.notes, hu.typeNames, hu.enumNames⟩

theorem startState_class {p span name superclass interfaces typeParams modifiers decorators members} (hbody : p.body =
      [.classDecl span name superclass interfaces typeParams members modifiers decorators]) :
    startState p = predeclareAll p.language (some name) { typeNames := [name] } members := by
  rw [startState, hbody, predeclareAll, predeclare, predeclareAll]

theorem run_both {limit : Nat} {p p' : Program} {post : Result → Result → Prop} (h : ∀ r r' s s',
      stmts p.body { language := p.language, limit := limit } (startState p) = .ok (r.body, s) →
      stmts p'.body { language := p'.language, limit := limit } (startState p') = .ok (r'.body, s') → post r r') :
    match run limit p, run limit p' with
    | .ok r, .ok r' => post r r'
    | .error _, _ => Heavy (weight p)
    | .ok _, .error _ => Heavy (weight p') := by
  have hheavy := run_hints limit p
  have hheavy' := run_hints limit p'
  have hok := run_of_ensures (Ensures.run (stmts p.body)
    { language := p.language, limit := limit } (startState p))
  have hok' := run_of_ensures (Ensures.run (stmts p'.body)
    { language := p'.language, limit := limit } (startState p'))
  cases hrun : run limit p with
  | error e =>
    rw [hrun] at hheavy
    exact hheavy
  | ok r =>
    cases hrun' : run limit p' with
    | error e =>
      rw [hrun'] at hheavy'
      exact hheavy'
    | ok r' =>
      rw [hrun] at hok
      rw [hrun'] at hok'
      obtain ⟨s, hs, -⟩ := hok
      obtain ⟨s', hs', -⟩ := hok'
      exact h r r' s s' hs hs'

/-- Declarations in another order are converted to the same statements in another order, lines aside. They
are those of a program or the members of its class. A callable whose heading does not say what it returns
has to return a text, for this is assumed of it where it is called before. -/
theorem declarations_commute (limit : Nat) (p p' : Source.Program) (hlanguage : p'.language = p.language) :
    (Reordered none p.body p'.body →
      match run limit p, run limit p' with
      | .ok r, .ok r' => (∀ f, .function f ∈ p.body → ∀ t ∈ r.body, Convert.AsAssumed f t) →
          ∃ block, Corresponds none p.body p'.body r.body r'.body block
      | .error _, _ => Heavy (weight p)
      | .ok _, .error _ => Heavy (weight p')) ∧
    ∀ span span' name superclass interfaces typeParams members members' modifiers decorators,
      p.body = [.classDecl span name superclass interfaces typeParams members modifiers decorators] →
      p'.body = [.classDecl span' name superclass interfaces typeParams members' modifiers decorators] →
      0 < limit → Reordered (some name) members members' →
      match run limit p, run limit p' with
      | .ok r, .ok r' => ∃ ts ts' notes notes' line line', r.body = [.mk (.class_ name) ts notes line] ∧
          r'.body = [.mk (.class_ name) ts' notes' line'] ∧
          ((∀ f, .function f ∈ members → ∀ t ∈ ts, Convert.AsAssumed f t) →
            ∃ block, Corresponds (some name) members members' ts ts' block)
      | .error _, _ => Heavy (weight p)
      | .ok _, .error _ => Heavy (weight p') := by
  constructor
  · intro h
    have hknown (f : Source.Callable) (hf : .function f ∈ p.body) :=
      predeclareAll_known (l := p.language) h (s := {}) Scopes.sound_start hf
    have hstart : (startState p).Alike (startState p') := by
      unfold startState
      rw [hlanguage]
      exact predeclareAll_alike h Scopes.sound_start
    refine run_both fun r r' s s' hrun hrun' hassumed => ?_
    rw [hlanguage] at hrun'
    exact stmts_reordered (c := { language := p.language, limit := limit }) h hstart hknown hrun hrun' hassumed
  · intro span span' name superclass interfaces typeParams members members' modifiers decorators hbody hbody' hlimit h
    have hknown (f : Source.Callable) (hf : .function f ∈ members) :=
      predeclareAll_known (l := p.language) h (s := { typeNames := [name] }) Scopes.sound_start hf
    have hstart : (startState p).Alike (startState p') := by
      rw [startState_class hbody, startState_class hbody', hlanguage]
      exact predeclareAll_alike h Scopes.sound_start
    have hroom : (startState p).scopes.depth < limit := by
      rw [startState_class hbody, predeclareAll_declarations h.declarations]
      exact (Scopes.sound_start.depth_declareCallables _).symm ▸ hlimit
    have hroom' : (startState p').scopes.depth < limit := hstart.scopes.chain.depth_eq ▸ hroom
    obtain ⟨notes, hmembers⟩ := class_members p.language limit name superclass interfaces typeParams
      modifiers decorators
    refine run_both fun r r' s s' hrun hrun' => ?_
    rw [hbody] at hrun
    rw [hbody', hlanguage] at hrun'
    obtain ⟨ts, t, u, ns, hts, hr, hscopes, hnotes, htypes, henums⟩ :=
      hmembers hstart.scopes.left hroom hrun
    obtain ⟨ts', t', u', ns', hts', hr', hscopes', hnotes', htypes', henums'⟩ :=
      hmembers hstart.scopes.right hroom' hrun'
    have hinside : t.Alike t' := by
      refine ⟨?_, hnotes.trans hnotes'.symm, fun n => ?_, fun n => ?_⟩
      · rw [hscopes, hscopes']
        exact hstart.scopes.enter .class_
      · rw [htypes, htypes', List.contains_cons, List.contains_cons, hstart.typeNames]
      · rw [henums, henums', hstart.enumNames]
    refine ⟨ts, ts', ns, ns', _, _, hr, hr', fun hassumed => ?_⟩
    refine stmts_reordered (c := memberContext p.language limit ⟨name, superclass.map (·.name)⟩) h hinside
      (fun f hf => ?_) hts hts' hassumed
    rw [hscopes, hstart.scopes.left.findCallable?_enter, startState_class hbody]
    exact hknown f hf

/-- A function `sum` that calls a function `one`, and that function. Their headings say of both that they
return `result`, or nothing. -/
def sumAndOne (result : Option TypeRef) : Stmt × Stmt :=
  let place := Source.Span.unplaced
  let one := Source.Expr.number place (.int 1) "1"
  let call := Source.Expr.call place (.identifier place "one") []
  let returning (name : String) (e : Source.Expr) : Stmt :=
    .function { span := place, name := name, params := [], result := result,
                body := some ⟨place, [.returnStmt place (some e)]⟩ }
  (returning "sum" (.binary place .add call one), returning "one" one)

def callerFirst (result : Option TypeRef) : Program where
  language := .typescript
  span := .unplaced
  body := [(sumAndOne result).1, (sumAndOne result).2]
  structuralErrors := []

def calleeFirst (result : Option TypeRef) : Program :=
  { callerFirst result with body := [(sumAndOne result).2, (sumAndOne result).1] }

theorem callerFirst_reordered (result : Option TypeRef) :
    Reordered none (callerFirst result).body (calleeFirst result).body where
  declarations := by
    simp [callerFirst, sumAndOne, Stmt.isDeclaration, Stmt.typeNames, Source.typeNamesOfBlock?, Source.typeNamesOf]
  distinctVariables := nodup_nil
  distinctCallables := (by decide : ["sum", "one"].Nodup)
  perm := .swap ..
  visible name hname := by
    change name ∈ ["sum", "one"] at hname
    simp only [mem_cons, not_mem_nil, or_false] at hname
    rcases hname with rfl | rfl <;> exact .nil

def numberType : Option TypeRef := some { span := .unplaced, name := "number" }

/-- Where headings say what is returned, both functions are converted alike in both orders. -/
theorem declarations_commute_number :
    ∃ r r' block, run 200 (callerFirst numberType) = .ok r ∧ run 200 (calleeFirst numberType) = .ok r' ∧
      Corresponds none (callerFirst numberType).body (calleeFirst numberType).body r.body r'.body block := by
  have hcommute := (declarations_commute 200 (callerFirst numberType) (calleeFirst numberType) rfl).1
    (callerFirst_reordered numberType)
  have hruns : (run 200 (callerFirst numberType)).isOk ∧ (run 200 (calleeFirst numberType)).isOk := by
    decide +kernel
  have hheadings : ∀ f, .function f ∈ (callerFirst numberType).body → f.result = numberType := by
    simp [callerFirst, sumAndOne]
  generalize run 200 (callerFirst numberType) = x at hcommute hruns ⊢
  generalize run 200 (calleeFirst numberType) = y at hcommute hruns ⊢
  cases x with
  | error e => nomatch hruns.1
  | ok r =>
    cases y with
    | error e => nomatch hruns.2
    | ok r' =>
      obtain ⟨block, hblock⟩ := hcommute fun f hf _ _ hnone => nomatch (hheadings f hf).symm.trans hnone
      exact ⟨r, r', block, rfl, rfl, hblock⟩

def functionTypes (r : Result) : List (String × String) :=
  r.body.filterMap fun t => match t.form with
    | .function name _ type => some (name, type)
    | _ => none

/-- What `sum` returns, and whether it adds or joins, depends on the order: before its definition, `one` is
taken to return a text. -/
theorem sum_depends_on_order : Reordered none (callerFirst none).body (calleeFirst none).body ∧
    (run 200 (callerFirst none)).toOption.map functionTypes = some [("sum", "STRING"), ("one", "INTEGER")] ∧
    (run 200 (calleeFirst none)).toOption.map functionTypes = some [("one", "INTEGER"), ("sum", "INTEGER")] :=
  ⟨callerFirst_reordered none, by decide +kernel, by decide +kernel⟩

end Conversion

end Blackboard
