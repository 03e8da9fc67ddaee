import Blackboard.Source.Reader
import Blackboard.Proofs.Reading.Texts

/-!
What a program is read from. Reading adds nothing to the texts of the tokens but fixed words, and these
stand on one line. So characters `C` that hold all but line feeds hold the characters of all texts of a
program as soon as they hold those of its tokens. The span of a construct is put together from the spans
of its parts, so it starts where one of its tokens starts; a construct that has no located part is given
the place before the first character.
-/
namespace Blackboard.Source

open Grammar
open List (forall_mem_cons mem_of_getLast? mem_of_head? mem_map mem_singleton_self mem_cons_of_mem mem_filter)
open Option (bind_eq_bind)

def Spelled (C : Char → Prop) (s : String) : Prop := ∀ c ∈ s.toList, C c

variable {C : Char → Prop}

@[simp]
theorem spelled_append {a b} : Spelled C (a ++ b) ↔ Spelled C a ∧ Spelled C b := by
  simp only [Spelled, String.toList_append, List.forall_mem_append]

theorem spelled_composes (hC : ∀ c, c ≠ '\n' → C c) : Composes (Spelled C) :=
  ⟨fun h c hc => hC c fun heq => h (heq ▸ hc), spelled_append⟩

def Node.isUnparsed : Node → Bool
  | stmt (.unparsed ..) => true
  | _ => false

def Node.Spelled (C : Char → Prop) (n : Node) : Prop :=
  n.isUnparsed = false ∧ ∀ s ∈ n.texts, Source.Spelled C s

def AllSpelled (C : Char → Prop) (ns : List Node) : Prop := ∀ n ∈ ns, n.Spelled C

@[simp]
theorem allSpelled_nil : AllSpelled C [] := nofun

@[simp]
theorem allSpelled_cons {n ns} : AllSpelled C (n :: ns) ↔ n.Spelled C ∧ AllSpelled C ns :=
  forall_mem_cons

@[simp]
theorem allSpelled_append {ms ns} : AllSpelled C (ms ++ ns) ↔ AllSpelled C ms ∧ AllSpelled C ns :=
  List.forall_mem_append

theorem AllSpelled.texts {ns} (h : AllSpelled C ns) : ∀ n ∈ ns, ∀ s ∈ n.texts, Spelled C s :=
  fun n hn => (h n hn).2

/-! ### Lists of constructs -/

theorem allSpelled_listNodes {α} (nodes : List α → List Node) (one : α → List Node)
    (hnil : nodes [] = []) (hcons : ∀ a as, nodes (a :: as) = one a ++ nodes as) {as} :
    AllSpelled C (nodes as) ↔ ∀ a ∈ as, AllSpelled C (one a) := by
  induction as with
  | nil => simp [hnil]
  | cons a as ih => simp [hcons, ih]

theorem allSpelled_exprNodes {es} : AllSpelled C (exprNodes es) ↔ ∀ e ∈ es, AllSpelled C e.nodes :=
  allSpelled_listNodes exprNodes Expr.nodes rfl fun _ _ => rfl

theorem allSpelled_stmtNodes {ss} : AllSpelled C (stmtNodes ss) ↔ ∀ s ∈ ss, AllSpelled C s.nodes :=
  allSpelled_listNodes stmtNodes Stmt.nodes rfl fun _ _ => rfl

theorem allSpelled_typeNodes {ts} : AllSpelled C (typeNodes ts) ↔ ∀ t ∈ ts, AllSpelled C t.nodes :=
  allSpelled_listNodes typeNodes TypeRef.nodes rfl fun _ _ => rfl

theorem allSpelled_paramNodes {ps} : AllSpelled C (paramNodes ps) ↔ ∀ p ∈ ps, AllSpelled C (paramNodes [p]) :=
  allSpelled_listNodes paramNodes (fun a => paramNodes [a]) rfl fun a _ => by
    cases a; simp [paramNodes]

theorem allSpelled_declaratorNodes {ds} :
    AllSpelled C (declaratorNodes ds) ↔ ∀ d ∈ ds, AllSpelled C (declaratorNodes [d]) :=
  allSpelled_listNodes declaratorNodes (fun a => declaratorNodes [a]) rfl fun a _ => by
    cases a; simp [declaratorNodes]

theorem allSpelled_propertyNodes {ps} :
    AllSpelled C (propertyNodes ps) ↔ ∀ p ∈ ps, AllSpelled C (propertyNodes [p]) :=
  allSpelled_listNodes propertyNodes (fun a => propertyNodes [a]) rfl fun a _ => by
    cases a; simp [propertyNodes]

theorem allSpelled_handlerNodes {hs} : AllSpelled C (handlerNodes hs) ↔ ∀ h ∈ hs, AllSpelled C (handlerNodes [h]) :=
  allSpelled_listNodes handlerNodes (fun a => handlerNodes [a]) rfl fun a _ => by
    cases a; simp [handlerNodes]

theorem allSpelled_enumMemberNodes {ms} :
    AllSpelled C (enumMemberNodes ms) ↔ ∀ m ∈ ms, AllSpelled C (enumMemberNodes [m]) :=
  allSpelled_listNodes enumMemberNodes (fun a => enumMemberNodes [a]) rfl fun a _ => by
    cases a; simp [enumMemberNodes]

theorem allSpelled_memberNodes {ms} : AllSpelled C (memberNodes ms) ↔ ∀ m ∈ ms, AllSpelled C (memberNodes [m]) :=
  allSpelled_listNodes memberNodes (fun m => memberNodes [m]) rfl fun
    | .signature ⟨_, _, _, _, _⟩, _ => by simp [memberNodes]
    | .method _, _ | .field _, _ => by simp [memberNodes]

theorem allSpelled_caseNodes {cs} : AllSpelled C (caseNodes cs) ↔ ∀ c ∈ cs, AllSpelled C (caseNodes [c]) :=
  allSpelled_listNodes caseNodes (fun a => caseNodes [a]) rfl fun a _ => by
    cases a; simp [caseNodes]

theorem allSpelled_exprNode {e} : AllSpelled C (exprNode e) ↔ ∀ a, e = some a → AllSpelled C a.nodes := by
  cases e <;> simp [exprNode]

theorem allSpelled_stmtNode {s} : AllSpelled C (stmtNode s) ↔ ∀ a, s = some a → AllSpelled C a.nodes := by
  cases s <;> simp [stmtNode]

theorem allSpelled_blockNode {b} : AllSpelled C (blockNode b) ↔ ∀ a, b = some a → AllSpelled C a.nodes := by
  cases b <;> simp [blockNode]

theorem allSpelled_varDeclNode {v} : AllSpelled C (varDeclNode v) ↔ ∀ a, v = some a → AllSpelled C a.nodes := by
  cases v <;> simp [varDeclNode]

theorem allSpelled_typeNode {t} : AllSpelled C (typeNode t) ↔ ∀ a, t = some a → AllSpelled C a.nodes := by
  cases t <;> simp [typeNode]

/-! ### Pieces -/

def Piece.Spelled (C : Char → Prop) : Piece → Prop
  | token t => Source.Spelled C t.text
  | text s => Source.Spelled C s
  | modifiers ts | typeParams ts => ∀ s ∈ ts, Source.Spelled C s
  | expr e | size e | condition e => AllSpelled C e.nodes
  | label e _ => AllSpelled C (exprNode e)
  | args es | forExpressions es | update es => AllSpelled C (exprNodes es)
  | stmt s => AllSpelled C s.nodes
  | statements ss | body ss | resources ss => AllSpelled C (stmtNodes ss)
  | type t | superclass t => AllSpelled C t.nodes
  | interfaces ts | bases ts | typeArgs ts => AllSpelled C (typeNodes ts)
  | params ps => AllSpelled C (paramNodes ps)
  | param p => AllSpelled C (paramNodes [p])
  | forDeclaration v => AllSpelled C v.nodes
  | finalizer b => AllSpelled C b.nodes
  | handler h => AllSpelled C (handlerNodes [h])
  | enumMember m => AllSpelled C (enumMemberNodes [m])
  | declarator d => AllSpelled C (declaratorNodes [d])
  | property p => AllSpelled C (propertyNodes [p])
  | signature s => AllSpelled C (memberNodes [.signature s])
  | objectType ms => AllSpelled C (memberNodes (ms.map .signature))
  | throws | dimension | enumBody | optional | pattern .. | nothing => True

namespace Piece

variable {items : List Piece} {l : Language} {c : Category}

/-- Whether a piece, if it has a place of its own, starts at one of the positions `S`. -/
def Starts (S : Position → Prop) (p : Piece) : Prop :=
  match p.span? with
  | none => True
  | some s => S s.start

/-- What is made of pieces, if anything is. -/
def Writes (C : Char → Prop) (S : Position → Prop) (o : Option Piece) : Prop := ∀ p ∈ o, p.Spelled C ∧ p.Starts S

variable {S : Position → Prop}

section Simp

variable {p : Piece} {α : Type} {a : Option α}

@[simp] theorem writes_none : Writes C S none := nofun

@[simp] theorem writes_some : Writes C S (some p) ↔ p.Spelled C ∧ p.Starts S := by
  simp [Writes]

@[simp] theorem writes_bind {f} : Writes C S (a.bind f) ↔ ∀ x, a = some x → Writes C S (f x) := by
  cases a <;> simp

@[simp] theorem writes_map {f} : Writes C S (a.map f) ↔ ∀ x, a = some x → (f x).Spelled C ∧ (f x).Starts S := by
  cases a <;> simp

end Simp

/-! ### Places -/

@[simp] theorem start_cover (a b : Span) : (a.cover b).start = a.start := rfl

/-- Pieces that start at positions `S`, among which is the one before the first character. -/
structure Located (S : Position → Prop) (items : List Piece) : Prop where
  start : S .start
  each : ∀ i ∈ items, i.Starts S

namespace Located

variable {i : Piece} {t : Token}

theorem mono {is} (h : Located S items) (hsub : ∀ i ∈ is, i ∈ items) : Located S is :=
  ⟨h.start, fun i hi => h.each i (hsub i hi)⟩

theorem tail (h : Located S (i :: items)) : Located S items := h.mono fun _ => mem_cons_of_mem _

theorem coverAll (h : Located S items) {spans} (hspans : ∀ s ∈ spans, S s.start) : S (Span.coverAll spans).start := by
  cases spans with
  | nil => exact h.start
  | cons s spans => exact hspans s (by simp)

theorem span (h : Located S items) : S (spanOf items).start := by
  refine h.coverAll fun s hs => ?_
  obtain ⟨i, hi, heq⟩ := List.mem_filterMap.1 hs
  have hstarts := h.each i hi
  rwa [Starts, heq] at hstarts

theorem of_span? {s} (h : Located S items) (hi : i ∈ items) (hs : i.span? = some s) : S s.start := by
  have hstarts := h.each i hi
  rwa [Starts, hs] at hstarts

theorem token (h : Located S items) (t) (ht : Piece.token t ∈ items) : S t.span.start := h.each (Piece.token t) ht

theorem cover {p : Piece} {α : Type} {pick : Piece → Option α} {place : α → Span} (h : Located S items)
    (hpick : ∀ i a, pick i = some a → i.span? = some (place a))
    (hp : p.span? = cover? ((items.filterMap pick).map place)) : p.Starts S := by
  have hspans : S (Span.coverAll ((items.filterMap pick).map place)).start := by
    refine h.coverAll fun s hs => ?_
    obtain ⟨a, ha, rfl⟩ := mem_map.1 hs
    obtain ⟨i, hi, hia⟩ := List.mem_filterMap.1 ha
    exact h.of_span? hi (hpick i a hia)
  unfold Starts
  rw [hp, cover?]
  split
  · trivial
  · next s heq =>
    split at heq <;> cases heq
    exact hspans

end Located

variable {i : Piece}

theorem writes_item (h : ∀ i ∈ items, i.Spelled C) (hi : Located S items) : ∀ i ∈ items, Writes C S (some i) :=
  fun i hmem => writes_some.2 ⟨h i hmem, hi.each i hmem⟩

theorem span?_of_expr? {e} (h : expr? i = some e) : i.span? = some e.span := by
  unfold expr? at h
  split at h <;> cases h
  rfl

theorem span?_of_stmt? {s} (h : stmt? i = some s) : i.span? = some s.span := by
  unfold stmt? at h
  split at h <;> cases h
  rfl

theorem span?_of_signature? {s} (h : signature? i = some s) : i.span? = some s.span := by
  unfold signature? at h
  split at h <;> cases h
  rfl

theorem span?_of_token? {t} (h : token? i = some t) : i.span? = some t.span := by
  unfold token? at h
  split at h <;> cases h
  rfl

theorem start_typeLike? {t} (h : Located S items) (hi : i ∈ items) (ht : typeLike? .unplaced i = some t) :
    S t.span.start := by
  have hstarts := h.each i hi
  unfold typeLike? at ht
  split at ht
  · cases ht
    exact hstarts
  · next ms =>
    cases ht
    rw [Starts, span?] at hstarts
    dsimp only
    cases hcover : cover? (ms.map (·.span)) with
    | none => exact h.start
    | some s =>
      rw [hcover] at hstarts
      exact hstarts
  · cases ht

/-! ### What is picked out of pieces -/

section Picks

variable {t : TypeRef} {s : String}

theorem spelled_expr? {e} (h : i.Spelled C) (he : i.expr? = some e) : AllSpelled C e.nodes := by
  unfold expr? at he
  split at he <;> cases he
  exact h

theorem spelled_stmt? {s} (h : i.Spelled C) (hs : i.stmt? = some s) : AllSpelled C s.nodes := by
  unfold stmt? at hs
  split at hs <;> cases hs
  exact h

theorem spelled_block? {b} (h : i.Spelled C) (hb : i.block? = some b) : AllSpelled C b.nodes := by
  unfold block? at hb
  split at hb <;> cases hb
  exact h

theorem spelled_type? (h : i.Spelled C) (ht : i.type? = some t) : AllSpelled C t.nodes := by
  unfold type? at ht
  split at ht <;> cases ht
  exact h

theorem spelled_name? (h : i.Spelled C) (hs : i.name? = some s) : Source.Spelled C s := by
  unfold name? at hs
  split at hs
  · split at hs <;> cases hs
    exact h
  · cases hs

theorem spelled_text? (h : i.Spelled C) (hs : i.text? = some s) : Source.Spelled C s := by
  unfold text? at hs
  split at hs <;> cases hs
  exact h

variable {α : Type} {pick : Piece → Option α} {Q : α → Prop}

variable (h : ∀ i ∈ items, i.Spelled C)

include h

theorem of_mem_filterMap (hpick : ∀ i a, i.Spelled C → pick i = some a → Q a) : ∀ a ∈ items.filterMap pick, Q a := by
  intro a ha
  obtain ⟨i, hi, hia⟩ := List.mem_filterMap.1 ha
  exact hpick i a (h i hi) hia

theorem of_mem_last {β : Type} {pick : Piece → Option (List β)} {Q : β → Prop}
    (hpick : ∀ i bs, i.Spelled C → pick i = some bs → ∀ b ∈ bs, Q b) :
    ∀ b ∈ ((items.filterMap pick).getLast?).getD [], Q b := by
  cases hlast : (items.filterMap pick).getLast? with
  | none => simp
  | some bs =>
    exact of_mem_filterMap (Q := fun bs => ∀ b ∈ bs, Q b) h hpick bs (mem_of_getLast? hlast)

theorem spelled_exprs : AllSpelled C (exprNodes (items.filterMap expr?)) :=
  allSpelled_exprNodes.2 (of_mem_filterMap h fun _ _ => spelled_expr?)

theorem spelled_paramsOf : AllSpelled C (paramNodes (paramsOf items)) := by
  refine allSpelled_paramNodes.2 (of_mem_last h fun i ps hi hps => ?_)
  unfold params? at hps
  split at hps <;> cases hps
  exact allSpelled_paramNodes.1 hi

theorem spelled_params : AllSpelled C (paramNodes (items.filterMap param?)) := by
  refine allSpelled_paramNodes.2 (of_mem_filterMap h fun i p hi hp => ?_)
  unfold param? at hp
  split at hp <;> cases hp
  exact hi

theorem spelled_last (hpick : ∀ i a, i.Spelled C → pick i = some a → Q a) :
    ∀ a, items.getLast?.bind pick = some a → Q a := by
  intro a ha
  obtain ⟨i, hi, hia⟩ := Option.bind_eq_some_iff.1 ha
  exact hpick i a (h i (mem_of_getLast? hi)) hia

theorem spelled_head (hpick : ∀ i a, i.Spelled C → pick i = some a → Q a) :
    ∀ a, items.head?.bind pick = some a → Q a := by
  intro a ha
  obtain ⟨i, hi, hia⟩ := Option.bind_eq_some_iff.1 ha
  exact hpick i a (h i (mem_of_head? hi)) hia

omit h in
theorem spelled_typeText (hC : ∀ c, c ≠ '\n' → C c) (h : AllSpelled C t.nodes) : Source.Spelled C t.text :=
  (spelled_composes hC).type t h.texts

attribute [local simp] Node.Spelled Node.isUnparsed Node.texts

omit h in
theorem spelled_typeLike? (hC : ∀ c, c ≠ '\n' → C c) {place} (h : i.Spelled C)
    (ht : typeLike? place i = some t) : AllSpelled C t.nodes := by
  have law := spelled_composes hC
  unfold typeLike? at ht
  split at ht
  · cases ht
    exact h
  · next ms =>
    cases ht
    have hnames : ∀ s ∈ ms.map (·.name), Source.Spelled C s := by
      intro s hs
      obtain ⟨m, hm, rfl⟩ := mem_map.1 hs
      have hsignature := allSpelled_memberNodes.1 h (.signature m) (List.mem_map_of_mem hm)
      obtain ⟨span, name, type, params, o⟩ := m
      simp only [memberNodes, allSpelled_cons] at hsignature
      exact hsignature.1.2 name (mem_singleton_self _)
    have hname := law.listed hnames
    simp only [TypeRef.nodes, typeNodes, allSpelled_cons, allSpelled_nil, and_true]
    simp (disch := exact unbroken rfl) [law.of_line, hname]
  · cases ht

end Picks

/-! ### Expressions -/

attribute [local simp] Node.Spelled Node.isUnparsed Node.texts Piece.Spelled Starts span? Stmt.span

theorem start_dimensioned {t} (h : Located S items) (ht : dimensioned items = some t) : S t.span.start := by
  unfold dimensioned at ht
  split at ht
  · next t' rest =>
    cases ht
    exact h.each (type t') (by simp)
  · cases ht

theorem spelled_dimensioned (h : ∀ i ∈ items, i.Spelled C) {t}
    (ht : dimensioned items = some t) : AllSpelled C t.nodes := by
  unfold dimensioned at ht
  split at ht
  · next t' rest =>
    cases ht
    have htype : AllSpelled C t'.nodes := h (type t') (by simp)
    obtain ⟨span, name, args, dimensions, form⟩ := t'
    simpa [TypeRef.addDimensions, TypeRef.nodes] using htype
  · cases ht

section Expressions

attribute [local simp] Expr.nodes Expr.span exprNodes exprNode typeNode paramNodes propertyNodes bareParam

variable (h : ∀ i ∈ items, i.Spelled C) (hi : Located S items)

include h hi

theorem writes_cast : Writes C S (cast items) := by
  simp only [cast, bind_eq_bind, writes_bind, writes_some]
  intro t ht e he
  have htype := spelled_dimensioned (fun i hi => h i (List.dropLast_subset _ hi)) ht
  have hexpr := spelled_last h (fun _ _ => spelled_expr?) e he
  simp [htype, hexpr, hi.span]

theorem writes_newArray : Writes C S (newArray items) := by
  unfold newArray
  split
  · next t rest =>
    have htype : AllSpelled C t.nodes := h (type t) (by simp)
    dsimp only
    split
    · next s es hlast =>
      have harray : AllSpelled C (Expr.array s es).nodes :=
        h (expr (.array s es)) (mem_cons_of_mem _ (mem_of_getLast? hlast))
      simpa [htype, hi.span] using harray
    · rw [writes_some, Piece.Spelled, Expr.nodes, allSpelled_cons, allSpelled_append]
      refine ⟨⟨by simp, htype, allSpelled_exprNodes.2 ?_⟩, hi.span⟩
      refine of_mem_filterMap (fun i hi => h i (mem_cons_of_mem _ hi)) fun i e hi he => ?_
      split at he <;> cases he
      exact hi
  · exact writes_none

theorem writes_lambda : Writes C S (lambda items) := by
  simp only [lambda, bind_eq_bind, writes_bind, writes_some]
  intro body hbody
  have hnodes : AllSpelled C (bodyNodes body) := by
    refine spelled_last (Q := fun b => AllSpelled C (bodyNodes b)) h (fun i b hi hb => ?_) body hbody
    unfold lambdaBody? at hb
    split at hb <;> cases hb
    · exact hi
    · exact hi
  simp [spelled_paramsOf h, hnodes, hi.span]

omit h hi in
theorem spelled_key? {i : Piece} {s : String} (h : i.Spelled C) (hs : i.key? = some s) : Source.Spelled C s := by
  unfold key? at hs
  split at hs <;> cases hs
  all_goals simpa using h

omit h hi in
theorem spelled_property? (hC : ∀ c, c ≠ '\n' → C c) {i : Piece} {p : Property} (h : i.Spelled C)
    (hp : i.property? = some p) : AllSpelled C (propertyNodes [p]) := by
  unfold property? at hp
  split at hp <;> cases hp
  · exact h
  · have hdots : Source.Spelled C "..." := (spelled_composes hC).of_line (unbroken rfl)
    simpa [hdots] using h

theorem writes_expressionOfNode (hC : ∀ c, c ≠ '\n' → C c) : Writes C S (expressionOfNode c items) := by
  have htypeStart : ∀ t, type t ∈ items → S t.span.start := fun t => hi.each (type t)
  have hall : Writes C S (some (args (items.filterMap expr?))) :=
    writes_some.2 ⟨spelled_exprs h, hi.cover (fun _ _ => span?_of_expr?) rfl⟩
  have hline {s : String} : '\n' ∉ s.toList → Source.Spelled C s := (spelled_composes hC).of_line
  have hthis : Source.Spelled C "this" := hline (by decide)
  have hsuper : Source.Spelled C "super" := hline (by decide)
  have htoken : ∀ t, token t ∈ items → Source.Spelled C t.text := fun t => h (token t)
  have hexpr : ∀ e, expr e ∈ items → AllSpelled C e.nodes := fun e => h (expr e)
  have hargs : ∀ es, args es ∈ items → AllSpelled C (exprNodes es) := fun es => h (args es)
  have htype : ∀ t, type t ∈ items → AllSpelled C t.nodes := fun t => h (type t)
  have htypeText : ∀ t, type t ∈ items → Source.Spelled C t.text := fun t ht =>
    spelled_typeText hC (h (type t) ht)
  have htypeLike : ∀ i ∈ items, ∀ place t, typeLike? place i = some t → AllSpelled C t.nodes :=
    fun i hi _ _ => spelled_typeLike? hC (h i hi)
  have hkey : ∀ i ∈ items, ∀ s, i.key? = some s → Source.Spelled C s :=
    fun i hi _ => spelled_key? (h i hi)
  have hproperties : AllSpelled C (propertyNodes (items.filterMap property?)) :=
    allSpelled_propertyNodes.2 (of_mem_filterMap h fun _ _ => spelled_property? hC)
  have hspread : Writes C S ((items.getLast?.bind expr?).map fun e => expr (.spread (spanOf items) e)) := by
    rw [writes_map]
    intro e he
    simpa [hi.span] using spelled_last h (fun _ _ => spelled_expr?) e he
  unfold expressionOfNode
  dsimp only
  split <;> simp [↓writes_item h hi, ↓hspread, ↓hall, htoken, hexpr, htype, htypeText, hthis, hsuper, hargs,
    hproperties, hi.span, hi.token, htypeStart, writes_cast h hi, writes_newArray h hi, writes_lambda h hi,
    spelled_exprs h, spelled_params h]
  · exact htypeLike _ (by simp) _
  · exact hkey _ (by simp)

end Expressions

/-! ### Statements -/

section Statements

attribute [local simp] Stmt.nodes Block.nodes exprNode

variable (h : ∀ i ∈ items, i.Spelled C)

include h

theorem spelled_stmts : AllSpelled C (stmtNodes (items.filterMap stmt?)) :=
  allSpelled_stmtNodes.2 (of_mem_filterMap h fun _ _ => spelled_stmt?)

theorem spelled_meaningful : AllSpelled C (stmtNodes (meaningful items)) :=
  allSpelled_stmtNodes.2 fun s hs => allSpelled_stmtNodes.1 (spelled_stmts h) s (mem_filter.1 hs).1

theorem spelled_names : ∀ s ∈ names items, Source.Spelled C s :=
  of_mem_filterMap h fun _ _ => spelled_name?

theorem spelled_firstName : ∀ s, (names items).head? = some s → Source.Spelled C s :=
  fun s hs => spelled_names h s (mem_of_head? hs)

theorem spelled_types : AllSpelled C (typeNodes (items.filterMap type?)) :=
  allSpelled_typeNodes.2 (of_mem_filterMap h fun _ _ => spelled_type?)

theorem spelled_firstType : AllSpelled C (typeNode (items.filterMap type?).head?) := by
  rw [allSpelled_typeNode]
  exact fun t ht => allSpelled_typeNodes.1 (spelled_types h) t (mem_of_head? ht)

variable (hi : Located S items)

include hi

theorem writes_forStatement : Writes C S (forStatement items) := by
  simp only [forStatement, bind_eq_bind, writes_bind, writes_some]
  intro body hbody
  have hstmt := spelled_last h (fun _ _ => spelled_stmt?) body hbody
  rw [Piece.Spelled, Stmt.nodes, allSpelled_cons, allSpelled_append, allSpelled_append,
    allSpelled_append, allSpelled_append]
  refine ⟨⟨by simp, ⟨⟨⟨allSpelled_varDeclNode.2 fun v hv => ?_,
    allSpelled_exprNodes.2 (of_mem_last h fun i es hi hes => ?_)⟩, allSpelled_exprNode.2 fun e he => ?_⟩,
    allSpelled_exprNodes.2 (of_mem_last h fun i es hi hes => ?_)⟩, hstmt⟩, hi.span⟩
  · refine of_mem_filterMap (Q := fun v => AllSpelled C v.nodes) h (fun i v hi hv => ?_) v (mem_of_getLast? hv)
    split at hv <;> cases hv
    exact hi
  · split at hes <;> cases hes
    exact allSpelled_exprNodes.1 hi
  · refine of_mem_filterMap (Q := fun e => AllSpelled C e.nodes) h (fun i e hi he => ?_) e (mem_of_getLast? he)
    split at he <;> cases he
    exact hi
  · split at hes <;> cases hes
    exact allSpelled_exprNodes.1 hi

theorem writes_forEach (overKeys : Bool) : Writes C S (forEach overKeys items) := by
  simp only [forEach, bind_eq_bind, writes_bind, writes_some]
  intro name hname body hbody iterable hiterable
  have hstmt := spelled_last h (fun _ _ => spelled_stmt?) body hbody
  have hexpr := spelled_last (fun i hi => h i (List.dropLast_subset _ hi)) (fun _ _ => spelled_expr?)
    iterable hiterable
  rw [Piece.Spelled, Stmt.nodes, allSpelled_cons, allSpelled_append, allSpelled_append]
  exact ⟨⟨by simp, ⟨spelled_firstType h, hexpr⟩, hstmt⟩, hi.span⟩

omit hi in
theorem spelled_finalizerOf : AllSpelled C (blockNode (finalizerOf items)) := by
  rw [allSpelled_blockNode]
  intro b hb
  refine of_mem_filterMap (Q := fun b => AllSpelled C b.nodes) h (fun i b hi hb => ?_) b (mem_of_getLast? hb)
  split at hb <;> cases hb
  exact hi

theorem writes_tryStatement : Writes C S (tryStatement items) := by
  simp only [tryStatement, bind_eq_bind, writes_bind, writes_some]
  intro block hblock
  have hown : AllSpelled C block.nodes := of_mem_filterMap (Q := fun b => AllSpelled C b.nodes) h
    (fun _ _ => spelled_block?) block (mem_of_head? hblock)
  have hhandlers : AllSpelled C (handlerNodes (items.filterMap handler?)) := by
    refine allSpelled_handlerNodes.2 (of_mem_filterMap h fun i r hi hr => ?_)
    unfold handler? at hr
    split at hr <;> cases hr
    exact hi
  obtain ⟨span, ss⟩ := block
  rw [Block.nodes, allSpelled_cons, allSpelled_stmtNodes] at hown
  rw [Piece.Spelled, Stmt.nodes, Block.nodes, allSpelled_cons, allSpelled_append, allSpelled_append,
    allSpelled_cons, allSpelled_stmtNodes, List.forall_mem_append]
  refine ⟨⟨by simp, ⟨⟨by simp, of_mem_last h fun i ss hi hss => ?_, hown.2⟩, hhandlers⟩, spelled_finalizerOf h⟩, hi.span⟩
  split at hss <;> cases hss
  exact allSpelled_stmtNodes.1 hi

theorem writes_catchClause : Writes C S (catchClause l items) := by
  simp only [catchClause, bind_eq_bind, writes_bind]
  intro body hbody
  have hblock := spelled_last h (fun _ _ => spelled_block?) body hbody
  have htypes := spelled_types h
  cases l with
  | java =>
    simpa [handlerNodes, hblock, htypes, (hi.mono fun _ => List.mem_of_mem_tail).span] using fun s hs => spelled_names h s (mem_of_getLast? hs)
  | typescript => simpa [handlerNodes, hblock, htypes, hi.span] using spelled_firstName h

theorem writes_resource : Writes C S (resource items) := by
  unfold resource
  split
  · next i t n e =>
    have htype : AllSpelled C t.nodes := h (type t) (by simp)
    have hname : Source.Spelled C n.text := h (token n) (by simp)
    have hexpr : AllSpelled C e.nodes := h (expr e) (by simp)
    have hstart : S t.span.start := hi.each (type t) (by simp)
    simp [VarDecl.nodes, declaratorNodes, typeNode, exprNode, htype, hname, hexpr, hstart]
  · exact writes_none

omit hi in
theorem spelled_switchCases (done : List SwitchCase) (hdone : ∀ c ∈ done, AllSpelled C (caseNodes [c])) :
    AllSpelled C (caseNodes (switchCases done items)) := by
  have hlabels {labels labels' : List (Option Expr)} : AllSpelled C (labelNodes (labels ++ labels')) ↔
      AllSpelled C (labelNodes labels) ∧ AllSpelled C (labelNodes labels') := by
    induction labels with
    | nil => simp [labelNodes]
    | cons e labels ih => simp [labelNodes, ih, and_assoc]
  have hstmts {ss ss' : List Stmt} : AllSpelled C (stmtNodes (ss ++ ss')) ↔
      AllSpelled C (stmtNodes ss) ∧ AllSpelled C (stmtNodes ss') := by
    simp only [allSpelled_stmtNodes, List.forall_mem_append]
  fun_induction switchCases done items with
  | case1 done =>
    exact allSpelled_caseNodes.2 fun c hc => hdone c (List.mem_reverse.1 hc)
  | case2 e span rest s labels before ih =>
    simp only [forall_mem_cons] at h hdone
    refine ih h.2 (forall_mem_cons.2 ⟨?_, hdone.2⟩)
    have hlabel : AllSpelled C (exprNode e) := h.1
    simpa [caseNodes, hlabels, labelNodes, hlabel] using hdone.1
  | case3 done e span rest _ ih =>
    simp only [forall_mem_cons] at h
    refine ih h.2 (forall_mem_cons.2 ⟨?_, hdone⟩)
    have hlabel : AllSpelled C (exprNode e) := h.1
    simp [caseNodes, labelNodes, stmtNodes, hlabel]
  | case4 s rest c before ih =>
    simp only [forall_mem_cons] at h hdone
    refine ih h.2 (forall_mem_cons.2 ⟨?_, hdone.2⟩)
    have hstmt : AllSpelled C s.nodes := h.1
    obtain ⟨span, labels, body⟩ := c
    simpa [caseNodes, hstmts, stmtNodes, hstmt] using hdone.1
  | case5 s rest ih => exact ih (forall_mem_cons.1 h).2 hdone
  | case6 done i rest _ _ ih => exact ih (forall_mem_cons.1 h).2 hdone

theorem writes_statementOfNode : Writes C S (statementOfNode l c items) := by
  have hexprStart : ∀ e, expr e ∈ items → S e.span.start := fun e => hi.each (expr e)
  have hblockStart : ∀ b, stmt (.block b) ∈ items → S b.span.start := fun b => hi.each (stmt (.block b))
  have hexpr : ∀ e, expr e ∈ items → AllSpelled C e.nodes := fun e => h (expr e)
  have hstmt : ∀ s, stmt s ∈ items → AllSpelled C s.nodes := fun s => h (stmt s)
  have hdrop : ∀ i ∈ items.drop 1, i.Spelled C := fun i hi => h i (List.mem_of_mem_drop hi)
  have hrest : Located S (items.drop 1) := hi.mono fun _ => List.mem_of_mem_drop
  unfold statementOfNode
  dsimp only
  split <;> simp [hexpr, hstmt, hi.span, hi.token, hexprStart, hblockStart, writes_forStatement h hi,
    writes_forEach h hi, ↓writes_forEach hdrop hrest, writes_tryStatement h hi, writes_catchClause h hi,
    writes_resource h hi, spelled_exprs h, spelled_stmts h, spelled_meaningful h]
  · exact allSpelled_stmtNode.2 (spelled_head (fun i hi => h i (by simp [hi])) fun _ _ => spelled_stmt?)
  · exact hstmt (.varDecl _) (mem_singleton_self _)
  · exact spelled_switchCases (fun i hi => h i (by simp [hi])) [] (by simp)
  · exact allSpelled_exprNode.2 (spelled_head (fun i hi => h i (by simp [hi])) fun _ _ => spelled_expr?)
  · exact spelled_firstName fun i hi => h i (by simp [hi])
  · exact spelled_firstName fun i hi => h i (by simp [hi])
  · exact hstmt (.block _) (mem_singleton_self _)
  · exact spelled_last (fun i hi => h i (by simp [hi])) fun _ _ => spelled_expr?

end Statements

/-! ### Types -/

section Types

attribute [local simp] TypeRef.nodes typeNodes typeNode

theorem spelled_typesLike (hC : ∀ c, c ≠ '\n' → C c) (h : ∀ i ∈ items, i.Spelled C) :
    AllSpelled C (typeNodes (typesLike items)) :=
  allSpelled_typeNodes.2 (of_mem_filterMap h fun _ _ => spelled_typeLike? hC)

theorem spelled_addDimensions {t : TypeRef} (h : AllSpelled C t.nodes) (n : Nat) :
    AllSpelled C (t.addDimensions n).nodes := by
  obtain ⟨span, name, args, dimensions, form⟩ := t
  simpa [TypeRef.addDimensions] using h

theorem writes_compound (hC : ∀ c, c ≠ '\n' → C c) (h : ∀ i ∈ items, i.Spelled C) {form spell}
    (hi : Located S items) (hspell : ∀ ss, (∀ s ∈ ss, Source.Spelled C s) → Source.Spelled C (spell ss)) :
    Writes C S (some (compound form spell items)) := by
  have htypes := spelled_typesLike hC h
  have hname : Source.Spelled C (spell ((typesLike items).map (·.text))) := by
    refine hspell _ fun s hs => ?_
    obtain ⟨t, ht, rfl⟩ := mem_map.1 hs
    exact spelled_typeText hC (allSpelled_typeNodes.1 htypes t ht)
  have hstart : S (Span.coverAll ((typesLike items).map (·.span))).start := by
    refine hi.coverAll fun s hs => ?_
    obtain ⟨t, ht, rfl⟩ := mem_map.1 hs
    obtain ⟨i, hmem, hit⟩ := List.mem_filterMap.1 ht
    exact start_typeLike? hi hmem hit
  simpa [compound, htypes, hstart] using hname

theorem spelled_typeArgsOf (h : ∀ i ∈ items, i.Spelled C) : AllSpelled C (typeNodes (typeArgsOf items)) := by
  refine allSpelled_typeNodes.2 (of_mem_last h fun i ts hi hts => ?_)
  split at hts <;> cases hts
  exact allSpelled_typeNodes.1 hi

theorem writes_named (h : ∀ i ∈ items, i.Spelled C) (hi : Located S items) : Writes C S (named items) := by
  have hargs := spelled_typeArgsOf h
  unfold named
  split
  · next t rest =>
    have htoken : Source.Spelled C t.text := h (token t) (by simp)
    simpa [htoken, hi.span] using hargs
  · exact writes_none

theorem spelled_functionType (hC : ∀ c, c ≠ '\n' → C c) {ps result}
    (hps : AllSpelled C (paramNodes ps)) (hresult : AllSpelled C result.nodes) :
    AllSpelled C (functionType ps result).nodes := by
  have law := spelled_composes hC
  have hparams : ∀ s ∈ ps.map paramText, Source.Spelled C s := by
    intro s hs
    obtain ⟨p, hp, rfl⟩ := mem_map.1 hs
    have hparam := allSpelled_paramNodes.1 hps p hp
    obtain ⟨span, name, type, o, r, default, ms⟩ := p
    simp only [paramNodes, allSpelled_cons, allSpelled_append] at hparam
    have hname : Source.Spelled C name := hparam.1.2 name (mem_singleton_self _)
    cases type with
    | none => exact hname
    | some t =>
      have ht := spelled_typeText hC hparam.2.1.1
      simp (disch := exact unbroken rfl) only [paramText, spelled_append, law.of_line, hname, ht, and_self]
  have hlist := law.listed hparams
  have htext := spelled_typeText hC hresult
  simp (disch := exact unbroken rfl) [functionType, law.of_line, hlist, htext]

theorem spelled_literalTypeName (hC : ∀ c, c ≠ '\n' → C c) {e} (h : AllSpelled C e.nodes) :
    Source.Spelled C (literalTypeName e) := by
  have hline {s : String} : '\n' ∉ s.toList → Source.Spelled C s := (spelled_composes hC).of_line
  unfold literalTypeName
  split
  · simpa [Expr.nodes] using h
  · have hvalue : Source.Spelled C _ := (forall_mem_cons.1 h).1.2 _ (mem_singleton_self _)
    simp (disch := exact unbroken rfl) [hline, hvalue]
  all_goals exact hline (by decide)

theorem spelled_signature {s} (hname : Source.Spelled C s.name) (htype : ∀ t, s.type = some t → AllSpelled C t.nodes)
    (hparams : ∀ ps, s.params = some ps → AllSpelled C (paramNodes ps)) :
    AllSpelled C (memberNodes [.signature s]) := by
  obtain ⟨span, name, type, params, o⟩ := s
  have hps : AllSpelled C (paramsNode params) := by
    cases params with
    | none => simp [paramsNode]
    | some ps => exact hparams ps rfl
  rw [memberNodes, allSpelled_cons, allSpelled_append, allSpelled_append]
  exact ⟨by simpa using hname, ⟨allSpelled_typeNode.2 htype, hps⟩, by simp [memberNodes]⟩

theorem writes_typeOfNode (hC : ∀ c, c ≠ '\n' → C c) (h : ∀ i ∈ items, i.Spelled C) (hi : Located S items) :
    Writes C S (typeOfNode c items) := by
  have hexprStart : ∀ e, expr e ∈ items → S e.span.start := fun e => hi.each (expr e)
  have law := spelled_composes hC
  have hvoid : Source.Spelled C "void" := law.of_line (unbroken rfl)
  have hmark : Source.Spelled C "?" := law.of_line (unbroken rfl)
  have htypeof : Source.Spelled C "typeof " := law.of_line (unbroken rfl)
  have htoken : ∀ t, token t ∈ items → Source.Spelled C t.text := fun t => h (token t)
  have htype : ∀ t, type t ∈ items → AllSpelled C t.nodes := fun t => h (type t)
  have hexpr : ∀ e, expr e ∈ items → AllSpelled C e.nodes := fun e => h (expr e)
  have hparams : ∀ ps, params ps ∈ items → AllSpelled C (paramNodes ps) := fun ps => h (params ps)
  have htypeLike : ∀ i ∈ items, ∀ t, typeLike? .unplaced i = some t → AllSpelled C t.nodes ∧ S t.span.start :=
    fun i hmem _ ht => ⟨spelled_typeLike? hC (h i hmem) ht, start_typeLike? hi hmem ht⟩
  have hlastType : ∀ t, items.getLast?.bind type? = some t → AllSpelled C t.nodes :=
    spelled_last h fun _ _ => spelled_type?
  have hobject : Writes C S (some (objectType (items.filterMap signature?))) := by
    refine writes_some.2 ⟨?_, hi.cover (fun _ _ => span?_of_signature?) rfl⟩
    rw [Piece.Spelled, allSpelled_memberNodes, List.forall_mem_map]
    refine of_mem_filterMap h fun i s hi hs => ?_
    unfold signature? at hs
    split at hs <;> cases hs
    exact hi
  have hunion : Writes C S (some (compound .union (" | ".intercalate ·) items)) :=
    writes_compound hC h hi fun _ => law.intercalate (law.of_line (unbroken rfl))
  have hintersection : Writes C S (some (compound .intersection (" & ".intercalate ·) items)) :=
    writes_compound hC h hi fun _ => law.intercalate (law.of_line (unbroken rfl))
  have htuple : Writes C S (some (compound .tuple (fun ts => "[" ++ ", ".intercalate ts ++ "]") items)) :=
    writes_compound hC h hi fun _ hss => by
      simp (disch := exact unbroken rfl) only [spelled_append, law.of_line, law.listed hss, and_self]
  unfold typeOfNode
  split <;> simp [↓hunion, ↓hintersection, ↓htuple, ↓hobject, htoken, htype, hvoid, hmark, htypeof, hi.span, hi.token,
    hexprStart, writes_named h hi, spelled_types h, spelled_typesLike hC h]
  · exact fun t ht => ⟨spelled_dimensioned h ht, start_dimensioned hi ht⟩
  · exact allSpelled_typeNodes.2 fun t ht => hlastType t (Option.mem_toList.1 ht)
  · exact fun s i hi => spelled_text? (h i hi)
  · exact htypeLike _ (by simp)
  · intro t ht
    obtain ⟨htype, hstart⟩ := htypeLike _ (by simp) t ht
    exact ⟨spelled_addDimensions htype 1, hstart⟩
  · intro t ht
    obtain ⟨htype, hstart⟩ := htypeLike _ (by simp) t ht
    exact ⟨spelled_functionType hC (hparams _ (by simp)) htype, hstart⟩
  · exact spelled_literalTypeName hC (hexpr _ (by simp))
  · exact fun s hs => spelled_signature (spelled_firstName h s hs) hlastType (nofun)
  · exact fun s hs => spelled_signature (spelled_firstName h s hs) hlastType fun ps hps => by
      cases hps
      exact spelled_paramsOf h
  · intro t ht
    have hkey := htoken _ (List.mem_cons_self ..)
    have htext := spelled_typeText hC (htypeLike _ (by simp) t ht).1
    refine spelled_signature ?_ (fun t ht => (htypeLike _ (by simp) t ht).1) (nofun)
    simp (disch := exact unbroken rfl) only [spelled_append, law.of_line, hkey, htext, and_self]

end Types

/-! ### Declarations -/

section Declarations

attribute [local simp] Stmt.nodes VarDecl.nodes Callable.nodes declaratorNodes paramNodes enumMemberNodes

variable (h : ∀ i ∈ items, i.Spelled C)

include h

theorem spelled_texts : ∀ s ∈ items.filterMap text?, Source.Spelled C s :=
  of_mem_filterMap h fun _ _ => spelled_text?

theorem spelled_declarators : AllSpelled C (declaratorNodes (items.filterMap declarator?)) := by
  refine allSpelled_declaratorNodes.2 (of_mem_filterMap h fun i d hi hd => ?_)
  unfold declarator? at hd
  split at hd <;> cases hd
  exact hi

theorem spelled_typeParamsOf : ∀ s ∈ typeParamsOf items, Source.Spelled C s := by
  refine of_mem_last h fun i ns hi hns => ?_
  split at hns <;> cases hns
  exact hi

theorem spelled_superclassOf : AllSpelled C (typeNode (superclassOf items)) := by
  refine allSpelled_typeNode.2 fun t ht => of_mem_filterMap (Q := fun t => AllSpelled C t.nodes) h
    (fun i t hi ht => ?_) t (mem_of_getLast? ht)
  split at ht <;> cases ht
  exact hi

theorem spelled_interfacesOf : AllSpelled C (typeNodes (interfacesOf items)) := by
  refine allSpelled_typeNodes.2 (of_mem_last h fun i ts hi hts => ?_)
  split at hts <;> cases hts
  exact allSpelled_typeNodes.1 hi

theorem spelled_basesOf : AllSpelled C (typeNodes (basesOf items)) := by
  refine allSpelled_typeNodes.2 (of_mem_last h fun i ts hi hts => ?_)
  split at hts <;> cases hts
  exact allSpelled_typeNodes.1 hi

theorem spelled_membersOf : AllSpelled C (stmtNodes (membersOf items)) := by
  refine allSpelled_stmtNodes.2 (of_mem_last h fun i ss hi hss => ?_)
  split at hss <;> cases hss
  exact allSpelled_stmtNodes.1 hi

theorem spelled_lastBlock : AllSpelled C (blockNode (items.getLast?.bind block?)) :=
  allSpelled_blockNode.2 (spelled_last h fun _ _ => spelled_block?)

omit h in
theorem spelled_decorators {ms rest isDecorator} (h : ∀ i ∈ modifiers ms :: rest, i.Spelled C) :
    ∀ s ∈ ms.filter isDecorator, Source.Spelled C s :=
  fun s hs => h (modifiers ms) List.mem_cons_self s (mem_filter.1 hs).1

omit h in
theorem mem_of_mem_afterName {i} (h : i ∈ afterName items) : i ∈ items := by
  induction items with
  | nil => exact h
  | cons j items ih =>
    rw [afterName] at h
    split at h
    · exact mem_cons_of_mem _ h
    · exact mem_cons_of_mem _ (ih h)

omit h in
theorem mem_of_mem_fromName {i} (h : i ∈ fromName items) : i ∈ items := by
  induction items with
  | nil => exact h
  | cons j items ih =>
    rw [fromName] at h
    split at h
    · exact h
    · exact mem_cons_of_mem _ (ih h)

theorem spelled_afterName : AllSpelled C (exprNode ((afterName items).filterMap expr?).head?) :=
  allSpelled_exprNode.2 fun e he => allSpelled_exprNodes.1
    (spelled_exprs fun i hi => h i (mem_of_mem_afterName hi)) e (mem_of_head? he)

variable (hi : Located S items)

include hi

theorem writes_typedVariables : Writes C S (variablePiece (typedVariables items)) := by
  unfold typedVariables
  split
  · next ms t ds =>
    have htype : AllSpelled C t.nodes := h (type t) (by simp)
    have hds := spelled_declarators fun i hi => h i (mem_cons_of_mem _ (mem_cons_of_mem _ hi))
    simp [variablePiece, typeNode, htype, hds, hi.tail.span]
  · exact writes_none

theorem writes_keywordVariables : Writes C S (variablePiece (keywordVariables items)) := by
  unfold keywordVariables
  split
  · next t ds =>
    have hds := spelled_declarators fun i hi => h i (mem_cons_of_mem _ hi)
    simp [variablePiece, typeNode, hds, hi.span]
  · exact writes_none

theorem writes_declaratorOf : Writes C S (declaratorOf items) := by
  unfold declaratorOf
  split
  · next t rest =>
    have hname : Source.Spelled C t.text := h (token t) (by simp)
    have hrest : ∀ i ∈ rest, i.Spelled C := fun i hi => h i (mem_cons_of_mem _ hi)
    have htype := spelled_firstType hrest
    have hinit : AllSpelled C (exprNode (lastExpr rest)) :=
      allSpelled_exprNode.2 (spelled_last hrest fun _ _ => spelled_expr?)
    rw [writes_some, Piece.Spelled, declaratorNodes, allSpelled_cons, allSpelled_append, allSpelled_append]
    exact ⟨⟨by simpa using hname, ⟨htype, hinit⟩, by simp⟩, hi.span⟩
  · exact writes_none

theorem writes_formalParameter : Writes C S (formalParameter items) := by
  unfold formalParameter
  split
  · next ms t rest =>
    have hrest : ∀ i ∈ type t :: rest, i.Spelled C := fun i hi => h i (mem_cons_of_mem _ hi)
    have htype : AllSpelled C t.nodes := h (type t) (by simp)
    simp only [bind_eq_bind, writes_bind, writes_some]
    intro name hname
    simp [typeNode, exprNode, spelled_addDimensions htype, spelled_firstName hrest name hname, hi.tail.span]
  · exact writes_none

theorem writes_parameter : Writes C S (parameter items) := by
  simp only [parameter, bind_eq_bind, writes_bind, writes_some]
  intro name hname
  have hspelled := spelled_firstName h name hname
  rw [Piece.Spelled, paramNodes, allSpelled_cons, allSpelled_append, allSpelled_append]
  exact ⟨⟨by simpa using hspelled, ⟨spelled_firstType h, spelled_afterName h⟩, by simp⟩,
    (hi.mono fun _ => mem_of_mem_fromName).span⟩

omit h hi in
theorem spelled_class {span name superclass interfaces typeParams modifiers decorators members}
    (hname : Source.Spelled C name) (hsuper : AllSpelled C (typeNode superclass))
    (hinterfaces : AllSpelled C (typeNodes interfaces)) (hmembers : AllSpelled C (stmtNodes members))
    (htps : ∀ s ∈ typeParams, Source.Spelled C s) (hds : ∀ s ∈ decorators, Source.Spelled C s)
    (hspan : S span.start) : Writes C S (some (stmt (.classDecl span name superclass interfaces typeParams members modifiers decorators))) := by
  rw [writes_some, Piece.Spelled, Stmt.nodes, allSpelled_cons, allSpelled_append, allSpelled_append]
  have hsupername : ∀ t, superclass = some t → Source.Spelled C t.name := by
    rintro ⟨place, own, args, dimensions, form⟩ rfl
    exact (allSpelled_cons.1 hsuper).1.2 own (mem_singleton_self own)
  refine ⟨⟨⟨rfl, ?_⟩, ⟨hsuper, hinterfaces⟩, hmembers⟩, hspan⟩
  simpa [or_imp, forall_and] using ⟨hname, hsupername, htps, hds⟩

theorem writes_classDeclaration : Writes C S (classDeclaration l items) := by
  unfold classDeclaration
  simp only [bind_eq_bind, writes_bind]
  intro name hname
  have hspelled := spelled_firstName h name hname
  split
  · next ms rest =>
    have hrest : ∀ i ∈ rest, i.Spelled C := fun i hi => h i (mem_cons_of_mem _ hi)
    exact spelled_class hspelled (spelled_superclassOf hrest) (spelled_interfacesOf hrest)
      (spelled_membersOf hrest) (spelled_typeParamsOf hrest) (spelled_decorators h) hi.tail.span
  · exact writes_none
  · refine spelled_class hspelled (spelled_superclassOf h) (spelled_interfacesOf h) ?_
      (spelled_typeParamsOf h) (spelled_texts h) hi.span
    exact allSpelled_stmtNodes.2 fun s hs =>
      allSpelled_stmtNodes.1 (spelled_stmts h) s (mem_filter.1 hs).1

theorem writes_interfaceDeclaration : Writes C S (interfaceDeclaration l items) := by
  unfold interfaceDeclaration
  simp only [bind_eq_bind, writes_bind]
  intro name hname
  have hspelled := spelled_firstName h name hname
  have hwrites : ∀ {span : Span} {members : List InterfaceMember}, S span.start → AllSpelled C (memberNodes members) →
      Writes C S (some (stmt (.interface span name (typeParamsOf items) (basesOf items) members))) := by
    intro span members hspan hmembers
    simp [hspelled, spelled_basesOf h, hmembers, hspan]
  cases l with
  | java =>
    refine hwrites (hi.mono fun _ => List.mem_of_mem_drop).span (allSpelled_memberNodes.2 fun m hm => ?_)
    obtain ⟨s, hs, hsm⟩ := List.mem_filterMap.1 hm
    have hstmt := allSpelled_stmtNodes.1 (spelled_membersOf h) s hs
    unfold interfaceMember? at hsm
    split at hsm <;> cases hsm
    all_goals simpa [memberNodes] using hstmt
  | typescript =>
    refine hwrites hi.span (allSpelled_memberNodes.2 (List.forall_mem_map.2 (of_mem_last h fun i ms hi hms => ?_)))
    split at hms <;> cases hms
    exact fun m hm => allSpelled_memberNodes.1 hi _ (List.mem_map_of_mem hm)

theorem writes_enumDeclaration : Writes C S (enumDeclaration l items) := by
  simp only [enumDeclaration, bind_eq_bind, writes_bind, writes_some]
  intro name hname
  have hspelled := spelled_firstName h name hname
  have hmembers : AllSpelled C (enumMemberNodes (items.filterMap enumMember?)) := by
    refine allSpelled_enumMemberNodes.2 (of_mem_filterMap h fun i m hi hm => ?_)
    unfold enumMember? at hm
    split at hm <;> cases hm
    exact hi
  cases l <;> simp [hspelled, hmembers, hi.span, (hi.mono fun _ => List.mem_of_mem_tail).span]

omit h hi in
theorem writes_function {f} (hname : Source.Spelled C f.name)
    (hparams : AllSpelled C (paramNodes f.params)) (hresult : AllSpelled C (typeNode f.result))
    (hbody : AllSpelled C (blockNode f.body)) (htps : ∀ s ∈ f.typeParams, Source.Spelled C s)
    (hds : ∀ s ∈ f.decorators, Source.Spelled C s) (hspan : S f.span.start) :
    Writes C S (some (stmt (.function f))) := by
  obtain ⟨span, name, params, result, body, ms, tps, ds, c⟩ := f
  rw [writes_some, Piece.Spelled, Stmt.nodes, Callable.nodes, allSpelled_cons, allSpelled_append, allSpelled_append]
  refine ⟨⟨⟨rfl, ?_⟩, ⟨hparams, hresult⟩, hbody⟩, hspan⟩
  simpa [or_imp, forall_and] using ⟨hname, htps, hds⟩

theorem writes_methodDeclaration : Writes C S (methodDeclaration items) := by
  unfold methodDeclaration
  split
  · next ms rest =>
    have hrest : ∀ i ∈ rest, i.Spelled C := fun i hi => h i (mem_cons_of_mem _ hi)
    simp only [bind_eq_bind, writes_bind]
    intro name hname
    exact writes_function (spelled_firstName hrest name hname) (spelled_paramsOf hrest)
      (spelled_firstType hrest) (spelled_lastBlock hrest) (spelled_typeParamsOf hrest)
      (spelled_decorators h) hi.tail.span
  · exact writes_none

theorem writes_constructorDeclaration : Writes C S (constructorDeclaration items) := by
  unfold constructorDeclaration
  split
  · next ms rest =>
    have hrest : ∀ i ∈ rest, i.Spelled C := fun i hi => h i (mem_cons_of_mem _ hi)
    simp only [bind_eq_bind, writes_bind]
    intro name hname
    exact writes_function (spelled_firstName hrest name hname) (spelled_paramsOf hrest)
      (by simp [typeNode]) (spelled_lastBlock hrest) (by simp)
      (spelled_decorators h) hi.tail.span
  · exact writes_none

theorem writes_functionDeclaration : Writes C S (functionDeclaration items) := by
  simp only [functionDeclaration, bind_eq_bind, writes_bind]
  intro name hname
  exact writes_function (spelled_firstName h name hname) (spelled_paramsOf h) (spelled_firstType h)
    (spelled_lastBlock h) (spelled_typeParamsOf h) (spelled_texts h) hi.span

theorem writes_classProperty : Writes C S (classProperty items) := by
  simp only [classProperty, bind_eq_bind, writes_bind, writes_some]
  intro name hname
  have hspelled := spelled_firstName h name hname
  rw [Piece.Spelled, Stmt.nodes, VarDecl.nodes, allSpelled_cons, allSpelled_append, declaratorNodes,
    allSpelled_cons, allSpelled_append, allSpelled_append]
  exact ⟨⟨by simp, ⟨by simpa using hspelled, ⟨spelled_firstType h, spelled_afterName h⟩, by simp⟩, by simp [typeNode]⟩,
    hi.span⟩

theorem writes_classMethod : Writes C S (classMethod items) := by
  simp only [classMethod, bind_eq_bind, writes_bind]
  intro name hname
  exact writes_function (spelled_firstName h name hname) (spelled_paramsOf h) (spelled_firstType h)
    (spelled_lastBlock h) (spelled_typeParamsOf h) (spelled_texts h) hi.span

theorem writes_accessorDeclaration : Writes C S (accessorDeclaration items) := by
  unfold accessorDeclaration
  split
  · next kind name rest hnames =>
    have hname : Source.Spelled C name := spelled_names h name (by simp [hnames])
    exact writes_function hname (spelled_paramsOf h) (spelled_firstType h) (spelled_lastBlock h) (by simp) (by simp) hi.span
  · exact writes_none

omit h hi in
theorem span_exported (s : Stmt) : (exported s).span = s.span := by
  cases s <;> rfl

omit h hi in
theorem spelled_exported {s} (h : AllSpelled C s.nodes) : AllSpelled C (exported s).nodes := by
  unfold exported
  split
  · next v =>
    obtain ⟨span, ds, type, ms, kind⟩ := v
    simpa using h
  · next f =>
    obtain ⟨span, name, params, result, body, ms, tps, ds, c⟩ := f
    simpa using h
  · simpa using h
  · exact h

theorem writes_declarationOfNode (hC : ∀ c, c ≠ '\n' → C c) : Writes C S (declarationOfNode l c items) := by
  have hfirst : ∀ t, items.findSome? token? = some t → S t.span.start := by
    intro t ht
    obtain ⟨i, hmem, hit⟩ := List.exists_of_findSome?_eq_some ht
    exact hi.of_span? hmem (span?_of_token? hit)
  have hbody : Writes C S (some (body (items.filterMap stmt?))) :=
    writes_some.2 ⟨spelled_stmts h, hi.cover (fun _ _ => span?_of_stmt?) rfl⟩
  have law := spelled_composes hC
  have hat : Source.Spelled C "@" := law.of_line (unbroken rfl)
  have htoken : ∀ t, token t ∈ items → Source.Spelled C t.text := fun t => h (token t)
  have hlast : Writes C S items.getLast? := fun i hlast => writes_item h hi i (mem_of_getLast? hlast) i rfl
  have hlastStmt : Writes C S ((items.getLast?.bind stmt?).map fun s => stmt (exported s)) := by
    rw [writes_map]
    intro s hs
    obtain ⟨i, hmem, his⟩ := Option.bind_eq_some_iff.1 hs
    have hstart := hi.of_span? (mem_of_getLast? hmem) (span?_of_stmt? his)
    exact ⟨spelled_exported (spelled_last h (fun _ _ => spelled_stmt?) s hs), by rwa [Starts, span?, span_exported]⟩
  have hargs : AllSpelled C (exprNode (argsOf items).head?) := by
    refine allSpelled_exprNode.2 fun e he => of_mem_last (Q := fun e => AllSpelled C e.nodes) h
      (fun i es hi hes => ?_) e (mem_of_head? he)
    unfold args? at hes
    split at hes <;> cases hes
    exact allSpelled_exprNodes.1 hi
  have htokens : ∀ s ∈ (items.filterMap token?).map (·.text), Source.Spelled C s := by
    refine List.forall_mem_map.2 (of_mem_filterMap h fun i t hi ht => ?_)
    unfold token? at ht
    split at ht <;> cases ht
    exact hi
  have hqualified := law.intercalate (law.of_line (unbroken rfl) : Source.Spelled C ".") htokens
  -- only the declaration of a loop depends on the language
  cases l
  all_goals
    unfold declarationOfNode
    split <;> simp [↓writes_item h hi, ↓hbody, ↓hlast, ↓hlastStmt, hat, htoken, hargs, hqualified, hi.span, hi.token,
      writes_typedVariables h hi, writes_keywordVariables h hi, writes_declaratorOf h hi, writes_formalParameter h hi,
      writes_parameter h hi, writes_classDeclaration h hi, writes_interfaceDeclaration h hi, writes_enumDeclaration h hi,
      writes_methodDeclaration h hi, writes_constructorDeclaration h hi, writes_functionDeclaration h hi,
      writes_classProperty h hi, writes_classMethod h hi, writes_accessorDeclaration h hi, spelled_params h]
    · intro s i hi hs
      split at hs <;> cases hs
      all_goals exact h _ hi
    · exact hfirst
    · exact fun _ _ => allSpelled_exprNode.2
        (spelled_head (fun i hi => h i (mem_cons_of_mem _ hi)) fun _ _ => spelled_expr?)
    · exact spelled_last h fun _ _ => spelled_typeLike? hC
    · exact spelled_stmts fun i hi => h i (mem_cons_of_mem _ hi)

end Declarations

/-! ### Nodes and trees -/

theorem ofNode_writes (hC : ∀ c, c ≠ '\n' → C c) (h : ∀ i ∈ items, i.Spelled C) (hi : Located S items) :
    (ofNode l c items).Spelled C ∧ (ofNode l c items).Starts S := by
  have horElse : ∀ {o o' : Option Piece}, Writes C S o → Writes C S o' → Writes C S (o <|> o') := by
    intro o o' ho ho'
    cases o with
    | none => exact ho'
    | some p => exact ho
  have hnode : Writes C S (expressionOfNode c items <|> statementOfNode l c items <|>
      typeOfNode c items <|> declarationOfNode l c items) :=
    horElse (writes_expressionOfNode h hi hC) (horElse (writes_statementOfNode h hi)
      (horElse (writes_typeOfNode hC h hi) (writes_declarationOfNode h hi hC)))
  unfold ofNode
  cases ho : (expressionOfNode c items <|> statementOfNode l c items <|> typeOfNode c items <|>
    declarationOfNode l c items) with
  | none => exact ⟨trivial, trivial⟩
  | some p => exact hnode p ho

end Piece

end Blackboard.Source
