import Blackboard.Proofs.WellFormed.Tree

/-!
Well-formed pseudocode written as a structured value and read back. Reading fails on a node that does
not belong where it stands, so it succeeds on the structured values of well-formed trees, and it gives
the trees back: no field is lost, and none is read from a place where another one is written.
-/
namespace Blackboard.Pseudo

open Form (ofFields kind data expressions)
open Json (getD get? string? items ofOption nat? bool? string)
open List (lookup_cons mem_map_of_mem)

variable {α ε : Type} {notes : List String}

section Reading

variable {kind : String} {children : List Json} {data : List (String × Json)} {line : Option Nat}

theorem Fields.ofJson_node : Fields.ofJson (node kind children data line) =
    { kind := kind, children := children, data := .object data, line := line } := by
  cases line <;> simp [Fields.ofJson, node, getD, get?, lookup_cons, string?, items, ofOption, Json.ofNat, nat?]

theorem height_node (j : Json) (hj : j ∈ children) : j.height < (node kind children data line).height := by
  have hitems : ∀ js : List Json, j ∈ js → j.height ≤ Json.itemsHeight js := by
    intro js hjs
    induction js with
    | nil => cases hjs
    | cons i is ih =>
      rw [Json.itemsHeight]
      rcases List.mem_cons.1 hjs with rfl | hjs
      · exact Nat.le_max_left _ _
      · exact Nat.le_trans (ih hjs) (Nat.le_max_right _ _)
  have hle := hitems children hj
  simp only [node, Json.height, Json.fieldsHeight]
  omega

theorem fuel_node {fuel} (h : (node kind children data line).height ≤ fuel) :
    ∃ k, fuel = k + 1 ∧ ∀ j ∈ children, j.height ≤ k := by
  cases fuel with
  | zero => simp [node, Json.height] at h
  | succ k =>
    refine ⟨k, rfl, fun j hj => ?_⟩
    have hlt : j.height < (node kind children data line).height := height_node j hj
    omega

end Reading

theorem Value.ofJson_toJson (v : Value) : Value.ofJson v.toJson = v := by
  cases v <;> rfl

theorem BinaryOp.ofText_text {op} (h : op ∈ BinaryOp.known) : BinaryOp.ofText op.text = op := by
  revert op
  decide

theorem UnaryOp.ofText_text {op} (h : op = .not ∨ op = .neg) : UnaryOp.ofText op.text = op := by
  rcases h with rfl | rfl <;> rfl

theorem mapM_ok {β : Type} {f : α → Except ε β} {g : β → α} {bs : List β}
    (h : ∀ b ∈ bs, f (g b) = .ok b) : (bs.map g).mapM f = .ok bs := by
  induction bs with
  | nil => rfl
  | cons b bs ih =>
    rw [List.map_cons, List.mapM_cons, h b (by simp), ih fun b hb => h b (by simp [hb])]
    rfl

theorem ok_bind {β} (a : α) (f : α → Except ε β) : (Except.ok a >>= f) = f a := rfl

theorem pure_eq_ok (a : α) : (pure a : Except ε α) = .ok a := rfl

theorem flag?_field (name : String) (declared : Option Bool) :
    bool? (((("name", string name) :: field? "declared" .bool declared).reverse.lookup
      "declared").getD .null) = declared := by
  cases declared <;> rfl

theorem name_field (name : String) (declared : Option Bool) :
    (("name", string name) :: field? "declared" .bool declared).reverse.lookup "name" = some (.string name) := by
  cases declared <;> rfl

section Expressions

attribute [local simp] Expr.readWith Fields.ofJson_node Expr.data Expr.toJsons_eq_map Fields.child Fields.text
  Fields.flag Fields.flag? getD get? lookup_cons string? bool? nat? Json.ofNat
  ofOption ok_bind pure_eq_ok

theorem Expr.WellFormed.readWith {e : Expr} (h : e.WellFormed) :
    ∀ fuel, e.toJson.height ≤ fuel → Expr.readWith fuel e.toJson = .ok e := by
  induction h
  all_goals
    intro fuel hfuel
    rw [Expr.toJson] at hfuel ⊢
    obtain ⟨k, rfl, hk⟩ := fuel_node hfuel
  case literal value _ => cases value <;> simp [field?, Value.ofJson_toJson]
  case identifier =>
    simp only [Expr.readWith, Fields.ofJson_node, Expr.data, Fields.text, Fields.flag?, getD,
      get?, name_field, flag?_field, Option.getD_some, string?]
  case raw => simp
  case binary hop _ _ iha ihb =>
    simp [iha k (hk _ (by simp)), ihb k (hk _ (by simp)), BinaryOp.ofText_text hop]
  case unary hop _ ih => simp [ih k (hk _ (by simp)), UnaryOp.ofText_text hop]
  case call ih =>
    have hargs := mapM_ok fun a ha => ih a ha k (hk _ (by simp [mem_map_of_mem ha]))
    simp only [Expr.readWith, Fields.ofJson_node, Expr.data, Fields.text, Fields.flag?, getD,
      get?, name_field, flag?_field, Option.getD_some, string?, Expr.toJsons_eq_map, hargs,
      ok_bind, pure_eq_ok]
  case method iht ih =>
    have hargs := mapM_ok fun a ha => ih a ha k (hk _ (by simp [mem_map_of_mem ha]))
    simp [iht k (hk _ (by simp)), hargs]
  case builtin level _ _ _ _ _ _ iht ih =>
    have hargs := mapM_ok fun a ha => ih a ha k (hk _ (by simp [mem_map_of_mem ha]))
    cases level <;> simp [iht k (hk _ (by simp)), hargs]
  case member ih => simp [ih k (hk _ (by simp))]
  case index iha ihb => simp [iha k (hk _ (by simp)), ihb k (hk _ (by simp))]
  case array ih | newObject ih =>
    have hitems := mapM_ok fun a ha => ih a ha k (hk _ (by simp [mem_map_of_mem ha]))
    simp [hitems]
  case conditional ihc iha ihb =>
    simp [ihc k (hk _ (by simp)), iha k (hk _ (by simp)), ihb k (hk _ (by simp))]

end Expressions

theorem Expr.WellFormed.ofJson {e} (h : e.WellFormed) : Expr.ofJson e.toJson = .ok e :=
  h.readWith _ (Nat.le_refl _)

theorem Expr.toJson_isObject (e : Expr) : ∃ fields, e.toJson = .object fields := by
  cases e <;> exact ⟨_, rfl⟩

def notedData (data : List (String × Json)) (notes : List String) : List (String × Json) :=
  data ++ if notes.isEmpty then [] else [("annotations", .strings notes)]

theorem getD_notedData {data name} (h : name ≠ "annotations") :
    (Json.object (notedData data notes)).getD name = (data.reverse.lookup name).getD .null := by
  unfold notedData
  split
  · rw [List.append_nil]
    rfl
  · simp [getD, get?, lookup_cons, beq_eq_false_iff_ne.2 h]

theorem texts_strings (ss : List String) : (Json.strings ss).items.filterMap (·.string?) = ss := by
  simp [Json.strings, items, List.filterMap_map, Function.comp_def, string?]

theorem Form.lookup_annotations (f : Form) : f.data.lookup "annotations" = none := by
  cases f with
  | program language errors => cases language <;> rfl
  | _ => rfl

theorem Form.texts_notedData (f : Form) (kind : String) (children : List Json)
    (notes : List String) (line : Option Nat) :
    Fields.texts { kind, children, data := .object (notedData f.data notes), line } "annotations" = notes := by
  unfold notedData Fields.texts getD get?
  cases notes with
  | nil =>
    have hnone : f.data.reverse.lookup "annotations" = none := by
      rw [List.lookup_eq_none_iff]
      simpa using List.lookup_eq_none_iff.1 f.lookup_annotations
    simp [hnone, items]
  | cons note notes => simpa using texts_strings (note :: notes)

theorem params_map (ps : List Param) : ((ps.map Param.toJson).map fun j =>
      (⟨((j.getD "name").string?).getD "", ((j.getD "type").string?).getD ""⟩ : Param)) = ps := by
  rw [List.map_map]
  exact List.map_id ps

theorem string?_string (s : String) : (string s).string? = some s := rfl

theorem items_array (js : List Json) : (Json.array js).items = js := rfl

theorem string?_null : Json.null.string? = none := rfl

theorem Form.ofFields_data {f : Form} (h : ∀ e ∈ f.expressions, e.WellFormed)
    (children : List Json) (notes : List String) (line : Option Nat) :
    ofFields { kind := f.kind, children, data := .object (notedData f.data notes), line } = .ok f := by
  have hr : ∀ e ∈ f.expressions, Expr.ofJson e.toJson = .ok e := fun e he => (h e he).ofJson
  have hrs : (Expr.toJsons f.expressions).mapM Expr.ofJson = .ok f.expressions := by
    rw [Expr.toJsons_eq_map]
    exact mapM_ok hr
  cases f with
  | program language errors =>
    cases language <;>
      simp [ofFields, kind, data, field?, Fields.texts, getD_notedData, lookup_cons,
        texts_strings, string?_string, string?_null]
  | procedure name ps | function name ps returns =>
    simp only [ofFields, kind, data, Fields.text, Fields.params, getD_notedData,
      lookup_cons, string?_string, items_array, params_map, ne_eq, String.reduceEq,
      not_false_eq_true, List.reverse_cons, List.reverse_nil, List.nil_append, List.cons_append,
      String.reduceBEq, beq_self_eq_true, Option.getD_some]
  | for_ name start stop step =>
    cases step with
    | none =>
      simp_all [ofFields, kind, data, expressions, Fields.text,
        getD_notedData, lookup_cons, string?_string, ofOption, ok_bind, pure_eq_ok]
    | some step =>
      obtain ⟨fields, hfields⟩ := step.toJson_isObject
      simp_all [ofFields, kind, data, expressions, Fields.text,
        getD_notedData, lookup_cons, string?_string, ofOption, ok_bind, pure_eq_ok, Except.map]
  | return_ value =>
    cases value with
    | none => simp [ofFields, kind, data, getD_notedData, ofOption, ok_bind, pure_eq_ok]
    | some e =>
      obtain ⟨fields, hfields⟩ := e.toJson_isObject
      simp_all [ofFields, kind, data, expressions, getD_notedData, ofOption, ok_bind, pure_eq_ok, Except.map]
  | caseBranch es falls | output es =>
    simp only [expressions] at hrs
    simp [ofFields, kind, data, Fields.flag, getD_notedData, lookup_cons, items, bool?, ok_bind, pure_eq_ok, hrs]
  | _ =>
    simp_all [ofFields, kind, data, expressions, Fields.text, Fields.flag,
      getD_notedData, lookup_cons, string?_string, bool?, ok_bind, pure_eq_ok]

theorem Stmt.WellFormed.readWith {s : Stmt} (h : s.WellFormed) :
    ∀ fuel, s.toJson.height ≤ fuel → Stmt.readWith fuel s.toJson = .ok s := by
  induction h with
  | @mk form children notes line hes _ _ ih =>
    intro fuel hfuel
    rw [Stmt.toJson] at hfuel ⊢
    obtain ⟨k, rfl, hk⟩ := fuel_node hfuel
    rw [Stmt.toJsons_eq_map] at hk ⊢
    have hchildren : (children.map Stmt.toJson).mapM (Stmt.readWith k) = .ok children :=
      mapM_ok fun s hs => ih s hs k (hk _ (mem_map_of_mem hs))
    have hform := Form.ofFields_data hes (children.map Stmt.toJson) notes line
    have hnotes := form.texts_notedData form.kind (children.map Stmt.toJson) notes line
    unfold notedData at hform hnotes
    simp only [Stmt.readWith, Fields.ofJson_node, hform, hnotes, hchildren, ok_bind, pure_eq_ok, ite_self]

theorem readProgram_toJson {language : Option String} {errors : List String} {body : List Stmt}
    {line : Option Nat} (h : ∀ s ∈ body, s.WellFormed) :
    readProgram (Stmt.mk (.program language errors) body notes line).toJson = .ok (errors, body) := by
  have hbody : (body.map Stmt.toJson).mapM (Stmt.readWith
      (Stmt.mk (.program language errors) body notes line).toJson.height) = .ok body := by
    refine mapM_ok fun s hs => (h s hs).readWith _ (Nat.le_of_lt ?_)
    rw [Stmt.toJson, Stmt.toJsons_eq_map]
    exact height_node _ (mem_map_of_mem hs)
  have hform := Form.ofFields_data (f := .program language errors) (by simp [expressions])
    (body.map Stmt.toJson) notes line
  simp only [ofFields, kind, Except.ok.injEq, Form.program.injEq] at hform
  unfold notedData at hform
  simp only [Stmt.toJson, Stmt.toJsons_eq_map, kind] at hbody
  simp only [readProgram, Stmt.toJson, Stmt.toJsons_eq_map, Fields.ofJson_node, kind, hbody,
    hform.2, ok_bind, pure_eq_ok, if_true]

end Blackboard.Pseudo
