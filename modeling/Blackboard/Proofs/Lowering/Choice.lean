import Blackboard.Source.Piece.Statement
import Blackboard.Proofs.Lowering.Iteration
import Blackboard.Proofs.Reading.Spelling

/-!
Choices between cases. The source runs on from the label that applies until control leaves. If no case goes
on into the next one, that is the body of one case: the branch that the labels of the result choose, wherever
the default stands and however the labels are grouped.
-/
namespace Blackboard

open List

namespace Source

mutual

/-- Whether control does not go on after a statement, as far as its blocks show. -/
def Stmt.leaves : Stmt → Bool
  | .block ⟨_, ss⟩ => anyLeaves ss
  | s => Convert.exits s

def anyLeaves : List Stmt → Bool
  | [] => false
  | s :: ss => s.leaves || anyLeaves ss

end

theorem Stmt.leaves_of_exits {s : Stmt} (h : Convert.exits s = true) : s.leaves = true := by
  cases s with
  | block => cases h
  | _ => exact h

theorem anyLeaves_of_exits {ss : List Stmt} (h : ss.getLast?.any Convert.exits = true) : anyLeaves ss = true := by
  induction ss with
  | nil => cases h
  | cons s ss ih =>
    cases ss with
    | nil =>
      have hs : s.leaves = true := Stmt.leaves_of_exits h
      simp [anyLeaves, hs]
    | cons t ss => rw [anyLeaves, ih h, Bool.or_true]

/-! ### What the source runs -/

/-- The labels and statements of a switch; the default has no label. -/
def caseItems (items : List Piece) : List (Option Expr ⊕ Stmt) :=
  items.filterMap fun
    | .label e _ => some (.inl e)
    | .stmt s => some (.inr s)
    | _ => none

/-- What stands behind the first label that `p` holds for. -/
def after (p : Option Expr → Bool) : List (Option Expr ⊕ Stmt) → Option (List (Option Expr ⊕ Stmt))
  | [] => none
  | .inl e :: rest => if p e then some rest else after p rest
  | .inr _ :: rest => after p rest

/-- The statements that are run, past all labels, until control leaves. -/
def executed : List (Option Expr ⊕ Stmt) → List Stmt
  | [] => []
  | .inl _ :: rest => executed rest
  | .inr s :: rest => if s.leaves then [s] else s :: executed rest

def labelled {V : Type} [DecidableEq V] (value : Expr → V) (v : V) (e : Option Expr) : Bool :=
  e.any fun e => value e = v

/-- What a switch runs for a value, if a label or the default applies. -/
def running {V : Type} [DecidableEq V] (value : Expr → V) (v : V) (items : List (Option Expr ⊕ Stmt)) :
    Option (List Stmt) :=
  ((after (labelled value v) items).or (after Option.isNone items)).map executed

/-! ### Cases -/

def SwitchCase.items (k : SwitchCase) : List (Option Expr ⊕ Stmt) := k.labels.map .inl ++ k.body.map .inr

theorem items_switchCases {done : List SwitchCase} {items : List Piece} (h : done ≠ []) :
    (Piece.switchCases done items).flatMap (·.items) = done.reverse.flatMap (·.items) ++ caseItems items := by
  fun_induction Piece.switchCases done items <;> simp_all [SwitchCase.items, caseItems]

/-- Labels with nothing between them are in one case. -/
theorem body_ne_nil_of_switchCases {done : List SwitchCase} {items : List Piece}
    (h : ∀ k ∈ done.tail, k.body ≠ []) : ∀ k ∈ (Piece.switchCases done items).dropLast, k.body ≠ [] := by
  fun_induction Piece.switchCases done items with
  | case1 done => simpa [← tail_reverse] using h
  | case2 e span rest s labels before ih => exact ih h
  | case3 done e span rest hdone ih =>
    refine ih fun k hk => ?_
    cases done with
    | nil => cases hk
    | cons k' before =>
      rcases mem_cons.1 hk with rfl | hk
      · obtain ⟨span, labels, body⟩ := k
        exact fun hnil => hdone span labels before (congrArg (⟨span, labels, ·⟩ :: before) hnil)
      · exact h k hk
  | case4 s rest k before ih => exact ih h
  | case5 s rest ih => exact ih h
  | case6 => simp_all

theorem executed_case (ls : List (Option Expr)) {body : List Stmt} {rest : List (Option Expr ⊕ Stmt)}
    (hbody : ∀ s ∈ body.dropLast, s.leaves = false) (hlast : rest = [] ∨ body.getLast?.any (·.leaves) = true) :
    executed (ls.map .inl ++ (body.map .inr ++ rest)) = body := by
  induction ls with
  | cons e ls ih => exact ih
  | nil =>
    induction body with
    | nil =>
      obtain rfl : rest = [] := hlast.resolve_right (by simp)
      rfl
    | cons s body ih =>
      cases body with
      | nil => rcases hlast with rfl | h <;> simp_all [executed]
      | cons t body =>
        have hs := hbody s (by simp)
        have hrest := ih (fun u hu => hbody u (by simp_all)) hlast
        simp only [map_nil, nil_append, map_cons, cons_append] at hrest ⊢
        rw [executed, if_neg (by simp [hs]), hrest]

theorem after_labels (p : Option Expr → Bool) (labels : List (Option Expr)) (xs : List (Option Expr ⊕ Stmt)) :
    if labels.any p then ∃ ls : List (Option Expr), after p (labels.map .inl ++ xs) = some (ls.map .inl ++ xs)
    else after p (labels.map .inl ++ xs) = after p xs := by
  induction labels with
  | nil => simp
  | cons e labels ih =>
    by_cases he : p e = true
    · simp [after, he]
    · simpa [after, he] using ih

theorem after_statements (p : Option Expr → Bool) (ss : List Stmt) (xs : List (Option Expr ⊕ Stmt)) :
    after p (ss.map .inr ++ xs) = after p xs := by
  induction ss with
  | nil => rfl
  | cons s ss ih => exact ih

theorem executed_after (p : Option Expr → Bool) {cases : List SwitchCase}
    (hbodies : ∀ k ∈ cases, ∀ s ∈ k.body.dropLast, s.leaves = false)
    (hstops : ∀ k ∈ cases.dropLast, k.body.getLast?.any (·.leaves) = true) :
    (after p (cases.flatMap (·.items))).map executed = (cases.find? (·.labels.any p)).map (·.body) := by
  induction cases with
  | nil => rfl
  | cons k cases ih =>
    rw [flatMap_cons, SwitchCase.items, append_assoc, find?_cons]
    have hlabels := after_labels p k.labels (k.body.map .inr ++ cases.flatMap (·.items))
    cases hk : k.labels.any p with
    | true =>
      rw [if_pos hk] at hlabels
      obtain ⟨ls, hls⟩ := hlabels
      rw [hls, Option.map_some, executed_case ls (hbodies k mem_cons_self)]
      · rfl
      · cases cases with
        | nil => exact .inl rfl
        | cons k' cases => exact .inr (hstops k (by simp))
    | false =>
      rw [if_neg (by simp [hk])] at hlabels
      rw [hlabels, after_statements]
      refine ih (fun k hk => hbodies k (mem_cons_of_mem _ hk)) fun k' hk' => hstops k' ?_
      cases cases with
      | nil => cases hk'
      | cons => exact mem_cons_of_mem _ hk'

def SwitchCase.keys {V : Type} (value : Expr → V) (k : SwitchCase) : List (Option V) :=
  k.labels.map (Option.map value)

theorem keys_items {V : Type} (value : Expr → V) (cases : List SwitchCase) :
    ((cases.flatMap (·.items)).filterMap Sum.getLeft?).map (Option.map value) = cases.flatMap (·.keys value) := by
  induction cases with
  | nil => rfl
  | cons k cases ih =>
    rw [flatMap_cons, filterMap_append, map_append, ih]
    simp [SwitchCase.items, SwitchCase.keys, Function.comp_def]

section

variable {V : Type} {value : Expr → V} {v : V} {k : SwitchCase} {cases : List SwitchCase}

theorem mem_keys_some [DecidableEq V] : k.labels.any (labelled value v) = true ↔ some v ∈ k.keys value := by
  simp [labelled, SwitchCase.keys, Option.any_eq_true]

theorem mem_keys_none : Convert.isDefault k.labels = true ↔ none ∈ k.keys value := by
  simp [Convert.isDefault, SwitchCase.keys]

theorem not_mem_keys (h : ((k :: cases).flatMap (·.keys value)).Nodup) {key} (hk : key ∈ k.keys value) {k'}
    (hk' : k' ∈ cases) : key ∉ k'.keys value := by
  rw [flatMap_cons, nodup_append] at h
  exact fun hmem => h.2.2 key hk key (mem_flatMap.2 ⟨k', hk', hmem⟩) rfl

theorem nodup_tail (h : ((k :: cases).flatMap (·.keys value)).Nodup) : (cases.flatMap (·.keys value)).Nodup := by
  rw [flatMap_cons, nodup_append] at h
  exact h.2.1

theorem filter_default (h : (cases.flatMap (·.keys value)).Nodup) :
    cases.filter (Convert.isDefault ·.labels) = (cases.find? (Convert.isDefault ·.labels)).toList := by
  induction cases with
  | nil => rfl
  | cons k cases ih =>
    rw [filter_cons, find?_cons]
    split
    · next hd =>
      rw [hd, filter_eq_nil_iff.2 fun k' hk' hd' =>
        not_mem_keys h (mem_keys_none.1 hd) hk' (mem_keys_none.1 hd')]
      rfl
    · next hd =>
      rw [Bool.not_eq_true] at hd
      rw [hd, ih (nodup_tail h)]

/-- Where labels are distinct, the case with the default may be left to the end. -/
theorem find?_default_last [DecidableEq V] (h : (cases.flatMap (·.keys value)).Nodup) :
    (cases.find? fun k => !Convert.isDefault k.labels && k.labels.any (labelled value v)).or
        (cases.find? (Convert.isDefault ·.labels)) =
      (cases.find? (·.labels.any (labelled value v))).or (cases.find? (Convert.isDefault ·.labels)) := by
  induction cases with
  | nil => rfl
  | cons k cases ih =>
    have hnot (key : Option V) (hk : key ∈ k.keys value) := fun k' (hk' : k' ∈ cases) => not_mem_keys h hk hk'
    simp only [find?_cons]
    cases hv : k.labels.any (labelled value v) with
    | true =>
      cases hd : Convert.isDefault k.labels with
      | false => rfl
      | true =>
        -- the label stands with the default, and nowhere else
        have hnone : (cases.find? fun k => !Convert.isDefault k.labels && k.labels.any (labelled value v)) =
            none := by
          refine find?_eq_none.2 fun k' hk' hfound => ?_
          rw [Bool.and_eq_true] at hfound
          exact hnot _ (mem_keys_some.1 hv) k' hk' (mem_keys_some.1 hfound.2)
        simp [hnone]
    | false =>
      cases hd : Convert.isDefault k.labels with
      | false => simpa using ih (nodup_tail h)
      | true =>
        have hplain (k') (hk' : k' ∈ cases) : Convert.isDefault k'.labels = false := by
          rw [← Bool.not_eq_true, @mem_keys_none V value]
          exact hnot _ (mem_keys_none.1 hd) k' hk'
        simp only [Bool.and_false, Bool.not_true, ← head?_filter]
        rw [filter_congr fun k' hk' => by rw [hplain k' hk', Bool.not_false, Bool.true_and]]

end

end Source

namespace Convert

open Conversion
open Source (Span SwitchCase Piece)

/-- The statements of a case whose body may be one block. -/
def unwrapped : List Source.Stmt → List Source.Stmt
  | [.block ⟨_, ss⟩] => ss
  | ss => ss

theorem branches_cons (span : Span) (labels : List (Option Source.Expr)) (body : List Source.Stmt)
    (cases : List SwitchCase) : branches (⟨span, labels, body⟩ :: cases) = do
      let next := if !body.isEmpty && goesOn (unwrapped body) then cases.head?.map (·.labels) else none
      let b ← branch span labels next (untilBreak (unwrapped body))
      return b :: (← branches cases) := by
  unfold unwrapped
  split
  · rw [branches]
    rfl
  · next h =>
    rw [branches]
    exact h

/-- Statements without the plain break at their end. -/
def withoutBreak (ss : List Source.Stmt) : List Source.Stmt :=
  match ss.getLast? with
  | some (.breakStmt _ none) => ss.dropLast
  | _ => ss

theorem untilBreak_eq (ss : List Source.Stmt) : untilBreak ss = stmts (withoutBreak ss) := by
  induction ss with
  | nil => rw [untilBreak, withoutBreak, getLast?_nil, stmts]
  | cons s ss ih =>
    by_cases hbreak : ∃ span, s = .breakStmt span none ∧ ss = []
    · obtain ⟨span, rfl, rfl⟩ := hbreak
      rw [untilBreak, withoutBreak, getLast?_singleton, dropLast_singleton, stmts]
    · have hcons : withoutBreak (s :: ss) = s :: withoutBreak ss := by
        unfold withoutBreak
        cases ss with
        | nil =>
          split
          · next span h => exact absurd ⟨span, by simpa using h, rfl⟩ hbreak
          · rfl
        | cons t ss =>
          split <;> simp_all
      rw [hcons, stmts, ← ih, untilBreak]
      exact fun span h hnil => hbreak ⟨span, h, hnil⟩

/-! ### Branches -/

structure BranchOf (c : Context) (k : SwitchCase) (b : Pseudo.Stmt) : Prop where
  children : ∃ t u, nested k.span (untilBreak (unwrapped k.body)) .block c t = .ok (b.children, u)
  form : if isDefault k.labels then ∃ falls, b.form = .otherwise falls else
    ∃ labels falls t u, b.form = .caseBranch labels falls ∧ exprs (k.labels.filterMap id) c t = .ok (labels, u)

def fallRemark (k : SwitchCase) : Diagnostic := .at_ k.span .warning (.fallThrough (labelTexts k.labels))

/-- From `s` to `t` it is not remarked of the given cases that they go on into the next. -/
def Silent (cases : List SwitchCase) (s t : State) : Prop :=
  ∀ ds, t.diagnostics = s.diagnostics ++ ds → ∀ k ∈ cases, fallRemark k ∉ ds

theorem Silent.mono {ks cases : List SwitchCase} {s t : State} (h : Silent cases s t) (hks : ks ⊆ cases) :
    Silent ks s t := fun ds hds k hk => h ds hds k (hks hk)

theorem Silent.split {cases : List SwitchCase} {s t u : State} (h : Silent cases s u)
    (hst : s.diagnostics <+: t.diagnostics) (htu : t.diagnostics <+: u.diagnostics) :
    Silent cases s t ∧ Silent cases t u := by
  obtain ⟨ds, hds⟩ := hst
  obtain ⟨es, hes⟩ := htu
  have hboth := h (ds ++ es) (by rw [← hes, ← hds, append_assoc])
  refine ⟨fun ds' hds' k hk hd => hboth k hk ?_, fun es' hes' k hk hd => hboth k hk ?_⟩
  · rw [← hds, append_cancel_left_eq] at hds'
    exact mem_append_left _ (hds' ▸ hd)
  · rw [← hes, append_cancel_left_eq] at hes'
    exact mem_append_right _ (hes' ▸ hd)

theorem branch_ensures (k : SwitchCase) (next : Option (List (Option Source.Expr))) (c : Context) (s : State) :
    Ensures True (branch k.span k.labels next (untilBreak (unwrapped k.body))) c s fun b t =>
      BranchOf c k b ∧ s.diagnostics <+: t.diagnostics ∧ (Silent [k] s t → next = none) := by
  have hbody : StmtStep (.free c.language _ .stay (fun _ => True) true) (fun _ => True) _ _
      (nested k.span (untilBreak (unwrapped k.body))) _ :=
    .nested (untilBreak_step _ _ (Nat.le_refl _) fun _ _ => trivial)
  unfold branch
  rw [Ensures.bind_iff]
  refine (hbody.frame c s rfl).and_run.mono ?_
  rintro ss t ⟨⟨-, ht⟩, hss⟩
  extract_lets falls rest
  have hrest (form : Pseudo.Form) (u : State) (hu : t.diagnostics <+: u.diagnostics)
      (hform : BranchOf c k (.mk form ss [] (some k.span.line))) :
      Ensures True (rest form) c u fun b t =>
        BranchOf c k b ∧ s.diagnostics <+: t.diagnostics ∧ (Silent [k] s t → next = none) := by
    have hprefix := ht.diagnostics_grow.trans hu
    cases next with
    | none => exact ⟨hform, hprefix, fun _ => rfl⟩
    | some successor =>
      refine ⟨⟨hform.children, hform.form⟩, hprefix.trans (prefix_append _ _), fun hsilent => ?_⟩
      obtain ⟨ds, hds⟩ := hprefix
      have hnew := hsilent (ds ++ [fallRemark k]) (by rw [← append_assoc, hds]; rfl)
      exact absurd (mem_append_right _ (mem_singleton_self _)) (hnew k (mem_singleton_self k))
  split
  · next hd => exact hrest _ t (prefix_refl _) ⟨⟨s, t, hss⟩, by rw [if_pos hd]; exact ⟨_, rfl⟩⟩
  · next hd =>
    simp only [Ensures.bind_iff]
    refine ((exprs_ensures (Nat.le_refl _) c t).weaken fun _ => trivial).and_run.mono fun labels u hu => ?_
    exact hrest _ u hu.1
      ⟨⟨s, t, hss⟩, by rw [if_neg hd]; exact ⟨labels, _, t, u, rfl, hu.2⟩⟩

theorem branches_ensures (cases : List SwitchCase) (c : Context) (s : State) :
    Ensures True (branches cases) c s fun bs t => Forall₂ (BranchOf c) cases bs ∧
      s.diagnostics <+: t.diagnostics ∧
      (Silent cases s t → ∀ k ∈ cases.dropLast, k.body ≠ [] → goesOn (unwrapped k.body) = false) := by
  induction cases generalizing s with
  | nil =>
    exact ⟨.nil, prefix_refl _, nofun⟩
  | cons k cases ih =>
    obtain ⟨span, labels, body⟩ := k
    rw [branches_cons]
    simp only [Ensures.bind_iff]
    refine (branch_ensures ⟨span, labels, body⟩ _ c s).mono fun b t ⟨hb, hst, hnext⟩ => ?_
    refine (ih t).mono fun bs u ⟨hbs, htu, hclosed⟩ => ⟨.cons hb hbs, hst.trans htu, fun hsilent => ?_⟩
    obtain ⟨hfirst, hlater⟩ := hsilent.split hst htu
    cases cases with
    | nil => exact nofun
    | cons k' cases =>
      rw [dropLast_cons_cons, forall_mem_cons]
      refine ⟨fun hne => ?_, hclosed (hlater.mono (subset_cons_self _ _))⟩
      have hnone := hnext (hfirst.mono (by simp))
      cases body with
      | nil => exact absurd rfl hne
      | cons s body => simpa using hnone

/-! ### The branch that is chosen -/

section

variable {V : Type} [DecidableEq V] (value : Pseudo.Expr → V) (v : V)

/-- Whether a branch lists a label of the given value. -/
def lists (b : Pseudo.Stmt) : Bool :=
  match b.form with
  | .caseBranch labels _ => labels.any (value · = v)
  | _ => false

/-- The first branch that lists a label of the given value, or else the one for all other values. -/
def chosen (bs : List Pseudo.Stmt) : Option Pseudo.Stmt := (bs.find? (lists value v)).or (bs.find? isOtherwise)

theorem chosen_orderBranches (bs : List Pseudo.Stmt) : chosen value v (orderBranches bs) =
    (bs.find? (lists value v)).or (bs.filter isOtherwise).getLast? := by
  have hlists (b : Pseudo.Stmt) (h : isOtherwise b = true) : lists value v b = false := by
    unfold isOtherwise at h
    unfold lists
    split at h
    · next hform => rw [hform]
    · cases h
  have hcases : (bs.filter (!isOtherwise ·)).find? (lists value v) = bs.find? (lists value v) := by
    rw [find?_filter]
    congr
    funext b
    cases hb : isOtherwise b <;> simp [hlists b, hb]
  have hnone : (bs.filter (!isOtherwise ·)).find? isOtherwise = none :=
    find?_eq_none.2 fun b hb => by simpa using (mem_filter.1 hb).2
  unfold chosen orderBranches
  cases hlast : (bs.filter isOtherwise).getLast? with
  | none => simp [hcases, hnone]
  | some b =>
    have hb := (mem_filter.1 (mem_of_getLast? hlast)).2
    simp [hcases, hnone, hlists b hb, hb]

end

theorem filter_related {α β : Type} {R : α → β → Prop} {p : α → Bool} {q : β → Bool} {l : List α} {m : List β}
    (h : Forall₂ R l m) (hpq : ∀ a b, R a b → p a = q b) : Forall₂ R (l.filter p) (m.filter q) := by
  induction h with
  | nil => exact .nil
  | @cons a b _ _ hab _ ih =>
    rw [filter_cons, filter_cons, hpq a b hab]
    split
    · exact .cons hab ih
    · exact ih

section

variable {V : Type} {value : Source.Expr → V} {value' : Pseudo.Expr → V} {c : Context} {es : List Source.Expr}

/-- Whether expressions are converted to expressions of the same values. -/
def KeepsValues (c : Context) (value : Source.Expr → V) (value' : Pseudo.Expr → V) (es : List Source.Expr) : Prop :=
  ∀ e ∈ es, ∀ t a u, expr e c t = .ok (a, u) → value' a = value e

theorem exprs_values (h : KeepsValues c value value' es) (t : State) :
    Ensures True (exprs es) c t fun as _ => as.map value' = es.map value := by
  induction es generalizing t with
  | nil =>
    rfl
  | cons e es ih =>
    rw [exprs]
    simp only [Ensures.bind_iff]
    refine (Ensures.run _ c t).mono fun a t' ha => ?_
    refine (ih (fun e he => h e (mem_cons_of_mem _ he)) t').mono fun as _ has => ?_
    rw [Ensures.pure_iff, map_cons, map_cons, has, h e mem_cons_self t a t' ha]

theorem BranchOf.isOtherwise_eq {k b} (h : BranchOf c k b) : isDefault k.labels = isOtherwise b := by
  have hform := h.form
  unfold isOtherwise
  split at hform
  · next hd =>
    obtain ⟨falls, hb⟩ := hform
    rw [hb, hd]
  · next hd =>
    obtain ⟨labels, falls, _, _, hb, -⟩ := hform
    rw [hb]
    simpa using hd

variable [DecidableEq V]

theorem BranchOf.lists_eq {k b} (h : BranchOf c k b) (hk : KeepsValues c value value' (k.labels.filterMap id))
    (v : V) : (!isDefault k.labels && k.labels.any (Source.labelled value v)) = lists value' v b := by
  have hform := h.form
  unfold lists
  split at hform
  · next hd =>
    obtain ⟨falls, hb⟩ := hform
    rw [hb, hd]
    rfl
  · next hd =>
    obtain ⟨labels, falls, t, u, hb, hrun⟩ := hform
    have hvalues := exprs_values hk t
    rw [Ensures, hrun] at hvalues
    have hv : v ∈ labels.map value' ↔ v ∈ (k.labels.filterMap id).map value := by rw [hvalues]
    rw [Bool.not_eq_true] at hd
    rw [hb, hd, Bool.not_false, Bool.true_and, Bool.eq_iff_iff]
    simp only [mem_map, mem_filterMap, id_eq, exists_eq_right] at hv
    simp only [any_eq_true, Source.labelled, Option.any_eq_true, decide_eq_true_eq]
    rw [hv]
    constructor
    · rintro ⟨_, he, e, rfl, hv⟩
      exact ⟨e, he, hv⟩
    · rintro ⟨e, he, hv⟩
      exact ⟨_, he, e, rfl, hv⟩

/-- The branch that is chosen is that of the case that applies. -/
theorem chosen_related {cases : List SwitchCase} {bs : List Pseudo.Stmt} (h : Forall₂ (BranchOf c) cases bs)
    (hk : ∀ k ∈ cases, KeepsValues c value value' (k.labels.filterMap id))
    (hnodup : (cases.flatMap (·.keys value)).Nodup) (v : V) :
    Option.Rel (BranchOf c) ((cases.find? (·.labels.any (Source.labelled value v))).or
      (cases.find? (isDefault ·.labels))) (chosen value' v (orderBranches bs)) := by
  have hlisted := filter_related ((forall₂_and_left _ _).2 ⟨hk, h⟩)
    (p := fun k => !isDefault k.labels && k.labels.any (Source.labelled value v)) (q := lists value' v)
    fun k b hkb => hkb.2.lists_eq hkb.1 v
  have hdefault := filter_related h (p := (isDefault ·.labels)) (q := isOtherwise) fun k b hkb => hkb.isOtherwise_eq
  rw [Source.filter_default hnodup] at hdefault
  rw [chosen_orderBranches, ← Source.find?_default_last hnodup, ← head?_filter,
    ← head?_filter (p := lists value' v)]
  generalize cases.filter (fun k => !isDefault k.labels && k.labels.any (Source.labelled value v)) = ks,
    bs.filter (lists value' v) = cs at hlisted ⊢
  cases hlisted with
  | cons hkb _ => exact .some hkb.2
  | nil =>
    generalize cases.find? (isDefault ·.labels) = k, bs.filter isOtherwise = ds at hdefault ⊢
    cases k with
    | none =>
      cases hdefault
      exact .none
    | some k =>
      obtain _ | ⟨hkb, _ | _⟩ := hdefault
      exact .some hkb

/-- The statements of a branch are the conversion of what the source runs. -/
def RunsBody (c : Context) (ss : List Source.Stmt) (b : Pseudo.Stmt) : Prop :=
  ∃ span t u, nested span (stmts (withoutBreak (unwrapped ss))) .block c t = .ok (b.children, u)

theorem runsBody_of_branchOf {k : Option SwitchCase} {b} (h : Option.Rel (BranchOf c) k b) :
    Option.Rel (RunsBody c) (k.map (·.body)) b := by
  cases h with
  | none => exact .none
  | @some k b hkb =>
    obtain ⟨t, u, hrun⟩ := hkb.children
    exact .some ⟨k.span, t, u, untilBreak_eq (unwrapped k.body) ▸ hrun⟩

theorem leaves_of_not_goesOn {body : List Source.Stmt} (h : goesOn (unwrapped body) = false) :
    body.getLast?.any (·.leaves) = true := by
  rw [goesOn, Bool.not_eq_false'] at h
  unfold unwrapped at h
  split at h
  · next span ss =>
    exact Source.anyLeaves_of_exits h
  · obtain ⟨s, hs, hexits⟩ := Option.any_eq_true _ _ |>.1 h
    exact (Option.any_eq_true _ _).2 ⟨s, hs, Source.Stmt.leaves_of_exits hexits⟩

end

open Source in
/-- A case with one label, whose body assigns the number to `x` and leaves the switch. -/
def numberCase (n : Nat) (raw : String) (label : Option Expr) : List Piece :=
  [.label label .unplaced, .stmt (.expression .unplaced (.assignment .unplaced .set (.identifier .unplaced "x")
    (.number .unplaced (.int n) raw))), .stmt (.breakStmt .unplaced none)]

def shownNumber : Pseudo.Expr → Option Int
  | .literal _ (some (.int n)) _ => some n
  | _ => none

end Convert

end Blackboard
