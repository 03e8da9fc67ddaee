import Mathlib
import Blackboard.Proofs.Lowering.Iteration

/-!
Arrays that start as literals. Each value of the literal is assigned to the element at its place, counted
from one, in the order of the source. The declared sizes are those of the first array at each depth, which
cover the places if no array in the literal is longer than the first one at its depth.
-/
namespace Blackboard

open List

namespace Source

variable {i : Nat} {items : List Expr} {e : Expr} {p : List Nat}

def Expr.IsArray (e : Expr) : Prop := ∃ span inner, e = .array span inner

/-- The value at a place of an array literal. -/
def leafAt (items : List Expr) : List Nat → Option Expr
  | [] | 0 :: _ => none
  | (i + 1) :: path => match items[i]? with
    | some (.array _ inner) => leafAt inner path
    | some e => if path = [] then some e else none
    | none => none

theorem leafAt_plain (hi : items[i]? = some e) (he : ¬ e.IsArray) (path : List Nat) :
    leafAt items ((i + 1) :: path) = if path = [] then some e else none := by
  rw [leafAt, hi]
  cases e with
  | array span inner => exact absurd ⟨span, inner, rfl⟩ he
  | _ => rfl

/-- The values of an array literal with their places, where the first item stands at `i`. -/
def leaves (i : Nat) : List Expr → List (List Nat × Expr)
  | [] => []
  | .array _ inner :: items => (leaves 1 inner).map (fun r => (i :: r.1, r.2)) ++ leaves (i + 1) items
  | e :: items => ([i], e) :: leaves (i + 1) items

theorem leaves_plain (he : ¬ e.IsArray) : leaves i (e :: items) = ([i], e) :: leaves (i + 1) items := by
  rw [leaves]
  exact fun span inner h => he ⟨span, inner, h⟩

/-- What stands at a place of the items after the first. -/
theorem exists_leafAt_cons (item : Expr) :
    (∃ j q, p = (i + j) :: q ∧ leafAt (item :: items) ((j + 1) :: q) = some e) ↔
      (∃ q, p = i :: q ∧ leafAt (item :: items) (1 :: q) = some e) ∨
        ∃ j q, p = (i + 1 + j) :: q ∧ leafAt items ((j + 1) :: q) = some e := by
  constructor
  · rintro ⟨_ | j, q, rfl, h⟩
    · exact .inl ⟨q, rfl, h⟩
    · exact .inr ⟨j, q, by rw [Nat.add_assoc, Nat.add_comm 1], h⟩
  · rintro (⟨q, rfl, h⟩ | ⟨j, q, rfl, h⟩)
    · exact ⟨0, q, rfl, h⟩
    · exact ⟨j + 1, q, by rw [Nat.add_assoc, Nat.add_comm 1], h⟩

theorem leafAt_eq_some : leafAt items p = some e ↔
    ∃ j q, p = (1 + j) :: q ∧ leafAt items ((j + 1) :: q) = some e := by
  constructor
  · intro h
    rcases p with _ | ⟨_ | j, q⟩
    · cases h
    · cases h
    · exact ⟨j, q, by rw [Nat.add_comm], h⟩
  · rintro ⟨j, q, rfl, h⟩
    rwa [Nat.add_comm]

theorem mem_leaves : (p, e) ∈ leaves i items ↔ ∃ j q, p = (i + j) :: q ∧ leafAt items ((j + 1) :: q) = some e := by
  induction i, items using leaves.induct generalizing p with
  | case1 i => simp [leaves, leafAt]
  | case2 i span inner items ihinner ihitems =>
    refine .trans ?_ (exists_leafAt_cons _).symm
    rw [leaves, mem_append, mem_map]
    refine or_congr ⟨?_, ?_⟩ ihitems
    · rintro ⟨r, hr, heq⟩
      obtain ⟨rfl, rfl⟩ := Prod.mk.inj heq
      have hleaf : leafAt inner r.1 = some r.2 := leafAt_eq_some.2 (ihinner.1 hr)
      exact ⟨r.1, rfl, hleaf⟩
    · rintro ⟨q, rfl, h⟩
      exact ⟨(q, e), ihinner.2 (leafAt_eq_some.1 h), rfl⟩
  | case3 i item items hitem ih =>
    have hplain : ¬ item.IsArray := fun ⟨span, inner, h⟩ => hitem span inner h
    refine .trans ?_ (exists_leafAt_cons _).symm
    rw [leaves_plain hplain, mem_cons]
    refine or_congr ?_ ih
    have hfirst := leafAt_plain (show (item :: items)[0]? = some item from rfl) hplain
    simp [hfirst, eq_comm]

/-- The places are in the order of the source. -/
theorem leaves_sorted (i : Nat) (items : List Expr) : (leaves i items).Pairwise fun a b => a.1 < b.1 := by
  have hbelow {i : Nat} {q : List Nat} {items : List Expr} {b : List Nat × Expr}
      (hb : b ∈ leaves (i + 1) items) : i :: q < b.1 := by
    obtain ⟨j, r, hp, -⟩ := mem_leaves.1 (show (b.1, b.2) ∈ _ from hb)
    rw [hp]
    exact .rel (by omega)
  fun_induction leaves i items with
  | case1 => exact .nil
  | case2 i span inner items ihinner ihitems =>
    refine pairwise_append.2 ⟨pairwise_map.2 (ihinner.imp .cons), ihitems, ?_⟩
    intro a ha b hb
    obtain ⟨r, -, rfl⟩ := mem_map.1 ha
    exact hbelow hb
  | case3 i item items _ ih => exact pairwise_cons.2 ⟨fun b hb => hbelow hb, ih⟩

/-! ### Sizes -/

/-- All arrays of a literal have items, and all its values stand in so many arrays. -/
def Deep : Nat → List Expr → Prop
  | 0, _ => False
  | 1, items => items ≠ [] ∧ ∀ e ∈ items, ¬ e.IsArray
  | d + 2, items => items ≠ [] ∧ ∀ e ∈ items, ∃ span inner, e = .array span inner ∧ Deep (d + 1) inner

/-- The items of the first of some items, if that is an array. -/
def firstItems : List Expr → List Expr
  | .array _ inner :: _ => inner
  | _ => []

/-- The lengths of the first array at each depth. -/
def firstSizes : Nat → List Expr → List Nat
  | 0, _ => []
  | d + 1, items => items.length :: firstSizes d (firstItems items)

theorem length_firstSizes (d : Nat) (items : List Expr) : (firstSizes d items).length = d := by
  induction d generalizing items with
  | zero => rfl
  | succ d ih => rw [firstSizes, length_cons, ih]

/-- No array is longer than the size for its depth. -/
def Covered : List Nat → List Expr → Prop
  | [], _ => True
  | n :: sizes, items => items.length ≤ n ∧ ∀ span inner, .array span inner ∈ items → Covered sizes inner

theorem literalSizes_eq {d} (h : Deep d items) : Convert.literalSizes items = (firstSizes d items).map toString := by
  induction d generalizing items with
  | zero => exact h.elim
  | succ d ih =>
    obtain ⟨item, items, rfl⟩ : ∃ item rest, items = item :: rest :=
      exists_cons_of_ne_nil (by cases d <;> exact h.1)
    cases d with
    | zero =>
      cases item with
      | array span inner => exact absurd ⟨span, inner, rfl⟩ (h.2 _ mem_cons_self)
      | _ => simp [Convert.literalSizes, firstSizes]
    | succ d =>
      obtain ⟨span, inner, rfl, hinner⟩ := h.2 item mem_cons_self
      rw [Convert.literalSizes, ih hinner]
      rfl

/-- Sizes that cover the arrays of a literal cover its places. -/
theorem Covered.places {d sizes} (h : Deep d items) (hsizes : sizes.length = d) (hc : Covered sizes items)
    (hp : leafAt items p = some e) : Forall₂ (fun i n => 1 ≤ i ∧ i ≤ n) p sizes := by
  induction d generalizing items sizes p with
  | zero => exact h.elim
  | succ d ih =>
    obtain ⟨n, sizes, rfl⟩ := exists_cons_of_length_eq_add_one hsizes
    obtain ⟨j, q, rfl, hq⟩ := leafAt_eq_some.1 hp
    obtain ⟨item, hitem⟩ : ∃ item, items[j]? = some item := by
      cases hitem : items[j]? with
      | none => simp [leafAt, hitem] at hq
      | some item => exact ⟨item, rfl⟩
    have hm := mem_of_getElem? hitem
    have hj := (List.getElem?_eq_some_iff.1 hitem).1
    have hfirst : 1 ≤ 1 + j ∧ 1 + j ≤ n := ⟨by omega, by have := hc.1; omega⟩
    cases d with
    | zero =>
      obtain rfl := length_eq_zero_iff.1 (Nat.succ.inj hsizes)
      rw [leafAt_plain hitem (h.2 _ hm)] at hq
      split at hq
      · next hnil =>
        subst hnil
        exact .cons hfirst .nil
      · cases hq
    | succ d =>
      obtain ⟨span, inner, rfl, hinner⟩ := h.2 _ hm
      rw [leafAt, hitem] at hq
      exact .cons hfirst (ih hinner (Nat.succ.inj hsizes) (hc.2 span inner hm) hq)

/-- The items of an array literal, with or without the type of the array. -/
def Expr.literalItems? : Expr → Option (List Expr)
  | .array _ items | .newArrayOf _ _ _ _ items => some items
  | _ => none

end Source

namespace Convert

open Conversion Ensures
open Source (Span leafAt leaves firstSizes)

variable {c : Context} {s : State} {span : Span} {name : String} {items : List Source.Expr}

/-- A value, as it is converted where the given scopes are known. -/
def Converts (c : Context) (scopes : Scopes) (r : List Nat × Source.Expr) (v : Pseudo.Expr) : Prop :=
  ∃ t u, t.scopes = scopes ∧ expr r.2 c t = .ok (v, u)

/-- Assigns values to the elements at their places. -/
def fill (name : String) (span : Span) (path : List Nat) (rs : List (List Nat × Source.Expr))
    (vs : List Pseudo.Expr) : List Pseudo.Stmt :=
  List.zipWith (fun r v => assign (element name (some span.line) (path ++ r.1)) v span) rs vs

theorem arrayElements_ensures (path : List Nat) (i : Nat) (items : List Source.Expr) (s : State) :
    Ensures True (arrayElements name span path i items) c s fun ps t => t.scopes = s.scopes ∧
      ∃ vs, Forall₂ (Converts c s.scopes) (leaves i items) vs ∧
        ps = fill name span path (leaves i items) vs := by
  fun_induction arrayElements name span path i items generalizing s with
  | case1 =>
    rw [leaves]
    exact ⟨rfl, [], .nil, rfl⟩
  | case2 path i own inner items ihinner ihitems =>
    simp only [bind_iff]
    refine (ihinner s).mono ?_
    rintro _ t ⟨ht, vs, hvs, rfl⟩
    refine (ihitems t).mono ?_
    rintro _ u ⟨hu, ws, hws, rfl⟩
    rw [leaves]
    have hmoved : Forall₂ (Converts c s.scopes) ((leaves 1 inner).map fun r => (i :: r.1, r.2)) vs :=
      forall₂_map_left_iff.2 hvs
    refine ⟨hu.trans ht, vs ++ ws, rel_append hmoved (ht ▸ hws), ?_⟩
    simp only [fill]
    rw [zipWith_append hmoved.length_eq, zipWith_map_left]
    simp
  | case3 path i item items hitem ih =>
    simp only [bind_iff]
    refine (expr_keeps item c s).and_run.mono fun value t ht => (ih t).mono ?_
    rintro _ u ⟨hu, ws, hws, rfl⟩
    rw [Source.leaves_plain fun h => h.elim fun own h => h.elim (hitem own)]
    exact ⟨hu.trans ht.1.scopes, value :: ws, .cons ⟨s, t, rfl, ht.2⟩ (ht.1.scopes ▸ hws), rfl⟩

theorem declaredKind_literal {type init} (h : Source.Expr.literalItems? init = some items) :
    Ensures True (declaredKind name type (some init) span) c s fun k t => t.scopes = s.scopes ∧
      ∃ declared : Pseudo.Kind, k = declared.withSizes (literalSizes items) := by
  have hsizes : initialSizes (some init) = pure (literalSizes items) := by
    cases init <;> cases h <;> rfl
  unfold declaredKind
  simp only [hsizes, bind_iff, view_iff]
  repeat' split
  all_goals exact ⟨rfl, _, rfl⟩

theorem withSizes_eq {k : Pseudo.Kind} {sizes} (h : (k.withSizes sizes).sizes.length = sizes.length) :
    (k.withSizes sizes).sizes = sizes := by
  have hlength : k.sizes.length = sizes.length := by
    simp only [Pseudo.Kind.withSizes, length_append, length_take, length_drop] at h
    omega
  simp [Pseudo.Kind.withSizes, hlength]

/-- What an array that starts as a literal is converted to. -/
def FillsPlaces (c : Context) (s : State) (name : String) (span : Span) (items : List Source.Expr)
    (ps : List Pseudo.Stmt) : Prop :=
  ∃ (k : Pseudo.Kind) (w : Variable) (rs : List (List Nat × Source.Expr)) (vs : List Pseudo.Expr),
    ps = .simple (.variable_ name k.text) (some span.line) :: fill name span [] rs vs ∧
    List.Forall₂ (Converts c (s.scopes.declareVariable w)) rs vs ∧
    (rs.Pairwise fun a b => a.1 < b.1) ∧ (∀ p e, (p, e) ∈ rs ↔ leafAt items p = some e) ∧
    (Source.Deep k.sizes.length items → k.sizes = (firstSizes k.sizes.length items).map toString ∧
      (Source.Covered (firstSizes k.sizes.length items) items →
        ∀ r ∈ rs, List.Forall₂ (fun i n => 1 ≤ i ∧ i ≤ n) r.1 (firstSizes k.sizes.length items)))

open Source in
/-- Rows of numbers, with their texts. -/
def rowsOf (rows : List (List (Nat × String))) : Expr :=
  .array .unplaced (rows.map fun row =>
    .array .unplaced (row.map fun n => .number .unplaced (.int n.1) n.2))

open Source in
def rowsType : TypeRef := { span := .unplaced, name := "int", dimensions := 2 }

/-- Whether an array of two rows of one element is declared, and its second row then gets a second one. -/
def exceedsFirst : List Pseudo.Stmt → Bool
  | [.mk (.variable_ "a" "ARRAY[1:2] OF ARRAY[1:1] OF INTEGER") [] [] (some 1), _, _,
      .mk (.assign target _) [] [] (some 1)] => target.text == "a[2][2]"
  | _ => false

end Convert

end Blackboard
