import Mathlib.Data.List.Basic
import Blackboard.Pseudo.Normal

/-!
What is left of a source type in its pseudocode type. A type with an equivalent keeps all of its array
dimensions. One without an equivalent stands in as a string, and keeps only the dimensions that are written
outside of any union.
-/
namespace Blackboard.Pseudo

open List
open Source (TypeRef TypeForm)

variable {l : Language} {t : TypeRef}

/-- A member of a union that is not an absent value. -/
def IsConcrete (t : TypeRef) : Prop := t.name ≠ "null" ∧ t.name ≠ "undefined"

instance : DecidablePred IsConcrete := fun t => inferInstanceAs (Decidable (t.name ≠ "null" ∧ t.name ≠ "undefined"))

/-- The shape of a type, read from outside to inside. -/
structure TypeShape where
  /-- the scalar that its innermost part is, if there is one -/
  scalar : Option Scalar
  /-- the number of its array dimensions -/
  rank : Nat
  /-- the number of those outside of any union -/
  outer : Nat
deriving DecidableEq, Repr

namespace TypeShape

def ofScalar (scalar : Option Scalar) (dimensions : Nat) : TypeShape := ⟨scalar, dimensions, dimensions⟩

def ofElement (element : TypeShape) (dimensions : Nat) : TypeShape :=
  ⟨element.scalar, dimensions + 1 + element.rank, dimensions + 1 + element.outer⟩

def ofMember (member : TypeShape) (dimensions : Nat) : TypeShape := ⟨member.scalar, dimensions + member.rank, dimensions⟩

mutual

/-- A container has one dimension more than its element, and a union with nothing but an absent value the
dimensions of its other member. Any other type with arguments has no equivalent. -/
def ofType (l : Language) : TypeRef → TypeShape
  | ⟨_, name, args, dimensions, form⟩ =>
    match l, form, ofTypes l args with
    | _, .simple, [] => ofScalar ((scalars l).lookup name) dimensions
    | _, .simple, [(_, element)] => if isContainer l name then element.ofElement dimensions else ofScalar none dimensions
    | .typescript, .union, members => match members.filter (·.1) with
      | [(_, member)] => member.ofMember dimensions
      | _ => ofScalar none dimensions
    | _, _, _ => ofScalar none dimensions

def ofTypes (l : Language) : List TypeRef → List (Bool × TypeShape)
  | [] => []
  | t :: ts => (decide (IsConcrete t), ofType l t) :: ofTypes l ts

end

theorem ofTypes_eq_map (l : Language) (ts : List TypeRef) :
    ofTypes l ts = ts.map fun t => (decide (IsConcrete t), ofType l t) := by
  induction ts with
  | nil => rfl
  | cons t ts ih => rw [ofTypes, ih, map_cons]

end TypeShape

theorem normalizeAll_eq_map (l : Language) (ts : List TypeRef) :
    normalizeAll l ts = ts.map fun t => (t.name, normalize l t) := by
  induction ts with
  | nil => rfl
  | cons t ts ih => rw [normalizeAll, ih, map_cons]

/-- What a type is made of, as far as pseudocode can tell. -/
inductive Made (l : Language) (t : TypeRef) : Prop where
  | scalar (s : Scalar) : (scalars l).lookup t.name = some s →
    normalize l t = Kind.nested { base := s } t.dimensions t.text → TypeShape.ofType l t = .ofScalar (some s) t.dimensions →
    Made l t
  | container (element : TypeRef) : element ∈ t.args →
    normalize l t = (normalize l element).nested (t.dimensions + 1) t.text →
    TypeShape.ofType l t = (TypeShape.ofType l element).ofElement t.dimensions → Made l t
  | optional (member : TypeRef) : member ∈ t.args →
    normalize l t = (if (normalize l member).fallback then .standIn t else (normalize l member).nested t.dimensions t.text) →
    TypeShape.ofType l t = (TypeShape.ofType l member).ofMember t.dimensions → Made l t
  | foreign : normalize l t = .standIn t → TypeShape.ofType l t = .ofScalar none t.dimensions → Made l t

theorem made_simple (l : Language) (span : Source.Span) (name : String) (args : List TypeRef) (dimensions : Nat) :
    Made l ⟨span, name, args, dimensions, .simple⟩ := by
  match args with
  | [] =>
    cases hlookup : (scalars l).lookup name with
    | some s => exact .scalar s hlookup (by simp [normalize, hlookup]) (by simp [TypeShape.ofType, TypeShape.ofTypes, hlookup])
    | none =>
      refine .foreign ?_ (by simp [TypeShape.ofType, TypeShape.ofTypes, hlookup])
      cases hcontainer : isContainer l name <;> simp [normalize, normalizeAll, hlookup]
  | [element] =>
    cases hcontainer : isContainer l name with
    | true =>
      exact .container element (mem_singleton_self _) (by simp [normalize, normalizeAll, hcontainer])
        (by simp [TypeShape.ofType, TypeShape.ofTypes, hcontainer])
    | false => exact .foreign (by simp [normalize, hcontainer]) (by simp [TypeShape.ofType, TypeShape.ofTypes, hcontainer])
  | _ :: _ :: _ => exact .foreign (by simp [normalize, normalizeAll]) (by simp [TypeShape.ofType, TypeShape.ofTypes])

theorem concrete_normalizeAll (l : Language) (args : List TypeRef) :
    ((normalizeAll l args).filter fun (n, _) => n != "null" && n != "undefined") =
      (args.filter (IsConcrete ·)).map fun t => (t.name, normalize l t) := by
  rw [normalizeAll_eq_map, filter_map]
  congr 2
  funext t
  by_cases hnull : t.name = "null" <;> by_cases hundefined : t.name = "undefined" <;> simp [IsConcrete, hnull, hundefined]

theorem concrete_ofTypes (l : Language) (args : List TypeRef) :
    (TypeShape.ofTypes l args).filter (·.1) =
      (args.filter (IsConcrete ·)).map fun t => (decide (IsConcrete t), TypeShape.ofType l t) := by
  rw [TypeShape.ofTypes_eq_map, filter_map]
  rfl

theorem made_union (span : Source.Span) (name : String) (args : List TypeRef) (dimensions : Nat) :
    Made .typescript ⟨span, name, args, dimensions, .union⟩ := by
  match hconcrete : args.filter (IsConcrete ·) with
  | [member] =>
    have hmem : member ∈ args := (mem_filter.1 (hconcrete ▸ mem_singleton_self _)).1
    exact .optional member hmem (by simp [normalize, concrete_normalizeAll, hconcrete])
      (by simp [TypeShape.ofType, concrete_ofTypes, hconcrete])
  | [] | _ :: _ :: _ =>
    exact .foreign (by simp [normalize, concrete_normalizeAll, hconcrete])
      (by simp [TypeShape.ofType, concrete_ofTypes, hconcrete])

theorem made (l : Language) (t : TypeRef) : Made l t := by
  obtain ⟨span, name, args, dimensions, form⟩ := t
  cases form with
  | simple => exact made_simple ..
  | union =>
    cases l with
    | java => exact .foreign (by simp [normalize]) (by simp [TypeShape.ofType])
    | typescript => exact made_union ..
  | _ => exact .foreign (by cases l <;> simp [normalize]) (by cases l <;> simp [TypeShape.ofType])

/-! ### What is kept of a shape -/

/-- The number of dimensions that are left of a shape. -/
def TypeShape.left (s : TypeShape) : Nat := if s.scalar.isSome then s.rank else s.outer

structure Kept (k : Kind) (s : TypeShape) : Prop where
  base : k.base = s.scalar.getD .string
  fallback : k.fallback = s.scalar.isNone
  sizes : k.sizes = List.replicate s.left "n"

theorem Kept.ofElement {k : Kind} {s : TypeShape} (h : Kept k s) (dimensions : Nat) (spelling : String) :
    Kept (k.nested (dimensions + 1) spelling) (s.ofElement dimensions) := by
  refine ⟨h.base, h.fallback, ?_⟩
  rw [Kind.nested, h.sizes, replicate_append_replicate, TypeShape.left, TypeShape.left, TypeShape.ofElement]
  split <;> rfl

theorem Kept.ofMember {k : Kind} {s : TypeShape} (h : Kept k s) :
    Kept (if k.fallback then .standIn t else k.nested t.dimensions t.text) (s.ofMember t.dimensions) := by
  cases hscalar : s.scalar with
  | none =>
    rw [if_pos (by rw [h.fallback, hscalar]; rfl)]
    refine ⟨?_, ?_, ?_⟩ <;> simp [TypeShape.ofMember, TypeShape.left, Kind.standIn, hscalar]
  | some x =>
    rw [if_neg (by simp [h.fallback, hscalar])]
    refine ⟨h.base, h.fallback, ?_⟩
    rw [Kind.nested, h.sizes]
    simp [TypeShape.ofMember, TypeShape.left, hscalar]

theorem kept_scalar (x : Scalar) (dimensions : Nat) (spelling : String) :
    Kept (Kind.nested { base := x } dimensions spelling) (.ofScalar (some x) dimensions) :=
  ⟨rfl, rfl, append_nil _⟩

theorem kept_standIn (t : TypeRef) : Kept (.standIn t) (.ofScalar none t.dimensions) := ⟨rfl, rfl, rfl⟩

theorem sizeOf_lt_of_mem_args {u : TypeRef} (h : u ∈ t.args) : sizeOf u < sizeOf t := by
  obtain ⟨span, name, args, dimensions, form⟩ := t
  have hlt : sizeOf u < sizeOf args := sizeOf_lt_of_mem h
  rw [TypeRef.mk.sizeOf_spec]
  omega

theorem kept_normalize (l : Language) (t : TypeRef) : Kept (normalize l t) (TypeShape.ofType l t) := by
  match made l t with
  | .scalar x _ hkind hshape =>
    rw [hkind, hshape]
    exact kept_scalar ..
  | .container element hmem hkind hshape =>
    rw [hkind, hshape]
    exact (kept_normalize l element).ofElement ..
  | .optional member hmem hkind hshape =>
    rw [hkind, hshape]
    exact (kept_normalize l member).ofMember
  | .foreign hkind hshape =>
    rw [hkind, hshape]
    exact kept_standIn t
termination_by sizeOf t
decreasing_by all_goals exact sizeOf_lt_of_mem_args hmem

theorem mem_known_of_lookup {name : String} {x : Scalar} (h : (scalars l).lookup name = some x) : x ∈ Scalar.known := by
  have hall : ∀ p ∈ scalars l, p.2 ∈ Scalar.known := by cases l <;> decide
  obtain ⟨before, after, heq, -⟩ := lookup_eq_some_iff.1 h
  exact hall (name, x) (by simp [heq])

theorem mem_known_of_scalar (l : Language) (t : TypeRef) : ∀ x ∈ (TypeShape.ofType l t).scalar, x ∈ Scalar.known := by
  match made l t with
  | .scalar x hlookup _ hshape =>
    rw [hshape]
    rintro _ ⟨⟩
    exact mem_known_of_lookup hlookup
  | .container element hmem _ hshape =>
    rw [hshape]
    exact mem_known_of_scalar l element
  | .optional member hmem _ hshape =>
    rw [hshape]
    exact mem_known_of_scalar l member
  | .foreign _ hshape =>
    rw [hshape]
    rintro _ ⟨⟩
termination_by sizeOf t
decreasing_by all_goals exact sizeOf_lt_of_mem_args hmem

theorem base_mem_known (l : Language) (t : TypeRef) : (normalize l t).base ∈ Scalar.known := by
  rw [(kept_normalize l t).base]
  cases hscalar : (TypeShape.ofType l t).scalar with
  | none => decide
  | some x => exact mem_known_of_scalar l t x hscalar

/-! ### Unions with an absent value -/

theorem concrete_eq {us vs : List TypeRef} (h : ∀ a ∈ us ++ vs, ¬IsConcrete a) :
    (us ++ t :: vs).filter (IsConcrete ·) = if IsConcrete t then [t] else [] := by
  have hus : us.filter (IsConcrete ·) = [] := by
    simpa using fun a ha => h a (mem_append_left _ ha)
  have hvs : vs.filter (IsConcrete ·) = [] := by
    simpa using fun a ha => h a (mem_append_right _ ha)
  rw [filter_append, hus, filter_cons, hvs]
  by_cases ht : IsConcrete t <;> simp [ht]

/-- Beside absent values a type with an equivalent is read as it is, and any other as a string. -/
theorem normalize_union {us vs : List TypeRef} (h : ∀ a ∈ us ++ vs, ¬IsConcrete a) (span : Source.Span) (name : String) :
    normalize .typescript ⟨span, name, us ++ t :: vs, 0, .union⟩ =
      if IsConcrete t ∧ (normalize .typescript t).fallback = false then
        (normalize .typescript t).nested 0 (TypeRef.text ⟨span, name, us ++ t :: vs, 0, .union⟩)
      else .standIn ⟨span, name, us ++ t :: vs, 0, .union⟩ := by
  by_cases ht : IsConcrete t
  · have hconcrete := (concrete_eq h).trans (if_pos ht)
    cases hfallback : (normalize .typescript t).fallback <;>
      simp [normalize, concrete_normalizeAll, hconcrete, hfallback, ht]
  · have hconcrete := (concrete_eq h).trans (if_neg ht)
    simp [normalize, concrete_normalizeAll, hconcrete, ht]

/-- The type for a source type is made of a known scalar, which is that of its innermost part if there is one
and a string otherwise. It has all array dimensions of the source type in the first case, and those outside
of any union in the second. Adding an absent value to a type changes neither the scalar nor the dimensions if the
type has an equivalent, or is taken for a plain string. -/
theorem normalize_keeps_shape (l : Language) (t : TypeRef) :
    (normalize l t).base ∈ Scalar.known ∧
      ((normalize l t).fallback = true → (normalize l t).base = .string) ∧
      (normalize l t).fallback = (TypeShape.ofType l t).scalar.isNone ∧
      (normalize l t).sizes.length =
        (if (normalize l t).fallback then (TypeShape.ofType l t).outer else (TypeShape.ofType l t).rank) ∧
      ∀ us vs span name, (∀ a ∈ us ++ vs, ¬IsConcrete a) →
        let plain := normalize .typescript t
        let beside := normalize .typescript ⟨span, name, us ++ t :: vs, 0, .union⟩
        (beside.base = plain.base ∧ beside.sizes = plain.sizes ↔
          IsConcrete t ∧ plain.fallback = false ∨ plain.base = .string ∧ plain.sizes = []) := by
  have hkept := kept_normalize l t
  refine ⟨base_mem_known l t, fun hfallback => ?_, hkept.fallback, ?_, fun us vs span name habsent => ?_⟩
  · rw [hkept.fallback, Option.isNone_iff_eq_none] at hfallback
    rw [hkept.base, hfallback, Option.getD_none]
  · rw [hkept.sizes, List.length_replicate, hkept.fallback, TypeShape.left]
    cases (TypeShape.ofType l t).scalar <;> rfl
  · rw [normalize_union habsent]
    split
    · next hknown => simp [Kind.nested, hknown]
    · next hknown =>
      simp only [Kind.standIn, List.replicate_zero, hknown, false_or]
      exact and_congr eq_comm eq_comm

/-- An absent value beside an array of something unknown makes a plain string of it. -/
theorem optional_array_loses_dimension :
    let array : TypeRef := ⟨.unplaced, "Foo", [], 1, .simple⟩
    let optional : TypeRef := ⟨.unplaced, "Foo[] | null", [array, ⟨.unplaced, "null", [], 0, .literal⟩], 0, .union⟩
    (TypeShape.ofType .typescript optional).rank = 1 ∧ (normalize .typescript array).sizes = ["n"] ∧
      (normalize .typescript optional).sizes = [] := by
  exact ⟨rfl, rfl, rfl⟩

end Blackboard.Pseudo
