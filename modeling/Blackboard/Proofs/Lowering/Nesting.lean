import Blackboard.Proofs.Lowering.Position

/-!
Positions inside positions. What stands in a position is converted where counters are read from zero. An
access there has the position that it has anywhere else, unless that is a counter by itself.
-/
namespace Blackboard

/-- The same context where counters are read from zero, or as they are. -/
def Conversion.Context.reading (c : Conversion.Context) (zeroBased : Bool) : Conversion.Context :=
  { c with zeroBased := zeroBased }

namespace Convert

open Conversion Ensures
open Source (Span)
open Pseudo (StringMethod)

variable {c : Context} {s : State} {span place : Span}

/-- A position that is neither a text nor a counter by itself. -/
structure Shifted (scopes : Scopes) (e : Source.Expr) : Prop where
  notText : isString e = false
  notCounter : ∀ place x, e = .identifier place x → scopes.isOneBased x = false

/-- An access adds one to its position, as that is converted where counters are read from zero. -/
theorem access_ensures {base e : Source.Expr} (h : Shifted s.scopes e) :
    Ensures True (expr (.index span base e)) c s fun a _ => ∃ b y v,
      expr e (c.reading true) s = .ok (y, v) ∧ a = .index b (y.addOffset 1) (some span.line) := by
  have hplain (u : State) (hu : u.scopes = s.scopes) : isOneBased e c u = .ok (false, u) := by
    cases e with
    | identifier place x => exact congrArg (fun b => Except.ok (b, u)) (hu ▸ h.notCounter place x rfl)
    | _ => rfl
  rw [expr, bind_iff]
  refine ((expr_ensures base c s).weaken fun _ => trivial).mono fun b u hu => ?_
  simp only [h.notText, Bool.false_eq_true, if_false, bind_iff, indexValue]
  refine .of_ok (hplain u hu.1.scopes) ?_
  simp only [Bool.false_eq_true, if_false, bind_iff]
  refine (run (expr e) (c.reading true) u).mono fun y v hy => ?_
  obtain ⟨w, hw⟩ := expr_congr hu.1.symm hy
  refine written_ensures.mono ?_
  rintro _ _ ⟨rfl, rfl⟩
  split
  · exact ⟨b, y, w, hw, rfl⟩
  · exact ⟨b, y, w, hw, rfl⟩

/-- An access has the same position where counters are read from zero. -/
theorem access_index_eq {base e : Source.Expr} (h : Shifted s.scopes e) {s' t t' : State} (hs : SameNames s s')
    {a a' : Pseudo.Expr} (ha : expr (.index span base e) c s = .ok (a, t))
    (ha' : expr (.index span base e) (c.reading true) s' = .ok (a', t')) :
    ∃ b b' i, a = .index b i (some span.line) ∧ a' = .index b' i (some span.line) := by
  have hinside : Ensures True (expr (.index span base e)) (c.reading true) s' _ :=
    access_ensures (hs.scopes ▸ h)
  have halone : Ensures True (expr (.index span base e)) c s _ := access_ensures h
  rw [Ensures, ha] at halone
  rw [Ensures, ha'] at hinside
  obtain ⟨b, y, _, hy, rfl⟩ := halone
  obtain ⟨b', y', _, hy', rfl⟩ := hinside
  obtain ⟨_, hsame⟩ := expr_congr hs hy
  change expr e (c.reading true) s' = _ at hy'
  rw [hy'] at hsame
  cases hsame
  exact ⟨b, b', _, rfl, rfl⟩

/-! ### Arguments -/

/-- What one of the expressions is converted to stands at its place. -/
theorem exprs_get (before after : List Source.Expr) (e : Source.Expr) (s : State) :
    Ensures True (exprs (before ++ e :: after)) c s fun ys _ => ∃ y u v,
      ys[before.length]? = some y ∧ SameNames s u ∧ expr e c u = .ok (y, v) := by
  induction before generalizing s with
  | nil =>
    rw [List.nil_append, exprs]
    simp only [bind_iff]
    refine (run (expr e) c s).mono fun y t hy => ?_
    exact (run (exprs after) c t).mono fun _ _ _ => ⟨y, s, t, rfl, .refl s, hy⟩
  | cons e' before ih =>
    rw [List.cons_append, exprs]
    simp only [bind_iff]
    refine ((expr_ensures e' c s).weaken fun _ => trivial).mono fun a t ht => (ih t).mono ?_
    rintro _ _ ⟨y, u, v, hget, hu, hy⟩
    exact ⟨y, u, v, hget, ht.1.trans hu, hy⟩

/-- A call of a method on texts whose arguments are positions. -/
structure TakesPositions (v : View) (e target : Source.Expr) (callee : Option String) (method : String)
    (arity : Nat) (m : StringMethod) : Prop where
  found : StringMethod.find? method arity = some m
  positions : m.positions = true
  undeclared : v.scopes.findCallable? method = none
  object : target.isSelfReference = false ∧ isMath target = false
  plain : v.input? e = none ∧ numberParser? callee = none

/-- A method on texts is applied to its arguments, as they are converted where counters are read from zero. -/
theorem positionCall_ensures {target : Source.Expr} {method : String} {isOptional : Bool}
    {args : List Source.Expr} {m : StringMethod}
    (h : TakesPositions ⟨c.language, s.scopes, s.enumNames⟩
      (.call span (.member place target method isOptional) args) target
      (Source.Expr.member place target method isOptional).dottedName? method args.length m) :
    Ensures True (expr (.call span (.member place target method isOptional) args)) c s fun a _ =>
      ∃ t ys u v, SameNames s u ∧ exprs args (c.reading true) u = .ok (ys, v) ∧ a = m.apply t ys := by
  obtain ⟨hm, hp, hcallable, ⟨hself, hmath⟩, hinput, hparser⟩ := h
  simp only [expr, callOr, methodCall, bind_iff, view_iff, hinput, hparser, hself, hmath,
    Option.isSome_none, Bool.false_and, Bool.false_eq_true, if_false]
  have hrest (dotted : Option String) (s' : State) (hs : SameNames s s') :
      Ensures True (objectMethod span dotted method args.length (expr target) (exprs args)) c s' fun a _ =>
        ∃ t ys u v, SameNames s u ∧ exprs args (c.reading true) u = .ok (ys, v) ∧ a = m.apply t ys := by
    simp only [objectMethod, bind_iff, findCallable?_iff, hs.scopes, hcallable,
      Option.isSome_none, hm, hp, if_true]
    refine ((expr_ensures target c s').weaken fun _ => trivial).mono fun t u hu => ?_
    refine (run (exprs args) (c.reading true) u).mono fun ys v hys => ?_
    refine written_ensures.mono ?_
    rintro _ _ ⟨rfl, -⟩
    exact ⟨t, ys, u, v, hs.trans hu.1, hys, rfl⟩
  split
  · exact hrest _ _ ⟨rfl, rfl, rfl⟩
  · exact hrest _ s (.refl s)

/-- An access is converted to an access to one position `i`, standing alone, standing in the position of
another access and standing among the arguments of a method that takes positions: unless its position is a
counter by itself. -/
theorem nested_accesses_keep_positions (c : Context) (s : State) (span : Span) (base e : Source.Expr)
    (h : Shifted s.scopes e) :
    Ensures (Heavy (Source.weight (Source.Expr.index span base e).nodes)) (expr (.index span base e)) c s
      fun a _ => ∃ b i, a = .index b i (some span.line) ∧ (∀ place outer,
          Ensures (Heavy (Source.weight (Source.Expr.index place outer (.index span base e)).nodes))
            (expr (.index place outer (.index span base e))) c s fun a' _ => ∃ o b',
              a' = .index o (Pseudo.Expr.addOffset (.index b' i (some span.line)) 1) (some place.line)) ∧
        ∀ own place target method isOptional before after m, TakesPositions ⟨c.language, s.scopes, s.enumNames⟩
            (.call own (.member place target method isOptional) (before ++ .index span base e :: after)) target
            (Source.Expr.member place target method isOptional).dottedName? method
            (before ++ .index span base e :: after).length m →
          Ensures (Heavy (Source.weight (Source.Expr.call own (.member place target method isOptional)
              (before ++ .index span base e :: after)).nodes))
            (expr (.call own (.member place target method isOptional) (before ++ .index span base e :: after))) c s
            fun a' _ => ∃ t ys b', a' = m.apply t ys ∧ ys[before.length]? = some (.index b' i (some span.line)) := by
  refine (expr_ensures _ c s).and_run.mono ?_
  rintro a t ⟨-, ha⟩
  have halone : Ensures True (expr (.index span base e)) c s _ := access_ensures h
  rw [Ensures, ha] at halone
  obtain ⟨b, y, _, hy, rfl⟩ := halone
  refine ⟨b, _, rfl, fun place outer => ?_, fun own place target method isOptional before after m hm => ?_⟩
  · have hshifted : Shifted s.scopes (.index span base e) := ⟨rfl, by simp⟩
    refine ((expr_ensures _ c s).and (access_ensures hshifted)).mono ?_
    rintro _ _ ⟨-, o, y', v, hy', rfl⟩
    obtain ⟨_, b', i, hb, rfl⟩ := access_index_eq h (.refl s) ha hy'
    cases hb
    exact ⟨o, b', rfl⟩
  · refine ((expr_ensures _ c s).and (positionCall_ensures hm)).mono ?_
    rintro _ _ ⟨-, t, ys, u, v, hu, hys, rfl⟩
    have harg := exprs_get (c := c.reading true) before after (.index span base e) u
    rw [Ensures, hys] at harg
    obtain ⟨y', u', v', hget, hu', hy'⟩ := harg
    obtain ⟨_, b', i, hb, rfl⟩ := access_index_eq h (hu.trans hu') ha hy'
    cases hb
    exact ⟨t, ys, b', rfl, hget⟩

open Source in
/-- The element of `b` at a position. -/
def elementOfB (e : Expr) : Expr := .index .unplaced (.identifier .unplaced "b") e

open Source in
theorem nested_accesses_keep_positions_next :
    ∃ b i t, expr (elementOfB nextPosition) countingContext countingState = .ok (.index b i (some 1), t) ∧
      (∃ o b' u, expr (.index .unplaced (.identifier .unplaced "a") (elementOfB nextPosition)) countingContext
        countingState = .ok (.index o (Pseudo.Expr.addOffset (.index b' i (some 1)) 1) (some 1), u)) ∧
      ∃ (m : StringMethod) (t : Pseudo.Expr) (ys : List Pseudo.Expr) (b' : Pseudo.Expr) (u : State),
        expr (.call .unplaced (.member .unplaced (.identifier .unplaced "t") "charAt" false)
          [elementOfB nextPosition]) countingContext countingState = .ok (m.apply t ys, u) ∧
        ys[0]? = some (.index b' i (some 1)) := by
  -- for all expressions first, so that no conversion is run here
  have hruns (base e) (h) (hlight : ¬ Heavy _) :=
    (nested_accesses_keep_positions countingContext countingState .unplaced base e h).exists_ok_of_not hlight
  obtain ⟨_, t, hrun, b, i, rfl, haccess, hcall⟩ := hruns (.identifier .unplaced "b") nextPosition ⟨rfl, nofun⟩
    (not_heavy_of_le (by decide))
  have haccess (place outer) (hlight : ¬ Heavy _) := (haccess place outer).exists_ok_of_not hlight
  have hcall (target method m) (h) (hlight : ¬ Heavy _) :=
    (hcall .unplaced .unplaced target method false [] [] m h).exists_ok_of_not hlight
  refine ⟨b, i, t, hrun, ?_, ?_⟩
  · obtain ⟨_, u, hinside, o, b', rfl⟩ := haccess .unplaced (.identifier .unplaced "a") (not_heavy_of_le (by decide))
    exact ⟨o, b', u, hinside⟩
  · obtain ⟨m, hm, hp⟩ : ∃ m, StringMethod.find? "charAt" 1 = some m ∧ m.positions = true := ⟨_, rfl, rfl⟩
    obtain ⟨_, u, hinside, t, ys, b', rfl, hget⟩ := hcall (.identifier .unplaced "t") "charAt" m
      ⟨hm, hp, by decide, by decide, by decide⟩ (not_heavy_of_le (by decide))
    exact ⟨m, t, ys, b', u, hinside, hget⟩

open Source in
/-- A counter by itself is decreased where the access stands inside another one. -/
theorem bare_counter_decreased_inside : ∃ b b' o u v,
    expr (elementOfB (.identifier .unplaced "i")) countingContext countingState =
      .ok (.index b (.identifier "i" (some true) (some 1)) (some 1), u) ∧
    expr (.index .unplaced (.identifier .unplaced "a") (elementOfB (.identifier .unplaced "i"))) countingContext
      countingState = .ok (.index o (Pseudo.Expr.addOffset (.index b' (.binary .sub
        (.identifier "i" (some true) (some 1)) (.number 1) (some 1)) (some 1)) 1) (some 1), v) := by
  have hinner : expr (elementOfB (.identifier .unplaced "i")) (countingContext.reading true) countingState =
      .ok (.index (.identifier "b" (some false) (some 1)) (.binary .sub
        (.identifier "i" (some true) (some 1)) (.number 1) (some 1)) (some 1), countingState) := rfl
  -- for all accesses first, so that no conversion is run here
  have haccess (base e) (h : Shifted countingState.scopes e)
      (hlight : ¬ Heavy (weight (Expr.index .unplaced base e).nodes)) :=
    ((expr_ensures (.index .unplaced base e) countingContext countingState).and
      (access_ensures h)).exists_ok_of_not hlight
  obtain ⟨_, v, hrun, -, o, y, _, hy, rfl⟩ := haccess (.identifier .unplaced "a")
    (elementOfB (.identifier .unplaced "i")) ⟨rfl, nofun⟩ (not_heavy_of_le (by decide))
  rw [hinner] at hy
  cases hy
  exact ⟨_, _, o, _, v, rfl, hrun⟩

end Convert

end Blackboard
