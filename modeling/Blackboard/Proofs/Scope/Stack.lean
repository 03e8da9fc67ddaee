import Mathlib.Logic.Function.Basic
import Blackboard.Proofs.Scope.Chain

/-!
The scopes as a stack of frames. The arena keeps every scope that was ever entered; what can be observed
of it is what a plain stack shows, which pushes a frame on entering, drops it on leaving and answers every
question from the frames it still has. The proof follows the arena along a run: the chain from the current
scope to the outermost one is the stack.
-/
namespace Blackboard

open List

structure Frame where
  kind : ScopeKind
  vars : String → Option Variable := fun _ => none
  callables : String → Option Procedure := fun _ => none

namespace Frame

def declareVariable (v : Variable) (f : Frame) : Frame :=
  { f with vars := Function.update f.vars v.name (some v) }

def declareCallable (p : Procedure) (f : Frame) : Frame :=
  { f with callables := Function.update f.callables p.name (some p) }

end Frame

/-- A stack of frames, of which one always remains, and the remarks made so far. -/
structure FrameStack where
  top : Frame
  below : List Frame := []
  diagnostics : List Diagnostic := []

namespace FrameStack

def start : FrameStack := { top := { kind := .outermost } }

def frames (s : FrameStack) : List Frame := s.top :: s.below

def push (kind : ScopeKind) (s : FrameStack) : FrameStack :=
  { s with top := { kind }, below := s.frames }

def pop (s : FrameStack) : FrameStack :=
  match s.below with
  | [] => { s with diagnostics := s.diagnostics ++ [{ cause := .unbalancedExit }] }
  | f :: rest => { s with top := f, below := rest }

/-- Whether the nearest frame that declares a variable lies inside a class, with no class at that frame
or nearer. -/
def hides (name : String) (frames : List Frame) : Bool :=
  match frames.dropWhile fun f => (f.vars name).isNone with
  | [] => false
  | frame :: around =>
    ((frames.takeWhile fun f => (f.vars name).isNone) ++ [frame]).all (·.kind ≠ .class_) &&
      around.any (·.kind = .class_)

end FrameStack

inductive ScopeCall where
  | enter (kind : ScopeKind)
  | exit
  | declareVariable (v : Variable)
  | declareCallable (p : Procedure)
  | findVariable (name : String)
  | findCallable (name : String)
  | shadowsField (name : String)
  | depth
deriving DecidableEq, Repr

inductive ScopeAnswer where
  | done
  | variable (found : Option Variable)
  | callable (found : Option Procedure)
  | truth (b : Bool)
  | number (n : Nat)
deriving DecidableEq, Repr

namespace ScopeCall

def onArena (s : Scopes) : ScopeCall → ScopeAnswer × Scopes
  | enter kind => (.done, s.enter kind)
  | exit => (.done, s.exit)
  | declareVariable v => (.variable v, s.declareVariable v)
  | declareCallable p => (.callable p, s.declareCallable p)
  | findVariable name => (.variable (s.findVariable? name), s)
  | findCallable name => (.callable (s.findCallable? name), s)
  | shadowsField name => (.truth (s.shadowsField name), s)
  | depth => (.number s.depth, s)

def onStack (s : FrameStack) : ScopeCall → ScopeAnswer × FrameStack
  | enter kind => (.done, s.push kind)
  | exit => (.done, s.pop)
  | declareVariable v => (.variable v, { s with top := s.top.declareVariable v })
  | declareCallable p => (.callable p, { s with top := s.top.declareCallable p })
  | findVariable name => (.variable (s.frames.findSome? (·.vars name)), s)
  | findCallable name => (.callable (s.frames.findSome? (·.callables name)), s)
  | shadowsField name => (.truth (FrameStack.hides name s.frames), s)
  | depth => (.number s.below.length, s)

def answers {σ : Type} (step : σ → ScopeCall → ScopeAnswer × σ) (s : σ) : List ScopeCall → List ScopeAnswer × σ
  | [] => ([], s)
  | call :: calls =>
    let rest := answers step (step s call).2 calls
    ((step s call).1 :: rest.1, rest.2)

end ScopeCall

namespace FrameStack

theorem hides_iff (name : String) (frames : List Frame) :
    hides name frames = true ↔ ∃ nearer frame around, frames = nearer ++ frame :: around ∧
      (∀ f ∈ nearer, f.vars name = none) ∧ (frame.vars name).isSome ∧
      (∀ f ∈ nearer ++ [frame], f.kind ≠ .class_) ∧ ∃ f ∈ around, f.kind = .class_ := by
  constructor
  · intro h
    cases hdrop : frames.dropWhile fun f => (f.vars name).isNone with
    | nil => simp [hides, hdrop] at h
    | cons frame around =>
      simp only [hides, hdrop, Bool.and_eq_true, all_eq_true, any_eq_true,
        decide_eq_true_eq] at h
      refine ⟨frames.takeWhile fun f => (f.vars name).isNone, frame, around, ?_, ?_, ?_, h.1, h.2⟩
      · rw [← hdrop]
        exact takeWhile_append_dropWhile.symm
      · intro f hf
        have hnone := all_eq_true.mp (all_takeWhile (l := frames)) f hf
        simpa using hnone
      · have hhead : frames.dropWhile (fun f => (f.vars name).isNone) ≠ [] := by simp [hdrop]
        have hnot := head_dropWhile_not (fun f : Frame => (f.vars name).isNone) hhead
        simpa [hdrop] using hnot
  · rintro ⟨nearer, frame, around, rfl, hnearer, hframe, hclass, haround⟩
    have hall : ∀ f ∈ nearer, (f.vars name).isNone = true := by
      intro f hf
      simp [hnearer f hf]
    have hstop : (frame.vars name).isNone = false := by
      simpa using hframe
    simp only [hides, dropWhile_append_of_pos hall, takeWhile_append_of_pos hall,
      dropWhile_cons, takeWhile_cons, hstop, Bool.false_eq_true, if_false,
      append_nil, Bool.and_eq_true, all_eq_true, any_eq_true, decide_eq_true_eq]
    exact ⟨hclass, haround⟩

end FrameStack

namespace Scope

def frame (s : Scope) : Frame :=
  { kind := s.kind, vars := fun n => s.vars.lookup n, callables := fun n => s.callables.lookup n }

theorem frame_declareVariable (s : Scope) (v : Variable) :
    frame { s with vars := Table.put v.name v s.vars } = s.frame.declareVariable v := by
  have hvars : (fun n => (Table.put v.name v s.vars).lookup n) =
      Function.update (fun n => s.vars.lookup n) v.name (some v) := by
    funext n
    rw [Table.lookup_put, Function.update_apply]
  simp [frame, Frame.declareVariable, hvars]

theorem frame_declareCallable (s : Scope) (p : Procedure) :
    frame { s with callables := Table.put p.name p s.callables } = s.frame.declareCallable p := by
  have hcallables : (fun n => (Table.put p.name p s.callables).lookup n) =
      Function.update (fun n => s.callables.lookup n) p.name (some p) := by
    funext n
    rw [Table.lookup_put, Function.update_apply]
  simp [frame, Frame.declareCallable, hcallables]

end Scope

namespace Scopes

theorem shadows_eq_hides (name : String) (chain : List Scope) :
    shadows name chain = FrameStack.hides name (chain.map Scope.frame) := by
  induction chain with
  | nil => rfl
  | cons s rest ih =>
    have hvars : s.frame.vars name = s.vars.lookup name := rfl
    have hkind : s.frame.kind = s.kind := rfl
    by_cases hfound : (s.vars.lookup name).isSome
    · have hnone : (s.vars.lookup name).isNone = false := by
        simpa using hfound
      by_cases hclass : s.kind = .class_
      · simp [shadows, FrameStack.hides, hvars, hkind, hnone, hclass]
      · rw [shadows, if_pos hfound]
        simp [FrameStack.hides, hvars, hkind, hnone, hclass]
        rfl
    · have hnone : (s.vars.lookup name).isNone = true := by
        rwa [Bool.not_eq_true, Option.isSome_eq_false_iff] at hfound
      by_cases hclass : s.kind = .class_
      · simp only [shadows, hclass, if_true, FrameStack.hides, map_cons, dropWhile_cons,
          takeWhile_cons, hvars, hnone]
        split <;> simp [hkind, hclass]
      · rw [shadows, if_neg hclass, if_neg hfound, ih]
        simp only [FrameStack.hides, map_cons, dropWhile_cons, takeWhile_cons, hvars, hnone, if_true]
        split <;> simp [hkind, hclass]

/-- The visible scopes of a sound arena are the frames of a stack. -/
structure Represents (s : Scopes) (stack : FrameStack) : Prop where
  sound : s.Sound
  frames : s.chain.map Scope.frame = stack.frames
  diagnostics : s.diagnostics = stack.diagnostics

theorem represents_start : Represents {} FrameStack.start :=
  ⟨sound_start, rfl, rfl⟩

theorem Sound.chain_of_parent {s : Scopes} (h : s.Sound) : ∃ scope, s.currentScope = scope ∧ (match scope.parent with
      | none => s.chain = [scope]
      | some p => Sound { s with current := p } ∧
          s.chain = scope :: chain { s with current := p }) := by
  obtain ⟨scope, around, hscope, hchain, haround⟩ := h.exists_chain
  refine ⟨scope, by simp [currentScope, hscope], ?_⟩
  cases hparent : scope.parent with
  | none =>
    rw [hchain, haround, hparent]
    rfl
  | some p =>
    have hlt := h.parents _ scope p hscope hparent
    have hcurrent := h.current
    refine ⟨⟨h.parents, show p < s.arena.length by omega⟩, ?_⟩
    rw [hchain, haround, hparent]
    exact congrArg (scope :: ·) (chainFrom_fuel h.parents hlt (Nat.lt_succ_self p))

namespace Represents

variable {s : Scopes} {stack : FrameStack}

theorem enter (h : Represents s stack) (kind : ScopeKind) : Represents (s.enter kind) (stack.push kind) where
  sound := h.sound.enter kind
  frames := by
    rw [h.sound.chain_enter, map_cons, h.frames]
    rfl
  diagnostics := h.diagnostics

theorem exit (h : Represents s stack) : Represents s.exit stack.pop := by
  obtain ⟨scope, hscope, hchain⟩ := h.sound.chain_of_parent
  have hframes := h.frames
  cases hparent : scope.parent with
  | none =>
    simp only [hparent] at hchain
    rw [hchain] at hframes
    have hbelow : stack.below = [] := ((cons.inj hframes).2).symm
    have hexit : s.exit = { s with diagnostics := s.diagnostics ++ [{ cause := .unbalancedExit }] } := by
      simp [Scopes.exit, hscope, hparent]
    have hpop : stack.pop =
        { stack with diagnostics := stack.diagnostics ++ [{ cause := .unbalancedExit }] } := by
      simp [FrameStack.pop, hbelow]
    rw [hexit, hpop]
    exact ⟨⟨h.sound.parents, h.sound.current⟩, h.frames, by simp [h.diagnostics]⟩
  | some p =>
    simp only [hparent] at hchain
    obtain ⟨hsound, hchain⟩ := hchain
    rw [hchain] at hframes
    have hbelow : stack.below = (chain { s with current := p }).map Scope.frame :=
      ((cons.inj hframes).2).symm
    obtain ⟨top, around, -, htop, -⟩ := hsound.exists_chain
    have hexit : s.exit = { s with current := p } := by
      simp [Scopes.exit, hscope, hparent]
    have hpop : stack.pop = { stack with top := top.frame, below := around.map Scope.frame } := by
      simp [FrameStack.pop, hbelow, htop]
    rw [hexit, hpop]
    exact ⟨hsound, by rw [htop]; rfl, h.diagnostics⟩

theorem modifyTop {f : Scope → Scope} {g : Frame → Frame} (h : Represents s stack)
    (hparent : ∀ x, (f x).parent = x.parent) (hframe : ∀ x, (f x).frame = g x.frame) :
    Represents (s.modifyCurrent f) { stack with top := g stack.top } := by
  obtain ⟨scope, around, -, hchain, -⟩ := h.sound.exists_chain
  have hframes := h.frames
  rw [hchain] at hframes
  obtain ⟨htop, hbelow⟩ := cons.inj hframes
  refine ⟨h.sound.modifyCurrent hparent, ?_, h.diagnostics⟩
  rw [h.sound.chain_modifyCurrent hparent hchain, map_cons, hframe, htop, hbelow]
  rfl

theorem declareVariable (h : Represents s stack) (v : Variable) :
    Represents (s.declareVariable v) { stack with top := stack.top.declareVariable v } :=
  h.modifyTop (fun _ => rfl) fun x => Scope.frame_declareVariable x v

theorem declareCallable (h : Represents s stack) (p : Procedure) :
    Represents (s.declareCallable p) { stack with top := stack.top.declareCallable p } :=
  h.modifyTop (fun _ => rfl) fun x => Scope.frame_declareCallable x p

theorem findVariable? (h : Represents s stack) (name : String) :
    s.findVariable? name = stack.frames.findSome? (·.vars name) := by
  rw [← h.frames, findSome?_map]
  rfl

theorem findCallable? (h : Represents s stack) (name : String) :
    s.findCallable? name = stack.frames.findSome? (·.callables name) := by
  rw [← h.frames, findSome?_map]
  rfl

theorem shadowsField (h : Represents s stack) (name : String) :
    s.shadowsField name = FrameStack.hides name stack.frames := by
  rw [← h.frames]
  exact shadows_eq_hides name s.chain

theorem depth (h : Represents s stack) : s.depth = stack.below.length := by
  have hlength := congrArg length h.frames
  rw [length_map] at hlength
  simp [Scopes.depth, hlength, FrameStack.frames]

theorem call (h : Represents s stack) (c : ScopeCall) :
    (c.onArena s).1 = (c.onStack stack).1 ∧ Represents (c.onArena s).2 (c.onStack stack).2 := by
  cases c with
  | enter kind => exact ⟨rfl, h.enter kind⟩
  | exit => exact ⟨rfl, h.exit⟩
  | declareVariable v => exact ⟨rfl, h.declareVariable v⟩
  | declareCallable p => exact ⟨rfl, h.declareCallable p⟩
  | findVariable name => exact ⟨congrArg ScopeAnswer.variable (h.findVariable? name), h⟩
  | findCallable name => exact ⟨congrArg ScopeAnswer.callable (h.findCallable? name), h⟩
  | shadowsField name => exact ⟨congrArg ScopeAnswer.truth (h.shadowsField name), h⟩
  | depth => exact ⟨congrArg ScopeAnswer.number h.depth, h⟩

theorem calls (h : Represents s stack) (cs : List ScopeCall) :
    (ScopeCall.answers ScopeCall.onArena s cs).1 = (ScopeCall.answers ScopeCall.onStack stack cs).1 ∧
      Represents (ScopeCall.answers ScopeCall.onArena s cs).2 (ScopeCall.answers ScopeCall.onStack stack cs).2 := by
  induction cs generalizing s stack with
  | nil => exact ⟨rfl, h⟩
  | cons c cs ih =>
    obtain ⟨hanswer, hnext⟩ := h.call c
    obtain ⟨hanswers, hlast⟩ := ih hnext
    exact ⟨congrArg₂ cons hanswer hanswers, hlast⟩

end Represents

/-- From fresh scopes, whatever is called, the arena answers what the stack answers and makes the same
remarks. The scopes that can be seen are the frames that were pushed and not popped, so none that was left
is seen again; and a field is hidden exactly when the nearest frame with the name lies inside a class and
no class lies at that frame or nearer. -/
theorem arena_refines_stack (calls : List ScopeCall) :
    let arena := ScopeCall.answers ScopeCall.onArena {} calls
    let stack := ScopeCall.answers ScopeCall.onStack FrameStack.start calls
    arena.1 = stack.1 ∧ arena.2.diagnostics = stack.2.diagnostics ∧ arena.2.chain.map Scope.frame = stack.2.frames ∧
      ∀ name, arena.2.shadowsField name = true ↔ ∃ nearer frame around, stack.2.frames = nearer ++ frame :: around ∧
          (∀ f ∈ nearer, f.vars name = none) ∧ (frame.vars name).isSome ∧
          (∀ f ∈ nearer ++ [frame], f.kind ≠ .class_) ∧ ∃ f ∈ around, f.kind = .class_ := by
  intro arena stack
  obtain ⟨hanswers, hlast⟩ := represents_start.calls calls
  refine ⟨hanswers, hlast.diagnostics, hlast.frames, fun name => ?_⟩
  rw [← FrameStack.hides_iff]
  exact Eq.congr_left (hlast.shadowsField name)

end Scopes

end Blackboard
