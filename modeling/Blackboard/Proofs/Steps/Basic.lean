import Blackboard.Proofs.Conversion.Outcome
import Blackboard.Proofs.Discipline.Statement
import Blackboard.Proofs.Placement.Pseudo
import Blackboard.Proofs.Placement.Recognition
import Blackboard.Proofs.Scope.Run
import Blackboard.Proofs.WellFormed.Statement

/-!
What the steps of a conversion do. Alone, a step only adds to the state it finds, it gives what is well
formed, and it keeps every discipline. Beside it stands the conversion of the same construct at another
place, from a state that looks alike: the two come to the same result up to the lines that it knows, and
to states that look alike again. Scopes may be allowed to nest deeper in the second conversion; then this
holds unless the first one left something out.

All this is proved at once, by rules that follow the steps conversions are made of, with one lemma for
each way of converting.
-/
namespace Blackboard

open List

/-- Whether a remark is made by conversions: neither about the structure of the source nor about its
layout. -/
def Cause.ofConversion : Cause → Bool
  | typeFallback _ | inferenceFallback _ | indexConverted .. | indexReview _ | loopBounds ..
  | nonCanonicalLoop _ | noDirectEquivalent _ | simplified .. | inlineConditional _ | fallThrough _
  | nestingTooDeep _ => true
  | _ => false

structure Diagnostic.IsHint (d : Diagnostic) : Prop where
  cause : d.cause.ofConversion
  severity : d.severity ≠ .error

def Diagnostic.Moved (m : Source.Relocation) (d e : Diagnostic) : Prop :=
  ∃ span severity cause, d = .at_ span severity cause ∧ e = .at_ (m.span span) severity cause

namespace Conversion

open Source (Relocation Span)

/-- Contexts that differ at most in how deeply scopes may nest, and not in that if `exact`. -/
structure Context.Near (exact : Bool) (c d : Context) : Prop where
  language : c.language = d.language
  statement : c.statement = d.statement
  enclosing : c.enclosing = d.enclosing
  owner : c.owner = d.owner
  zeroBased : c.zeroBased = d.zeroBased
  limit_le : c.limit ≤ d.limit
  limit_eq : exact → c.limit = d.limit

theorem Context.Near.refl {exact} (c : Context) : c.Near exact c :=
  ⟨rfl, rfl, rfl, rfl, rfl, Nat.le_refl _, fun _ => rfl⟩

namespace State

structure Resembles (s t : State) : Prop where
  scopes : s.scopes.Resembles t.scopes
  typeNames : ∀ n, s.typeNames.contains n = t.typeNames.contains n
  enumNames : ∀ n, s.enumNames.contains n = t.enumNames.contains n

theorem Resembles.refl (s : State) : s.Resembles s := ⟨.refl _, fun _ => rfl, fun _ => rfl⟩

/-- States between which no conversion can tell, but for the remarks. -/
structure Alike (s t : State) : Prop where
  scopes : s.scopes.Alike t.scopes
  notes : s.notes = t.notes
  typeNames : ∀ n, s.typeNames.contains n = t.typeNames.contains n
  enumNames : ∀ n, s.enumNames.contains n = t.enumNames.contains n

/-- States between which a step cannot tell. One that declares nothing sees the visible scopes only. -/
structure Like (still : Bool) (s t : State) : Prop extends Resembles s t where
  alike : still = false → s.scopes.Alike t.scopes

theorem Alike.like {s t : State} (h : s.Alike t) {still} : s.Like still t :=
  ⟨⟨h.scopes.chain, h.typeNames, h.enumNames⟩, fun _ => h.scopes⟩

/-- What a step may do to a state: it runs in the current scope and makes remarks and notes. Names of
types that become known satisfy `N`. -/
structure Extends (N : String → Prop) (limit : Nat) (s t : State) : Prop where
  scopes : Scopes.Run limit s.scopes t.scopes
  diagnostics : ∃ ds, t.diagnostics = s.diagnostics ++ ds ∧ ∀ d ∈ ds, d.IsHint
  notes : s.notes <+: t.notes
  typeNames : ∃ ns, t.typeNames = ns ++ s.typeNames ∧ ∀ n ∈ ns, N n
  enumNames : ∃ ns, t.enumNames = ns ++ s.enumNames ∧ ∀ n ∈ ns, N n

variable {N : String → Prop} {limit : Nat} {s t u : State}

namespace Extends

theorem refl (s : State) : s.Extends N limit s where
  scopes := .refl _
  diagnostics := ⟨[], by simp⟩
  notes := prefix_refl _
  typeNames := ⟨[], by simp⟩
  enumNames := ⟨[], by simp⟩

theorem trans (h : s.Extends N limit t) (h' : t.Extends N limit u) : s.Extends N limit u := by
  obtain ⟨ds, hds, hhints⟩ := h.diagnostics
  obtain ⟨ds', hds', hhints'⟩ := h'.diagnostics
  obtain ⟨ns, hns, hnames⟩ := h.typeNames
  obtain ⟨ns', hns', hnames'⟩ := h'.typeNames
  obtain ⟨es, hes, henums⟩ := h.enumNames
  obtain ⟨es', hes', henums'⟩ := h'.enumNames
  refine ⟨h.scopes.trans h'.scopes, ⟨ds ++ ds', ?_, ?_⟩, h.notes.trans h'.notes, ⟨ns' ++ ns, ?_, ?_⟩,
    ⟨es' ++ es, ?_, ?_⟩⟩
  · rw [hds', hds, append_assoc]
  · exact forall_mem_append.2 ⟨hhints, hhints'⟩
  · rw [hns', hns, append_assoc]
  · exact forall_mem_append.2 ⟨hnames', hnames⟩
  · rw [hes', hes, append_assoc]
  · exact forall_mem_append.2 ⟨henums', henums⟩

theorem diagnostics_grow (h : s.Extends N limit t) : s.diagnostics <+: t.diagnostics := by
  obtain ⟨ds, hds, -⟩ := h.diagnostics
  exact ⟨ds, hds.symm⟩

end Extends

def TooDeep (s : State) : Prop := ∃ d ∈ s.diagnostics, ∃ n, d.cause = .nestingTooDeep n

theorem TooDeep.mono (h : s.TooDeep) (hs : s.diagnostics <+: t.diagnostics) : t.TooDeep := by
  obtain ⟨d, hd, hcause⟩ := h
  exact ⟨d, hs.subset hd, hcause⟩

/-- What the second of two conversions does, beside the first. -/
structure Agrees (m : Relocation) (N : String → Prop) (still : Bool) (limit : Nat) (s t s' t' : State) : Prop where
  like : s'.Like still t'
  extended : t.Extends N limit t'
  diagnostics : ∃ ds es, s'.diagnostics = s.diagnostics ++ ds ∧ t'.diagnostics = t.diagnostics ++ es ∧
    List.Forall₂ (Diagnostic.Moved m) ds es
  notes : ∃ ns, s'.notes = s.notes ++ ns ∧ t'.notes = t.notes ++ ns

namespace Agrees

variable {m : Relocation} {still : Bool} {s' t' s'' t'' : State}

theorem refl (h : s.Like still t) : Agrees m N still limit s t s t where
  like := h
  extended := .refl t
  diagnostics := ⟨[], [], by simp⟩
  notes := ⟨[], by simp⟩

theorem trans (h : Agrees m N still limit s t s' t') (h' : Agrees m N still limit s' t' s'' t'') :
    Agrees m N still limit s t s'' t'' := by
  obtain ⟨ds, es, hs, ht, hmoved⟩ := h.diagnostics
  obtain ⟨ds', es', hs', ht', hmoved'⟩ := h'.diagnostics
  obtain ⟨ns, hns, hnt⟩ := h.notes
  obtain ⟨ns', hns', hnt'⟩ := h'.notes
  refine ⟨h'.like, h.extended.trans h'.extended, ⟨ds ++ ds', es ++ es', ?_, ?_, ?_⟩, ns ++ ns', ?_, ?_⟩
  · rw [hs', hs, append_assoc]
  · rw [ht', ht, append_assoc]
  · exact rel_append hmoved hmoved'
  · rw [hns', hns, append_assoc]
  · rw [hnt', hnt, append_assoc]

theorem alike (h : Agrees m N false limit s t s' t') (hnotes : s.notes = t.notes) : s'.Alike t' := by
  obtain ⟨ns, hs, ht⟩ := h.notes
  exact ⟨h.like.alike rfl, by rw [hs, ht, hnotes], h.like.typeNames, h.like.enumNames⟩

end Agrees

end State

end Conversion

namespace Convert

open Conversion
open Source (Relocation Span without unbroken)

variable {α α' β β' : Type}

/-- What steps are judged by. -/
structure Setting where
  /-- what they keep to -/
  T : Discipline
  /-- the weight of the program -/
  W : Nat
  /-- where the second conversion stands -/
  m : Relocation
  /-- of the names of types that become known -/
  N : String → Prop
  /-- whether scopes may nest equally deeply in both conversions -/
  exact : Bool

/-- A step, and a step beside it. It is `still` if it declares nothing. Its result satisfies `sure`, and
the result of the second step is that result, changed by `F`. Where `pre` holds and the remarks are in
order, the names `P` are still to be defined before it and the names `Q` after it, and `post` holds of
its result. -/
structure Step (K : Setting) (still : Bool) (P Q : String → Prop) (pre : Prop) (F : α → α') (x : Convert α)
    (y : Convert α') (sure post : α → Prop) : Prop where
  gives : ∀ c s, c.language = K.T.language → Ensures (Heavy K.W) x c s fun a t =>
    sure a ∧ (still = true → SameNames s t) ∧ s.Extends K.N c.limit t
  keeps : ∀ c s, c.language = K.T.language → s.scopes.Sound → Ensures True x c s fun a t =>
    K.T.Remarks t.diagnostics → pre → K.T.Around c → K.T.Inv P s → K.T.Inv Q t ∧ post a
  agrees : ∀ c d s t, c.language = K.T.language → c.Near K.exact d → s.Like still t →
    Ensures True x c s fun a s' => (c.limit ≠ d.limit ∧ s'.TooDeep) ∨
      Ensures False y d t fun b t' => b = F a ∧ State.Agrees K.m K.N still d.limit s t s' t'

/-- A step whose result is the same in both conversions. -/
abbrev SameStep (K : Setting) (still : Bool) (P : String → Prop) (pre : Prop) (x y : Convert α)
    (post : α → Prop) : Prop :=
  Step K still P P pre id x y (fun _ => True) post

namespace Step

variable {K : Setting} {still : Bool} {P Q R : String → Prop} {pre : Prop}
variable {F : α → α'} {G : β → β'} {x : Convert α} {y : Convert α'} {sure post : α → Prop} {sure' post' : β → Prop}
variable {name : String} {kind : ScopeKind} {span : Span}

theorem frame (h : Step K still P Q pre F x y sure post) (c : Context) (s : State) (hc : c.language = K.T.language) :
    Ensures True x c s fun a t => sure a ∧ s.Extends K.N c.limit t :=
  ((h.gives c s hc).weaken fun _ => trivial).mono fun _ _ h => ⟨h.1, h.2.2⟩

/-! ### Sequences and choices -/

theorem pure {a a'} (h : a' = F a) (hs : sure a) (hp : pre → post a) :
    Step K still P P pre F (pure a) (pure a') sure post where
  gives _ s _ := ⟨hs, fun _ => .refl s, .refl s⟩
  keeps _ _ _ _ := fun _ hpre _ hinv => ⟨hinv, hp hpre⟩
  agrees _ _ _ _ _ _ hl := .inr ⟨h, .refl hl⟩

theorem throw (e : Fault) (y : Convert α') (h : Heavy K.W) : Step K still P Q pre F (throw e) y sure post where
  gives _ _ _ := h
  keeps _ _ _ _ := trivial
  agrees _ _ _ _ _ _ _ := trivial

theorem mono {post₁ post₂ : α → Prop} (h : Step K still P Q pre F x y sure post₁)
    (hp : ∀ a, pre → post₁ a → post₂ a) : Step K still P Q pre F x y sure post₂ where
  gives := h.gives
  keeps c s hc hs := (h.keeps c s hc hs).mono fun a _ hkeeps hremarks hpre hc hinv =>
    ⟨(hkeeps hremarks hpre hc hinv).1, hp a hpre (hkeeps hremarks hpre hc hinv).2⟩
  agrees := h.agrees

theorem ensure {sure₁ sure₂ : α → Prop} (h : Step K still P Q pre F x y sure₁ post)
    (hs : ∀ a, sure₁ a → sure₂ a) : Step K still P Q pre F x y sure₂ post where
  gives c s hc := (h.gives c s hc).mono fun a _ ht => ⟨hs a ht.1, ht.2⟩
  keeps := h.keeps
  agrees := h.agrees

theorem weaken {pre'} (h : Step K still P Q pre' F x y sure post) (hp : pre → pre') :
    Step K still P Q pre F x y sure post where
  gives := h.gives
  keeps c s hc hs := (h.keeps c s hc hs).mono fun _ _ hkeeps hremarks hpre => hkeeps hremarks (hp hpre)
  agrees := h.agrees

theorem relax [law : K.T.Lawful] (h : Step K still P Q pre F x y sure post) (hQ : ∀ n, Q n → R n) :
    Step K still P R pre F x y sure post where
  gives := h.gives
  keeps c s hc hs := (h.keeps c s hc hs).mono fun _ _ hkeeps hremarks hpre hc hinv => by
    obtain ⟨hinv, hp⟩ := hkeeps hremarks hpre hc hinv
    exact ⟨⟨law.visible_mono hQ hinv.visible, hinv.notes⟩, hp⟩
  agrees := h.agrees

theorem bind {f g} (hx : Step K still P Q pre F x y sure post)
    (hf : ∀ a, sure a → Step K still Q R (pre ∧ post a) G (f a) (g (F a)) sure' post') :
    Step K still P R pre G (x >>= f) (y >>= g) sure' post' where
  gives c s hc := by
    rw [Ensures.bind_iff]
    refine (hx.gives c s hc).mono fun a t ⟨ha, hsame, ht⟩ => ((hf a ha).gives c t hc).mono fun r u ⟨hr, hsame', hu⟩ => ?_
    exact ⟨hr, fun h => (hsame h).trans (hsame' h), ht.trans hu⟩
  keeps c s hc hs := by
    rw [Ensures.bind_iff]
    refine ((hx.frame c s hc).and (hx.keeps c s hc hs)).mono fun a t ⟨⟨ha, ht⟩, hkeeps⟩ => ?_
    have hafter := (hf a ha).keeps c t hc (ht.scopes.evolves hs).sound
    refine (((hf a ha).frame c t hc).and hafter).mono fun r u ⟨⟨_, hu⟩, hkeeps'⟩ hremarks hpre hc hinv => ?_
    obtain ⟨hinv, ha⟩ := hkeeps (fun d hd => hremarks d (hu.diagnostics_grow.subset hd)) hpre hc hinv
    exact hkeeps' hremarks ⟨hpre, ha⟩ hc hinv
  agrees c d s t hl hc hs := by
    rw [Ensures.bind_iff]
    refine ((hx.frame c s hl).and (hx.agrees c d s t hl hc hs)).mono fun a s' ⟨⟨ha, _⟩, h⟩ => ?_
    cases h with
    | inl h => exact ((hf a ha).frame c s' hl).mono fun _ _ hu => .inl ⟨h.1, h.2.mono hu.2.diagnostics_grow⟩
    | inr h =>
      obtain ⟨b, t', hy, rfl, hagrees⟩ := h.exists_ok
      refine ((hf a ha).agrees c d s' t' hl hc hagrees.like).mono fun r s'' hr => hr.imp id fun hr => ?_
      rw [Ensures.bind_iff]
      exact .of_ok hy (hr.mono fun b' t'' ⟨hb, hagrees'⟩ => ⟨hb, hagrees.trans hagrees'⟩)

theorem next {x y : Convert α} {f : α → Convert β} {g} (hx : Step K still P Q pre id x y sure post)
    (hf : ∀ a, Step K still Q R pre G (f a) (g a) sure' post') :
    Step K still P R pre G (x >>= f) (y >>= g) sure' post' :=
  bind hx fun a _ => (hf a).weaken And.left

theorem map {f g} (hx : Step K still P Q pre F x y sure post) (hf : ∀ a, g (F a) = G (f a))
    (hs : ∀ a, sure a → sure' (f a)) (hp : ∀ a, pre → post a → post' (f a)) :
    Step K still P Q pre G (f <$> x) (g <$> y) sure' post' :=
  bind (f := fun a => Pure.pure (f a)) (g := fun a => Pure.pure (g a)) hx fun a ha =>
    .pure (hf a) (hs a ha) fun h => hp a h.1 h.2

theorem ite {p q} [Decidable p] [Decidable q] {x' y'} (h : p ↔ q)
    (hx : p → Step K still P Q pre F x y sure post) (hy : ¬p → Step K still P Q pre F x' y' sure post) :
    Step K still P Q pre F (if p then x else x') (if q then y else y') sure post := by
  by_cases hp : p
  · rw [if_pos hp, if_pos (h.1 hp)]
    exact hx hp
  · rw [if_neg hp, if_neg (mt h.2 hp)]
    exact hy hp

/-! ### Looking at the context and the state -/

theorem get_bind {f : State → Convert α} {g : State → Convert α'}
    (h : ∀ s t, s.Resembles t → Step K still P Q (pre ∧ K.T.Visible P s.scopes.chain) F (f s) (g t) sure post) :
    Step K still P Q pre F (get >>= f) (get >>= g) sure post where
  gives c s hc := (h s s (.refl s)).gives c s hc
  keeps c s hc hs := ((h s s (.refl s)).keeps c s hc hs).mono fun _ _ hkeeps hremarks hpre hc hinv =>
    hkeeps hremarks ⟨hpre, hinv.visible⟩ hc hinv
  agrees c d s t hl hc hs := (h s t hs.toResembles).agrees c d s t hl hc hs

theorem read_bind {f g} (h : ∀ c d, c.Near K.exact d → c.language = K.T.language →
      Step K still P Q (pre ∧ K.T.Around c) F (f c) (g d) sure post) :
    Step K still P Q pre F (read >>= f) (read >>= g) sure post where
  gives c s hc := (h c c (.refl c) hc).gives c s hc
  keeps c s hc hs := ((h c c (.refl c) hc).keeps c s hc hs).mono fun _ _ hkeeps hremarks hpre hc hinv =>
    hkeeps hremarks ⟨hpre, hc⟩ hc hinv
  agrees c d s t hl hc hs := (h c d hc hl).agrees c d s t hl hc hs

theorem view_bind {f g} (h : ∀ v w, v.Alike w → Step K still P Q
      (pre ∧ v.language = K.T.language ∧ K.T.Visible P v.scopes.chain) F (f v) (g w) sure post) :
    Step K still P Q pre F (view >>= f) (view >>= g) sure post where
  gives c s hc := (h _ _ ⟨rfl, .refl _, fun _ => rfl⟩).gives c s hc
  keeps c s hl hs := ((h _ _ ⟨rfl, .refl _, fun _ => rfl⟩).keeps c s hl hs).mono
    fun _ _ hkeeps hremarks hpre hc hinv => hkeeps hremarks ⟨hpre, hl, hinv.visible⟩ hc hinv
  agrees c d s t hl hc hs := (h _ _ ⟨hc.language, hs.scopes, hs.enumNames⟩).agrees c d s t hl hc hs

theorem findVariable? (name : String) :
    SameStep K still P pre (findVariable? name) (findVariable? name) fun _ => True where
  gives _ s _ := ⟨trivial, fun _ => .refl s, .refl s⟩
  keeps _ _ _ _ := fun _ _ _ hinv => ⟨hinv, trivial⟩
  agrees _ _ _ _ _ _ hs := .inr ⟨(hs.scopes.findVariable?_eq name).symm, .refl hs⟩

theorem findCallable?_bind {f g} (h : ∀ p q, p.map (·.returns) = q.map (·.returns) → Step K still P Q
      (pre ∧ ∃ chain, K.T.Visible P chain ∧ p = Scopes.callableIn chain name) F (f p) (g q) sure post) :
    Step K still P Q pre F (findCallable? name >>= f) (findCallable? name >>= g) sure post where
  gives c s hc := (h _ _ rfl).gives c s hc
  keeps c s hc hs := ((h _ _ rfl).keeps c s hc hs).mono fun _ _ hkeeps hremarks hpre hc hinv =>
    hkeeps hremarks ⟨hpre, s.scopes.chain, hinv.visible, rfl⟩ hc hinv
  agrees c d s t hl hc hs := (h _ _ (hs.scopes.findCallable?_returns name)).agrees c d s t hl hc hs

/-! ### Adding to the state -/

theorem modify {f g} {q : Unit → Prop} (hf : ∀ limit (s : State), s.Extends K.N limit (f s))
    (hsame : still = true → ∀ s, SameNames s (f s))
    (hkeeps : ∀ s : State, s.scopes.Sound → K.T.Remarks (f s).diagnostics → pre → K.T.Inv P s →
      K.T.Inv Q (f s) ∧ q ())
    (hg : ∀ limit (s t : State), s.Like still t → State.Agrees K.m K.N still limit s t (f s) (g t)) :
    Step K still P Q pre id (modify f) (modify g) (fun _ => True) q where
  gives _ s _ := ⟨trivial, fun h => hsame h s, hf _ s⟩
  keeps _ s _ hs := fun hremarks hpre _ hinv => hkeeps s hs hremarks hpre hinv
  agrees _ _ s t _ _ hs := .inr ⟨rfl, hg _ s t hs⟩

theorem report {d e} (hd : d.IsHint) (he : e.IsHint) (h : d.Moved K.m e) :
    SameStep K still P pre (report d) (report e) fun _ => K.T.Allows d := by
  have hextends {x : Diagnostic} (hx : x.IsHint) (limit : Nat) (s : State) :
      s.Extends K.N limit { s with diagnostics := s.diagnostics ++ [x] } :=
    { State.Extends.refl s with diagnostics := ⟨[x], rfl, forall_mem_singleton.2 hx⟩ }
  refine modify (hextends hd) (fun _ _ => ⟨rfl, rfl, rfl⟩) (fun s _ hremarks _ hinv => ?_) fun limit s t hs => ?_
  · exact ⟨⟨hinv.visible, hinv.notes⟩, hremarks d (by simp)⟩
  · exact ⟨⟨⟨hs.scopes, hs.typeNames, hs.enumNames⟩, hs.alike⟩, hextends he limit t,
      ⟨[d], [e], rfl, rfl, .cons h .nil⟩, [], by simp⟩

variable {cause : Cause}

theorem warn (span : Span) (h : cause.ofConversion) : SameStep K still P pre (warn span cause)
    (warn (K.m.span span) cause) fun _ => K.T.Allows (.at_ span .warning cause) :=
  report ⟨h, nofun⟩ ⟨h, nofun⟩ ⟨span, _, _, rfl, rfl⟩

theorem inform (span : Span) (h : cause.ofConversion) : SameStep K still P pre (inform span cause)
    (inform (K.m.span span) cause) fun _ => K.T.Allows (.at_ span .info cause) :=
  report ⟨h, nofun⟩ ⟨h, nofun⟩ ⟨span, _, _, rfl, rfl⟩

theorem simplify (span : Span) (construct details : String) :
    SameStep K still P pre (simplify span construct details)
      (simplify (K.m.span span) construct details) fun _ => True :=
  (inform span rfl).mono fun _ _ _ => trivial

theorem simplifyWarn (span : Span) (construct details : String) :
    SameStep K still P pre (simplifyWarn span construct details)
      (simplifyWarn (K.m.span span) construct details) fun _ => True :=
  (warn span rfl).mono fun _ _ _ => trivial

theorem note {text} (h : pre → K.T.Text text) :
    SameStep K still P pre (note text) (note text) fun _ => True := by
  have hextends (limit : Nat) (s : State) : s.Extends K.N limit { s with notes := s.notes ++ [text] } :=
    { State.Extends.refl s with notes := prefix_append _ _ }
  refine modify hextends (fun _ _ => ⟨rfl, rfl, rfl⟩) (fun s _ _ hpre hinv => ⟨⟨hinv.visible, ?_⟩, trivial⟩)
    fun limit s t hs => ⟨⟨⟨hs.scopes, hs.typeNames, hs.enumNames⟩, hs.alike⟩, hextends limit t, ⟨[], [], by simp⟩,
      [text], rfl, rfl⟩
  exact forall_mem_append.2 ⟨hinv.notes, forall_mem_singleton.2 (h hpre)⟩

theorem addTypeName (h : K.N name) :
    SameStep K false P pre (addTypeName name) (addTypeName name) fun _ => True := by
  have hextends (limit : Nat) (s : State) : s.Extends K.N limit { s with typeNames := name :: s.typeNames } :=
    { State.Extends.refl s with typeNames := ⟨[name], rfl, forall_mem_singleton.2 h⟩ }
  refine modify hextends nofun (fun s _ _ _ hinv => ⟨⟨hinv.visible, hinv.notes⟩, trivial⟩)
    fun limit s t hs => ⟨⟨⟨hs.scopes, fun n => ?_, hs.enumNames⟩, hs.alike⟩, hextends limit t, ⟨[], [], by simp⟩,
      [], by simp⟩
  rw [contains_cons, contains_cons, hs.typeNames]

theorem addEnumName (h : K.N name) :
    SameStep K false P pre (addEnumName name) (addEnumName name) fun _ => True := by
  have hextends (limit : Nat) (s : State) : s.Extends K.N limit { s with enumNames := name :: s.enumNames } :=
    { State.Extends.refl s with enumNames := ⟨[name], rfl, forall_mem_singleton.2 h⟩ }
  refine modify hextends nofun (fun s _ _ _ hinv => ⟨⟨hinv.visible, hinv.notes⟩, trivial⟩)
    fun limit s t hs => ⟨⟨⟨hs.scopes, hs.typeNames, fun n => ?_⟩, hs.alike⟩, hextends limit t, ⟨[], [], by simp⟩,
      [], by simp⟩
  rw [contains_cons, contains_cons, hs.enumNames]

theorem agrees_scopes {limit} {s t : State} {f g : Scopes → Scopes} (hs : s.Like false t)
    (halike : (f s.scopes).Alike (g t.scopes))
    (hext : t.Extends K.N limit { t with scopes := g t.scopes }) :
    State.Agrees K.m K.N false limit s t { s with scopes := f s.scopes } { t with scopes := g t.scopes } :=
  ⟨⟨⟨halike.chain, hs.typeNames, hs.enumNames⟩, fun _ => halike⟩, hext, ⟨[], [], by simp⟩, [], by simp⟩

theorem declareVariable [law : K.T.Lawful] {v} (base : Pseudo.Scalar)
    (h : pre → K.T.Base base ∧ v.type = base.text ∧ ∀ size ∈ v.dimensions, K.T.Size size) :
    SameStep K false P pre (declareVariable v) (declareVariable v) fun _ => True := by
  have hextends (limit : Nat) (s : State) : s.Extends K.N limit { s with scopes := s.scopes.declareVariable v } :=
    { (State.Extends.refl s : s.Extends K.N limit s) with scopes := (Scopes.Run.refl _).declareVariable v }
  refine modify hextends nofun (fun s hs _ hpre hinv => ⟨⟨?_, hinv.notes⟩, trivial⟩) fun limit s t hs =>
    agrees_scopes hs ((hs.alike rfl).declareVariable v) (hextends limit t)
  obtain ⟨hbase, htype, hsizes⟩ := h hpre
  obtain ⟨scope, around, _, hchain, _⟩ := hs.exists_chain
  have hvisible := hinv.visible
  rw [hchain] at hvisible
  rw [hs.chain_declareVariable v hchain]
  exact law.visible_variable hvisible hbase htype hsizes

theorem declareCallable [law : K.T.Lawful] {p q} (hname : p.name = q.name) (hreturns : p.returns = q.returns)
    (h : pre → K.T.Entry p.name p.returns) :
    Step K false P (without P [p.name]) pre id (declareCallable p) (declareCallable q) (fun _ => True)
      fun _ => True := by
  have hextends (limit : Nat) (r : Procedure) (s : State) :
      s.Extends K.N limit { s with scopes := s.scopes.declareCallable r } :=
    { (State.Extends.refl s : s.Extends K.N limit s) with scopes := (Scopes.Run.refl _).declareCallable r }
  refine modify (hextends · p) nofun (fun s hs _ hpre hinv => ⟨⟨?_, hinv.notes⟩, trivial⟩) fun limit s t hs =>
    agrees_scopes hs ((hs.alike rfl).declareCallable hname hreturns) (hextends limit q t)
  obtain ⟨scope, around, _, hchain, _⟩ := hs.exists_chain
  have hvisible := hinv.visible
  rw [hchain] at hvisible
  rw [hs.chain_declareCallable p hchain]
  exact law.visible_callable hvisible (h hpre)

/-! ### Contexts and scopes -/

theorem withReader {f g} (hf : ∀ c, (f c).limit = c.limit ∧ (f c).language = c.language)
    (hg : ∀ d, (g d).limit = d.limit) (hnear : ∀ c d, c.Near K.exact d → (f c).Near K.exact (g d))
    (haround : ∀ c, pre → K.T.Around c → K.T.Around (f c)) (h : Step K still P Q pre F x y sure post) :
    Step K still P Q pre F (withReader f x) (withReader g y) sure post where
  gives c s hl := by
    rw [← (hf c).1]
    exact h.gives (f c) s ((hf c).2.trans hl)
  keeps c s hl hs := (h.keeps (f c) s ((hf c).2.trans hl) hs).mono fun _ _ hkeeps hremarks hpre hc =>
    hkeeps hremarks hpre (haround c hpre hc)
  agrees c d s t hl hc hs := by
    rw [← (hf c).1, ← hg d]
    exact h.agrees (f c) (g d) s t ((hf c).2.trans hl) (hnear c d hc) hs

theorem zeroBased (h : Step K still P Q pre F x y sure post) :
    Step K still P Q pre F (zeroBased x) (zeroBased y) sure post :=
  h.withReader (fun _ => ⟨rfl, rfl⟩) (fun _ => rfl) (fun _ _ hc => { hc with zeroBased := rfl })
    fun _ _ hc => ⟨hc.language, hc.owned⟩

theorem inside (b : Breakable) (h : Step K still P Q pre F x y sure post) :
    Step K still P Q pre F (inside b x) (inside b y) sure post :=
  h.withReader (fun _ => ⟨rfl, rfl⟩) (fun _ => rfl) (fun _ _ hc => { hc with enclosing := rfl })
    fun _ _ hc => ⟨hc.language, hc.owned⟩

theorem agrees_leave {limit limit' s t s' t'} (hs : s.Like false t) (hdepth : t.scopes.depth < limit)
    (hframed : State.Extends K.N limit' { s with scopes := s.scopes.enter kind } s')
    (h : State.Agrees K.m K.N false limit { s with scopes := s.scopes.enter kind }
      { t with scopes := t.scopes.enter kind } s' t') :
    State.Agrees K.m K.N false limit s t { s' with scopes := { s'.scopes with current := s.scopes.current } }
      { t' with scopes := { t'.scopes with current := t.scopes.current } } := by
  have hscopes := hs.alike rfl
  have hleft := hscopes.leave (hframed.scopes.evolves (hscopes.left.enter kind))
    (h.extended.scopes.evolves (hscopes.right.enter kind))
  exact ⟨⟨⟨hleft.chain, h.like.typeNames, h.like.enumNames⟩, fun _ => hleft⟩,
    { h.extended with scopes := (Scopes.Run.refl _).inside kind hdepth h.extended.scopes }, h.diagnostics, h.notes⟩

/-- What follows a step in a scope of its own is compared in two cases: the step was run in both
conversions, or in neither. If it was run in the second one only, the first left something out. -/
theorem inScope_bind [law : K.T.Lawful] {f g} (hx : Step K false P Q pre F x y sure post)
    (hsome : ∀ a, sure a → Step K false P R (pre ∧ post a) G (f (some a)) (g (some (F a))) sure' post')
    (hnone : Step { K with exact := true } false P R (pre ∧ K.T.deep) G (f none) (g none) sure' post') :
    Step K false P R pre G (inScope kind span x >>= f) (inScope kind (K.m.span span) y >>= g) sure' post' where
  gives c s hc := by
    rw [Ensures.bind_iff, Ensures.inScope_iff]
    split
    · refine (hnone.gives c _ hc).mono fun _ _ h => ⟨h.1, nofun, .trans ?_ h.2.2⟩
      exact { (State.Extends.refl s : s.Extends K.N c.limit s) with
        diagnostics := ⟨_, rfl, forall_mem_singleton.2 ⟨rfl, nofun⟩⟩ }
    · next hdepth =>
      refine (hx.gives c _ hc).mono fun a t ⟨ha, _, ht⟩ => ?_
      refine ((hsome a ha).gives c _ hc).mono fun _ _ h => ⟨h.1, nofun, .trans ?_ h.2.2⟩
      exact { ht with scopes := (Scopes.Run.refl _).inside kind (Nat.not_le.1 hdepth) ht.scopes }
  keeps c s hl hs := by
    rw [Ensures.bind_iff, Ensures.inScope_iff]
    split
    · refine Ensures.mono ((hnone.frame c _ hl).and (hnone.keeps c _ hl hs)) ?_
      intro _ t ⟨⟨_, ht⟩, hkeeps⟩ hremarks hpre hc hinv
      have hremark := ht.diagnostics_grow.subset (mem_append_right _ (mem_singleton_self _))
      exact hkeeps hremarks ⟨hpre, law.deep_of_remark (hremarks _ hremark) rfl⟩ hc ⟨hinv.visible, hinv.notes⟩
    · refine ((hx.frame c _ hl).and (hx.keeps c _ hl (hs.enter kind))).mono fun a t ⟨⟨ha, ht⟩, hkeeps⟩ => ?_
      have hevolves := ht.scopes.evolves (hs.enter kind)
      refine (((hsome a ha).frame c _ hl).and ((hsome a ha).keeps c _ hl (hevolves.leave hs).sound)).mono
        fun _ u ⟨⟨_, hu⟩, hkeeps'⟩ hremarks hpre hc hinv => ?_
      obtain ⟨hinner, hp⟩ := hkeeps (fun d hd => hremarks d (hu.diagnostics_grow.subset hd)) hpre hc ⟨by
        rw [hs.chain_enter]
        exact law.visible_enter hinv.visible, hinv.notes⟩
      refine hkeeps' hremarks ⟨hpre, hp⟩ hc ⟨?_, hinner.notes⟩
      rw [hevolves.chain_leave hs]
      exact hinv.visible
  agrees c d s t hl hc hs := by
    have hdepth := hs.scopes.depth_eq
    simp only [Ensures.bind_iff, Ensures.inScope_iff]
    by_cases hdeep : c.limit ≤ s.scopes.depth
    · rw [if_pos hdeep]
      by_cases hlimit : c.limit = d.limit
      · have hdeep' : d.limit ≤ t.scopes.depth := by omega
        simp only [if_pos hdeep']
        have hreport : State.Agrees K.m K.N false d.limit s t
            { s with diagnostics := s.diagnostics ++ [.at_ span .warning (.nestingTooDeep c.limit)] }
            { t with diagnostics :=
                t.diagnostics ++ [.at_ (K.m.span span) .warning (.nestingTooDeep d.limit)] } :=
          ⟨⟨⟨hs.scopes, hs.typeNames, hs.enumNames⟩, hs.alike⟩,
            { (State.Extends.refl t : t.Extends K.N d.limit t) with
              diagnostics := ⟨_, rfl, forall_mem_singleton.2 ⟨rfl, nofun⟩⟩ },
            ⟨_, _, rfl, rfl, .cons ⟨span, _, _, rfl, by rw [hlimit]⟩ .nil⟩, [], by simp⟩
        refine (hnone.agrees c d _ _ hl { hc with limit_eq := fun _ => hlimit } hreport.like).mono
          fun a s' h => h.imp id fun h => ?_
        exact h.mono fun b t' ⟨hb, hagrees⟩ => ⟨hb, hreport.trans hagrees⟩
      · exact (hnone.frame c _ hl).mono fun _ _ h =>
          .inl ⟨hlimit, _, h.2.diagnostics_grow.subset (mem_append_right _ (mem_singleton_self _)), _, rfl⟩
    · have hle := hc.limit_le
      have hdeep' : ¬d.limit ≤ t.scopes.depth := by omega
      simp only [if_neg hdeep, if_neg hdeep']
      have hscopes := (hs.alike rfl).enter kind
      have hentered : State.Like false { s with scopes := s.scopes.enter kind }
          { t with scopes := t.scopes.enter kind } := ⟨⟨hscopes.chain, hs.typeNames, hs.enumNames⟩, fun _ => hscopes⟩
      refine ((hx.frame c _ hl).and (hx.agrees c d _ _ hl hc hentered)).mono fun a s' ⟨⟨ha, hframed⟩, h⟩ => ?_
      cases h with
      | inl h =>
        exact ((hsome a ha).frame c _ hl).mono fun _ _ hu => .inl ⟨h.1, h.2.mono hu.2.diagnostics_grow⟩
      | inr h =>
        obtain ⟨b, t', hy, rfl, hagrees⟩ := h.exists_ok
        have hleft := agrees_leave hs (Nat.not_le.1 hdeep') hframed hagrees
        refine ((hsome a ha).agrees c d _ _ hl hc hleft.like).mono fun r s'' hr => hr.imp id fun hr => ?_
        exact .of_ok hy (hr.mono fun b' t'' ⟨hb, hagrees'⟩ => ⟨hb, hleft.trans hagrees'⟩)

theorem written (e : Pseudo.Expr) {sure : Pseudo.Expr → Prop} (hn : e.peak ≤ K.W) (hs : sure e) :
    Step K still P P pre (·.relocate K.m) (written e) (written (e.relocate K.m)) sure fun a => a = e := by
  refine .ite (by rw [Pseudo.Expr.writable_relocate]) (fun _ => .pure rfl hs fun _ => rfl) fun hw => ?_
  exact .throw _ _ (heavy_of_not_writable hn hw)

end Step

/-! ### Statements -/

/-- A step that gives statements. -/
abbrev StmtStep (K : Setting) (P Q : String → Prop) (pre : Prop) (x y : Convert (List Pseudo.Stmt)) : Prop :=
  Step K false P Q pre (List.map (·.relocate K.m)) x y AllOrdinary K.T.Stmts

namespace StmtStep

open Discipline
open Pseudo.Stmt (ordinary_simple)

variable {K : Setting} [law : K.T.Lawful] {P Q : String → Prop} {pre : Prop} {span : Span} {kind : ScopeKind}
    {x y : Convert (List Pseudo.Stmt)}

omit law in
theorem nil : StmtStep K P P pre (pure []) (pure []) := .pure rfl .nil fun _ => stmts_nil

theorem tooDeep (span : Span) (h : K.exact = true) : StmtStep K P P pre (tooDeep span) (tooDeep (K.m.span span)) := by
  refine .read_bind fun c d hc _ => .pure ?_ (.singleton (ordinary_simple rfl (by simp [Pseudo.Form.expressions])))
    fun _ => stmts_singleton (stmt_simple (law.form_comment ?_) _)
  · simp [Pseudo.Stmt.simple_relocate, Pseudo.Form.relocate, hc.limit_eq h]
  · have hlimit := law.text_of_line (toString_nat_lines c.limit)
    simp (disch := exact unbroken rfl) only [toString_text, text_append, text_of_line, hlimit, and_self]

theorem nested (h : StmtStep K P Q pre x y) :
    StmtStep K P P pre (nested span x kind) (nested (K.m.span span) y kind) :=
  h.inScope_bind (fun _ hss => .pure rfl hss And.right) (tooDeep span rfl)

theorem statement (kind : String) (h : StmtStep K P Q pre x y) :
    StmtStep K P Q pre (statement kind span x) (statement kind (K.m.span span) y) where
  gives c s hl := by
    rw [Ensures.statement_iff]
    refine (h.gives { c with statement := kind } _ hl).mono fun _ t ⟨hss, _, ht⟩ => ⟨hss.attach _ _, nofun, ?_⟩
    exact { ht with notes := prefix_refl _ }
  keeps c s hl hs := by
    rw [Ensures.statement_iff]
    refine (h.keeps { c with statement := kind } { s with notes := [] } hl hs).mono
      fun ss t hkeeps hremarks hpre hc hinv => ?_
    obtain ⟨hinner, hss⟩ := hkeeps hremarks hpre ⟨hc.language, hc.owned⟩ ⟨hinv.visible, nofun⟩
    exact ⟨⟨hinner.visible, hinv.notes⟩, stmts_attach (fun n hn => hinner.notes n (mem_eraseDups.1 hn)) hss⟩
  agrees c d s t hl hc hs := by
    simp only [Ensures.statement_iff]
    have hstart : State.Like false { s with notes := [] } { t with notes := [] } :=
      ⟨⟨hs.scopes, hs.typeNames, hs.enumNames⟩, hs.alike⟩
    refine (h.agrees { c with statement := kind } { d with statement := kind } _ _ hl
      { hc with statement := rfl } hstart).mono fun ss s' hr => hr.imp id fun hr => ?_
    refine hr.mono fun ss' t' ⟨hss, hagrees⟩ => ⟨?_, ?_⟩
    · rw [hss, attach_relocate, (hagrees.alike rfl).notes, K.m.line_span]
    · have hlike := hagrees.like
      exact ⟨⟨⟨hlike.scopes, hlike.typeNames, hlike.enumNames⟩, hlike.alike⟩,
        { hagrees.extended with notes := prefix_refl _ }, hagrees.diagnostics, [], by simp⟩

end StmtStep

end Convert

end Blackboard
