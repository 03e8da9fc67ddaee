import Blackboard.Proofs.Steps.Basic

/-!
The steps that convert expressions, one lemma for each way of converting. What they give for all
expressions follows by induction: every expression is converted, into a well-formed one that keeps each
discipline, and at another place into the same one. This can fail only if the program has numbers so large
that one of them, or the result of folding a constant into them, cannot be written.
-/
namespace Blackboard.Convert

open Conversion Discipline
open Nat (zero_le le_succ max_le)
open Pseudo.Expr (relocate Proper proper_call)
open Source (Relocation Span Expr relocateExprs BinaryOp TypeRef relocateParts weight exprNodes partNodes
  unbroken nodesInOrder_cons nodesInOrder_append weight_cons weight_append)

/-- A step that gives an expression. -/
abbrev ExprStep (K : Setting) (still : Bool) (P : String → Prop) (pre : Prop) (n : Nat) (x y : Convert Pseudo.Expr)
    (post : Pseudo.Expr → Prop) : Prop :=
  Step K still P P pre (relocate K.m) x y (Proper n) post

/-- A step that gives the expressions `es`. -/
abbrev ExprsStep (K : Setting) (still : Bool) (P : String → Prop) (pre : Prop) (es : List Expr)
    (xs ys : Convert (List Pseudo.Expr)) : Prop :=
  Step K still P P pre (List.map (relocate K.m)) xs ys (ProperAll es) fun as => ∀ a ∈ as, K.T.Expr a

variable {K : Setting} {still : Bool} {P : String → Prop} {pre : Prop} {n : Nat} {names : List String}
    {post : Pseudo.Expr → Prop} {span calleeSpan : Span} {target left right operand : Expr} {args : List Expr}
    {isOptional : Bool} {x y x' y' : Convert Pseudo.Expr} {xs ys : Convert (List Pseudo.Expr)}
    {dotted : Option String} {member method : String} {op : BinaryOp}

theorem Step.converts (h : ExprStep K still P pre n x y K.T.Plain) :
    ExprStep K still P pre n x y (K.T.Converts names) :=
  h.mono fun _ _ => Plain.converts

theorem Step.part {pre'} (h : ExprStep K still P pre' n x y (K.T.Converts names)) (hpre : pre → pre') :
    ExprStep K still P pre n x y K.T.Expr :=
  (h.weaken hpre).mono fun _ _ => Converts.expr

theorem Step.raise {m} (h : ExprStep K still P pre m x y post) (hmn : m ≤ n) : ExprStep K still P pre n x y post :=
  h.ensure fun _ ha => ha.mono hmn

theorem raw_step (text : String) (span : Span) : ExprStep K still P pre n (pure (.raw text (some span.line)))
    (pure (.raw text (some (K.m.span span).line))) K.T.Plain :=
  .pure (by simp [relocate]) (.of_parts .raw (zero_le _) rfl) fun _ => .leaf rfl rfl rfl

theorem plain_call {name declared line} {as : List Pseudo.Expr} (h : calledName? (.call name as declared line) = none)
    (has : ∀ a ∈ as, K.T.Expr a) : K.T.Plain (.call name as declared line) :=
  .of_children rfl h has

/-! ### Names, members and indices -/

theorem number_step {value raw} (h : weight (Expr.number span value raw).nodes ≤ K.W) :
    ExprStep K still P pre (weight (Expr.number span value raw).nodes) (number span value raw)
      (number (K.m.span span) value raw) K.T.Plain := by
  unfold number
  split
  · exact .pure (by simp [relocate]) (proper_numberValue _ _) fun _ => .leaf rfl rfl rfl
  · next hnone => exact .throw _ _ (heavy_of_numberText?_eq_none hnone h)

theorem name_step (x : String) (span : Span) :
    ExprStep K still P pre 1 (name x span) (name x (K.m.span span)) K.T.Plain := by
  unfold name variableName
  refine .ite Iff.rfl (fun _ => .pure (by simp [nothing, relocate]) (.of_parts .literal (zero_le _) rfl)
    fun _ => .leaf rfl rfl rfl) fun _ => .ite Iff.rfl (fun _ => .pure (by simp [declaredName, relocate])
      (.of_parts .identifier (zero_le _) rfl) fun _ => .leaf rfl rfl rfl) fun _ => .get_bind fun s t h => ?_
  simp only [h.scopes.findVariable?_eq, h.scopes.isSome_findCallable?, h.typeNames]
  have hname {declared line} : (Pseudo.Expr.identifier x declared line).Proper 0 :=
    .of_parts .identifier (Nat.le_refl 0) rfl
  refine .read_bind fun c d hc _ => .ite (by rw [hc.zeroBased]) (fun _ => ?_) fun _ => ?_
  · have hone : (Pseudo.Expr.number 1).Proper 1 := ⟨.literal, Nat.le_refl 1, Nat.le_refl 1⟩
    refine .pure (by simp [relocate, Pseudo.Expr.number_relocate]) (Pseudo.Expr.proper_binary (by decide) hname hone)
      fun _ => .of_children rfl rfl ?_
    exact List.forall_mem_cons.2 ⟨expr_leaf rfl rfl, List.forall_mem_singleton.2 (expr_number _ _)⟩
  · exact .pure (by simp [relocate]) (hname.mono (zero_le 1)) fun _ => .leaf rfl rfl rfl

section

variable [law : K.T.Lawful]

theorem ownMember_step (h : pre → K.T.Text member) :
    ExprStep K still P pre 1 (ownMember span member) (ownMember (K.m.span span) member) K.T.Plain := by
  unfold ownMember
  refine .get_bind fun s t hst => .ite (by rw [hst.scopes.shadowsField_eq]) (fun _ => ?_) fun _ => name_step member span
  refine .read_bind fun c d hc _ => ?_
  rw [← hc.owner]
  refine .next (.simplify _ _ _) fun _ => .next (.note fun ⟨⟨hpre, _⟩, hc⟩ => ?_) fun _ => .pure
    (by simp [declaredName, relocate]) (.of_parts (.member .identifier) (zero_le _) rfl) fun _ => ?_
  · have hmember := h hpre
    have howner : K.T.Text ((c.owner.map (·.name)).getD "the class") := by
      cases ho : c.owner with
      | none => exact law.text_of_line (unbroken rfl)
      | some o => exact law.owner_name (hc.owned o ho)
    simp (disch := exact unbroken rfl) [hmember, howner]
  · exact .of_children rfl rfl (List.forall_mem_singleton.2 (expr_leaf rfl rfl))

theorem memberAccess_step (hmember : pre → K.T.Text member) (h : ExprStep K still P pre n x y K.T.Expr) :
    ExprStep K still P pre (n + 1) (memberAccess span target member isOptional x)
      (memberAccess (K.m.span span) (target.relocate K.m) member isOptional y) K.T.Plain := by
  unfold memberAccess
  extract_lets rest rest'
  have hrest : ∀ r, ExprStep K still P pre (n + 1) (rest r) (rest' r) K.T.Plain := by
    intro r
    refine .ite (by rw [Expr.isSelfReference_relocate]) (fun _ => ?_) fun _ => .ite Iff.rfl (fun _ => ?_) fun _ =>
      .view_bind fun v w hv => .ite (by rw [hv.isEnum_eq]) (fun _ => ?_) fun _ => (h.weaken And.left).bind fun a ha => ?_
    · exact (ownMember_step hmember).raise (Nat.le_add_left 1 n)
    · exact h.bind fun a ha => .pure (by simp [relocate]) (proper_call (by simpa using ha.mono (le_succ n)))
        fun ⟨_, ha⟩ => plain_call rfl (List.forall_mem_singleton.2 ha)
    · exact .pure (by simp [declaredName, relocate]) (.of_parts .identifier (zero_le _) rfl) fun _ => .leaf rfl rfl rfl
    · exact .pure (by simp [relocate])
        (.of_parts (.member ha.wellFormed) (ha.mono (le_succ n)).within.peak_le rfl)
        fun ⟨_, ha⟩ => .of_children rfl rfl (List.forall_mem_singleton.2 ha)
  exact .ite Iff.rfl (fun _ => .next (.simplify _ _ _) fun _ => .next
    (.note fun _ => law.text_of_line (unbroken rfl)) hrest) fun _ => hrest ()

end

theorem addOffset_step {e : Pseudo.Expr} (h : e.Proper n) (k : Int) (hn : n + k.natAbs ≤ K.W) (he : pre → K.T.Expr e) :
    ExprStep K still P pre (n + k.natAbs) (addOffset e k) (addOffset (e.relocate K.m) k) K.T.Expr := by
  unfold addOffset
  rw [← Pseudo.Expr.addOffset_relocate]
  exact (Step.written _ ((h.addOffset k).within.mono hn).peak_le (h.addOffset k)).mono fun _ hpre ha =>
    ha ▸ expr_addOffset (he hpre) k

theorem isOneBased_step (e : Expr) :
    SameStep K still P pre (isOneBased e) (isOneBased (e.relocate K.m)) fun _ => True := by
  unfold isOneBased
  cases e with
  | identifier span name => exact .next (.findVariable? name) fun _ => .pure rfl trivial fun _ => trivial
  | _ => exact .pure rfl trivial fun _ => trivial

@[simp]
theorem isString_relocate (m : Relocation) (e : Expr) : isString (e.relocate m) = isString e := by
  cases e <;> rfl

theorem indexValue_step {e} (h : ExprStep K still P pre n x y K.T.Expr) (hn : n + 1 ≤ K.W) :
    ExprStep K still P pre (n + 1) (indexValue e x) (indexValue (e.relocate K.m) y) K.T.Expr := by
  unfold indexValue
  refine .next (isOneBased_step e) fun b => .ite Iff.rfl (fun _ => h.raise (le_succ n)) fun _ =>
    h.zeroBased.bind fun a ha => .bind (addOffset_step ha 1 hn And.right) fun shifted hs => ?_
  rw [Expr.text_relocate, Pseudo.Expr.text_relocate, Expr.span_relocate]
  refine .next (.inform _ rfl) fun _ => .ite (by rw [Expr.containsIndex_relocate]) (fun _ => ?_) fun _ => ?_
  · exact .next (.warn _ rfl) fun _ => .pure rfl hs And.right
  · exact .pure rfl hs And.right

/-! ### Calls -/

theorem callOr_step (span : Span) (callee : Expr) (args : List Expr) (hargs : ExprsStep K still P pre args xs ys)
    (hn : weight (exprNodes args) ≤ n) (h : ExprStep K still P pre n x y (K.T.Converts names)) :
    ExprStep K still P pre n (callOr span callee args xs x)
      (callOr (K.m.span span) (callee.relocate K.m) (relocateExprs K.m args) ys y) (K.T.Converts names) := by
  unfold callOr
  have hcall : Expr.call (K.m.span span) (callee.relocate K.m) (relocateExprs K.m args) =
      (Expr.call span callee args).relocate K.m := by rw [Expr.relocate]
  rw [hcall]
  refine .view_bind fun v w hv => .ite (by rw [hv.input?_eq]; simp) (fun _ => ?_) fun _ => .ite (by simp) (fun _ => ?_)
    fun _ => h.weaken And.left
  · rw [Expr.text_relocate]
    exact .next (.simplifyWarn _ _ _) fun _ => (raw_step _ span).converts
  · exact Step.converts ((hargs.weaken And.left).bind fun as has => .pure (by simp [relocate])
      (proper_call (has.proper hn)) fun ⟨_, has⟩ => plain_call rfl has)

theorem otherCall_step (span : Span) (callee : Expr) (args : List Expr) (hargs : ExprsStep K still P pre args xs ys)
    (hn : weight (exprNodes args) ≤ n) :
    ExprStep K still P pre n (callOr span callee args xs do
        warn span (.noDirectEquivalent callee.text)
        return .raw (Expr.call span callee args).text (some span.line))
      (callOr (K.m.span span) (callee.relocate K.m) (relocateExprs K.m args) ys do
        warn (K.m.span span) (.noDirectEquivalent (callee.relocate K.m).text)
        return .raw (Expr.call (K.m.span span) (callee.relocate K.m)
          (relocateExprs K.m args)).text (some (K.m.span span).line)) (K.T.Converts names) := by
  have htext := Expr.text_relocate K.m (.call span callee args)
  rw [Expr.relocate] at htext
  rw [htext, Expr.text_relocate]
  exact callOr_step span callee args hargs hn (.next (.warn _ rfl) fun _ => (raw_step _ span).converts)

theorem plainMethod_step {isDeclared} (h : ExprStep K still P pre n x y K.T.Expr)
    (hargs : ExprsStep K still P pre args xs ys) (hn : weight (exprNodes args) ≤ n) :
    ExprStep K still P pre n (plainMethod span dotted method isDeclared x xs)
      (plainMethod (K.m.span span) dotted method isDeclared y ys) (K.T.Converts [method]) := by
  unfold plainMethod
  refine h.bind fun a ha => (hargs.weaken And.left).bind fun as has => ?_
  have hproper : (Pseudo.Expr.method method a as (!isDeclared) (some span.line)).Proper n :=
    .of_parts (.method ha.wellFormed fun b hb => (has.proper hn b hb).wellFormed) (max_le.2 ⟨ha.within.peak_le,
      Pseudo.Expr.peakOf_le_iff.2 fun b hb => (has.proper hn b hb).within.peak_le⟩) rfl
  have hconverts : (pre ∧ K.T.Expr a) ∧ (∀ b ∈ as, K.T.Expr b) →
      K.T.Converts [method] (.method method a as (!isDeclared) (some span.line)) := by
    intro ⟨⟨_, ha⟩, has⟩
    refine ⟨expr_of_children rfl (List.forall_mem_cons.2 ⟨ha, has⟩), fun name hname => .inl ?_⟩
    cases isDeclared with
    | false => cases hname
    | true => exact List.mem_singleton.2 (Option.some.inj hname).symm
  refine .ite Iff.rfl (fun _ => .next (.warn _ rfl) fun _ => .pure ?_ hproper hconverts) fun _ =>
    .pure ?_ hproper hconverts
  all_goals simp [relocate]

theorem objectMethod_step (h : ExprStep K still P pre n x y K.T.Expr) (hargs : ExprsStep K still P pre args xs ys)
    (hn : weight (exprNodes args) ≤ n) (hW : n + 1 ≤ K.W) :
    ExprStep K still P pre (n + 1) (objectMethod span dotted method args.length x xs)
      (objectMethod (K.m.span span) dotted method args.length y ys) (K.T.Converts [method]) := by
  unfold objectMethod
  refine .findCallable?_bind fun p q hpq => Step.weaken ?_ And.left
  have hdeclared : q.isSome = p.isSome := by simpa using congrArg Option.isSome hpq.symm
  rw [hdeclared]
  extract_lets isDeclared
  split
  · next m _ hm =>
    have happly : ∀ {a as}, Proper n a → ProperAll args as → ExprStep K still P
        ((pre ∧ K.T.Expr a) ∧ ∀ b ∈ as, K.T.Expr b) (n + 1) (written (m.apply a as))
        (written (m.apply (a.relocate K.m) (as.map (relocate K.m)))) (K.T.Converts [method]) := by
      intro a as ha has
      have hwithin := m.within_apply ha.within.peak_le (fun b hb => (has.proper hn b hb).within)
        fun b c hbc => (hbc ▸ has).pair hn
      rw [has.length_eq] at hm
      have hwell := wellFormed_apply hm ha.wellFormed fun b hb => (has.proper hn b hb).wellFormed
      rw [← Pseudo.StringMethod.apply_relocate]
      exact (Step.written _ (hwithin.mono hW).peak_le ⟨hwell, hwithin⟩).mono fun b hpre hb => hb ▸ Plain.converts
        ⟨expr_apply hpre.1.2 hpre.2, calledName?_apply m a as⟩
    refine h.bind fun a ha => .ite Iff.rfl (fun _ => ?_) fun _ => ?_
    · exact (hargs.weaken And.left).zeroBased.bind fun as has => happly ha has
    · exact (hargs.weaken And.left).bind fun as has => happly ha has
  · exact (plainMethod_step h hargs hn).raise (le_succ n)

section

variable [law : K.T.Lawful]

theorem nameCall_step {callee} (hargs : ExprsStep K still P pre args xs ys) (hn : weight (exprNodes args) ≤ n) :
    ExprStep K still P pre n (nameCall span callee xs) (nameCall (K.m.span span) callee ys)
      (K.T.Converts [callee]) := by
  unfold nameCall
  extract_lets rest rest'
  have hrest : ∀ {pre' : Prop} {name : String}, (pre' → pre) →
      (pre' → callee = name ∨ ∃ o, K.T.Owned o ∧ o.superclass = some name) →
      ExprStep K still P pre' n (rest name) (rest' name) (K.T.Converts [callee]) := by
    intro pre' name hpre hname
    refine (hargs.weaken hpre).bind fun as has => .get_bind fun s t h => ?_
    simp only [h.scopes.isSome_findCallable?, h.typeNames]
    refine .pure (by simp [relocate]) (proper_call (has.proper hn)) fun ⟨⟨hpre, has⟩, _⟩ =>
      ⟨expr_of_children rfl has, fun m hm => ?_⟩
    cases hm
    exact (hname hpre).imp_left fun heq => List.mem_singleton.2 heq.symm
  refine .read_bind fun c d hc _ => ?_
  rw [← hc.owner]
  split
  · next superclass hsuper =>
    obtain ⟨o, ho, hsuper⟩ := Option.bind_eq_some_iff.1 hsuper
    refine .next (.note fun ⟨_, hc⟩ => ?_) fun _ => hrest And.left fun ⟨_, hc⟩ => .inr ⟨o, hc.owned o ho, hsuper⟩
    have htext := law.owner_superclass (hc.owned o ho) hsuper
    simp (disch := exact unbroken rfl) [htext]
  · exact hrest And.left fun _ => .inl rfl

theorem methodCall_step (h : ExprStep K still P pre n x y K.T.Expr) (hargs : ExprsStep K still P pre args xs ys)
    (hn : weight (exprNodes args) ≤ n) (hW : n + 1 ≤ K.W) :
    ExprStep K still P pre (n + 1) (methodCall span calleeSpan target method isOptional args.length x xs)
      (methodCall (K.m.span span) (K.m.span calleeSpan) (target.relocate K.m) method isOptional args.length y ys)
      (K.T.Converts [method]) := by
  unfold methodCall
  have hdotted : (Expr.member (K.m.span calleeSpan) (target.relocate K.m) method
      isOptional).dottedName? = (Expr.member calleeSpan target method isOptional).dottedName? := by
    simpa only [Expr.relocate] using Expr.dottedName?_relocate K.m (.member calleeSpan target method isOptional)
  rw [hdotted]
  extract_lets dotted otherwise rest otherwise' rest'
  have ho : ExprStep K still P pre (n + 1) otherwise otherwise' (K.T.Converts [method]) :=
    objectMethod_step h hargs hn hW
  have hrest : ∀ r, ExprStep K still P pre (n + 1) (rest r) (rest' r) (K.T.Converts [method]) := by
    intro r
    refine .ite (by rw [Expr.isSelfReference_relocate]) (fun _ => hargs.bind fun as has => ?_) fun _ =>
      .ite (by rw [isMath_relocate]) (fun _ => hargs.bind fun as has => ?_) fun _ => ho
    · refine .findCallable?_bind fun p q hpq => .pure ?_
        (proper_call fun a ha => (has.proper hn a ha).mono (le_succ n)) fun ⟨⟨_, has⟩, _⟩ =>
          ⟨expr_of_children rfl has, fun name hname => .inl (List.mem_singleton.2 (Option.some.inj hname).symm)⟩
      have hdeclared : q.isSome = p.isSome := by simpa using congrArg Option.isSome hpq.symm
      simp [relocate, hdeclared]
    · rw [Pseudo.mapMathFunction?_relocate]
      cases he : Pseudo.mapMathFunction? method as with
      | some e =>
        exact .pure rfl ((proper_mapMathFunction? he (has.proper hn)).mono (le_succ n)) fun ⟨_, has⟩ =>
          Plain.converts ⟨expr_mathFunction has he, calledName?_mathFunction he⟩
      | none => exact ho.weaken And.left
  exact .ite Iff.rfl (fun _ => .next (.simplify _ _ _) fun _ => .next
    (.note fun _ => law.text_of_line (unbroken rfl)) hrest) fun _ => hrest ()

/-! ### Operators -/

theorem combine_step {a b : Pseudo.Expr} {m} (ha : a.Proper m) (hb : b.Proper n)
    (h : pre → K.T.Nodes P left.nodes ∧ K.T.Nodes P right.nodes ∧ K.T.Expr a ∧ K.T.Expr b) :
    ExprStep K still P pre (m + n) (combine span op left right a b)
      (combine (K.m.span span) op (left.relocate K.m) (right.relocate K.m) (a.relocate K.m) (b.relocate K.m))
      K.T.Plain := by
  unfold combine
  have htext : (Expr.binary (K.m.span span) op (left.relocate K.m) (right.relocate K.m)).text =
      (Expr.binary span op left right).text := by
    simpa only [Expr.relocate] using Expr.text_relocate K.m (.binary span op left right)
  refine .view_bind fun v w hv => ?_
  simp only [hv.inferScalar_eq, ← hv.language, htext]
  have hsymbol : K.T.Text op.text := law.text_binaryOp op
  have hproper : ∀ e ∈ [a, b], e.Proper (m + n) := by
    simpa using ⟨ha.mono (Nat.le_add_right m n), hb.mono (Nat.le_add_left n m)⟩
  have hpair {q : Prop} {e : Pseudo.Expr} (he : e.children = [a, b]) (hjoin : e.isJoin = false)
      (hname : calledName? e = none) : pre ∧ q → K.T.Plain e := fun ⟨hpre, _⟩ =>
    ⟨expr_pair he (h hpre).2.2.1 (h hpre).2.2.2 hjoin, hname⟩
  refine .ite Iff.rfl (fun hadd => .pure (by simp [relocate]) (Pseudo.Expr.proper_binary (by decide) ha hb)
    fun ⟨hpre, hv⟩ => ⟨expr_join ?_ _, rfl⟩) fun _ => .ite Iff.rfl (fun _ => .pure (by simp [relocate])
      (proper_call hproper) (hpair rfl rfl rfl)) fun _ => .ite Iff.rfl (fun _ => .pure (by simp [relocate])
        (proper_call hproper) (hpair rfl rfl rfl)) fun _ => ?_
  · simp only [Bool.and_eq_true, Bool.or_eq_true, beq_iff_eq] at hadd
    rcases hadd.2 with hs | ht
    · exact joins_of_inferScalar hv (h hpre).1 hs
    · exact joins_of_inferScalar hv (h hpre).2.1 ht
  · split
    · exact .next (.simplifyWarn _ _ _) fun _ => raw_step _ span
    · next mapped hmapped =>
      have hjoin := isJoin_operator a b (some span.line) hmapped
      have hbinary : (Pseudo.Expr.binary mapped a b (some span.line)).Proper _ :=
        Pseudo.Expr.proper_binary (operator?_mem_known hmapped) ha hb
      refine .ite Iff.rfl (fun _ => .next (.simplifyWarn _ _ _) fun _ => .next (.note fun _ => ?_) fun _ =>
        .pure (by simp [relocate]) hbinary (hpair rfl hjoin rfl)) fun _ =>
          .pure (by simp [relocate]) hbinary (hpair rfl hjoin rfl)
      simp (disch := exact unbroken rfl) [hsymbol, text_operator hmapped]

theorem operation_step {m} (h : pre → K.T.Nodes P left.nodes ∧ K.T.Nodes P right.nodes)
    (hleft : ExprStep K still P pre m x y K.T.Expr) (hright : ExprStep K still P pre n x' y' K.T.Expr) :
    ExprStep K still P pre (m + n) (operation span op left right x x')
      (operation (K.m.span span) op (left.relocate K.m) (right.relocate K.m) y y') K.T.Plain := by
  unfold operation
  split
  · have htext : (Expr.binary (K.m.span span) .instanceOf (left.relocate K.m)
        (right.relocate K.m)).text = (Expr.binary span .instanceOf left right).text := by
      simpa only [Expr.relocate] using Expr.text_relocate K.m (.binary span .instanceOf left right)
    rw [htext]
    exact .next (.simplifyWarn _ _ _) fun _ => .next (.note fun _ => law.text_of_line (unbroken rfl)) fun _ =>
      raw_step _ span
  · refine .next (.simplify _ _ _) fun _ => .next (.note fun _ => law.text_of_line (unbroken rfl)) fun _ =>
      hleft.bind fun a ha => (hright.weaken And.left).bind fun b hb => .pure (by simp [relocate, nothing])
        (.of_parts (.conditional (.binary (by decide) ha.wellFormed .literal) ha.wellFormed hb.wellFormed) ?_ rfl)
        fun ⟨⟨_, ha⟩, hb⟩ => .of_children rfl rfl ?_
    · have := ha.within.peak_le
      have := hb.within.peak_le
      simp only [Pseudo.Expr.peak, nothing]
      omega
    · have hcheck : K.T.Expr (.binary .ne a (nothing none) (some span.line)) :=
        expr_pair rfl ha (nothing_plain none).1 rfl
      simpa [Pseudo.Expr.children] using ⟨hcheck, ha, hb⟩
  · exact hleft.bind fun a ha => (hright.weaken And.left).bind fun b hb => combine_step ha hb
      fun ⟨⟨hpre, ha⟩, hb⟩ => ⟨(h hpre).1, (h hpre).2, ha, hb⟩

theorem cast_step {type : TypeRef} {value : Pseudo.Expr} (hvalue : value.Proper n)
    (h : pre → K.T.Nodes P type.nodes ∧ K.T.Converts names value) :
    ExprStep K still P pre n (cast span type operand value)
      (cast (K.m.span span) (type.relocate K.m) (operand.relocate K.m) (value.relocate K.m)) (K.T.Converts names) := by
  have hcall : ∀ f, ExprStep K still P pre n (pure (.call f [value] none (some span.line)))
      (pure (.call f [value.relocate K.m] none (some (K.m.span span).line))) (K.T.Converts names) := fun f =>
    .pure (by simp [relocate]) (proper_call (by simpa using hvalue)) fun hpre =>
      Plain.converts (.of_children rfl rfl (List.forall_mem_singleton.2 (h hpre).2.expr))
  unfold cast
  refine .view_bind fun v w hv => Step.weaken ?_ And.left
  rw [← hv.language, hv.inferScalar_eq, Pseudo.normalize_relocate, TypeRef.text_relocate]
  split
  · refine .next (.note fun hpre => ?_) fun _ => .pure rfl hvalue fun hpre => (h hpre).2
    have htype := law.text_type type (h hpre).1
    simp (disch := exact unbroken rfl) [htype]
  · split
    · exact .next (.note fun _ => law.text_of_line (unbroken rfl)) fun _ => hcall _
    · exact hcall _
    · exact hcall _
    · exact .pure rfl hvalue fun hpre => (h hpre).2

end

theorem unary_step {op} (h : ExprStep K still P pre n x y (K.T.Converts operand.calledNames)) :
    ExprStep K still P pre n (unary span op operand x) (unary (K.m.span span) op (operand.relocate K.m) y)
      (K.T.Converts (Expr.unary span op operand).calledNames) := by
  have htext : (Expr.unary (K.m.span span) op (operand.relocate K.m)).text = (Expr.unary span op operand).text := by
    simpa only [Expr.relocate] using Expr.text_relocate K.m (.unary span op operand)
  unfold unary
  cases op with
  | not =>
    exact h.bind fun a ha => .pure (by simp [relocate])
      (.of_parts (.unary (.inl rfl) ha.wellFormed) ha.within.peak_le rfl) fun ⟨_, ha⟩ =>
        Plain.converts (.of_children rfl rfl (List.forall_mem_singleton.2 ha.expr))
  | plus => simpa only [Expr.calledNames] using h
  | neg =>
    exact h.bind fun a ha => .pure (negated_relocate K.m span a).symm (proper_negated ha) fun ⟨_, ha⟩ =>
      (negated_plain span ha.expr).converts
  | _ =>
    simp only [htext]
    exact .next (.simplifyWarn _ _ _) fun _ => (raw_step _ span).converts

theorem kept_step (e : Expr) (construct details : String) :
    ExprStep K still P pre n (kept e construct details) (kept (e.relocate K.m) construct details) K.T.Plain := by
  unfold kept
  rw [Expr.span_relocate, Expr.text_relocate]
  exact .next (.simplifyWarn _ _ _) fun _ => raw_step _ e.span

/-! ### All expressions -/

variable [law : K.T.Lawful]

mutual

theorem expr_step (e : Expr) (h : weight e.nodes ≤ K.W) :
    ExprStep K still P (K.T.Nodes P e.nodes) (weight e.nodes) (expr e) (expr (e.relocate K.m))
      (K.T.Converts e.calledNames) := by
  cases e
  all_goals simp only [Expr.relocate, expr, Expr.nodes, Expr.calledNames, nodesInOrder_cons, nodesInOrder_append,
    weight_cons, weight_append, Source.Node.weight] at h ⊢
  case number span value raw => exact (number_step h).converts
  case string | char | boolean | null =>
    exact .pure (by simp [nothing, relocate]) (.of_parts .literal (zero_le _) rfl) fun _ =>
      Plain.converts (.leaf rfl rfl rfl)
  case template span parts =>
    refine .next (.simplify _ _ _) fun _ => .next (.note fun _ => law.text_of_line (unbroken rfl)) fun _ => ?_
    rw [K.m.line_span]
    exact ((templateItems_step (some span.line) parts (by omega)).weaken And.right).bind fun items hitems =>
      .pure (join_relocate K.m (some span.line) items).symm ((proper_join hitems).mono (by omega)) fun ⟨h, hitems⟩ =>
        converts_join (law.joins_of_template h.1) hitems _
  case identifier span n => exact (name_step n span).converts
  case member span target member isOptional =>
    rw [Nat.add_comm]
    exact (memberAccess_step (fun h => law.text_of_node h.1 (by simp [Source.Node.texts]))
      ((expr_step target (by omega)).part And.right)).converts
  case index span target index =>
    have hindex {a : Pseudo.Expr} (ha : a.Proper (weight target.nodes)) {i : Pseudo.Expr}
        (hi : i.Proper (weight index.nodes + 1)) :
        (Pseudo.Expr.index a i (some span.line)).Proper (1 + (weight target.nodes + weight index.nodes)) := by
      refine .of_parts (.index ha.wellFormed hi.wellFormed) ?_ rfl
      have := ha.within.peak_le
      have := hi.within.peak_le
      rw [Pseudo.Expr.peak]
      omega
    have hpair {a i} (ha : K.T.Expr a) (hi : K.T.Expr i) : K.T.Plain (.index a i (some span.line)) :=
      .of_children rfl rfl (by simpa [Pseudo.Expr.children] using ⟨ha, hi⟩)
    refine Step.converts (((expr_step target (by omega)).part fun h => h.2.1).bind fun a ha => ?_)
    have hconvert : ExprStep K still P ((K.T.Admits P (.expr (.index span target index)) ∧ K.T.Nodes P target.nodes ∧
        K.T.Nodes P index.nodes) ∧ K.T.Expr a) _ (expr index) (expr (index.relocate K.m)) K.T.Expr :=
      (expr_step index (by omega)).part fun h => h.1.2.2
    refine .ite (by rw [isString_relocate]) (fun _ => ?_) fun _ => ?_
    · exact hconvert.bind fun i hi => .pure (by simp [relocate]) (hindex ha (hi.mono (le_succ _)))
        fun ⟨⟨_, ha⟩, hi⟩ => hpair ha hi
    · exact (indexValue_step hconvert (by omega)).bind fun i hi => .pure (by simp [relocate]) (hindex ha hi)
        fun ⟨⟨_, ha⟩, hi⟩ => hpair ha hi
  case call span callee args =>
    have hlength : (relocateExprs K.m args).length = args.length := by simp
    have hargs {pre} (hpre : pre → K.T.Nodes P (exprNodes args)) :
        ExprsStep K still P pre args (exprs args) (exprs (relocateExprs K.m args)) :=
      (exprs_step args (by omega)).weaken hpre
    cases callee
    all_goals simp only [Expr.relocate, expr, Expr.nodes, nodesInOrder_cons, hlength, weight_cons,
      Source.Node.weight] at h ⊢
    case member calleeSpan target method isOptional =>
      refine callOr_step span (.member calleeSpan target method isOptional) args (hargs fun h => h.2.2) (by omega)
        (.raise (methodCall_step (.raise (.part (expr_step target (by omega)) fun h => h.2.1.2) (Nat.le_add_right _ (weight (exprNodes args))))
          (hargs fun h => h.2.2) ?_ ?_) ?_)
      all_goals omega
    case identifier calleeSpan name =>
      exact callOr_step span (.identifier calleeSpan name) args (hargs fun h => h.2.2) (by omega)
        (nameCall_step (hargs fun h => h.2.2) (by omega))
    all_goals exact otherCall_step span _ args (hargs fun h => h.2.2) (by omega)
  case newObject span type args =>
    rw [TypeRef.name_relocate]
    refine Step.converts (.next (.simplify _ _ _) fun _ => .next (.note fun h => ?_) fun _ =>
      ((exprs_step args (by omega)).weaken fun h => h.2.2).bind fun as has => .pure (by simp [relocate])
        (Pseudo.Expr.proper_newObject (has.proper (by omega))) fun ⟨_, has⟩ => .of_children rfl rfl has)
    obtain ⟨tspan, name, targs, dims, form⟩ := type
    have hname : K.T.Text name := law.text_of_node (nodesInOrder_cons.1 h.2.1).1 (by simp [Source.Node.texts])
    simp (disch := exact unbroken rfl) [hname]
  case newArray span element sizes dimensions =>
    simp only [Pseudo.normalize_relocate]
    refine Step.converts (.read_bind fun c d hc _ => .bind ((exprs_step sizes (by omega)).weaken fun h => h.1.2.2)
      fun as _ => ?_)
    simp only [List.map_map, Function.comp_def, Pseudo.Expr.text_relocate, hc.language]
    exact .next (.simplifyWarn _ _ _) fun _ => raw_step _ span
  case newArrayOf element d span items =>
    exact Step.converts (((exprs_step items (by omega)).weaken fun h => h.2.2.2).bind fun as has =>
      .pure (by simp [relocate]) (Pseudo.Expr.proper_array (has.proper (by omega))) fun ⟨_, has⟩ =>
        .of_children rfl rfl has)
  case array span items =>
    exact Step.converts (((exprs_step items (by omega)).weaken And.right).bind fun as has =>
      .pure (by simp [relocate]) (Pseudo.Expr.proper_array (has.proper (by omega))) fun ⟨_, has⟩ =>
        .of_children rfl rfl has)
  case object span properties => simpa only [Expr.relocate] using (kept_step (.object span properties) _ _).converts
  case update span op before target =>
    simpa only [Expr.relocate] using (kept_step (.update span op before target) _ _).converts
  case assignment span op target value =>
    simpa only [Expr.relocate] using (kept_step (.assignment span op target value) _ _).converts
  case binary span op left right =>
    exact (Step.converts (operation_step And.right ((expr_step left (by omega)).part fun h => h.2.1)
      ((expr_step right (by omega)).part fun h => h.2.2))).raise (by omega)
  case unary span op operand =>
    exact (unary_step ((expr_step operand (by omega)).weaken And.right)).raise (by omega)
  case conditional span condition yes no =>
    refine Step.converts (.read_bind fun c d hc _ => ?_)
    rw [hc.statement]
    refine .next (.warn _ rfl) fun _ => ((expr_step condition (by omega)).part fun h => h.1.2.1.1).bind fun c hc =>
      ((expr_step yes (by omega)).part fun h => h.1.1.2.1.2).bind fun a ha =>
        ((expr_step no (by omega)).part fun h => h.1.1.1.2.2).bind fun b hb => .pure (by simp [relocate])
          (.of_parts (.conditional hc.wellFormed ha.wellFormed hb.wellFormed) ?_ rfl)
          fun ⟨⟨⟨_, hc⟩, ha⟩, hb⟩ => .of_children rfl rfl (by simpa [Pseudo.Expr.children] using ⟨hc, ha, hb⟩)
    have := hc.within.peak_le
    have := ha.within.peak_le
    have := hb.within.peak_le
    rw [Pseudo.Expr.peak]
    omega
  case cast span type operand =>
    exact ((expr_step operand (by omega)).weaken fun h => h.2.2).bind fun a ha =>
      cast_step (ha.mono (by omega)) fun ⟨h, ha⟩ => ⟨h.2.1, ha⟩
  case lambda span params body isAsync =>
    refine Step.converts (.bind ?_ fun a ha => .next (.note fun _ => law.text_of_line (unbroken rfl)) fun _ =>
      .pure rfl ha And.right)
    simpa only [Expr.relocate] using kept_step (.lambda span params body isAsync) _ _
  case await span operand =>
    exact .next (.simplify _ _ _) fun _ => .next (.note fun _ => law.text_of_line (unbroken rfl)) fun _ =>
      ((expr_step operand (by omega)).weaken And.right).raise (by omega)
  case spread span operand =>
    rw [Expr.text_relocate]
    refine .next (.simplify _ _ _) fun _ => .next (.note fun h => ?_) fun _ =>
      ((expr_step operand (by omega)).weaken And.right).raise (by omega)
    have htext := law.text_expr operand h.2
    simp (disch := exact unbroken rfl) [htext]

theorem exprs_step (es : List Expr) (h : weight (exprNodes es) ≤ K.W) :
    ExprsStep K still P (K.T.Nodes P (exprNodes es)) es (exprs es) (exprs (relocateExprs K.m es)) := by
  match es with
  | [] =>
    rw [relocateExprs, exprs]
    exact .pure rfl .nil fun _ => by simp
  | e :: es =>
    rw [exprNodes, weight_append] at h
    simp only [relocateExprs, exprs, exprNodes, nodesInOrder_append]
    exact ((expr_step e (by omega)).part And.left).bind fun a ha =>
      ((exprs_step es (by omega)).weaken fun h => h.1.2).bind fun as has => .pure rfl (.cons ha has)
        fun ⟨⟨_, ha⟩, has⟩ => List.forall_mem_cons.2 ⟨ha, has⟩

theorem templateItems_step (line : Option Nat) (ps : List Source.TemplatePart) (h : weight (partNodes ps) ≤ K.W) :
    Step K still P P (K.T.Nodes P (partNodes ps)) (List.map (relocate K.m)) (templateItems line ps)
      (templateItems (line.map K.m.line) (relocateParts K.m ps)) (fun as => ∀ a ∈ as, a.Proper (weight (partNodes ps)))
      fun as => ∀ a ∈ as, K.T.Converts (Source.partsCalledNames ps) a := by
  match ps with
  | [] =>
    rw [relocateParts, templateItems, templateItems]
    exact .pure rfl (by simp) fun _ => by simp
  | .text s :: ps =>
    rw [partNodes] at h ⊢
    simp only [relocateParts, templateItems, Source.partsCalledNames]
    refine (templateItems_step line ps h).bind fun as has => .pure ?_ ?_ fun ⟨_, has⟩ => ?_
    · split <;> simp [partText, relocate]
    · split
      · exact has
      · exact List.forall_mem_cons.2 ⟨.of_parts .literal (zero_le _) rfl, has⟩
    · split
      · exact has
      · exact List.forall_mem_cons.2 ⟨Plain.converts (.leaf rfl rfl rfl), has⟩
  | .hole e :: ps =>
    rw [partNodes, weight_append] at h ⊢
    simp only [relocateParts, templateItems, Source.partsCalledNames, nodesInOrder_append]
    exact ((expr_step e (by omega)).weaken And.left).bind fun a ha =>
      ((templateItems_step line ps (by omega)).weaken fun h => h.1.2).bind fun as has => .pure rfl
        (List.forall_mem_cons.2 ⟨ha.mono (by omega), fun b hb => (has b hb).mono (by omega)⟩)
        fun ⟨⟨_, ha⟩, has⟩ => List.forall_mem_cons.2 ⟨ha.mono (List.subset_append_left _ _), fun b hb =>
          (has b hb).mono (List.subset_append_right _ _)⟩

end

theorem lengthOf_step (e : Expr) (h : weight e.nodes ≤ K.W) :
    ExprStep K still P (K.T.Nodes P e.nodes) (weight e.nodes) (lengthOf e) (lengthOf (e.relocate K.m)) K.T.Expr := by
  unfold lengthOf
  rw [Expr.span_relocate]
  exact ((expr_step e h).part id).bind fun _ ha => .pure (by simp [relocate]) (proper_call (by simpa using ha))
    fun ⟨_, ha⟩ => expr_of_children rfl (List.forall_mem_singleton.2 ha)

end Blackboard.Convert
