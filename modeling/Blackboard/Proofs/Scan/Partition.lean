import Blackboard.Proofs.Scan.Balance

/-!
The segments of a text divide what is written in it. They follow each other without overlap, every
character that is not blank lies in one of them, and since cuts are made only where no bracket is open, the
segments of a balanced text are balanced.
-/
namespace Blackboard.Scan

open List

variable {l : Language} {c : Char} {cs seen stack stack' : List Char} {s t : Segment} {ss : List Segment}

namespace Segment

def text (masked : List Char) (s : Segment) : List Char := (masked.drop s.start).take (s.stop - s.start)

def Holds (s : Segment) (i : Nat) : Prop := s.start ≤ i ∧ i < s.stop

end Segment

/-! ### Order and cover -/

namespace Splits

variable {offset : Nat} {begun : Option Nat}

/-- A segment that has begun has a character already. -/
def Lags (begun : Option Nat) (offset : Nat) : Prop := ∀ start, begun = some start → start < offset

theorem lags_none : Lags none offset := nofun

theorem Lags.getD_le (h : Lags begun offset) : begun.getD offset ≤ offset := by
  cases begun with
  | none => exact Nat.le_refl _
  | some start => exact (h start rfl).le

theorem Lags.go (h : Lags begun offset) : Lags (some (begun.getD offset)) (offset + 1) := by
  rintro _ ⟨⟩
  exact Nat.lt_succ_of_le h.getD_le

theorem start_lt_stop (h : Splits offset begun cs ss) (hlags : Lags begun offset) : ∀ s ∈ ss, s.start < s.stop := by
  induction h with
  | done => simp
  | last => simpa using hlags _ rfl
  | blank _ _ ih => exact ih lags_none
  | go _ _ ih => exact ih hlags.go
  | stop _ _ ih => exact forall_mem_cons.2 ⟨Nat.lt_succ_of_le hlags.getD_le, ih lags_none⟩
  | line _ ih => exact forall_mem_cons.2 ⟨hlags _ rfl, ih lags_none⟩

theorem le_start (h : Splits offset begun cs ss) (hlags : Lags begun offset) : ∀ s ∈ ss, begun.getD offset ≤ s.start := by
  induction h with
  | done => simp
  | last => simp
  | blank _ _ ih => exact fun s hs => (Nat.le_succ _).trans (ih lags_none s hs)
  | go _ _ ih => exact ih hlags.go
  | stop _ _ ih =>
    refine forall_mem_cons.2 ⟨Nat.le_refl _, fun s hs => ?_⟩
    exact hlags.getD_le.trans ((Nat.le_succ _).trans (ih lags_none s hs))
  | line _ ih =>
    refine forall_mem_cons.2 ⟨Nat.le_refl _, fun s hs => ?_⟩
    exact (hlags _ rfl).le.trans ((Nat.le_succ _).trans (ih lags_none s hs))

theorem pairwise (h : Splits offset begun cs ss) (hlags : Lags begun offset) :
    ss.Pairwise fun s t => s.stop ≤ t.start := by
  induction h with
  | done => exact .nil
  | last => exact pairwise_singleton _ _
  | blank _ _ ih => exact ih lags_none
  | go _ _ ih => exact ih hlags.go
  | stop _ hrest ih => exact pairwise_cons.2 ⟨hrest.le_start lags_none, ih lags_none⟩
  | line hrest ih =>
    exact pairwise_cons.2 ⟨fun s hs => (Nat.le_succ _).trans (hrest.le_start lags_none s hs), ih lags_none⟩

/-- A segment that has not begun yet begins with a character that is not blank. -/
theorem start_isInk (h : Splits offset begun cs ss) : ∀ s ∈ ss, begun = some s.start ∨
    ∃ i c, s.start = offset + i ∧ cs[i]? = some c ∧ Text.isBlank c = false := by
  induction h with
  | done => simp
  | last => simp
  | @blank offset c cs ss _ _ ih =>
    intro s hs
    obtain hnone | ⟨i, d, hi, hd⟩ := ih s hs
    · cases hnone
    · exact .inr ⟨i + 1, d, by omega, hd⟩
  | @go offset begun c cs ss hink _ ih =>
    intro s hs
    obtain hstart | ⟨i, d, hi, hd⟩ := ih s hs
    · cases begun with
      | some start => exact .inl hstart
      | none =>
        cases hstart
        exact .inr ⟨0, c, rfl, rfl, hink rfl⟩
    · exact .inr ⟨i + 1, d, by omega, hd⟩
  | @stop offset begun c cs ss hc _ ih =>
    refine forall_mem_cons.2 ⟨?_, fun s hs => ?_⟩
    · cases begun with
      | some start => exact .inl rfl
      | none => exact .inr ⟨0, c, rfl, rfl, by rcases hc with rfl | rfl <;> rfl⟩
    · obtain hnone | ⟨i, d, hi, hd⟩ := ih s hs
      · cases hnone
      · exact .inr ⟨i + 1, d, by omega, hd⟩
  | line _ ih =>
    refine forall_mem_cons.2 ⟨.inl rfl, fun s hs => ?_⟩
    obtain hnone | ⟨i, d, hi, hd⟩ := ih s hs
    · cases hnone
    · exact .inr ⟨i + 1, d, by omega, hd⟩

theorem covers (h : Splits offset begun cs ss) (hlags : Lags begun offset) :
    (∀ start, begun = some start → ∃ s ∈ ss, s.start = start ∧ offset ≤ s.stop) ∧
      ∀ i c, cs[i]? = some c → Text.isBlank c = false → ∃ s ∈ ss, s.Holds (offset + i) := by
  have hnext {offset i : Nat} {s : Segment} (h : s.Holds (offset + 1 + i)) : s.Holds (offset + (i + 1)) := by
    rwa [Nat.add_assoc, Nat.add_comm 1] at h
  induction h with
  | done => simp
  | last => simp
  | blank hblank _ ih =>
    refine ⟨nofun, fun i d hd hink => ?_⟩
    cases i with
    | zero =>
      cases hd
      simp [hblank] at hink
    | succ i =>
      obtain ⟨s, hs, hholds⟩ := (ih lags_none).2 i d hd hink
      exact ⟨s, hs, hnext hholds⟩
  | go _ _ ih =>
    obtain ⟨hfirst, hrest⟩ := ih hlags.go
    obtain ⟨s, hs, hstart, hstop⟩ := hfirst _ rfl
    refine ⟨?_, fun i d hd hink => ?_⟩
    · rintro start rfl
      exact ⟨s, hs, hstart, (Nat.le_succ _).trans hstop⟩
    · cases i with
      | zero => exact ⟨s, hs, hstart ▸ hlags.getD_le, hstop⟩
      | succ i =>
        obtain ⟨s, hs, hholds⟩ := hrest i d hd hink
        exact ⟨s, hs, hnext hholds⟩
  | stop _ _ ih =>
    refine ⟨?_, fun i d hd hink => ?_⟩
    · rintro start rfl
      exact ⟨_, mem_cons_self, rfl, Nat.le_succ _⟩
    · cases i with
      | zero => exact ⟨_, mem_cons_self, hlags.getD_le, Nat.lt_succ_self _⟩
      | succ i =>
        obtain ⟨s, hs, hholds⟩ := (ih lags_none).2 i d hd hink
        exact ⟨s, mem_cons_of_mem _ hs, hnext hholds⟩
  | line _ ih =>
    refine ⟨?_, fun i d hd hink => ?_⟩
    · rintro start ⟨⟩
      exact ⟨_, mem_cons_self, rfl, Nat.le_refl _⟩
    · cases i with
      | zero =>
        cases hd
        cases hink
      | succ i =>
        obtain ⟨s, hs, hholds⟩ := (ih lags_none).2 i d hd hink
        exact ⟨s, mem_cons_of_mem _ hs, hnext hholds⟩

end Splits

theorem eq_of_holds {i : Nat} (hss : ss.Pairwise fun s t => s.stop ≤ t.start) (hs : s ∈ ss) (ht : t ∈ ss)
    (hsi : s.Holds i) (hti : t.Holds i) : s = t := by
  by_contra hne
  have hapart := Pairwise.forall_of_forall_of_flip (R := fun s t => s ≠ t → s.stop ≤ t.start ∨ t.stop ≤ s.start)
    (fun _ _ h => absurd rfl h) (hss.imp fun h _ => .inl h) (hss.imp fun h _ => .inr h) hs ht hne
  obtain ⟨hs, hs'⟩ := hsi
  obtain ⟨ht, ht'⟩ := hti
  omega

/-! ### Balance -/

namespace Segment

theorem isBracket_of_isBlank (h : Text.isBlank c = true) : isBracket c = false := by
  by_contra hbracket
  rw [Bool.not_eq_false, isBracket, Bool.or_eq_true] at hbracket
  rcases hbracket with hopening | hclosing
  · obtain ⟨e, he⟩ := Option.isSome_iff_exists.1 hopening
    unfold closing? at he
    split at he
    all_goals first
      | cases h
      | cases he
  · simp only [isClosing, Bool.or_eq_true, beq_iff_eq] at hclosing
    rcases hclosing with (rfl | rfl) | rfl <;> cases h

theorem length_of_openAfter (h : openAfter stack c = some stack') : stack'.length = depthAfter stack.length c := by
  obtain ⟨hopening, rfl⟩ | ⟨o, rfl, hclosing⟩ | ⟨hplain, rfl⟩ := openAfter_cases h
  · rw [depthAfter, if_pos hopening, length_cons]
  · have hc := isClosing_of_closing? hclosing
    rw [depthAfter, if_neg (by simp [isOpening_eq_false hc]), if_pos hc, length_cons, Nat.add_sub_cancel]
  · rw [isBracket, Bool.or_eq_false_iff] at hplain
    rw [depthAfter, if_neg (by simp [hplain.1]), if_neg (by simp [hplain.2])]

theorem depth_of_endsWith {b depth rest belongs} (h : endsWith l b depth c rest = some belongs) : depth = 0 := by
  unfold endsWith at h
  split at h
  · cases h
  · next hdepth => simpa using hdepth

theorem text_append {start : Nat} (hstart : start ≤ seen.length) (cs : List Char) :
    (⟨start, seen.length⟩ : Segment).text (seen ++ cs) = seen.drop start := by
  rw [text, drop_append_of_le_length hstart, take_append_of_le_length (by simp), ← length_drop,
    take_length]

/-- The text of a segment that has begun leaves some brackets open. -/
structure Opens (seen : List Char) (stack : List Char) (start : Nat) : Prop where
  le_length : start ≤ seen.length
  leftOpen : leftOpen [] (seen.drop start) = some stack

theorem Opens.next {start : Nat} (h : Opens seen stack start) (hc : openAfter stack c = some stack') :
    Opens (seen ++ [c]) stack' start where
  le_length := by simpa using h.le_length.trans (Nat.le_succ _)
  leftOpen := by
    rw [drop_append_of_le_length h.le_length, leftOpen_append, h.leftOpen]
    simpa using hc

theorem Opens.first (hc : openAfter [] c = some stack') : Opens (seen ++ [c]) stack' seen.length where
  le_length := by simp
  leftOpen := by simpa using hc

theorem leftOpen_text_of_mem_splitFrom {begun : Option Begun} (hopen : Scan.leftOpen stack cs = some [])
    (hnone : begun = none → stack = []) (hsome : ∀ b, begun = some b → Opens seen stack b.offset) :
    ∀ s ∈ splitFrom l seen.length stack.length begun cs, Scan.leftOpen [] (s.text (seen ++ cs)) = some [] := by
  -- The cut characters follow the stack: its height is the depth, so a cut is made only where it is empty.
  induction cs generalizing seen stack begun with
  | nil =>
    cases hopen
    cases begun with
    | none => simp [splitFrom]
    | some b =>
      obtain ⟨hle, hleft⟩ := hsome b rfl
      rw [splitFrom, forall_mem_singleton, text_append hle, hleft]
  | cons c cs ih =>
    obtain ⟨stack', hafter, hrest⟩ := Option.bind_eq_some_iff.1 hopen
    have hdepth := length_of_openAfter hafter
    have hseen : seen ++ c :: cs = (seen ++ [c]) ++ cs := by simp
    have hlength : seen.length + 1 = (seen ++ [c]).length := by simp
    rw [splitFrom, ← hdepth, hseen, hlength]
    split
    · next hblank =>
      rw [Bool.and_eq_true, Option.isNone_iff_eq_none] at hblank
      obtain ⟨rfl, hblank⟩ := hblank
      rw [openAfter_other (isBracket_of_isBlank hblank)] at hafter
      cases hafter
      exact ih hrest hnone (by simp)
    · next hblank =>
      have hopens : Opens (seen ++ [c]) stack' (begun.getD ⟨seen.length, c :: cs, c⟩).offset := by
        cases begun with
        | none =>
          cases hnone rfl
          exact .first hafter
        | some b => exact (hsome b rfl).next hafter
      dsimp only
      split
      · next hends =>
        obtain rfl := length_eq_zero_iff.1 (depth_of_endsWith hends)
        refine forall_mem_cons.2 ⟨?_, ih hrest (fun _ => rfl) (by simp)⟩
        rw [text_append hopens.le_length, hopens.leftOpen]
      · next hends =>
        obtain rfl := length_eq_zero_iff.1 (depth_of_endsWith hends)
        obtain ⟨htrue, -⟩ | ⟨-, rfl⟩ := endsWith_eq_some hends
        · cases htrue
        · cases begun with
          | none => exact absurd rfl hblank
          | some b =>
            refine forall_mem_cons.2 ⟨?_, ih hrest (fun _ => rfl) (by simp)⟩
            -- the end of a line leaves the brackets as they are
            cases hafter
            obtain ⟨hle, hleft⟩ := hsome b rfl
            rw [← hseen]
            exact (congrArg _ (text_append hle _)).trans hleft
      · refine ih hrest (by simp) ?_
        rintro b ⟨⟩
        split <;> exact hopens

end Segment

/-- The segments of a text are not empty, lie in it in order and apart from each other, and begin with a
character that is not blank; every such character lies in exactly one of them. If the brackets of the text
are balanced, those of each segment are. -/
theorem segments_partition_text (l : Language) (masked : List Char) :
    (∀ s ∈ segments l masked, s.start < s.stop ∧ s.stop ≤ masked.length ∧
      ∃ c, masked[s.start]? = some c ∧ Text.isBlank c = false) ∧
    ((segments l masked).Pairwise fun s t => s.stop ≤ t.start) ∧
    (∀ i c, masked[i]? = some c → Text.isBlank c = false → ∃! s, s ∈ segments l masked ∧ s.Holds i) ∧
    (Balanced (brackets masked) → ∀ s ∈ segments l masked, Balanced (brackets (s.text masked))) := by
  have hsplits := splits_segments l masked
  have hpairwise := hsplits.pairwise Splits.lags_none
  refine ⟨fun s hs => ⟨?_, ?_, ?_⟩, hpairwise, fun i c hi hink => ?_, fun hbalanced s hs => ?_⟩
  · exact hsplits.start_lt_stop Splits.lags_none s hs
  · exact (hsplits.bounds (Nat.le_refl _) (Nat.zero_add _) s hs).2
  · obtain hnone | ⟨i, c, hi, hc, hink⟩ := hsplits.start_isInk s hs
    · cases hnone
    · rw [Nat.zero_add] at hi
      exact ⟨c, hi ▸ hc, hink⟩
  · obtain ⟨s, hs, hholds⟩ := (hsplits.covers Splits.lags_none).2 i c hi hink
    rw [Nat.zero_add] at hholds
    exact ⟨s, ⟨hs, hholds⟩, fun t ht => eq_of_holds hpairwise ht.1 hs ht.2 hholds⟩
  · rw [balanced_brackets_iff] at hbalanced ⊢
    have hnever (b : Segment.Begun) (hb : none = some b) : Segment.Opens [] [] b.offset := nomatch hb
    exact Segment.leftOpen_text_of_mem_splitFrom hbalanced (fun _ => rfl) hnever s hs

end Blackboard.Scan
