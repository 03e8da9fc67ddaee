import Blackboard.Scan.Import
import Blackboard.Proofs.Comments.Blanking
import Blackboard.Proofs.Recovery.Agreement

/-!
Places in a source text that survive what is done to it before it is parsed. Masking it and lifting its
imports put blanks for characters and never move one, faults are reported where they were found, and a
segment that is read by itself is read at its place.
-/
namespace Blackboard

open Source List

/-- The line of an offset follows from the line feeds before it, and its column from the distance to the
last of them. -/
theorem Source.Position.ofOffset_eq (cs : List Char) (k : Nat) : Position.ofOffset cs k =
    ⟨(cs.take k).count '\n' + 1, ((cs.take k).reverse.takeWhile (· != '\n')).length + 1⟩ := by
  unfold Position.ofOffset
  induction cs.take k using reverseRecOn with
  | nil => rfl
  | append_singleton cs c ih =>
    rw [Position.afterAll_append, ih, Position.afterAll_cons, Position.after]
    by_cases hc : c = '\n' <;> simp [hc]

namespace Scan

variable {l : Language} {cs ds es : List Char}

/-! ### Blanks for characters -/

theorem veiled_blankStretch (cs : List Char) (offset length : Nat) : Veiled cs (blankStretch cs offset length) := by
  have hcut : cs = cs.take offset ++ (cs.drop offset).take length ++ cs.drop (offset + length) := by
    rw [append_assoc, ← drop_drop, take_append_drop, take_append_drop]
  conv => arg 1; rw [hcut]
  exact ((Veiled.refl _).append (.blank _)).append (.refl _)

theorem veiled_foldl (stretches : List (Nat × Nat)) (cs : List Char) :
    Veiled cs (stretches.foldl (fun cs (offset, length) => blankStretch cs offset length) cs) := by
  induction stretches generalizing cs with
  | nil => exact .refl cs
  | cons s rest ih => exact (veiled_blankStretch cs s.1 s.2).trans (ih _)

/-! ### Faults in their places -/

/-- Which characters a fault in the structure of a text can be found at. -/
def marks : Cause → Char → Prop
  | .unmatchedBracket s, c | .mismatchedBracket _ s, c | .unclosedBracket s, c => s = c.toString
  | .unterminatedComment, c => c = '/'
  | .unterminatedTemplate, c => c = '`'
  | .unterminatedChar, c => c = '\''
  | .unterminatedString, c => c = '"' ∨ c = '\''
  | _, _ => False

/-- A remark on a character of a text, at its place there. -/
def Found (cs : List Char) (d : Diagnostic) : Prop := ∃ k c, cs[k]? = some c ∧ marks d.cause c ∧
  d.line = some (Position.ofOffset cs k).line ∧ d.column = some (Position.ofOffset cs k).column

theorem Found.append {d} (h : Found cs d) (ds : List Char) : Found (cs ++ ds) d := by
  obtain ⟨k, c, hk, hd⟩ := h
  have hlt : k < cs.length := (List.getElem?_eq_some_iff.1 hk).1
  refine ⟨k, c, by rw [getElem?_append_left hlt, hk], ?_⟩
  rwa [Position.ofOffset, take_append_of_le_length hlt.le]

theorem found_next {c cause} (h : marks cause c) (cs inner : List Char) :
    Found (cs ++ c :: inner) (.atPosition (Position.start.afterAll cs) .error cause) :=
  ⟨cs.length, c, by simp, h, by simp [Diagnostic.atPosition, Position.ofOffset],
    by simp [Diagnostic.atPosition, Position.ofOffset]⟩

theorem marks_openLiteral {c} (h : Region.isQuote l c = true) : marks (Nesting.openLiteral l c) c := by
  simp only [Region.isQuote, Bool.or_eq_true, Bool.and_eq_true, beq_iff_eq] at h
  rcases h with (rfl | rfl) | ⟨rfl, -⟩ <;> cases l <;> simp [Nesting.openLiteral, marks]

namespace Nesting

variable {n : Nesting} {seen : List Char}

/-- What is known of a scan that has seen a text: all it reports, now or at its end, is found there. -/
structure Placed (seen : List Char) (n : Nesting) : Prop where
  here : n.here = Position.start.afterAll seen
  opened : ∀ b ∈ n.opened, Found seen (.atPosition b.2 .error (.unclosedBracket b.1.toString))
  faults : ∀ d ∈ n.faults, Found seen d

theorem bracket_reports (n : Nesting) (c : Char) : (∀ b ∈ (n.bracket c).opened, b ∈ n.opened ∨ b = (c, n.here)) ∧
    ∀ d ∈ (n.bracket c).faults, d ∈ n.faults ∨ ∃ cause, marks cause c ∧ d = .atPosition n.here .error cause := by
  have hold : ∀ d ∈ n.faults, d ∈ n.faults ∨ ∃ cause, marks cause c ∧ d = .atPosition n.here .error cause :=
    fun d hd => .inl hd
  have hnew {cause} (h : marks cause c) := forall_mem_cons.2 ⟨.inr ⟨cause, h, rfl⟩, hold⟩
  unfold bracket
  split
  · exact ⟨forall_mem_cons.2 ⟨.inr rfl, fun b hb => .inl hb⟩, hold⟩
  · split
    · split
      · exact ⟨fun b hb => .inl hb, hnew rfl⟩
      · next o p opened hopened =>
        have houter : ∀ b ∈ opened, b ∈ n.opened ∨ b = (c, n.here) :=
          fun b hb => .inl (hopened ▸ mem_cons_of_mem _ hb)
        split
        · split
          · exact ⟨houter, hold⟩
          · exact ⟨houter, hnew rfl⟩
        · exact ⟨houter, hold⟩
    · exact ⟨fun b hb => .inl hb, hold⟩

theorem here_bracket (n : Nesting) (c : Char) : (n.bracket c).here = n.here := by
  unfold bracket
  split
  · rfl
  · split
    · split
      · rfl
      · dsimp only
        split
        · split <;> rfl
        · rfl
    · rfl

/-- What a scan reports stays found in a longer text. -/
theorem Placed.goOn (h : n.Placed seen) (text : List Char) :
    { n with here := n.here.afterAll text }.Placed (seen ++ text) where
  here := by rw [Position.afterAll_append, ← h.here]
  opened b hb := (h.opened b hb).append text
  faults d hd := (h.faults d hd).append text

theorem Placed.fault {c cause} (h : n.Placed seen) (hc : marks cause c) (inner : List Char) :
    { n.fault cause with here := n.here.afterAll (c :: inner) }.Placed (seen ++ c :: inner) where
  here := (h.goOn _).here
  opened := (h.goOn _).opened
  faults := forall_mem_cons.2 ⟨h.here ▸ found_next hc seen inner, (h.goOn _).faults⟩

theorem Placed.next (h : n.Placed seen) (c : Char) (cs : List Char) :
    (n.region l (Region.next l c cs).1).Placed (seen ++ (Region.next l c cs).1.text) := by
  obtain ⟨inner, htext, -⟩ := Region.exists_text_next l c cs
  obtain ⟨rfl, hcomment⟩ | ⟨inner', closed, rest, hnext, hquote, -⟩ | ⟨hnext, -⟩ := Region.next_cases l c cs
  · unfold region
    generalize (Region.next l '/' cs).1 = r at hcomment htext
    rw [htext]
    cases r with
    | code c => cases hcomment
    | quoted q cs closed => cases hcomment
    | lineComment cs => exact h.goOn _
    | blockComment cs closed =>
      cases closed with
      | true => exact h.goOn _
      | false => exact h.fault (show marks .unterminatedComment '/' from rfl) inner
  · unfold region
    rw [htext, hnext]
    cases closed with
    | true => exact h.goOn _
    | false => exact h.fault (marks_openLiteral hquote) inner
  · obtain ⟨hopened, hfaults⟩ := bracket_reports n c
    rw [hnext]
    constructor
    · change (n.bracket c).here.afterAll [c] = _
      rw [here_bracket]
      exact (h.goOn [c]).here
    · intro b hb
      rcases hopened b hb with hb | rfl
      · exact (h.opened b hb).append [c]
      · exact h.here ▸ found_next (show marks (.unclosedBracket c.toString) c from rfl) seen []
    · intro d hd
      rcases hfaults d hd with hd | ⟨cause, hcause, rfl⟩
      · exact (h.faults d hd).append [c]
      · exact h.here ▸ found_next hcause seen []

theorem Placed.regions (h : n.Placed seen) (cs : List Char) :
    ((regions l cs).foldl (region l) n).Placed (seen ++ cs) := by
  induction cs using regions_induction (l := l) generalizing n seen with
  | nil => simpa [Scan.regions, Region.split] using h
  | cons c cs ih =>
    obtain ⟨inner, htext, happend⟩ := Region.exists_text_next l c cs
    have hnext := ih (h.next (l := l) c cs)
    rwa [append_assoc, htext, cons_append, happend, ← foldl_cons, ← regions_cons] at hnext

end Nesting

theorem structuralFaults_found (l : Language) (source : List Char) :
    ∀ d ∈ structuralFaults l source, Found source d := by
  have hempty : Nesting.empty.Placed [] := ⟨rfl, nofun, nofun⟩
  have h := hempty.regions (l := l) source
  refine forall_mem_append.2 ⟨fun d hd => h.faults d (mem_reverse.1 hd), ?_⟩
  exact forall_mem_map.2 fun b hb => h.opened b (mem_reverse.1 hb)

/-- Nothing moves: the masked text, the text without its imports and its mask have the length of the source
and its line feeds, and elsewhere its characters or blanks; and every fault is reported at the line and the
column of a character that it is about. -/
theorem masking_and_lifting_move_nothing (l : Language) (source : List Char) :
    let lifted := liftImports l source (mask l source)
    (∀ text ∈ [mask l source, lifted.source, lifted.masked], text.length = source.length ∧
      (∀ i : Nat, text[i]? = some '\n' ↔ source[i]? = some '\n') ∧
      ∀ (i : Nat) (c d : Char), source[i]? = some c → text[i]? = some d → d = c ∨ d = ' ') ∧
    ∀ d ∈ structuralFaults l source, ∃ k c, source[k]? = some c ∧ marks d.cause c ∧
      d.line = some ((source.take k).count '\n' + 1) ∧
      d.column = some (((source.take k).reverse.takeWhile (· != '\n')).length + 1) := by
  intro lifted
  constructor
  · have hveiled : ∀ text ∈ [mask l source, lifted.source, lifted.masked], Veiled source text := by
      simp only [List.forall_mem_cons]
      exact ⟨veiled_mask l source, veiled_foldl _ source, (veiled_mask l source).trans (veiled_foldl _ _), List.forall_mem_nil _⟩
    intro text htext
    have h := hveiled text htext
    exact ⟨h.length_eq, fun i => (h.getElem? i).1, fun i => (h.getElem? i).2⟩
  · intro d hd
    obtain ⟨k, c, hk, hc, hplace⟩ := structuralFaults_found l source d hd
    rw [Position.ofOffset_eq] at hplace
    exact ⟨k, c, hk, hc, hplace⟩

/-! ### Segments in their places -/

section

open Token Lexeme

variable {source : List Char} {s : Segment}

theorem ofOffset_add (source : List Char) (i k : Nat) :
    Position.ofOffset source (i + k) = (Position.ofOffset source i).afterAll ((source.drop i).take k) := by
  rw [Position.ofOffset, Position.ofOffset, ← Position.afterAll_append, ← take_add]

theorem afterAll_ofOffset_margin (source : List Char) (k : Nat) :
    Position.start.afterAll (Segment.margin (.ofOffset source k)) = .ofOffset source k :=
  afterAll_margin (one_le_afterAll (Nat.le_refl 1) (Nat.le_refl 1) _).1
    (one_le_afterAll (Nat.le_refl 1) (Nat.le_refl 1) _).2

/-- What stands in the text that is read for a segment stands in the segment, at its place in the source. -/
theorem Located.inSource {piece : List Char} {q r : Position} (hstart : s.start ≤ s.stop) (hstop : s.stop ≤ source.length)
    (h : Located .start (s.inPlace source) piece q r) : ∃ k, s.start ≤ k ∧ k + piece.length ≤ s.stop ∧
      (source.drop k).take piece.length = piece ∧ q = .ofOffset source k ∧ r = .ofOffset source (k + piece.length) := by
  obtain ⟨before, after, hwhole, ⟨c, hc, hspace⟩, rfl, rfl⟩ := h
  -- the margin is blank, so the piece begins behind it
  obtain ⟨before', rfl, htext⟩ : ∃ before', before = Segment.margin (.ofOffset source s.start) ++ before' ∧
      (source.drop s.start).take (s.stop - s.start) = before' ++ (piece ++ after) := by
    obtain hbehind | ⟨bs, hmargin, hpiece⟩ := List.append_eq_append_iff.1 hwhole
    · exact hbehind
    · cases bs with
      | nil => exact ⟨[], by simpa using hmargin.symm, hpiece.symm⟩
      | cons d bs =>
        obtain ⟨piece', rfl⟩ := List.head?_eq_some_iff.1 hc
        injection hpiece with hcd
        have hd : c ∈ Segment.margin (.ofOffset source s.start) := by simp [hmargin, hcd]
        rw [Segment.margin, List.mem_append, List.mem_replicate, List.mem_replicate] at hd
        rcases hd with ⟨-, rfl⟩ | ⟨-, rfl⟩ <;> cases hspace
  have hdrop : source.drop s.start = before' ++ (piece ++ (after ++ source.drop s.stop)) := by
    rw [← List.take_append_drop (s.stop - s.start) (source.drop s.start), htext, List.drop_drop,
      Nat.add_sub_cancel' hstart, List.append_assoc, List.append_assoc]
  have hlength := congrArg List.length htext
  rw [List.length_take, List.length_drop, List.length_append, List.length_append] at hlength
  have hplace : (Position.ofOffset source s.start).afterAll before' = .ofOffset source (s.start + before'.length) := by
    rw [ofOffset_add, hdrop, List.take_left]
  refine ⟨s.start + before'.length, by omega, by omega, ?_, ?_, ?_⟩
  · rw [← List.drop_drop, hdrop, List.drop_left, List.take_left]
  · rw [Position.afterAll_append, afterAll_ofOffset_margin, hplace]
  · rw [Position.afterAll_append, afterAll_ofOffset_margin, hplace, ofOffset_add source (s.start + before'.length),
      ← List.drop_drop, hdrop, List.drop_left, List.take_left]

/-- A segment is read at its place: each of its characters has the line and the column in the text that is
read which it has in the source, and so have the tokens of that text and its stray character, if any. -/
theorem segments_are_read_in_place {l : Language} {source : List Char} {s : Segment} (hstart : s.start < s.stop)
    (hstop : s.stop ≤ source.length) :
    (∀ ss, Stmt.readAll l (s.inPlace source) = .ok ss → Stmt.readSegment l source s = (ss, none)) ∧
    (∀ p, s.start ≤ p → p < s.stop →
      let q := (Segment.margin (.ofOffset source s.start)).length + (p - s.start)
      (s.inPlace source)[q]? = source[p]? ∧ Position.ofOffset (s.inPlace source) q = .ofOffset source p) ∧
    (∀ t ∈ (lex l (s.inPlace source)).1, ∃ k, s.start ≤ k ∧ k + t.text.length ≤ s.stop ∧
      (source.drop k).take t.text.length = t.text.toList ∧ t.span.start = .ofOffset source k ∧
      ⟨t.span.endLine, t.span.endColumn⟩ = Position.ofOffset source (k + t.text.length)) ∧
    ∀ e ∈ (lex l (s.inPlace source)).2, ∃ k, s.start ≤ k ∧ k < s.stop ∧ source[k]? = some e.char ∧
      e.position = .ofOffset source k := by
  obtain ⟨htokens, hstray⟩ := lexFrom_located l (s.inPlace source).length .start (s.inPlace source)
  refine ⟨fun ss => Stmt.readSegment_of_ok, fun p hp hp' => ⟨?_, ?_⟩, fun t ht => ?_, fun e he => ?_⟩
  · rw [Segment.inPlace, List.getElem?_append_right (by omega), Nat.add_sub_cancel_left,
      List.getElem?_take_of_lt (by omega), List.getElem?_drop, Nat.add_sub_cancel' hp]
  · rw [Segment.inPlace, Position.ofOffset, List.take_length_add_append, Position.afterAll_append,
      afterAll_ofOffset_margin, List.take_take, Nat.min_eq_left (by omega), ← ofOffset_add, Nat.add_sub_cancel' hp]
  · exact (htokens t ht).inSource hstart.le hstop
  · obtain ⟨k, hk, hk', hchar, hplace, -⟩ := (hstray e he).inSource hstart.le hstop
    refine ⟨k, hk, hk', ?_, hplace⟩
    have hhead := congrArg List.head? hchar
    rwa [List.head?_take, if_neg (by simp), List.head?_drop] at hhead

def twoLines : List Char := ['a', '\n', 'b', ' ', 'c', ';']

theorem segments_are_read_in_place_sample : (4 < 6 ∧ 6 ≤ twoLines.length) ∧
    (Segment.inPlace twoLines ⟨4, 6⟩)[3]? = some 'c' ∧ Position.ofOffset (Segment.inPlace twoLines ⟨4, 6⟩) 3 = ⟨2, 3⟩ := by
  refine ⟨by decide, ?_⟩
  have h := @segments_are_read_in_place .java twoLines ⟨4, 6⟩ (by decide) (by decide)
  exact h.2.1 4 (by decide) (by decide)

end

end Scan

end Blackboard
