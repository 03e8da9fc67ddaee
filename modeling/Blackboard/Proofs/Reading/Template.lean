import Blackboard.Proofs.Recovery.Reading

/-!
Templates cut at their holes. The pieces of a template, each hole in its marks again, join to the text of
the template, unless the text ends within a hole: such a hole loses its last character.
-/
namespace Blackboard.Source

open List

/-- A piece of a template whose holes are not read yet. -/
inductive Fragment where
  | text (cs : List Char)
  | hole (cs : List Char)
deriving DecidableEq, Repr

namespace Fragment

open TemplatePart (takeHole cut flush)

def part (read : List Char → Expr) : Fragment → TemplatePart
  | text cs => .text (String.ofList cs)
  | hole cs => .hole (read cs)

def spelled : Fragment → List Char
  | text cs => cs
  | hole cs => '$' :: '\x7b' :: cs ++ ['\x7d']

def joined (fs : List Fragment) : List Char := fs.flatMap spelled

/-- How many braces are still to be closed where the text of a template ends, if it begins within
`depth` braces of a hole. Outside of holes a backslash takes the next character along. -/
def leftOpen : (depth : Nat) → List Char → Nat
  | depth, [] => depth
  | 0, '\\' :: _ :: cs => leftOpen 0 cs
  | 0, '$' :: '\x7b' :: cs => leftOpen 1 cs
  | 0, _ :: cs => leftOpen 0 cs
  | depth + 1, c :: cs =>
    leftOpen (if c = '\x7b' then depth + 2 else if c = '\x7d' then depth else depth + 1) cs

theorem takeHole_cases (depth : Nat) (acc cs : List Char) :
    (∃ hole rest, takeHole (depth + 1) acc cs = (hole, rest) ∧ acc.reverse ++ cs = hole ++ '\x7d' :: rest ∧
      leftOpen (depth + 1) cs = leftOpen 0 rest) ∨
    (takeHole (depth + 1) acc cs = ((acc.reverse ++ cs).dropLast, []) ∧ leftOpen (depth + 1) cs ≠ 0) := by
  induction cs generalizing depth acc with
  | nil => exact .inr ⟨by simp [takeHole], Nat.succ_ne_zero _⟩
  | cons c cs ih =>
    have hcons : acc.reverse ++ c :: cs = (c :: acc).reverse ++ cs := by simp
    by_cases hopen : c = '\x7b'
    · simpa [takeHole, leftOpen, hopen] using ih (depth + 1) (c :: acc)
    · by_cases hclose : c = '\x7d'
      · cases depth with
        | zero => exact .inl ⟨acc.reverse, cs, by simp [takeHole, hclose], by simp [hclose], by simp [leftOpen, hclose]⟩
        | succ depth => simpa [takeHole, leftOpen, hclose] using ih depth (c :: acc)
      · simpa [takeHole, leftOpen, hopen, hclose] using ih depth (c :: acc)

/-- What the pieces of a text join to: the text, but with a brace for the last character of a hole that
is left open. -/
structure Rejoined (content out : List Char) : Prop where
  closed : leftOpen 0 content = 0 → out = content
  leftOpen : leftOpen 0 content ≠ 0 → ∃ before hole, content = before ++ '$' :: '\x7b' :: hole ∧
    out = before ++ spelled (.hole hole.dropLast)

theorem Rejoined.append {content out : List Char} (h : Rejoined content out) (before : List Char) {whole}
    (hwhole : whole = before ++ content) (hopen : Fragment.leftOpen 0 whole = Fragment.leftOpen 0 content) :
    Rejoined whole (before ++ out) where
  closed hzero := by rw [h.closed (hopen ▸ hzero), hwhole]
  leftOpen hne := by
    obtain ⟨before', hole, hcontent, hout⟩ := h.leftOpen (hopen ▸ hne)
    exact ⟨before ++ before', hole, by rw [hwhole, hcontent, append_assoc], by rw [hout, append_assoc]⟩

/-- The fragments `fs`, and before them what was taken for text already. -/
def afterText (acc : List Char) (fs : List Fragment) : List Fragment :=
  if acc.isEmpty then fs else text acc.reverse :: fs

theorem joined_afterText (acc : List Char) (fs : List Fragment) :
    joined (afterText acc fs) = acc.reverse ++ joined fs := by
  cases acc <;> rfl

theorem map_afterText (read : List Char → Expr) (acc : List Char) (fs : List Fragment) :
    (afterText acc fs).map (part read) = flush acc (fs.map (part read)) := by
  cases acc <;> rfl

theorem rejoined_nil : Rejoined [] [] := ⟨fun _ => rfl, fun h => absurd rfl h⟩

theorem cut_nil (read : List Char → Expr) (fuel : Nat) (acc : List Char) : cut read fuel acc [] = flush acc [] := by
  cases fuel <;> rfl

theorem exists_fragments (acc cs : List Char) : ∃ fs out, joined fs = acc.reverse ++ out ∧ Rejoined cs out ∧
    ∀ (read : List Char → Expr) (fuel : Nat), cs.length ≤ fuel → cut read fuel acc cs = fs.map (part read) := by
  -- The induction is that of `cut` with enough fuel; how holes are read does not matter.
  obtain ⟨n, hn⟩ : ∃ n, cs.length ≤ n := ⟨_, Nat.le_refl _⟩
  have hnil (acc : List Char) : ∃ fs out, joined fs = acc.reverse ++ out ∧ Rejoined [] out ∧
      ∀ (read : List Char → Expr) (fuel : Nat), ([] : List Char).length ≤ fuel →
        cut read fuel acc [] = fs.map (part read) :=
    ⟨afterText acc [], [], joined_afterText acc [], rejoined_nil, fun read fuel _ => by
      rw [cut_nil, map_afterText, map_nil]⟩
  fun_induction cut (fun hole => .identifier .unplaced (String.ofList hole)) n acc cs with
  | case1 acc cs =>
    obtain rfl := length_eq_zero_iff.1 (Nat.le_zero.1 hn)
    exact hnil acc
  | case2 n acc => exact hnil acc
  | case3 n acc c cs ih =>
    rw [length_cons, length_cons] at hn
    obtain ⟨fs, out, hjoined, hout, hcut⟩ := ih (by omega)
    refine ⟨fs, '\\' :: c :: out, by simp [hjoined], hout.append ['\\', c] rfl rfl, ?_⟩
    intro read fuel hfuel
    obtain ⟨fuel, rfl⟩ := Nat.exists_eq_succ_of_ne_zero (Nat.ne_zero_of_lt hfuel)
    rw [length_cons, length_cons] at hfuel
    rw [cut, hcut read fuel (by omega)]
  | case4 n acc cs hole rest hhole ih =>
    have hlength := (TemplatePart.length_takeHole_le 1 [] cs).2
    rw [hhole] at hlength
    rw [length_cons, length_cons] at hn
    obtain ⟨fs, out, hjoined, hout, hcut⟩ := ih (by simp only at hlength; omega)
    refine ⟨afterText acc (.hole hole :: fs), spelled (.hole hole) ++ out, ?_, ?_, ?_⟩
    · rw [joined_afterText, joined, flatMap_cons, ← joined, hjoined]
      rfl
    · obtain ⟨hole', rest', heq, hcs, hopen⟩ | ⟨heq, hopen⟩ := takeHole_cases 0 [] cs
      · cases hhole.symm.trans heq
        refine hout.append _ ?_ hopen
        simpa [spelled] using hcs
      · cases hhole.symm.trans heq
        rw [hout.closed rfl, append_nil]
        exact ⟨fun hclosed => absurd hclosed hopen, fun _ => ⟨[], cs, rfl, rfl⟩⟩
    · intro read fuel hfuel
      obtain ⟨fuel, rfl⟩ := Nat.exists_eq_succ_of_ne_zero (Nat.ne_zero_of_lt hfuel)
      rw [length_cons, length_cons] at hfuel
      rw [cut, hhole, map_afterText, map_cons, part]
      dsimp only at hlength ⊢
      rw [hcut read fuel (by omega)]
  | case5 n acc c cs hescape hhole ih =>
    rw [length_cons] at hn
    obtain ⟨fs, out, hjoined, hout, hcut⟩ := ih (by omega)
    refine ⟨fs, c :: out, by simp [hjoined], hout.append [c] rfl ?_, ?_⟩
    · rw [Fragment.leftOpen]
      · exact hescape
      · exact hhole
    · intro read fuel hfuel
      obtain ⟨fuel, rfl⟩ := Nat.exists_eq_succ_of_ne_zero (Nat.ne_zero_of_lt hfuel)
      rw [cut, hcut read fuel (Nat.le_of_succ_le_succ hfuel)]
      · exact hescape
      · exact hhole

theorem unquoted_template (content : List Char) : unquoted (String.ofList ('`' :: content ++ ['`'])) = content := by
  simp [unquoted]

/-- However its holes are read, a template whose text is `content` is cut into the same fragments, with any
fuel that suffices. If no hole is left open where the text ends, they join to the text. -/
theorem template_pieces_join_unless_left_open (content : List Char) : ∃ fs : List Fragment,
    (∀ (read : Span → List Char → Expr) (span : Span),
      Piece.ofToken read ⟨.template, String.ofList ('`' :: content ++ ['`']), span⟩ =
        .ok (.expr (.template span (fs.map (part (read span)))))) ∧
    (∀ (read : List Char → Expr) (fuel : Nat), content.length ≤ fuel →
      cut read fuel [] content = fs.map (part read)) ∧
    (leftOpen 0 content = 0 → joined fs = content) ∧
    (leftOpen 0 content ≠ 0 → ∃ before hole, content = before ++ '$' :: '\x7b' :: hole ∧
      joined fs = before ++ spelled (.hole hole.dropLast)) := by
  obtain ⟨fs, out, hjoined, hout, hcut⟩ := exists_fragments [] content
  rw [List.reverse_nil, List.nil_append] at hjoined
  refine ⟨fs, fun read span => ?_, hcut, fun h => ?_, fun h => ?_⟩
  · rw [Piece.ofToken, unquoted_template]
    dsimp only
    rw [hcut _ _ (Nat.le_refl _)]
  · rw [hjoined, hout.closed h]
  · rw [hjoined]
    exact hout.leftOpen h

/-- A template whose only hole is never closed. -/
def openTemplate : List Char := ['$', '\x7b', 'a', 'b']

theorem cut_openTemplate (read : List Char → Expr) :
    cut read openTemplate.length [] openTemplate = [.hole (read ['a'])] := rfl

theorem openTemplate_loses_character : ¬∃ fs : List Fragment,
    (∀ (read : Span → List Char → Expr) (span : Span),
      Piece.ofToken read ⟨.template, String.ofList ('`' :: openTemplate ++ ['`']), span⟩ =
        .ok (.expr (.template span (fs.map (part (read span)))))) ∧ joined fs = openTemplate := by
  rintro ⟨fs, hread, hjoined⟩
  have hparts := hread (fun span hole => .identifier span (String.ofList hole)) .unplaced
  rw [Piece.ofToken, unquoted_template] at hparts
  dsimp only at hparts
  rw [cut_openTemplate] at hparts
  injection hparts with hparts
  injection hparts with hparts
  injection hparts with _ hparts
  obtain ⟨f, rfl, hf⟩ := List.map_eq_singleton_iff.1 hparts.symm
  cases f with
  | text cs => cases hf
  | hole cs =>
    injection hf with hf
    injection hf with _ hf
    obtain rfl := String.ofList_injective hf
    cases hjoined

end Fragment

end Blackboard.Source
