import Blackboard.Pseudo.Type

/-!
The text of a type reads back. A size is any text without the mark that ends it: the mark begins with a
bracket and holds no other, so it cannot begin in a size and end behind it.
-/
namespace Blackboard.Pseudo

theorem Scalar.ofText_text {s : Scalar} (h : s ∈ known) : ofText s.text = s := by
  simp only [known, List.mem_cons, List.not_mem_nil, or_false] at h
  rcases h with rfl | rfl | rfl | rfl | rfl <;> decide

namespace Kind

theorem after?_append (p cs : List Char) : after? p (p ++ cs) = some cs := by
  induction p with
  | nil => rfl
  | cons d p ih => simpa [after?] using ih

theorem eq_append_of_after? {p cs rest : List Char} (h : after? p cs = some rest) : cs = p ++ rest := by
  fun_induction after? p cs with
  | case1 cs => exact Option.some.inj h
  | case2 => cases h
  | case3 p d cs ih => rw [ih h, List.cons_append]
  | case4 => cases h

theorem cut?_append {d : Char} {mark size : List Char} (hd : d ∉ mark) (h : ¬d :: mark <:+: size) (rest : List Char) :
    cut? (d :: mark) (size ++ (d :: mark ++ rest)) = some (size, rest) := by
  induction size with
  | nil =>
    have hafter := after?_append (d :: mark) rest
    rw [List.cons_append] at hafter
    rw [List.nil_append, List.cons_append, cut?, hafter]
  | cons c size ih =>
    have hafter : after? (d :: mark) (c :: (size ++ (d :: mark ++ rest))) = none := by
      refine Option.eq_none_iff_forall_ne_some.2 fun r hr => ?_
      -- the mark found ends within the size, or the bracket of the mark behind the size is in the mark found
      have heq := eq_append_of_after? hr
      rw [← List.cons_append] at heq
      rcases List.append_eq_append_iff.1 heq with ⟨as, hmark, hrest⟩ | ⟨bs, hsize, -⟩
      · obtain ⟨rfl, rfl⟩ := List.cons.inj hmark
        cases as with
        | nil => exact h (by simp)
        | cons a as =>
          obtain ⟨rfl, -⟩ := List.cons.inj hrest
          exact hd (by simp)
      · exact h ⟨[], bs, by rw [hsize, List.nil_append]⟩
    rw [List.cons_append, cut?, hafter, ih fun hsize => h (hsize.trans (List.suffix_cons c size).isInfix)]
    rfl

/-- Whether a size can be told from what follows it. -/
def IsSize (s : String) : Prop := ¬"] OF ".toList <:+: s.toList

theorem readSizes_text {sizes : List String} (h : ∀ s ∈ sizes, IsSize s) {base : String}
    (hbase : after? "ARRAY[1:".toList base.toList = none) {fuel : Nat} (hfuel : sizes.length ≤ fuel) :
    readSizes fuel (sizes.foldr (fun size rest => "ARRAY[1:" ++ size ++ "] OF " ++ rest) base).toList =
      some (sizes, base.toList) := by
  induction sizes generalizing fuel with
  | nil =>
    cases fuel with
    | zero => rfl
    | succ fuel => simp only [List.foldr_nil, readSizes, hbase]
  | cons s sizes ih =>
    obtain ⟨hs, hsizes⟩ := List.forall_mem_cons.1 h
    obtain ⟨fuel, rfl⟩ : ∃ n, fuel = n + 1 := ⟨fuel - 1, by simp at hfuel; omega⟩
    have hrest := ih hsizes (Nat.le_of_succ_le_succ hfuel)
    have hcut (rest : List Char) : cut? "] OF ".toList (s.toList ++ ("] OF ".toList ++ rest)) = some (s.toList, rest) :=
      cut?_append (by decide) hs rest
    simp only [List.foldr_cons, String.toList_append, List.append_assoc, readSizes, after?_append, hcut,
      Option.bind_eq_bind, Option.bind_some, hrest, String.ofList_toList]

theorem ofText?_text {k : Kind} (hknown : k.base ∈ Scalar.known) (h : ∀ s ∈ k.sizes, IsSize s) :
    ofText? k.text = some { base := k.base, sizes := k.sizes } := by
  have hbase : ∀ s ∈ Scalar.known, after? "ARRAY[1:".toList s.text.toList = none := by decide
  have hlength : k.sizes.length ≤ k.text.toList.length := by
    unfold text
    induction k.sizes with
    | nil => exact Nat.zero_le _
    | cons s sizes ih =>
      simp only [List.foldr_cons, String.toList_append, List.length_append, List.length_cons]
      simp only [String.length_toList] at ih ⊢
      have : "ARRAY[1:".length = 8 := by decide
      omega
  have hread := readSizes_text h (hbase k.base hknown) hlength
  unfold ofText?
  rw [show k.text.toList = (k.sizes.foldr (fun size rest => "ARRAY[1:" ++ size ++ "] OF " ++ rest)
    k.base.text).toList from rfl] at hread ⊢
  simp only [hread, Option.map_some, String.ofList_toList, Scalar.ofText_text hknown]

/-- A type of any number of dimensions reads back from its text with its base and its sizes, whatever
brackets are in these, and so does its element with all sizes but the first. -/
theorem rendered_types_read_back (k : Kind) (hbase : k.base ∈ Scalar.known)
    (hsizes : ∀ s ∈ k.sizes, ¬"] OF ".toList <:+: s.toList) :
    (∃ r, ofText? k.text = some r ∧ r.base = k.base ∧ r.sizes = k.sizes) ∧
      ∃ r, ofText? k.element.text = some r ∧ r.base = k.base ∧ r.sizes = k.sizes.drop 1 :=
  ⟨⟨_, ofText?_text hbase hsizes, rfl, rfl⟩,
    ⟨_, ofText?_text (k := k.element) hbase fun s hs => hsizes s (List.mem_of_mem_drop hs), rfl, rfl⟩⟩

/-- A table whose rows are as many as a list has elements, and whose sizes hold brackets. -/
def tableKind : Kind := { base := .real, sizes := ["LENGTH(a[1])", "b[n] OF"] }

theorem rendered_types_read_back_table :
    tableKind.text = "ARRAY[1:LENGTH(a[1])] OF ARRAY[1:b[n] OF] OF REAL" ∧
      ∃ r, ofText? tableKind.element.text = some r ∧ r.base = .real ∧ r.sizes = ["b[n] OF"] :=
  ⟨by decide +kernel, (rendered_types_read_back tableKind (by decide) (by decide +kernel)).2⟩

end Kind

end Blackboard.Pseudo
