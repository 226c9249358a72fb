import Mathlib.Algebra.GroupWithZero.Nat
import Mathlib.Data.List.Basic

/-!
# Texts and their lines

A text is a list of symbols, one of which ends a line. `lines` are the lines of a text that have
ended, `unended` is what is behind the last of them.

* `line_induct`: induction over a text line by line;
* `lines_append`, `unended_append`: a text that grows is split as if it came at once.
-/

namespace P2P.Lib

variable {α : Type*} [DecidableEq α] (nl : α) {l m line : List α}

/-- The lines of a text that have ended, without their ends. -/
def lines (l : List α) : List (List α) := (l.splitOn nl).dropLast

/-- What is behind the last line that has ended. -/
def unended (l : List α) : List α := (l.splitOn nl).getLast (List.splitOn_ne_nil nl l)

variable {nl}

theorem lines_of_not_mem (h : nl ∉ l) : lines nl l = [] := by
  rw [lines, List.splitOn_eq_singleton h, List.dropLast_singleton]

theorem unended_of_not_mem (h : nl ∉ l) : unended nl l = l := by
  simp only [unended, List.splitOn_eq_singleton h, List.getLast_singleton]

theorem lines_cons (h : nl ∉ line) (l : List α) :
    lines nl (line ++ nl :: l) = line :: lines nl l := by
  rw [lines, List.splitOn_append_cons_self_of_not_mem h,
    List.dropLast_cons_of_ne_nil (List.splitOn_ne_nil nl l), lines]

theorem unended_cons (h : nl ∉ line) (l : List α) :
    unended nl (line ++ nl :: l) = unended nl l := by
  simp only [unended, List.splitOn_append_cons_self_of_not_mem h,
    List.getLast_cons (List.splitOn_ne_nil nl l)]

/-- **Induction over a text**, line by line. -/
theorem line_induct (nl : α) {P : List α → Prop} (hend : ∀ l, nl ∉ l → P l)
    (hline : ∀ line l, nl ∉ line → P l → P (line ++ nl :: l)) (l : List α) : P l := by
  induction hlen : l.length using Nat.strongRecOn generalizing l with
  | ind n ih =>
    by_cases hmem : nl ∈ l
    · obtain ⟨line, rest, rfl, hno⟩ := List.eq_append_cons_of_mem hmem
      rw [List.length_append, List.length_cons] at hlen
      exact hline line rest hno (ih rest.length (by omega) rest rfl)
    · exact hend l hmem

theorem not_mem_unended (l : List α) : nl ∉ unended nl l := by
  induction l using line_induct nl with
  | hend l h => rwa [unended_of_not_mem h]
  | hline line l h ih => rwa [unended_cons h]

theorem unended_suffix (l : List α) : unended nl l <:+ l := by
  induction l using line_induct nl with
  | hend l h => exact ⟨[], by rw [unended_of_not_mem h, List.nil_append]⟩
  | hline line l h ih =>
    rw [unended_cons h]
    exact (ih.trans (List.suffix_cons nl l)).trans (List.suffix_append line _)

theorem lines_eq_nil_iff : lines nl l = [] ↔ nl ∉ l := by
  refine ⟨fun h hmem => ?_, lines_of_not_mem⟩
  obtain ⟨line, rest, rfl, hno⟩ := List.eq_append_cons_of_mem hmem
  rw [lines_cons hno] at h
  cases h

theorem length_lines (nl : α) (l : List α) :
    ((lines nl l).map fun line => line.length + 1).sum + (unended nl l).length = l.length := by
  induction l using line_induct nl with
  | hend l h => simp [lines_of_not_mem h, unended_of_not_mem h]
  | hline line l h ih =>
    rw [lines_cons h, unended_cons h, List.map_cons, List.sum_cons, List.length_append,
      List.length_cons]
    omega

/-- **A text that grows**: only what is behind its last line is split again. -/
theorem lines_append (l m : List α) :
    lines nl (l ++ m) = lines nl l ++ lines nl (unended nl l ++ m) := by
  induction l using line_induct nl with
  | hend l h => rw [lines_of_not_mem h, unended_of_not_mem h, List.nil_append]
  | hline line l h ih =>
    rw [List.append_assoc, List.cons_append, lines_cons h, lines_cons h, unended_cons h, ih,
      List.cons_append]

theorem unended_append (l m : List α) :
    unended nl (l ++ m) = unended nl (unended nl l ++ m) := by
  induction l using line_induct nl with
  | hend l h => rw [unended_of_not_mem h]
  | hline line l h ih =>
    rw [List.append_assoc, List.cons_append, unended_cons h, unended_cons h, ih]

theorem lines_append_eq_left_iff : lines nl (l ++ m) = lines nl l ↔ nl ∉ m := by
  rw [lines_append, List.append_right_eq_self, lines_eq_nil_iff, List.mem_append, not_or,
    and_iff_right (not_mem_unended l)]

theorem unended_append_of_not_mem (h : nl ∉ m) : unended nl (l ++ m) = unended nl l ++ m := by
  rw [unended_append, unended_of_not_mem]
  rw [List.mem_append]
  exact not_or.mpr ⟨not_mem_unended l, h⟩

theorem unended_length_lt {n : Nat} (hlines : ∀ line ∈ lines nl (l ++ m), line.length < n)
    (htail : (unended nl (l ++ m)).length < n) : (unended nl l).length < n := by
  have hno : nl ∉ unended nl l := not_mem_unended l
  rw [lines_append] at hlines
  rw [unended_append] at htail
  by_cases hmem : nl ∈ m
  · obtain ⟨line, rest, rfl, hline⟩ := List.eq_append_cons_of_mem hmem
    have hfirst : nl ∉ unended nl l ++ line := by
      rw [List.mem_append]
      exact not_or.mpr ⟨hno, hline⟩
    rw [← List.append_assoc, lines_cons hfirst] at hlines
    have hlen := hlines (unended nl l ++ line) (List.mem_append_right _ List.mem_cons_self)
    rw [List.length_append] at hlen
    omega
  · have hend : nl ∉ unended nl l ++ m := by
      rw [List.mem_append]
      exact not_or.mpr ⟨hno, hmem⟩
    rw [unended_of_not_mem hend, List.length_append] at htail
    omega

end P2P.Lib
