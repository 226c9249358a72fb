import Mathlib.Data.List.TakeWhile

/-!
# Words

The conversion `%<n>s` of `scanf`, over any symbols: blanks are skipped, then at most `n` symbols
that are not blank are taken.

`scanWord_eq_some_iff`: the word is the longest one the width allows.
-/

namespace P2P.Lib

variable {α : Type*} (blank : α → Bool) (n : Nat)

/-- The word and what is behind it. -/
def scanWord (s : List α) : Option (List α × List α) :=
  let s := s.dropWhile blank
  if s.isEmpty then none
  else
    let word := (s.takeWhile fun c => !blank c).take n
    some (word, s.drop word.length)

/-- The text is a word of at most `n` symbols, as long as `rest` behind it and `n` allow. -/
structure IsWord (word rest : List α) : Prop where
  ne_nil : word ≠ []
  no_blank : ∀ c ∈ word, blank c = false
  le_width : word.length ≤ n
  longest : word.length < n → ∀ c ∈ rest.head?, blank c

variable {blank n} {s gap word rest : List α}

theorem dropWhile_gap (hgap : ∀ c ∈ gap, blank c) (hword : word ≠ [])
    (hno : ∀ c ∈ word, blank c = false) :
    (gap ++ (word ++ rest)).dropWhile blank = word ++ rest := by
  obtain ⟨c, word, rfl⟩ := List.exists_cons_of_ne_nil hword
  have hc : ¬ blank c = true := by simp [hno c List.mem_cons_self]
  rw [List.dropWhile_append_of_pos hgap, List.cons_append, List.dropWhile_cons_of_neg hc]

theorem take_takeWhile (h : IsWord blank n word rest) :
    ((word ++ rest).takeWhile fun c => !blank c).take n = word := by
  have hno : ∀ c ∈ word, (!blank c) = true := fun c hc => by rw [h.no_blank c hc, Bool.not_false]
  rw [List.takeWhile_append_of_pos hno]
  rcases Nat.lt_or_ge word.length n with hlt | hge
  · -- the word ends at a blank, or with the text
    have hstop : (rest.takeWhile fun c => !blank c) = [] := by
      cases rest with
      | nil => rfl
      | cons c rest =>
        have hc : blank c = true := h.longest hlt c rfl
        exact List.takeWhile_cons_of_neg (by simp [hc])
    rw [hstop, List.append_nil, List.take_of_length_le h.le_width]
  · rw [← Nat.le_antisymm h.le_width hge, List.take_left]

theorem isWord_take (hn : 0 < n) {c : α} {t : List α} (hc : blank c = false) :
    ∃ word rest, c :: t = word ++ rest ∧ IsWord blank n word rest := by
  let run := (c :: t).takeWhile fun c => !blank c
  have hrun : run ≠ [] := by simp [run, hc]
  have hno : ∀ c ∈ run, blank c = false := fun c h => by simpa using List.mem_takeWhile_imp h
  refine ⟨run.take n, run.drop n ++ (c :: t).dropWhile fun c => !blank c, ?_, ?_, ?_, ?_, ?_⟩
  · rw [← List.append_assoc, List.take_append_drop, List.takeWhile_append_dropWhile]
  · simp [hrun, hn.ne']
  · exact fun c h => hno c (List.mem_of_mem_take h)
  · exact List.length_take_le ..
  · intro hlt d hd
    rw [List.length_take] at hlt
    rw [List.drop_of_length_le (by omega), List.nil_append] at hd
    have hstop := List.head?_dropWhile_not (fun c => !blank c) (c :: t)
    rw [Option.mem_def.mp hd] at hstop
    simpa using hstop

theorem scanWord_eq_some_iff (hn : 0 < n) : scanWord blank n s = some (word, rest) ↔
    ∃ gap, s = gap ++ (word ++ rest) ∧ (∀ c ∈ gap, blank c) ∧ IsWord blank n word rest := by
  have hscan : ∀ {gap word rest : List α}, (∀ c ∈ gap, blank c) → IsWord blank n word rest →
      scanWord blank n (gap ++ (word ++ rest)) = some (word, rest) := by
    intro gap word rest hgap hword
    unfold scanWord
    simp only [dropWhile_gap hgap hword.ne_nil hword.no_blank, take_takeWhile hword]
    rw [if_neg (by simp [hword.ne_nil]), List.drop_left]
  constructor
  · intro h
    have hne : s.dropWhile blank ≠ [] := by
      intro hnil
      unfold scanWord at h
      rw [hnil] at h
      cases h
    obtain ⟨c, t, ht⟩ := List.exists_cons_of_ne_nil hne
    have hc : blank c = false := by
      have hhead := List.head_dropWhile_not blank hne
      simpa only [ht, List.head_cons] using hhead
    obtain ⟨word', rest', heq, hword⟩ := isWord_take hn (t := t) hc
    have hs : s = s.takeWhile blank ++ (word' ++ rest') := by
      rw [← heq, ← ht, List.takeWhile_append_dropWhile]
    have hgap : ∀ c ∈ s.takeWhile blank, blank c = true := fun c hc => List.mem_takeWhile_imp hc
    rw [hs, hscan hgap hword] at h
    cases h
    exact ⟨_, hs, hgap, hword⟩
  · rintro ⟨gap, rfl, hgap, hword⟩
    exact hscan hgap hword

end P2P.Lib
