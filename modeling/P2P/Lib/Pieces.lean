import P2P.Lib.Lines
import P2P.Lib.Runs

/-!
# Texts read in pieces

A reader with room for `n` symbols reads up to the end of a line, or as many symbols as fit. So a
line that is longer than the room comes in several pieces.

* `pieces`: a line, cut;
* `readPiece`: one call of the reader;
* `readLoop`: a loop over the pieces of a text, `f` its body;
* `readLoop_eq`: the loop is a run of `f` over the pieces of the lines (`textPieces`).
-/

namespace P2P.Lib

variable {α σ : Type*} {n : Nat} {l line rest : List α}

/-! ## Cutting -/

theorem length_drop_lt (hl : l ≠ []) (hn : n ≠ 0) : (l.drop n).length < l.length := by
  have := List.length_pos_iff.mpr hl
  rw [List.length_drop]
  omega

/-- A line with its end, cut into pieces of `n` symbols. -/
def pieces (n : Nat) (l : List α) : List (List α) :=
  if _ : l = [] ∨ n = 0 then []
  else l.take n :: pieces n (l.drop n)
termination_by l.length
decreasing_by
  rename_i h
  rw [not_or] at h
  exact length_drop_lt h.1 h.2

@[simp] theorem pieces_nil : pieces n ([] : List α) = [] := by
  rw [pieces, dif_pos (.inl rfl)]

theorem pieces_cons (hn : n ≠ 0) (hl : l ≠ []) : pieces n l = l.take n :: pieces n (l.drop n) := by
  rw [pieces, dif_neg (not_or.mpr ⟨hl, hn⟩)]

theorem pieces_of_length_le (hl : l ≠ []) (hlen : l.length ≤ n) : pieces n l = [l] := by
  have hpos := List.length_pos_iff.mpr hl
  rw [pieces_cons (by omega) hl, List.take_of_length_le hlen, List.drop_of_length_le hlen,
    pieces_nil]

theorem length_le_of_pieces (hn : n ≠ 0) (hlen : (pieces n l).length ≤ 1) : l.length ≤ n := by
  by_contra hlt
  have hl : l ≠ [] := fun h => by
    subst h
    exact hlt (Nat.zero_le n)
  have hdrop : l.drop n ≠ [] := fun h => hlt (List.drop_eq_nil_iff.mp h)
  rw [pieces_cons hn hl, pieces_cons hn hdrop] at hlen
  simp at hlen

theorem mem_pieces {piece : List α} (hn : n ≠ 0) (h : piece ∈ pieces n l) :
    piece ≠ [] ∧ piece ⊆ l := by
  induction l using pieces.induct n with
  | case1 l hl =>
    rw [pieces, dif_pos hl] at h
    cases h
  | case2 l hl ih =>
    rw [not_or] at hl
    rw [pieces_cons hn hl.1] at h
    rcases List.mem_cons.mp h with rfl | h
    · exact ⟨fun h => (List.take_eq_nil_iff.mp h).elim hn hl.1, List.take_subset n l⟩
    · exact ⟨(ih h).1, fun a ha => List.drop_subset n l ((ih h).2 ha)⟩

/-! ## Reading -/

variable [DecidableEq α]

/-- What one call reads, and what is left. -/
def readPiece (nl : α) : Nat → List α → List α × List α
  | 0, l => ([], l)
  | _ + 1, [] => ([], [])
  | n + 1, a :: l =>
    if a = nl then ([a], l)
    else
      let (piece, rest) := readPiece nl n l
      (a :: piece, rest)

/-- The loop over the pieces of a text, with a bound on the passes; `none` when it is too small or
the body fails. -/
def readLoop (nl : α) (n : Nat) (f : σ → List α → Option σ) : Nat → List α → σ → Option σ
  | 0, _, _ => none
  | k + 1, l, s =>
    match readPiece nl n l with
    | ([], _) => some s
    | (a :: piece, rest) => (f s (a :: piece)).bind (readLoop nl n f k rest)

/-- The pieces of all lines of a text, and of what is behind the last one. -/
def textPieces (nl : α) (n : Nat) (l : List α) : List (List α) :=
  (lines nl l).flatMap (fun line => pieces n (line ++ [nl])) ++ pieces n (unended nl l)

variable {nl : α}

theorem readPiece_take (h : nl ∉ l.take n) : readPiece nl n l = (l.take n, l.drop n) := by
  induction n generalizing l with
  | zero => rfl
  | succ n ih =>
    cases l with
    | nil => rfl
    | cons a l =>
      rw [List.take_succ_cons, List.mem_cons, not_or] at h
      rw [readPiece, if_neg (Ne.symm h.1), ih h.2]
      rfl

theorem readPiece_line (h : nl ∉ line) (hlen : line.length < n) :
    readPiece nl n (line ++ nl :: rest) = (line ++ [nl], rest) := by
  induction line generalizing n with
  | nil =>
    obtain ⟨k, rfl⟩ : ∃ k, n = k + 1 := ⟨n - 1, by rw [List.length_nil] at hlen; omega⟩
    rw [List.nil_append, readPiece, if_pos rfl, List.nil_append]
  | cons a line ih =>
    rw [List.mem_cons, not_or] at h
    rw [List.length_cons] at hlen
    obtain ⟨k, rfl⟩ : ∃ k, n = k + 1 := ⟨n - 1, by omega⟩
    rw [List.cons_append, readPiece, if_neg (Ne.symm h.1), ih h.2 (by omega)]
    rfl

theorem readPiece_ne_nil (nl : α) (hn : n ≠ 0) (hl : l ≠ []) : (readPiece nl n l).1 ≠ [] := by
  obtain ⟨n, rfl⟩ := Nat.exists_eq_succ_of_ne_zero hn
  cases l with
  | nil => exact absurd rfl hl
  | cons a l =>
    rw [Nat.succ_eq_add_one, readPiece]
    split <;> exact List.cons_ne_nil _ _

theorem readPiece_length (nl : α) (n : Nat) (l : List α) :
    (readPiece nl n l).1.length + (readPiece nl n l).2.length = l.length := by
  induction n generalizing l with
  | zero => simp [readPiece]
  | succ n ih =>
    cases l with
    | nil => rfl
    | cons a l =>
      have := ih l
      rw [readPiece]
      split
      · exact Nat.add_comm 1 l.length
      · simp only [List.length_cons]
        omega

theorem textPieces_of_not_mem (h : nl ∉ l) : textPieces nl n l = pieces n l := by
  rw [textPieces, lines_of_not_mem h, unended_of_not_mem h, List.flatMap_nil, List.nil_append]

theorem textPieces_cons (h : nl ∉ line) (l : List α) :
    textPieces nl n (line ++ nl :: l) = pieces n (line ++ [nl]) ++ textPieces nl n l := by
  rw [textPieces, lines_cons h, unended_cons h, List.flatMap_cons, List.append_assoc, textPieces]

theorem textPieces_lines {β : Type*} {text : β → List α} {ls : List β} (hls : ∀ b ∈ ls, nl ∉ text b)
    (h : nl ∉ l) : textPieces nl n (ls.flatMap (fun b => text b ++ [nl]) ++ l) =
      ls.flatMap (fun b => pieces n (text b ++ [nl])) ++ pieces n l := by
  induction ls with
  | nil => exact textPieces_of_not_mem h
  | cons b ls ih =>
    rw [List.forall_mem_cons] at hls
    rw [List.flatMap_cons, List.flatMap_cons, List.append_assoc, List.append_assoc,
      List.append_assoc, List.singleton_append, textPieces_cons hls.1, ih hls.2]

theorem textPieces_readPiece (hn : n ≠ 0) (hl : l ≠ []) :
    textPieces nl n l = (readPiece nl n l).1 :: textPieces nl n (readPiece nl n l).2 := by
  by_cases hmem : nl ∈ l
  · obtain ⟨line, rest, rfl, hno⟩ := List.eq_append_cons_of_mem hmem
    rw [textPieces_cons hno]
    by_cases hlen : line.length < n
    · -- the line fits
      have hfits : (line ++ [nl]).length ≤ n := by
        rw [List.length_append, List.length_singleton]
        omega
      rw [readPiece_line hno hlen, pieces_of_length_le (by simp) hfits, List.singleton_append]
    · have hle : n ≤ line.length := by omega
      have htake : (line ++ nl :: rest).take n = line.take n := List.take_append_of_le_length hle
      have hdrop : (line ++ nl :: rest).drop n = line.drop n ++ nl :: rest :=
        List.drop_append_of_le_length hle
      rw [readPiece_take (htake ▸ fun h => hno (List.mem_of_mem_take h)), htake, hdrop,
        textPieces_cons (fun h => hno (List.mem_of_mem_drop h)), pieces_cons hn (by simp),
        List.take_append_of_le_length hle, List.drop_append_of_le_length hle, List.cons_append]
  · have hdrop : nl ∉ l.drop n := fun h => hmem (List.mem_of_mem_drop h)
    rw [readPiece_take fun h => hmem (List.mem_of_mem_take h), textPieces_of_not_mem hmem,
      textPieces_of_not_mem hdrop, pieces_cons hn hl]

theorem readLoop_eq (f : σ → List α → Option σ) (hn : n ≠ 0) : ∀ (k : Nat) (l : List α) (s : σ),
    l.length < k → readLoop nl n f k l s = exec f s (textPieces nl n l) := by
  intro k
  induction k with
  | zero =>
    intro l s hk
    exact absurd hk (Nat.not_lt_zero _)
  | succ k ih =>
    intro l s hk
    by_cases hl : l = []
    · subst hl
      obtain ⟨n, rfl⟩ := Nat.exists_eq_succ_of_ne_zero hn
      rw [textPieces_of_not_mem List.not_mem_nil, pieces_nil]
      rfl
    · have hne := readPiece_ne_nil nl hn hl
      have hlen := readPiece_length nl n l
      rw [textPieces_readPiece hn hl, readLoop, exec_cons]
      rcases hread : readPiece nl n l with ⟨piece, rest⟩
      rw [hread] at hne hlen
      cases piece with
      | nil => exact absurd rfl hne
      | cons a piece =>
        simp only [List.length_cons] at hlen
        have hrest : readLoop nl n f k rest = fun t => exec f t (textPieces nl n rest) :=
          funext fun t => ih rest t (by omega)
        change (f s (a :: piece)).bind (readLoop nl n f k rest) = _
        rw [hrest]

end P2P.Lib
