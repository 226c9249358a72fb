import Mathlib.Data.List.Induction
import Mathlib.Tactic.Common

/-!
# Texts read in whole blocks

A reader that works on blocks of `n` symbols keeps what is behind the last whole one until more
symbols come.

* `blocks`, `leftover`: a text, cut;
* `blocks_append`, `leftover_append`: of a text only what is left over matters for what comes next;
* `chainInputs`: what a function that is folded over the blocks is applied to;
* `chain_collision`: two texts with the same value have two such inputs with the same value.
-/

namespace P2P.Lib

variable {α β σ : Type*} {n : Nat} {l b : List α}

/-! ## Cutting -/

/-- The whole blocks of `n` symbols a text starts with. -/
def blocks (n : Nat) (l : List α) : List (List α) :=
  if _ : 0 < n ∧ n ≤ l.length then l.take n :: blocks n (l.drop n) else []
termination_by l.length
decreasing_by
  rw [List.length_drop]
  omega

/-- What is behind the last whole block. -/
def leftover (n : Nat) (l : List α) : List α :=
  l.drop (n * (blocks n l).length)

theorem blocks_of_length_lt (h : l.length < n) : blocks n l = [] := by
  rw [blocks, dif_neg (by omega)]

theorem leftover_of_length_lt (h : l.length < n) : leftover n l = l := by
  rw [leftover, blocks_of_length_lt h, List.length_nil, Nat.mul_zero, List.drop_zero]

theorem blocks_append_of_length (hn : 0 < n) (hb : b.length = n) (l : List α) :
    blocks n (b ++ l) = b :: blocks n l := by
  have hle : n ≤ (b ++ l).length := by
    rw [List.length_append]
    omega
  rw [blocks, dif_pos ⟨hn, hle⟩, List.take_left' hb, List.drop_left' hb]

theorem leftover_append_of_length (hn : 0 < n) (hb : b.length = n) (l : List α) :
    leftover n (b ++ l) = leftover n l := by
  rw [leftover, blocks_append_of_length hn hb, List.length_cons, Nat.mul_succ, Nat.add_comm,
    ← List.drop_drop, List.drop_left' hb, leftover]

theorem blocks_of_length (hn : 0 < n) (hb : b.length = n) : blocks n b = [b] := by
  have h := blocks_append_of_length hn hb []
  rw [List.append_nil, blocks_of_length_lt (l := []) hn] at h
  exact h

theorem leftover_of_length (hn : 0 < n) (hb : b.length = n) : leftover n b = [] := by
  have h := leftover_append_of_length hn hb []
  rw [List.append_nil, leftover_of_length_lt (l := []) hn] at h
  exact h

/-- The cut as an induction: a text is less than a block, or has one in front. -/
theorem block_induct (hn : 0 < n) {motive : List α → Prop}
    (short : ∀ l, l.length < n → motive l)
    (block : ∀ b l, b.length = n → motive l → motive (b ++ l)) (l : List α) : motive l := by
  induction hlen : l.length using Nat.strongRecOn generalizing l with
  | ind k ih =>
    by_cases h : l.length < n
    · exact short l h
    · have htake : (l.take n).length = n := by
        rw [List.length_take]
        omega
      have hdrop : (l.drop n).length < k := by
        rw [List.length_drop]
        omega
      rw [← List.take_append_drop n l]
      exact block _ _ htake (ih _ hdrop _ rfl)

/-- **Only what is left over matters** for what comes next. -/
theorem blocks_append (hn : 0 < n) (l d : List α) :
    blocks n (l ++ d) = blocks n l ++ blocks n (leftover n l ++ d) := by
  induction l using block_induct hn with
  | short l h => rw [blocks_of_length_lt h, leftover_of_length_lt h, List.nil_append]
  | block b l hb ih =>
    rw [List.append_assoc, blocks_append_of_length hn hb, blocks_append_of_length hn hb,
      leftover_append_of_length hn hb, List.cons_append, ih]

theorem leftover_append (hn : 0 < n) (l d : List α) :
    leftover n (l ++ d) = leftover n (leftover n l ++ d) := by
  induction l using block_induct hn with
  | short l h => rw [leftover_of_length_lt h]
  | block b l hb ih =>
    rw [List.append_assoc, leftover_append_of_length hn hb, leftover_append_of_length hn hb, ih]

theorem length_leftover (hn : 0 < n) (l : List α) : (leftover n l).length = l.length % n := by
  induction l using block_induct hn with
  | short l h => rw [leftover_of_length_lt h, Nat.mod_eq_of_lt h]
  | block b l hb ih =>
    rw [leftover_append_of_length hn hb, ih, List.length_append, hb, Nat.add_mod_left]

theorem leftover_of_dvd (hn : 0 < n) (h : n ∣ l.length) : leftover n l = [] :=
  List.eq_nil_of_length_eq_zero (by rw [length_leftover hn, Nat.mod_eq_zero_of_dvd h])

theorem blocks_append_of_dvd (hn : 0 < n) (h : n ∣ l.length) (d : List α) :
    blocks n (l ++ d) = blocks n l ++ blocks n d := by
  rw [blocks_append hn, leftover_of_dvd hn h, List.nil_append]

theorem flatten_blocks (hn : 0 < n) (l : List α) : (blocks n l).flatten ++ leftover n l = l := by
  induction l using block_induct hn with
  | short l h => rw [blocks_of_length_lt h, leftover_of_length_lt h, List.flatten_nil,
      List.nil_append]
  | block b l hb ih =>
    rw [blocks_append_of_length hn hb, leftover_append_of_length hn hb, List.flatten_cons,
      List.append_assoc, ih]

theorem length_blocks (hn : 0 < n) (l : List α) : (blocks n l).length = l.length / n := by
  induction l using block_induct hn with
  | short l h => rw [blocks_of_length_lt h, List.length_nil, Nat.div_eq_of_lt h]
  | block b l hb ih =>
    rw [blocks_append_of_length hn hb, List.length_cons, ih, List.length_append, hb,
      Nat.add_div_left _ hn]

theorem eq_of_blocks_eq (hn : 0 < n) {l l' : List α} (h : n ∣ l.length) (h' : n ∣ l'.length)
    (heq : blocks n l = blocks n l') : l = l' := by
  rw [← flatten_blocks hn l, ← flatten_blocks hn l', leftover_of_dvd hn h, leftover_of_dvd hn h',
    heq]

theorem flatten_injective {m n : Nat} {v w : Vector (Vector α m) n} (h : v.flatten = w.flatten) :
    v = w := by
  apply Vector.ext
  intro k hk
  apply Vector.ext
  intro j hj
  have hkm : k * m + j < n * m := by
    calc k * m + j < k * m + m := Nat.add_lt_add_left hj _
      _ = (k + 1) * m := (Nat.succ_mul k m).symm
      _ ≤ n * m := Nat.mul_le_mul_right m hk
  have hdiv : (k * m + j) / m = k := by
    rw [Nat.mul_comm, Nat.mul_add_div (by omega), Nat.div_eq_of_lt hj, Nat.add_zero]
  have hmod : (k * m + j) % m = j := by
    rw [Nat.mul_comm, Nat.mul_add_mod, Nat.mod_eq_of_lt hj]
  have hget : v.flatten[k * m + j] = w.flatten[k * m + j] := by rw [h]
  rw [Vector.getElem_flatten, Vector.getElem_flatten] at hget
  simpa only [hdiv, hmod] using hget

/-! ## Chains -/

/-- What `f` is applied to as it is folded over a list. -/
def chainInputs (f : σ → β → σ) (s : σ) : List β → List (σ × β)
  | [] => []
  | b :: bs => (s, b) :: chainInputs f (f s b) bs

variable {f : σ → β → σ} {s : σ} {xs ys : List β} {x y : β}

theorem chainInputs_append (f : σ → β → σ) (s : σ) (xs ys : List β) :
    chainInputs f s (xs ++ ys) = chainInputs f s xs ++ chainInputs f (xs.foldl f s) ys := by
  induction xs generalizing s with
  | nil => rfl
  | cons x xs ih => rw [List.cons_append, chainInputs, ih, chainInputs, List.foldl_cons,
      List.cons_append]

/-- Two different inputs with the same value, one in each chain. -/
def Collide (f : σ → β → σ) (s : σ) (xs ys : List β) : Prop :=
  ∃ p ∈ chainInputs f s xs, ∃ q ∈ chainInputs f s ys, p ≠ q ∧ f p.1 p.2 = f q.1 q.2

theorem Collide.append (xs' ys' : List β) (h : Collide f s xs ys) :
    Collide f s (xs ++ xs') (ys ++ ys') := by
  obtain ⟨p, hp, q, hq, hne, heq⟩ := h
  refine ⟨p, ?_, q, ?_, hne, heq⟩
  · rw [chainInputs_append]
    exact List.mem_append_left _ hp
  · rw [chainInputs_append]
    exact List.mem_append_left _ hq

theorem collide_of_last (hne : (xs.foldl f s, x) ≠ (ys.foldl f s, y))
    (heq : (xs ++ [x]).foldl f s = (ys ++ [y]).foldl f s) :
    Collide f s (xs ++ [x]) (ys ++ [y]) := by
  have hmem : ∀ (zs : List β) z, (zs.foldl f s, z) ∈ chainInputs f s (zs ++ [z]) := by
    intro zs z
    rw [chainInputs_append]
    exact List.mem_append_right _ List.mem_cons_self
  refine ⟨_, hmem xs x, _, hmem ys y, hne, ?_⟩
  rw [List.foldl_append, List.foldl_append] at heq
  exact heq

theorem collide_of_length_eq (hlen : xs.length = ys.length) (hne : xs ≠ ys)
    (heq : xs.foldl f s = ys.foldl f s) : Collide f s xs ys := by
  induction xs using List.reverseRecOn generalizing ys with
  | nil => exact absurd (List.eq_nil_of_length_eq_zero hlen.symm).symm hne
  | append_singleton xs x ih =>
    cases ys using List.reverseRecOn with
    | nil => simp at hlen
    | append_singleton ys y =>
      -- the last inputs differ, or the chains before them have the same value
      by_cases hlast : (xs.foldl f s, x) = (ys.foldl f s, y)
      · obtain ⟨hval, rfl⟩ := Prod.mk.inj hlast
        rw [List.length_append, List.length_append] at hlen
        exact (ih (Nat.add_right_cancel hlen) (fun h => hne (h ▸ rfl)) hval).append [x] [x]
      · exact collide_of_last hlast heq

/-- **Different chains with the same value collide**, if chains of different lengths end in
different symbols. -/
theorem chain_collision (hne : xs ≠ ys) (hlast : xs.length ≠ ys.length →
    ∃ xs' x ys' y, xs = xs' ++ [x] ∧ ys = ys' ++ [y] ∧ x ≠ y)
    (heq : xs.foldl f s = ys.foldl f s) : Collide f s xs ys := by
  by_cases hlen : xs.length = ys.length
  · exact collide_of_length_eq hlen hne heq
  · obtain ⟨xs', x, ys', y, rfl, rfl, hxy⟩ := hlast hlen
    exact collide_of_last (fun h => hxy (Prod.mk.inj h).2) heq

end P2P.Lib
