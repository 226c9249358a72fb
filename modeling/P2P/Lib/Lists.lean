import Mathlib.Data.List.Basic
import Mathlib.Data.List.Nodup
import Mathlib.Data.List.Perm.Basic

/-!
# Lists with positions

A linked list is a `List` from its head on, a pointer to one of its nodes the
position of the node. The lemmas say what searching, deleting and changing a node
in place do to the keys of a list.
-/

namespace P2P.Lib

variable {α β : Type*} {l : List α} {k : Nat} {x y : α} {p : α → Bool}

theorem findIdx?_spec (h : l.findIdx? p = some k) : ∃ x, l[k]? = some x ∧ p x := by
  obtain ⟨hk, hp, -⟩ := List.findIdx?_eq_some_iff_getElem.mp h
  exact ⟨l[k], List.getElem?_eq_getElem hk, hp⟩

theorem find?_of_findIdx? (h : l.findIdx? p = some k) (hx : l[k]? = some x) :
    l.find? p = some x := by
  rw [List.find?_eq_bind_findIdx?_getElem?, h, Option.bind_some, hx]

theorem perm_eraseIdx (h : l[k]? = some x) : (x :: l.eraseIdx k).Perm l := by
  obtain ⟨hk, rfl⟩ := List.getElem?_eq_some_iff.mp h
  exact List.getElem_cons_eraseIdx_perm hk

theorem find?_eraseIdx (h : l[k]? = some x) (hx : p x = false) :
    (l.eraseIdx k).find? p = l.find? p := by
  induction l generalizing k with
  | nil => rfl
  | cons a l ih =>
    cases k with
    | zero =>
      cases h
      rw [List.eraseIdx_cons_zero, List.find?_cons_of_neg (by simp [hx])]
    | succ k =>
      rw [List.eraseIdx_cons_succ, List.find?_cons, List.find?_cons, ih (by simpa using h)]

theorem mem_of_filter_getElem? (h : l[k]?.filter p = some x) : x ∈ l ∧ p x := by
  rw [Option.filter_eq_some_iff] at h
  exact ⟨List.mem_of_getElem? h.1, h.2⟩

theorem mem_eraseIdx_append (h : l[k]? = some x) (hy : y ∈ l) : y ∈ (l ++ [x]).eraseIdx k := by
  have hk : k < l.length := (List.getElem?_eq_some_iff.mp h).1
  rw [List.eraseIdx_append_of_lt_length hk, List.mem_append, List.mem_singleton]
  obtain ⟨j, hj⟩ := List.mem_iff_getElem?.mp hy
  by_cases hjk : j = k
  · rw [hjk, h, Option.some.injEq] at hj
    exact .inr hj.symm
  · exact .inl (List.mem_eraseIdx_iff_getElem?.mpr ⟨j, hjk, hj⟩)

theorem map_set_key (f : α → β) (h : l[k]? = some x) (hy : f y = f x) :
    (l.set k y).map f = l.map f := by
  obtain ⟨hk, rfl⟩ := List.getElem?_eq_some_iff.mp h
  have hlen : k < (l.map f).length := by rwa [List.length_map]
  rw [List.map_set, hy, show f l[k] = (l.map f)[k] from (List.getElem_map f).symm]
  exact List.set_getElem_self hlen

theorem mapM_eq_some_iff {f : α → Option β} {m : List β} :
    l.mapM f = some m ↔ l.map f = m.map some := by
  induction l generalizing m with
  | nil => cases m <;> simp
  | cons a l ih =>
    rw [List.mapM_cons, List.map_cons]
    cases ha : f a with
    | none => cases m <;> simp
    | some b =>
      cases m with
      | nil => cases l.mapM f <;> simp
      | cons c m =>
        rw [List.map_cons, List.cons.injEq, Option.some.injEq, ← ih]
        cases l.mapM f <;> simp

theorem forall_prefix_cons {P : List α → Prop} :
    (∀ done, done <+: x :: l → P done) ↔ P [] ∧ ∀ done, done <+: l → P (x :: done) := by
  simp only [List.prefix_cons_iff]
  constructor
  · intro h
    exact ⟨h [] (.inl rfl), fun done hd => h _ (.inr ⟨done, rfl, hd⟩)⟩
  · rintro ⟨hnil, hcons⟩ done (rfl | ⟨rest, rfl, hrest⟩)
    · exact hnil
    · exact hcons rest hrest

/-! ## Counting since the last reset -/

/-- How many elements behind the last one that resets the count pass the test. -/
def countSince (reset test : α → Bool) (l : List α) : Nat :=
  (l.reverse.takeWhile fun x => !reset x).countP test

theorem countSince_concat (reset test : α → Bool) (l : List α) (x : α) :
    countSince reset test (l ++ [x]) =
      if reset x then 0 else countSince reset test l + if test x then 1 else 0 := by
  unfold countSince
  rw [List.reverse_append, List.reverse_singleton, List.singleton_append, List.takeWhile_cons]
  cases hr : reset x
  · simp only [Bool.not_false, if_true, List.countP_cons, Bool.false_eq_true, if_false]
  · simp

end P2P.Lib
