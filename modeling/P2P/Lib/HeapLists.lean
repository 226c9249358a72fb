import Mathlib.Logic.Function.Basic
import P2P.Lib.Heap

/-!
# A memory made of lists

`Heap.Lists h p l`: the lists `l i`, each from the pointer `p i` on, share no node, and every node
that is allocated is in one of them. A list that is rewritten leaves the others alone
(`Heap.Lists.replace`); so does a node that goes from one list to another (`Heap.Lists.replace₂`).

`Heap.owned_iff_live`: for lists that share no node, no node is lost exactly if there are as many
nodes in the lists as in the memory.
-/

namespace P2P.Lib

namespace Heap

variable {ι α : Type*} {h h' : Heap α} {a b : Nat} {x y : α} {c : Cell α} {p' q' : Option Nat}
  {m n pre post : List (Nat × α)}

/-! ## New nodes -/

/-- A new node, at an address that was not used before. -/
def alloc (h : Heap α) (x : α) : Heap α × Nat := (⟨h.cells ++ [some ⟨x, none⟩]⟩, h.size)

theorem read_alloc (h : Heap α) (x : α) (b : Nat) :
    (h.alloc x).1.read b = if b = h.size then some ⟨x, none⟩ else h.read b := by
  unfold alloc read size
  by_cases hb : b = h.cells.length
  · rw [if_pos hb, hb, List.getElem?_append_right (Nat.le_refl _), Nat.sub_self]
    rfl
  · rw [if_neg hb]
    by_cases hlt : b < h.cells.length
    · rw [List.getElem?_append_left hlt]
    · rw [List.getElem?_eq_none (by rw [List.length_append, List.length_singleton]; omega),
        List.getElem?_eq_none (by omega)]

theorem read_size (h : Heap α) : h.read h.size = none := by
  rw [read, size, List.getElem?_eq_none (Nat.le_refl _)]
  rfl

/-- What a new node holds is written before anything points at it. -/
theorem alloc_update (h : Heap α) (x : α) (g : α → α) :
    (h.alloc x).1.update (h.alloc x).2 (fun c => ⟨g c.data, c.next⟩) =
      some (h.alloc (g x)).1 := by
  have hself : (h.alloc x).1.read (h.alloc x).2 = some ⟨x, none⟩ := by
    rw [read_alloc]
    exact if_pos rfl
  rw [update, hself, Option.map_some, alloc, alloc, size]
  simp only [List.set_append_right _ _ (Nat.le_refl _), Nat.sub_self, List.set_cons_zero]

/-! ## Counting nodes -/

/-- The number of nodes allocated. -/
def live (h : Heap α) : Nat := h.cells.countP Option.isSome

theorem countP_set {l : List (Option (Cell α))} {o : Option (Cell α)} (hl : l[a]? = some o)
    (o' : Option (Cell α)) :
    (l.set a o').countP Option.isSome + o.toList.length =
      l.countP Option.isSome + o'.toList.length := by
  induction l generalizing a with
  | nil => cases hl
  | cons d l ih =>
    cases a with
    | zero =>
      cases hl
      rw [List.set_cons_zero, List.countP_cons, List.countP_cons]
      cases o <;> cases o' <;> simp
    | succ a =>
      rw [List.set_cons_succ, List.countP_cons, List.countP_cons]
      have := ih hl
      omega

theorem live_update {f : Cell α → Cell α} (hu : h.update a f = some h') : h'.live = h.live := by
  rw [update, Option.map_eq_some_iff] at hu
  obtain ⟨c, hc, rfl⟩ := hu
  rw [read, Option.join_eq_some_iff] at hc
  have := countP_set hc (some (f c))
  simpa [live] using this

theorem live_unlink {p : Option Nat} (hu : h.unlink p a = some (h', p')) :
    h'.live = h.live ∧ ∃ c, h'.read a = some c := by
  rw [unlink, Option.bind_eq_some_iff] at hu
  obtain ⟨node, hnode, hu⟩ := hu
  split at hu
  · cases hu
    exact ⟨rfl, node, hnode⟩
  · rw [Option.bind_eq_some_iff] at hu
    obtain ⟨prev, -, hu⟩ := hu
    rw [Option.bind_eq_some_iff] at hu
    obtain ⟨b, -, hu⟩ := hu
    rw [Option.map_eq_some_iff] at hu
    obtain ⟨h'', hup, heq⟩ := hu
    cases heq
    refine ⟨live_update hup, ?_⟩
    rw [read_update hup, hnode]
    split
    · rename_i hab
      rw [← hab, hnode]
      exact ⟨_, rfl⟩
    · exact ⟨node, rfl⟩

/-- The addresses of the nodes allocated. -/
def addresses (h : Heap α) : List Nat := (List.range h.size).filter fun a => (h.read a).isSome

theorem mem_addresses : a ∈ h.addresses ↔ ∃ c, h.read a = some c := by
  rw [addresses, List.mem_filter, List.mem_range, Option.isSome_iff_exists]
  constructor
  · exact fun hc => hc.2
  · rintro ⟨c, hc⟩
    exact ⟨lt_size hc, c, hc⟩

theorem length_addresses (h : Heap α) : h.addresses.length = h.live := by
  unfold addresses live size
  have hrange : ∀ (l : List (Option (Cell α))) (f : Nat → Bool),
      (∀ a, f a = (l[a]?.join).isSome) →
      ((List.range l.length).filter f).length = l.countP Option.isSome := by
    intro l
    induction l with
    | nil => intro f _; rfl
    | cons o l ih =>
      intro f hf
      rw [List.length_cons, List.range_succ_eq_map, List.filter_cons, List.filter_map,
        List.countP_cons]
      have hrest := ih (f ∘ Nat.succ) fun a => hf (a + 1)
      have hhead : f 0 = o.isSome := hf 0
      rw [hhead]
      split <;> simp [hrest]
  exact hrange h.cells _ fun a => rfl

/-- **No node is lost** exactly if the memory has as many nodes as the lists. -/
theorem owned_iff_live {as : List Nat} (hnodup : as.Nodup)
    (halloc : ∀ a ∈ as, ∃ c, h.read a = some c) :
    (∀ a c, h.read a = some c → a ∈ as) ↔ h.live = as.length := by
  have hsub : as ⊆ h.addresses := fun a ha => mem_addresses.mpr (halloc a ha)
  have hall : h.addresses.Nodup := List.nodup_range.filter _
  rw [← length_addresses]
  constructor
  · intro howned
    have hback : h.addresses ⊆ as := fun a ha => by
      obtain ⟨c, hc⟩ := mem_addresses.mp ha
      exact howned a c hc
    exact Nat.le_antisymm (List.subperm_of_subset hall hback).length_le
      (List.subperm_of_subset hnodup hsub).length_le
  · intro hlen a c hc
    have hperm := (List.subperm_of_subset hnodup hsub).perm_of_length_le (Nat.le_of_eq hlen)
    exact hperm.mem_iff.mpr (mem_addresses.mpr ⟨c, hc⟩)

/-! ## The lists -/

/-- The memory is made of the lists. -/
structure Lists (h : Heap α) (p : ι → Option Nat) (l : ι → List (Nat × α)) : Prop where
  list : ∀ i, h.IsList (p i) (l i)
  apart : ∀ i j, i ≠ j → Apart (l i) (l j)
  owned : ∀ a c, h.read a = some c → ∃ i, a ∈ (l i).map Prod.fst

namespace Lists

variable {p : ι → Option Nat} {l : ι → List (Nat × α)} {i j k : ι}

theorem nil (hp : ∀ i, p i = none) (hl : ∀ i, l i = []) : (⟨[]⟩ : Heap α).Lists p l where
  list i := by rw [hp i, hl i]; rfl
  apart i j _ := by rw [hl i]; exact fun _ he => absurd he List.not_mem_nil
  owned a c h := by cases h

theorem read (hs : h.Lists p l) (ha : a ∈ (l i).map Prod.fst) : ∃ c, h.read a = some c := by
  obtain ⟨e, he, rfl⟩ := List.mem_map.mp ha
  obtain ⟨r, hr⟩ := Seg.read (hs.list i) he
  exact ⟨_, hr⟩

theorem not_mem (hs : h.Lists p l) (hij : i ≠ j) (ha : a ∈ (l i).map Prod.fst) :
    a ∉ (l j).map Prod.fst := by
  obtain ⟨e, he, rfl⟩ := List.mem_map.mp ha
  exact (hs.apart i j hij).not_mem he

section
variable [DecidableEq ι]

/-- **One list is rewritten.** Its nodes are old ones or new, and those that left it were freed. -/
theorem replace (hs : h.Lists p l) (i : ι) (hlist : h'.IsList p' m)
    (hframe : ∀ b, b ∉ (l i).map Prod.fst → b ∉ m.map Prod.fst → h'.read b = h.read b)
    (hnew : ∀ b ∈ m.map Prod.fst, b ∈ (l i).map Prod.fst ∨ h.read b = none)
    (hgone : ∀ b ∈ (l i).map Prod.fst, b ∉ m.map Prod.fst → h'.read b = none) :
    h'.Lists (Function.update p i p') (Function.update l i m) := by
  have hout : ∀ k, k ≠ i → ∀ e ∈ l k, e.1 ∉ m.map Prod.fst := by
    intro k hk e he hmem
    have hin : e.1 ∈ (l k).map Prod.fst := List.mem_map_of_mem he
    rcases hnew e.1 hmem with hold | hnone
    · exact hs.not_mem hk hin hold
    · obtain ⟨c, hc⟩ := hs.read hin
      rw [hnone] at hc
      cases hc
  have hapart : ∀ k, k ≠ i → Apart m (l k) := by
    intro k hk e he e' he' heq
    exact hout k hk e' he' (heq ▸ List.mem_map_of_mem he)
  refine ⟨fun k => ?_, fun k k' hk => ?_, fun a c hc => ?_⟩
  · by_cases hki : k = i
    · subst hki
      rw [Function.update_self, Function.update_self]
      exact hlist
    · rw [Function.update_of_ne hki, Function.update_of_ne hki]
      refine (hs.list k).frame fun e he => hframe e.1 ?_ (hout k hki e he)
      exact hs.not_mem hki (List.mem_map_of_mem he)
  · by_cases hki : k = i
    · subst hki
      rw [Function.update_self, Function.update_of_ne hk.symm]
      exact hapart k' hk.symm
    · rw [Function.update_of_ne hki]
      by_cases hki' : k' = i
      · subst hki'
        rw [Function.update_self]
        exact (hapart k hki).symm
      · rw [Function.update_of_ne hki']
        exact hs.apart k k' hk
  · by_cases hm : a ∈ m.map Prod.fst
    · exact ⟨i, by rw [Function.update_self]; exact hm⟩
    · by_cases hold : a ∈ (l i).map Prod.fst
      · rw [hgone a hold hm] at hc
        cases hc
      · rw [hframe a hold hm] at hc
        obtain ⟨k, hk⟩ := hs.owned a c hc
        have hki : k ≠ i := by
          rintro rfl
          exact hold hk
        exact ⟨k, by rw [Function.update_of_ne hki]; exact hk⟩

theorem insert (hs : h.Lists p l) (i : ι) (x : α) :
    ∃ h', (h.alloc x).1.push (p i) (h.alloc x).2 = some h' ∧
      h'.Lists (Function.update p i (some (h.alloc x).2))
        (Function.update l i (((h.alloc x).2, x) :: l i)) := by
  have hfresh : ∀ b, (∃ c, h.read b = some c) → b ≠ h.size := by
    rintro b ⟨c, hc⟩ rfl
    rw [read_size] at hc
    cases hc
  have hother : ∀ b, b ≠ h.size → (h.alloc x).1.read b = h.read b := by
    intro b hb
    rw [read_alloc, if_neg hb]
  have hself : (h.alloc x).1.read (h.alloc x).2 = some ⟨x, none⟩ := by
    rw [read_alloc]
    exact if_pos rfl
  have hnot : (h.alloc x).2 ∉ (l i).map Prod.fst := fun hmem => hfresh _ (hs.read hmem) rfl
  have hl : (h.alloc x).1.IsList (p i) (l i) :=
    (hs.list i).frame fun e he => hother e.1 (hfresh _ (hs.read (List.mem_map_of_mem he)))
  obtain ⟨h', hpush, hlist, -, hframe, -⟩ := push_spec hl hself hnot
  refine ⟨h', hpush, hs.replace i hlist (fun b hb hbm => ?_) (fun b hb => ?_) fun b hb hbm => ?_⟩
  · rw [List.map_cons, List.mem_cons, not_or] at hbm
    rw [hframe b hbm.1, hother b hbm.1]
  · rcases List.mem_cons.mp hb with rfl | hb
    · exact .inr (read_size h)
    · exact .inl hb
  · exact absurd (List.mem_cons_of_mem _ hb) hbm

theorem write {g : α → α} (hs : h.Lists p l) (hi : l i = pre ++ (a, x) :: post)
    (hu : h.update a (fun c => ⟨g c.data, c.next⟩) = some h') :
    h'.Lists p (Function.update l i (pre ++ (a, g x) :: post)) := by
  have hlist := hs.list i
  rw [hi] at hlist
  have haddr : (pre ++ (a, g x) :: post).map Prod.fst = (l i).map Prod.fst := by
    rw [hi]
    simp
  have hnew := hs.replace i (hlist.update_data hu) (fun b hb _ => ?_) (fun b hb => ?_)
    fun b hb hbm => ?_
  · rwa [Function.update_eq_self] at hnew
  · have hne : b ≠ a := by
      rintro rfl
      exact hb (by rw [hi]; simp)
    rw [read_update hu, if_neg hne]
  · exact .inl (haddr ▸ hb)
  · exact absurd (haddr ▸ hb) hbm

theorem update₂_apply {β : Type*} (f : ι → β) (i j : ι) (u v : β) (k : ι) :
    Function.update (Function.update f i u) j v k =
      if k = j then v else if k = i then u else f k := by
  rw [Function.update_apply, Function.update_apply]

/-- **Two lists are rewritten** with the nodes they have. -/
theorem replace₂ (hs : h.Lists p l) (hij : i ≠ j) (hi : h'.IsList p' m) (hj : h'.IsList q' n)
    (hmn : Apart m n)
    (hframe : ∀ b, b ∉ (l i).map Prod.fst → b ∉ (l j).map Prod.fst → h'.read b = h.read b)
    (hsame : ∀ b, b ∈ (m ++ n).map Prod.fst ↔ b ∈ (l i ++ l j).map Prod.fst) :
    h'.Lists (Function.update (Function.update p i p') j q')
      (Function.update (Function.update l i m) j n) := by
  simp only [List.map_append, List.mem_append] at hsame
  have hout : ∀ k, k ≠ i → k ≠ j → ∀ e ∈ l k, e.1 ∉ m.map Prod.fst ∧ e.1 ∉ n.map Prod.fst := by
    intro k hki hkj e he
    have hin : e.1 ∈ (l k).map Prod.fst := List.mem_map_of_mem he
    rw [← not_or, hsame, not_or]
    exact ⟨hs.not_mem hki hin, hs.not_mem hkj hin⟩
  have hfar : ∀ k, k ≠ i → k ≠ j → Apart m (l k) ∧ Apart n (l k) := by
    intro k hki hkj
    constructor
    · intro e he e' he' heq
      exact (hout k hki hkj e' he').1 (heq ▸ List.mem_map_of_mem he)
    · intro e he e' he' heq
      exact (hout k hki hkj e' he').2 (heq ▸ List.mem_map_of_mem he)
  refine ⟨fun k => ?_, fun k k' hk => ?_, fun a c hc => ?_⟩
  · rw [update₂_apply, update₂_apply]
    split
    · exact hj
    · split
      · exact hi
      · rename_i hkj hki
        refine (hs.list k).frame fun e he => hframe e.1 ?_ ?_
        · exact hs.not_mem hki (List.mem_map_of_mem he)
        · exact hs.not_mem hkj (List.mem_map_of_mem he)
  · rw [update₂_apply, update₂_apply]
    by_cases hkj : k = j
    · subst hkj
      rw [if_pos rfl, if_neg hk.symm]
      split
      · exact hmn.symm
      · exact (hfar k' ‹_› hk.symm).2
    · rw [if_neg hkj]
      by_cases hki : k = i
      · subst hki
        rw [if_pos rfl, if_neg hk.symm]
        split
        · exact hmn
        · exact (hfar k' hk.symm ‹_›).1
      · rw [if_neg hki]
        by_cases hkj' : k' = j
        · rw [if_pos hkj']
          exact (hfar k hki hkj).2.symm
        · rw [if_neg hkj']
          by_cases hki' : k' = i
          · rw [if_pos hki']
            exact (hfar k hki hkj).1.symm
          · rw [if_neg hki']
            exact hs.apart k k' hk
  · by_cases hm : a ∈ m.map Prod.fst
    · exact ⟨i, by rw [update₂_apply, if_neg hij, if_pos rfl]; exact hm⟩
    · by_cases hn : a ∈ n.map Prod.fst
      · exact ⟨j, by rw [update₂_apply, if_pos rfl]; exact hn⟩
      · have hold : ¬ (a ∈ (l i).map Prod.fst ∨ a ∈ (l j).map Prod.fst) := by
          rw [← hsame, not_or]
          exact ⟨hm, hn⟩
        rw [not_or] at hold
        rw [hframe a hold.1 hold.2] at hc
        obtain ⟨k, hk⟩ := hs.owned a c hc
        have hki : k ≠ i := by
          rintro rfl
          exact hold.1 hk
        have hkj : k ≠ j := by
          rintro rfl
          exact hold.2 hk
        exact ⟨k, by rw [update₂_apply, if_neg hkj, if_neg hki]; exact hk⟩

end

end Lists

end Heap

end P2P.Lib
