import Mathlib.Data.List.Nodup
import Mathlib.Data.List.Perm.Subperm

/-!
# Linked lists in memory

Nodes with a pointer to the next one, in a memory that can be given back. `Heap.Seg`
relates the nodes from one pointer to another to the list of their addresses and
contents, `Heap.IsList` the nodes up to the null pointer.

* `Heap.Seg.frame`: a segment is read at its own addresses only;
* `Heap.IsList.nodup`: the nodes of a list have distinct addresses;
* `Heap.find_data`, `Heap.findPrev_spec`: what a search along the links finds;
* `Heap.push_spec`, `Heap.unlink_spec`: putting a node in front of a list and taking one out.
-/

namespace P2P.Lib

/-- What a node holds, and the pointer to the next one. -/
structure Cell (α : Type*) where
  data : α
  next : Option Nat
  deriving DecidableEq

/-- The nodes by address; `none` is memory that is not allocated. -/
structure Heap (α : Type*) where
  cells : List (Option (Cell α))
  deriving DecidableEq

namespace Heap

variable {α : Type*} {h h' : Heap α} {a b : Nat} {x y : α} {p q r : Option Nat}
  {l m pre post : List (Nat × α)} {c : Cell α} {f : Cell α → Cell α}

def size (h : Heap α) : Nat := h.cells.length

/-- What is read through a pointer to `a`. -/
def read (h : Heap α) (a : Nat) : Option (Cell α) := h.cells[a]?.join

/-- An assignment to the node at `a`; `none` if it is not allocated. -/
def update (h : Heap α) (a : Nat) (f : Cell α → Cell α) : Option (Heap α) :=
  (h.read a).map fun c => ⟨h.cells.set a (some (f c))⟩

def free (h : Heap α) (a : Nat) : Heap α := ⟨h.cells.set a none⟩

theorem lt_size (hc : h.read a = some c) : a < h.size := by
  by_contra hge
  rw [read, List.getElem?_eq_none (Nat.le_of_not_lt hge)] at hc
  cases hc

theorem exists_update (hc : h.read a = some c) (f : Cell α → Cell α) :
    ∃ h', h.update a f = some h' := by
  rw [update, hc]
  exact ⟨_, rfl⟩

theorem read_update (hu : h.update a f = some h') (b : Nat) :
    h'.read b = if b = a then (h.read a).map f else h.read b := by
  rw [update, Option.map_eq_some_iff] at hu
  obtain ⟨c, hc, rfl⟩ := hu
  have hlt := lt_size hc
  rw [size] at hlt
  by_cases hb : b = a
  · subst hb
    rw [if_pos rfl, hc, read, List.getElem?_set_self hlt]
    rfl
  · rw [if_neg hb, read, List.getElem?_set_ne (Ne.symm hb)]
    rfl

theorem update_frame (hu : h.update a f = some h') (ha : a ∉ l.map Prod.fst) :
    ∀ e ∈ l, h'.read e.1 = h.read e.1 := by
  intro e he
  have hne : e.1 ≠ a := fun heq => ha (heq ▸ List.mem_map_of_mem he)
  rw [read_update hu, if_neg hne]

theorem size_update (hu : h.update a f = some h') : h'.size = h.size := by
  rw [update, Option.map_eq_some_iff] at hu
  obtain ⟨c, -, rfl⟩ := hu
  exact List.length_set

theorem read_free (h : Heap α) (a b : Nat) :
    (h.free a).read b = if b = a then none else h.read b := by
  unfold read free
  by_cases hb : b = a
  · subst hb
    rw [if_pos rfl]
    by_cases hlt : b < h.cells.length
    · rw [List.getElem?_set_self hlt]
      rfl
    · rw [List.getElem?_eq_none (by rw [List.length_set]; omega)]
      rfl
  · rw [if_neg hb, List.getElem?_set_ne (Ne.symm hb)]

@[simp] theorem size_free (h : Heap α) (a : Nat) : (h.free a).size = h.size := List.length_set

/-! ## Segments -/

/-- The nodes from `p` up to `q`, by address, with what they hold. -/
def Seg (h : Heap α) : Option Nat → List (Nat × α) → Option Nat → Prop
  | p, [], q => p = q
  | p, (a, x) :: l, q => p = some a ∧ ∃ r, h.read a = some ⟨x, r⟩ ∧ Seg h r l q

/-- The nodes from `p` on. -/
def IsList (h : Heap α) (p : Option Nat) (l : List (Nat × α)) : Prop := h.Seg p l none

theorem seg_append : h.Seg p (l ++ m) r ↔ ∃ q, h.Seg p l q ∧ h.Seg q m r := by
  induction l generalizing p with
  | nil =>
    constructor
    · intro hm
      exact ⟨p, rfl, hm⟩
    · rintro ⟨q, rfl, hm⟩
      exact hm
  | cons e l ih =>
    simp only [List.cons_append, Seg, ih]
    constructor
    · rintro ⟨hp, s, hs, q, hl, hm⟩
      exact ⟨q, ⟨hp, s, hs, hl⟩, hm⟩
    · rintro ⟨q, ⟨hp, s, hs, hl⟩, hm⟩
      exact ⟨hp, s, hs, q, hl, hm⟩

/-- **A segment is read at its own addresses only.** -/
theorem Seg.frame (hl : h.Seg p l q) (hsame : ∀ e ∈ l, h'.read e.1 = h.read e.1) :
    h'.Seg p l q := by
  induction l generalizing p with
  | nil => exact hl
  | cons e l ih =>
    obtain ⟨hp, r, hr, hl⟩ := hl
    exact ⟨hp, r, (hsame e List.mem_cons_self).trans hr,
      ih hl fun e' he' => hsame e' (List.mem_cons_of_mem e he')⟩

theorem Seg.read (hl : h.Seg p l q) {e : Nat × α} (he : e ∈ l) :
    ∃ r, h.read e.1 = some ⟨e.2, r⟩ := by
  induction l generalizing p with
  | nil => cases he
  | cons e' l ih =>
    obtain ⟨-, r, hr, hl⟩ := hl
    rcases List.mem_cons.mp he with rfl | he
    · exact ⟨r, hr⟩
    · exact ih hl he

theorem IsList.start (hl : h.IsList p l) : p = l.head?.map Prod.fst := by
  cases l with
  | nil => exact hl
  | cons e l => exact hl.1

theorem IsList.next (hl : h.IsList p (pre ++ (a, x) :: post)) :
    h.read a = some ⟨x, post.head?.map Prod.fst⟩ := by
  obtain ⟨q, -, hcell⟩ := seg_append.mp hl
  obtain ⟨-, r, hr, hpost⟩ := hcell
  rw [hr, IsList.start hpost]

theorem IsList.unique (hl : h.IsList p l) (hm : h.IsList p m) : l = m := by
  induction l generalizing p m with
  | nil =>
    cases hl
    cases m with
    | nil => rfl
    | cons e m => cases hm.1
  | cons e l ih =>
    obtain ⟨rfl, r, hr, hl⟩ := hl
    cases m with
    | nil => cases hm
    | cons e' m =>
      obtain ⟨hp, r', hr', hm⟩ := hm
      rw [Option.some.injEq] at hp
      rw [← hp, hr, Option.some.injEq, Cell.mk.injEq] at hr'
      obtain ⟨hdata, rfl⟩ := hr'
      rw [ih hl hm, Prod.ext hp hdata]

/-- **The nodes of a list have distinct addresses**: the list would start again. -/
theorem IsList.nodup (hl : h.IsList p l) : (l.map Prod.fst).Nodup := by
  induction l generalizing p with
  | nil => exact List.nodup_nil
  | cons e l ih =>
    obtain ⟨rfl, r, hr, htail⟩ := id hl
    rw [List.map_cons, List.nodup_cons]
    refine ⟨fun hmem => ?_, ih htail⟩
    obtain ⟨e', he', haddr⟩ := List.mem_map.mp hmem
    obtain ⟨s, t, rfl⟩ := List.append_of_mem he'
    obtain ⟨q, -, hq⟩ := seg_append.mp htail
    have hstart : q = some e.1 := by rw [hq.1, haddr]
    have hagain := IsList.unique hl (hstart ▸ hq : h.IsList (some e.1) (e' :: t))
    have hlen := congrArg List.length hagain
    simp only [List.length_cons, List.length_append] at hlen
    omega

theorem IsList.not_mem (hl : h.IsList p (pre ++ (a, x) :: post)) :
    a ∉ pre.map Prod.fst ∧ a ∉ post.map Prod.fst := by
  have hnodup := hl.nodup
  rw [List.map_append, List.map_cons, List.nodup_middle, List.nodup_cons, List.mem_append,
    not_or] at hnodup
  exact hnodup.1

theorem IsList.ne_of_mem (hl : h.IsList p (pre ++ (a, x) :: post)) {e : Nat × α}
    (he : e ∈ pre ++ post) : e.1 ≠ a := by
  rintro rfl
  rcases List.mem_append.mp he with he | he
  · exact hl.not_mem.1 (List.mem_map_of_mem he)
  · exact hl.not_mem.2 (List.mem_map_of_mem he)

theorem IsList.start_ne (hl : h.IsList p (pre ++ (b, y) :: (a, x) :: post)) : p ≠ some a := by
  rw [List.append_cons] at hl
  rw [hl.start]
  intro hstart
  refine hl.not_mem.1 ?_
  cases pre with
  | nil =>
    rw [Option.some.inj hstart.symm]
    exact List.mem_cons_self
  | cons e pre =>
    rw [Option.some.inj hstart.symm]
    exact List.mem_cons_self

theorem IsList.length_le (hl : h.IsList p l) : l.length ≤ h.size := by
  have hsub : l.map Prod.fst ⊆ List.range h.size := by
    intro a ha
    obtain ⟨e, he, rfl⟩ := List.mem_map.mp ha
    obtain ⟨r, hr⟩ := Seg.read hl he
    exact List.mem_range.mpr (lt_size hr)
  have hle := (List.subperm_of_subset hl.nodup hsub).length_le
  rwa [List.length_map, List.length_range] at hle

/-- No node is in both lists. -/
def Apart (l m : List (Nat × α)) : Prop := ∀ e ∈ l, ∀ e' ∈ m, e.1 ≠ e'.1

theorem Apart.symm (hap : Apart l m) : Apart m l := fun e he e' he' => (hap e' he' e he).symm

theorem Apart.not_mem {e : Nat × α} (hap : Apart l m) (he : e ∈ l) : e.1 ∉ m.map Prod.fst := by
  intro hmem
  obtain ⟨e', he', heq⟩ := List.mem_map.mp hmem
  exact hap e he e' he' heq.symm

theorem Apart.of_subset {l' m' : List (Nat × α)} (hap : Apart l m) (hl : l' ⊆ l) (hm : m' ⊆ m) :
    Apart l' m' := fun e he e' he' => hap e (hl he) e' (hm he')

theorem Apart.cons {e : Nat × α} (hap : Apart l m) (he : ∀ e' ∈ l, e'.1 ≠ e.1) :
    Apart l (e :: m) := by
  intro e' he' d hd
  rcases List.mem_cons.mp hd with rfl | hd
  · exact he e' he'
  · exact hap e' he' d hd

/-- **Frame of a list**: what is written is in another one. -/
theorem IsList.frame_of_apart (hm : h.IsList q m) (hap : Apart l m)
    (hsame : ∀ b, b ∉ l.map Prod.fst → h'.read b = h.read b) : h'.IsList q m := by
  exact Seg.frame hm fun e he => hsame e.1 (hap.symm.not_mem he)

theorem IsList.update_data {g : α → α} (hl : h.IsList p (pre ++ (a, x) :: post))
    (hu : h.update a (fun c => ⟨g c.data, c.next⟩) = some h') :
    h'.IsList p (pre ++ (a, g x) :: post) := by
  obtain ⟨hnpre, hnpost⟩ := hl.not_mem
  obtain ⟨r, hpre, hcell⟩ := seg_append.mp hl
  obtain ⟨rfl, s, hs, hpost⟩ := hcell
  refine seg_append.mpr ⟨some a, hpre.frame (update_frame hu hnpre), rfl, s, ?_,
    hpost.frame (update_frame hu hnpost)⟩
  rw [read_update hu, if_pos rfl, hs]
  rfl

/-! ## Searching -/

/-- Follows the links from `p` until a node passes the test; `none` if a node is not allocated, or
after `n` nodes without an end. -/
def findFrom (h : Heap α) (test : Cell α → Bool) : Nat → Option Nat → Option (Option Nat)
  | 0, _ => none
  | _ + 1, none => some none
  | n + 1, some a =>
    (h.read a).bind fun c => if test c then some (some a) else h.findFrom test n c.next

/-- The first node from `p` on that passes a test. A list without an end runs out of nodes. -/
def find (h : Heap α) (test : Cell α → Bool) (p : Option Nat) : Option (Option Nat) :=
  h.findFrom test (h.size + 1) p

theorem findFrom_skip {test : Cell α → Bool} (n : Nat) (hl : h.Seg p l q)
    (htest : ∀ e ∈ l, ∀ c, h.read e.1 = some c → test c = false) :
    h.findFrom test (l.length + n) p = h.findFrom test n q := by
  induction l generalizing p with
  | nil =>
    cases hl
    rw [List.length_nil, Nat.zero_add]
  | cons e l ih =>
    obtain ⟨rfl, r, hr, hl⟩ := hl
    have hno := htest e List.mem_cons_self _ hr
    rw [List.length_cons, show l.length + 1 + n = l.length + n + 1 by omega, findFrom, hr,
      Option.bind_some, if_neg (by rw [hno]; decide)]
    exact ih hl fun e' he' => htest e' (List.mem_cons_of_mem e he')

/-- **A search by contents** finds the first node of the list that matches. -/
theorem find_data (test : α → Bool) (hl : h.IsList p l) :
    h.find (fun c => test c.data) p = some ((l.find? fun e => test e.2).map Prod.fst) := by
  have hrun : ∀ n, l.length < n → h.findFrom (fun c => test c.data) n p =
      some ((l.find? fun e => test e.2).map Prod.fst) := by
    induction l generalizing p with
    | nil =>
      intro n hn
      cases hl
      cases n with
      | zero => cases hn
      | succ n => rfl
    | cons e l ih =>
      intro n hn
      obtain ⟨rfl, r, hr, hl⟩ := hl
      cases n with
      | zero => cases hn
      | succ n =>
        rw [findFrom, hr, Option.bind_some, List.find?_cons]
        cases test e.2 with
        | true => rfl
        | false => exact ih hl n (Nat.lt_of_succ_lt_succ hn)
  exact hrun _ (Nat.lt_succ_of_le hl.length_le)

/-- The node in front of `a`. -/
def findPrev (h : Heap α) (p : Option Nat) (a : Nat) : Option (Option Nat) :=
  h.find (fun c => c.next == some a) p

theorem findPrev_spec (hl : h.IsList p (pre ++ (b, y) :: (a, x) :: post)) :
    h.findPrev p a = some (some b) := by
  have hlen := hl.length_le
  obtain ⟨q, hpre, hrest⟩ := seg_append.mp hl
  obtain ⟨rfl, r, hr, rfl, s, hs, -⟩ := hrest
  -- a node in front of `b` that links to `a` is not followed by `b`
  have hskip : ∀ e ∈ pre, ∀ c, h.read e.1 = some c → (c.next == some a) = false := by
    intro e he c hc
    obtain ⟨u, v, rfl⟩ := List.append_of_mem he
    rw [List.append_assoc, List.cons_append] at hl
    obtain ⟨t, -, rfl, w, hw, hv⟩ := seg_append.mp hl
    rw [hc, Option.some.injEq] at hw
    subst hw
    exact beq_false_of_ne (IsList.start_ne hv)
  simp only [List.length_append, List.length_cons] at hlen
  obtain ⟨n, hn⟩ : ∃ n, h.size + 1 = pre.length + (n + 1) := ⟨h.size - pre.length, by omega⟩
  rw [findPrev, find, hn, findFrom_skip _ hpre hskip, findFrom, hr, Option.bind_some,
    if_pos (by simp)]

/-! ## Putting in and taking out -/

/-- Puts the node at `a` in front of the list from `p` on. -/
def push (h : Heap α) (p : Option Nat) (a : Nat) : Option (Heap α) :=
  h.update a fun c => { c with next := p }

theorem push_spec (hl : h.IsList p l) (ha : h.read a = some c) (hnew : a ∉ l.map Prod.fst) :
    ∃ h', h.push p a = some h' ∧ h'.IsList (some a) ((a, c.data) :: l) ∧
      h'.read a = some ⟨c.data, p⟩ ∧ (∀ b, b ≠ a → h'.read b = h.read b) ∧ h'.size = h.size := by
  obtain ⟨h', hu⟩ := exists_update ha fun c => { c with next := p }
  have hself : h'.read a = some ⟨c.data, p⟩ := by
    rw [read_update hu, if_pos rfl, ha]
    rfl
  have hother : ∀ b, b ≠ a → h'.read b = h.read b := by
    intro b hb
    rw [read_update hu, if_neg hb]
  exact ⟨h', hu, ⟨rfl, p, hself, hl.frame (update_frame hu hnew)⟩, hself, hother, size_update hu⟩

/-- Takes the node at `a` out of the list from `p` on: the memory, and where the list starts now.
`none` if there is no node in front of it. -/
def unlink (h : Heap α) (p : Option Nat) (a : Nat) : Option (Heap α × Option Nat) :=
  (h.read a).bind fun node =>
    if p = some a then some (h, node.next)
    else (h.findPrev p a).bind fun prev =>
      prev.bind fun b => (h.update b fun c => { c with next := node.next }).map fun h' => (h', p)

/-- The node at `a` was taken out between `pre` and `post`. -/
structure Unlinked (h : Heap α) (pre : List (Nat × α)) (a : Nat) (post : List (Nat × α))
    (h' : Heap α) (p' : Option Nat) : Prop where
  list : h'.IsList p' (pre ++ post)
  /-- Only a node in front of it is written. -/
  frame : ∀ b, b ∉ pre.map Prod.fst → h'.read b = h.read b
  size : h'.size = h.size

theorem unlink_spec (hl : h.IsList p (pre ++ (a, x) :: post)) :
    ∃ h' p', h.unlink p a = some (h', p') ∧ h.Unlinked pre a post h' p' := by
  obtain ⟨q, hpre, hcell⟩ := seg_append.mp hl
  obtain ⟨rfl, r, hr, hpost⟩ := hcell
  rcases List.eq_nil_or_concat' pre with rfl | ⟨pre, ⟨b, y⟩, rfl⟩
  · cases hpre
    refine ⟨h, r, ?_, hpost, fun _ _ => rfl, rfl⟩
    rw [unlink, hr, Option.bind_some, if_pos rfl]
  · obtain ⟨q, hfront, hb⟩ := seg_append.mp hpre
    obtain ⟨rfl, s, hs, rfl⟩ := hb
    rw [List.append_assoc, List.singleton_append] at hl
    obtain ⟨hbpre, hbpost⟩ := hl.not_mem
    rw [List.map_cons, List.mem_cons, not_or] at hbpost
    obtain ⟨h', hu⟩ := exists_update hs fun c => { c with next := r }
    refine ⟨h', p, ?_, ?_, fun c hc => ?_, size_update hu⟩
    · rw [unlink, hr, Option.bind_some, if_neg hl.start_ne, findPrev_spec hl, Option.bind_some,
        Option.bind_some, hu, Option.map_some]
    · refine seg_append.mpr ⟨r, seg_append.mpr ⟨some b, hfront.frame (update_frame hu hbpre),
        rfl, r, ?_, rfl⟩, hpost.frame (update_frame hu hbpost.2)⟩
      rw [read_update hu, if_pos rfl, hs]
      rfl
    · have hne : c ≠ b := by
        rintro rfl
        simp at hc
      rw [read_update hu, if_neg hne]

end Heap

end P2P.Lib
