import P2P.Lib.Heap
import P2P.Peer.Hashlist

/-!
# The lists of chunks in memory

The operations of `hashlist.c` on nodes with their `next` pointers. A list variable is the
pointer to its first node. An operation is `none` where the code would follow `NULL` or a
pointer to a node that was freed, or would not end.

Each operation has one lemma that says what it does to a list that is well formed; `contents`
of the lists are then the lists that the operation of the same name makes in
`P2P.Peer.Hashlist`.
-/

namespace P2P

open Lib

namespace Mem

/-! ## The operations -/

def appendNode (heap : Heap HashChunk) (list : Option Nat) (node : Nat) :
    Option (Heap HashChunk × Option Nat) :=
  (heap.push list node).map fun heap => (heap, some node)

/-- `delete_node`; the window and the receiver go with the node. -/
def deleteNode (heap : Heap HashChunk) (list : Option Nat) (node : Nat) :
    Option (Heap HashChunk × Option Nat) :=
  if list = none then some (heap, list)
  else (heap.unlink list node).map fun (heap, list) => (heap.free node, list)

def findNode (heap : Heap HashChunk) (list : Option Nat) (hash : Hash) : Option (Option Nat) :=
  heap.find (fun c => c.data.hash == hash) list

def findNodeByAddr (heap : Heap HashChunk) (list : Option Nat) (addr : SockAddr) :
    Option (Option Nat) :=
  heap.find (fun c => sameAddr c.data.fromAddr addr) list

/-- `delete_node_by_hash`: the node found is dereferenced without a test. -/
def deleteNodeByHash (heap : Heap HashChunk) (list : Option Nat) (hash : Hash) :
    Option (Heap HashChunk × Option Nat) :=
  (findNode heap list hash).bind fun curr =>
    curr.bind fun curr =>
      (heap.unlink list curr).map fun (heap, list) => (heap.free curr, list)

/-- `move_node`: the memory and the two lists. -/
def moveNode (heap : Heap HashChunk) (dest source : Option Nat) (node : Nat) :
    Option (Heap HashChunk × Option Nat × Option Nat) :=
  if source = none then some (heap, dest, source)
  else (heap.unlink source node).bind fun (heap, source) =>
    (appendNode heap dest node).map fun (heap, dest) => (heap, dest, source)

/-- The loop of `clear_hashchunk_list`. -/
def clearLoop : Nat → Heap HashChunk → Option Nat → Option Nat → Nat →
    Option (Heap HashChunk × Nat)
  | 0, _, _, _, _ => none
  | _ + 1, heap, _, none, count => some (heap, count)
  | n + 1, heap, list, some curr, count =>
    (heap.read curr).bind fun node =>
      (deleteNode heap list curr).bind fun (heap, list) =>
        clearLoop n heap list node.next (count + 1)

/-- `clear_hashchunk_list`: the memory and the number of nodes freed; the list is `NULL` then. -/
def clearHashchunkList (heap : Heap HashChunk) (list : Option Nat) :
    Option (Heap HashChunk × Nat) :=
  clearLoop (heap.size + 1) heap list list 0

/-! ## What they do -/

/-- What the nodes hold. -/
def contents (l : List (Nat × HashChunk)) : List HashChunk := l.map Prod.snd

variable {heap heap' : Heap HashChunk} {p q p' : Option Nat} {a : Nat} {x : HashChunk}
  {l u pre post : List (Nat × HashChunk)} {hash : Hash}

theorem contents_append (l m : List (Nat × HashChunk)) :
    contents (l ++ m) = contents l ++ contents m := List.map_append

theorem contents_getElem? (pre : List (Nat × HashChunk)) (a : Nat) (x : HashChunk)
    (post : List (Nat × HashChunk)) :
    (contents (pre ++ (a, x) :: post))[(contents pre).length]? = some x := by
  rw [contents_append, List.getElem?_append_right (le_refl _), Nat.sub_self]
  rfl

theorem contents_set (pre : List (Nat × HashChunk)) (a : Nat) (x y : HashChunk)
    (post : List (Nat × HashChunk)) :
    (contents (pre ++ (a, x) :: post)).set (contents pre).length y =
      contents (pre ++ (a, y) :: post) := by
  rw [contents_append, contents_append, List.set_append_right _ _ (le_refl _), Nat.sub_self]
  rfl

theorem removed_subset (pre : List (Nat × HashChunk)) (a : Nat) (x : HashChunk)
    (post : List (Nat × HashChunk)) : pre ++ post ⊆ pre ++ (a, x) :: post :=
  ((List.sublist_cons_self (a, x) post).append_left pre).subset

theorem deleteNode_contents (pre : List (Nat × HashChunk)) (a : Nat) (x : HashChunk)
    (post : List (Nat × HashChunk)) :
    P2P.deleteNode (contents (pre ++ (a, x) :: post)) (contents pre).length =
      contents (pre ++ post) := by
  rw [P2P.deleteNode, contents_append, contents_append,
    List.eraseIdx_append_of_length_le (le_refl _), Nat.sub_self]
  rfl

/-- The node at `a` was taken out between `pre` and `post`, and freed. -/
structure Deleted (heap : Heap HashChunk) (pre : List (Nat × HashChunk)) (a : Nat)
    (post : List (Nat × HashChunk)) (heap' : Heap HashChunk) (p' : Option Nat) : Prop where
  list : heap'.IsList p' (pre ++ post)
  freed : heap'.read a = none
  frame : ∀ b, b ≠ a → b ∉ pre.map Prod.fst → heap'.read b = heap.read b
  size : heap'.size = heap.size

theorem Deleted.outside (hd : Deleted heap pre a post heap' p') (b : Nat)
    (hb : b ∉ (pre ++ (a, x) :: post).map Prod.fst) : heap'.read b = heap.read b := by
  rw [List.map_append, List.map_cons, List.mem_append, List.mem_cons, not_or, not_or] at hb
  exact hd.frame b hb.2.1 hb.1

theorem deleted_of_unlinked (hl : heap.IsList p (pre ++ (a, x) :: post))
    (hu : heap.Unlinked pre a post heap' p') : Deleted heap pre a post (heap'.free a) p' := by
  refine ⟨hu.list.frame fun e he => ?_, ?_, fun b hb hpre => ?_, ?_⟩
  · rw [Heap.read_free, if_neg (hl.ne_of_mem he)]
  · rw [Heap.read_free, if_pos rfl]
  · rw [Heap.read_free, if_neg hb, hu.frame b hpre]
  · rw [Heap.size_free, hu.size]

theorem ne_none (hl : heap.IsList p (pre ++ (a, x) :: post)) : p ≠ none := by
  rintro rfl
  cases pre with
  | nil => cases hl.1
  | cons e pre => cases hl.1

theorem deleteNode_spec (hl : heap.IsList p (pre ++ (a, x) :: post)) :
    ∃ heap' p', deleteNode heap p a = some (heap', p') ∧ Deleted heap pre a post heap' p' := by
  obtain ⟨heap', p', hrun, hu⟩ := Heap.unlink_spec hl
  refine ⟨heap'.free a, p', ?_, deleted_of_unlinked hl hu⟩
  rw [deleteNode, if_neg (ne_none hl), hrun]
  rfl

theorem findNode_eq (hl : heap.IsList p l) (hash : Hash) :
    findNode heap p hash = some ((l.find? fun e => e.2.hash == hash).map Prod.fst) :=
  Heap.find_data (fun x : HashChunk => x.hash == hash) hl

theorem findNodeByAddr_eq (hl : heap.IsList p l) (addr : SockAddr) :
    findNodeByAddr heap p addr =
      some ((l.find? fun e => sameAddr e.2.fromAddr addr).map Prod.fst) :=
  Heap.find_data (fun x : HashChunk => sameAddr x.fromAddr addr) hl

theorem deleteNodeByHash_spec (hl : heap.IsList p (pre ++ (a, x) :: post)) (hx : x.hash = hash)
    (hpre : ∀ e ∈ pre, e.2.hash ≠ hash) :
    ∃ heap' p', deleteNodeByHash heap p hash = some (heap', p') ∧
      Deleted heap pre a post heap' p' := by
  obtain ⟨heap', p', hrun, hu⟩ := Heap.unlink_spec hl
  refine ⟨heap'.free a, p', ?_, deleted_of_unlinked hl hu⟩
  have hfind : (pre ++ (a, x) :: post).find? (fun e => e.2.hash == hash) = some (a, x) := by
    rw [List.find?_append, List.find?_eq_none.mpr (by simpa using hpre), Option.none_or,
      List.find?_cons_of_pos (by simpa using hx)]
  rw [deleteNodeByHash, findNode_eq hl, hfind, Option.bind_some, Option.map_some, Option.bind_some,
    hrun]
  rfl

theorem deleteNodeByHash_contents (hx : x.hash = hash) (hpre : ∀ e ∈ pre, e.2.hash ≠ hash) (a : Nat)
    (post : List (Nat × HashChunk)) :
    P2P.deleteNodeByHash (contents (pre ++ (a, x) :: post)) hash =
      some (contents (pre ++ post)) := by
  have hskip : (contents pre).findIdx? (fun x => x.hash == hash) = none := by
    rw [List.findIdx?_eq_none_iff]
    intro y hy
    obtain ⟨e, he, rfl⟩ := List.mem_map.mp hy
    exact beq_false_of_ne (hpre e he)
  have hfind : P2P.findNode (contents (pre ++ (a, x) :: post)) hash =
      some ((contents pre).length, x) := by
    have hcons : contents ((a, x) :: post) = x :: contents post := rfl
    have hidx : (contents (pre ++ (a, x) :: post)).findIdx? (fun x => x.hash == hash) =
        some (contents pre).length := by
      rw [contents_append, List.findIdx?_append, hskip, hcons, List.findIdx?_cons]
      simp [hx]
    rw [P2P.findNode, findFirst, hidx, Option.bind_some, contents_getElem?, Option.map_some]
  rw [P2P.deleteNodeByHash, hfind, Option.map_some]
  simp only [deleteNode_contents]

/-- Without a node with the hash `NULL` is dereferenced. -/
theorem deleteNodeByHash_none (hl : heap.IsList p l) (hno : ∀ e ∈ l, e.2.hash ≠ hash) :
    deleteNodeByHash heap p hash = none := by
  rw [deleteNodeByHash, findNode_eq hl, List.find?_eq_none.mpr (by simpa using hno)]
  rfl

/-- The node at `a` was taken out between `pre` and `post` and put in front of `u`. -/
structure Moved (heap : Heap HashChunk) (q : Option Nat) (u pre : List (Nat × HashChunk)) (a : Nat)
    (x : HashChunk) (post : List (Nat × HashChunk)) (heap' : Heap HashChunk) (p' : Option Nat) :
    Prop where
  source : heap'.IsList p' (pre ++ post)
  dest : heap'.IsList (some a) ((a, x) :: u)
  node : heap'.read a = some ⟨x, q⟩
  frame : ∀ b, b ≠ a → b ∉ pre.map Prod.fst → heap'.read b = heap.read b
  size : heap'.size = heap.size

theorem Moved.outside (hm : Moved heap q u pre a x post heap' p') (b : Nat)
    (hb : b ∉ (pre ++ (a, x) :: post).map Prod.fst) : heap'.read b = heap.read b := by
  rw [List.map_append, List.map_cons, List.mem_append, List.mem_cons, not_or, not_or] at hb
  exact hm.frame b hb.2.1 hb.1

theorem moveNode_spec (hl : heap.IsList p (pre ++ (a, x) :: post)) (hu : heap.IsList q u)
    (hapart : ∀ e ∈ u, e.1 ∉ (pre ++ (a, x) :: post).map Prod.fst) :
    ∃ heap' p', moveNode heap q p a = some (heap', some a, p') ∧
      Moved heap q u pre a x post heap' p' := by
  obtain ⟨heap₁, p', hrun, hun⟩ := Heap.unlink_spec hl
  simp only [List.map_append, List.map_cons, List.mem_append, List.mem_cons, not_or] at hapart
  obtain ⟨r, ha⟩ := Heap.Seg.read hl (e := (a, x)) (List.mem_append_right _ List.mem_cons_self)
  have ha₁ : heap₁.read a = some ⟨x, r⟩ := (hun.frame a hl.not_mem.1).trans ha
  have hu₁ : heap₁.IsList q u := Heap.Seg.frame hu fun e he => hun.frame e.1 (hapart e he).1
  have hnew : a ∉ u.map Prod.fst := by
    intro hmem
    obtain ⟨e, he, heq⟩ := List.mem_map.mp hmem
    exact (hapart e he).2.1 heq
  obtain ⟨heap', hpush, hdest, hself, hother, hsize⟩ := Heap.push_spec hu₁ ha₁ hnew
  refine ⟨heap', p', ?_, ?_, hdest, hself, fun b hb hpre => ?_, hsize.trans hun.size⟩
  · have happend : appendNode heap₁ q a = some (heap', some a) := by
      rw [appendNode, hpush, Option.map_some]
    rw [moveNode, if_neg (ne_none hl), hrun, Option.bind_some]
    simp only [happend, Option.map_some]
  · exact Heap.Seg.frame hun.list fun e he => hother e.1 (hl.ne_of_mem he)
  · rw [hother b hb, hun.frame b hpre]

theorem moveNode_contents (u pre : List (Nat × HashChunk)) (a : Nat) (x : HashChunk)
    (post : List (Nat × HashChunk)) :
    P2P.moveNode (contents u) (contents (pre ++ (a, x) :: post)) (contents pre).length =
      some (contents ((a, x) :: u), contents (pre ++ post)) := by
  rw [P2P.moveNode, contents_getElem?, Option.map_some, deleteNode_contents]
  rfl

/-- The nodes of a list were freed. -/
structure Cleared (heap : Heap HashChunk) (l : List (Nat × HashChunk)) (heap' : Heap HashChunk) :
    Prop where
  freed : ∀ e ∈ l, heap'.read e.1 = none
  frame : ∀ b, b ∉ l.map Prod.fst → heap'.read b = heap.read b
  size : heap'.size = heap.size

theorem Cleared.read_none (hc : Cleared heap l heap') {b : Nat} (hb : heap.read b = none) :
    heap'.read b = none := by
  by_cases hmem : b ∈ l.map Prod.fst
  · obtain ⟨e, he, rfl⟩ := List.mem_map.mp hmem
    exact hc.freed e he
  · rw [hc.frame b hmem, hb]

theorem clearLoop_spec (hl : heap.IsList p l) :
    ∀ n count, l.length < n →
      ∃ heap', clearLoop n heap p p count = some (heap', count + l.length) ∧
        Cleared heap l heap' := by
  induction l generalizing heap p with
  | nil =>
    intro n count hn
    cases hl
    obtain ⟨n, rfl⟩ : ∃ m, n = m + 1 := ⟨n - 1, by omega⟩
    refine ⟨heap, rfl, fun e he => ?_, fun _ _ => rfl, rfl⟩
    cases he
  | cons e l ih =>
    intro n count hn
    obtain ⟨n, rfl⟩ : ∃ m, n = m + 1 := ⟨n - 1, by omega⟩
    obtain ⟨a, x⟩ := e
    have hnodup := hl.nodup
    rw [List.map_cons, List.nodup_cons] at hnodup
    obtain ⟨rfl, r, hr, htail⟩ := id hl
    have hfirst : heap.IsList (some a) ([] ++ (a, x) :: l) := hl
    obtain ⟨heap₁, p₁, hdel, hdeleted⟩ := deleteNode_spec hfirst
    have hstart : p₁ = r := by
      -- the head was deleted, so the list starts behind it
      rw [deleteNode, if_neg (Option.some_ne_none a), Heap.unlink, hr, Option.bind_some,
        if_pos rfl, Option.map_some, Option.some.injEq, Prod.mk.injEq] at hdel
      exact hdel.2.symm
    subst hstart
    rw [List.length_cons] at hn ⊢
    obtain ⟨heap', hrun, hclear⟩ := ih hdeleted.list n (count + 1) (by omega)
    refine ⟨heap', ?_, fun e he => ?_, fun b hb => ?_, hclear.size.trans hdeleted.size⟩
    · rw [clearLoop, hr, Option.bind_some, hdel, Option.bind_some]
      simp only [hrun]
      rw [show count + 1 + l.length = count + (l.length + 1) by omega]
    · rcases List.mem_cons.mp he with rfl | he
      · rw [hclear.frame a hnodup.1, hdeleted.freed]
      · exact hclear.freed e he
    · rw [List.map_cons, List.mem_cons, not_or] at hb
      rw [hclear.frame b hb.2, hdeleted.frame b hb.1 (by simp)]

theorem clearHashchunkList_spec (hl : heap.IsList p l) :
    ∃ heap', clearHashchunkList heap p = some (heap', l.length) ∧ Cleared heap l heap' := by
  obtain ⟨heap', hrun, hclear⟩ :=
    clearLoop_spec hl (heap.size + 1) 0 (Nat.lt_succ_of_le hl.length_le)
  rw [Nat.zero_add] at hrun
  exact ⟨heap', hrun, hclear⟩

end Mem

end P2P
