import P2P.Lib.Lists
import P2P.Transfer.Receiver

/-!
# The lists of chunks

`hash_chunk` and the list operations of `hashlist.c`. A list is the `List` of its
nodes from the head on, and a pointer to one of them is its position, with the
node that is read through it.

`find_node_by_addr` compares the two strings `inet_ntoa` returns. Both calls
return the one static buffer of that function, so only the ports are compared
(`sameAddr_iff`).
-/

namespace P2P

open Lib

/-- What the peer is started with. -/
structure Config where
  maxConn : Int
  /-- The address `parse_hasneed_list` gives its nodes. -/
  myaddr : SockAddr

structure HashChunk where
  fromAddr : SockAddr
  hash : Hash
  chunkid : Int
  timestamp : Int
  congWin : Option Window
  recver : Option RecvState
  deriving DecidableEq

/-- What `find_node_by_addr` knows a peer by. -/
def HashChunk.port (x : HashChunk) : UInt16 := x.fromAddr.sinPort

/-- `create_node`. -/
def createNode (fromAddr : SockAddr) (hash : Hash) (chunkId : Int) : HashChunk :=
  { fromAddr := fromAddr, hash := hash, chunkid := chunkId, timestamp := 0, congWin := none,
    recver := none }

/-! ## Addresses -/

/-- The text `inet_ntoa` formats. -/
def inetNtoa (a : UInt32) : String :=
  String.intercalate "."
    [toString (a.toNat / 16777216), toString (a.toNat / 65536 % 256),
      toString (a.toNat / 256 % 256), toString (a.toNat % 256)]

/-- What two calls of `inet_ntoa` point at when both have returned: its static buffer, which holds
the text of the later call. -/
def inetNtoaTwice (_ b : UInt32) : String × String := (inetNtoa b, inetNtoa b)

/-- The test of `find_node_by_addr`. -/
def sameAddr (a b : SockAddr) : Bool :=
  let (s, t) := inetNtoaTwice a.sinAddr b.sinAddr
  s == t && a.sinPort == b.sinPort

theorem sameAddr_iff (a b : SockAddr) : sameAddr a b ↔ a.sinPort = b.sinPort := by
  simp [sameAddr, inetNtoaTwice]

/-! ## List operations -/

def appendNode (list : List HashChunk) (node : HashChunk) : List HashChunk := node :: list

def deleteNode (list : List HashChunk) (k : Nat) : List HashChunk := list.eraseIdx k

/-- The first node that passes a test. -/
def findFirst (test : HashChunk → Bool) (list : List HashChunk) : Option (Nat × HashChunk) :=
  (list.findIdx? test).bind fun k => list[k]?.map fun x => (k, x)

def findNode (list : List HashChunk) (hash : Hash) : Option (Nat × HashChunk) :=
  findFirst (fun x => x.hash == hash) list

def findNodeByAddr (list : List HashChunk) (addr : SockAddr) : Option (Nat × HashChunk) :=
  findFirst (fun x => sameAddr x.fromAddr addr) list

/-- `delete_node_by_hash`: the node found is dereferenced without a test. -/
def deleteNodeByHash (list : List HashChunk) (hash : Hash) : Option (List HashChunk) :=
  (findNode list hash).map fun (k, _) => deleteNode list k

/-- `move_node`: the two lists after node `k` of `source` was moved to the head of `dest`. -/
def moveNode (dest source : List HashChunk) (k : Nat) : Option (List HashChunk × List HashChunk) :=
  source[k]?.map fun node => (appendNode dest node, deleteNode source k)

/-- The nodes `parse_hasneed_list` creates from the entries of a chunk file, in the order of its
lines. -/
def parseHasneedList (myaddr : SockAddr) (entries : List (Int × Hash)) : List HashChunk :=
  entries.foldl (fun list (chunkid, hash) => appendNode list (createNode myaddr hash chunkid)) []

/-- The hash bytes `count * HASH_SIZE` into a payload. -/
def payloadHash (pack : Packet) (count : Nat) : Option Hash :=
  Hash.ofBytes (pack.payload.drop (count * hashSize))

/-! ## The keys of a list -/

/-- The first entry of a list with a hash. -/
def firstEntry (list : List HashChunk) (hash : Hash) : Option HashChunk :=
  list.find? fun x => x.hash == hash

variable {list : List HashChunk} {hash : Hash} {addr : SockAddr} {k : Nat} {x : HashChunk}

theorem findFirst_spec {test : HashChunk → Bool} (h : findFirst test list = some (k, x)) :
    list[k]? = some x ∧ test x ∧ list.find? test = some x := by
  unfold findFirst at h
  rw [Option.bind_eq_some_iff] at h
  obtain ⟨j, hj, h⟩ := h
  obtain ⟨y, hy, hp⟩ := findIdx?_spec hj
  rw [hy, Option.map_some, Option.some.injEq, Prod.mk.injEq] at h
  obtain ⟨rfl, rfl⟩ := h
  exact ⟨hy, hp, find?_of_findIdx? hj hy⟩

theorem findFirst_none {test : HashChunk → Bool} :
    findFirst test list = none ↔ ∀ x ∈ list, test x = false := by
  rw [← List.findIdx?_eq_none_iff]
  unfold findFirst
  cases hf : list.findIdx? test with
  | none => simp
  | some k =>
    obtain ⟨x, hx, -⟩ := findIdx?_spec hf
    simp [hx]

theorem findFirst_set {test : HashChunk → Bool} {y : HashChunk}
    (h : findFirst test list = some (k, x)) (hy : test y) :
    findFirst test (list.set k y) = some (k, y) := by
  unfold findFirst at h ⊢
  rw [Option.bind_eq_some_iff] at h
  obtain ⟨j, hj, h⟩ := h
  rw [Option.map_eq_some_iff] at h
  obtain ⟨_, -, h⟩ := h
  cases h
  obtain ⟨hlt, -, hfirst⟩ := List.findIdx?_eq_some_iff_getElem.mp hj
  have hfind : (list.set k y).findIdx? test = some k := by
    refine List.findIdx?_eq_some_iff_getElem.mpr ⟨by rwa [List.length_set], ?_, fun i hi => ?_⟩
    · rwa [List.getElem_set_self]
    · rw [List.getElem_set_ne (by omega)]
      exact hfirst i hi
  rw [hfind, Option.bind_some, List.getElem?_set_self hlt, Option.map_some]

theorem findNode_spec (h : findNode list hash = some (k, x)) :
    list[k]? = some x ∧ x.hash = hash ∧ firstEntry list hash = some x := by
  obtain ⟨hx, hp, hfirst⟩ := findFirst_spec h
  exact ⟨hx, by simpa using hp, hfirst⟩

theorem findNode_none : findNode list hash = none ↔ hash ∉ list.map HashChunk.hash := by
  unfold findNode
  rw [findFirst_none]
  simp

theorem exists_findNode (h : hash ∈ list.map HashChunk.hash) :
    ∃ k x, findNode list hash = some (k, x) := by
  cases hf : findNode list hash with
  | none => exact absurd h (findNode_none.mp hf)
  | some p => exact ⟨p.1, p.2, rfl⟩

theorem findNodeByAddr_spec (h : findNodeByAddr list addr = some (k, x)) :
    list[k]? = some x ∧ x.fromAddr.sinPort = addr.sinPort := by
  obtain ⟨hx, hp, -⟩ := findFirst_spec h
  exact ⟨hx, (sameAddr_iff _ _).mp hp⟩

theorem findNodeByAddr_none :
    findNodeByAddr list addr = none ↔ addr.sinPort ∉ list.map fun x => x.fromAddr.sinPort := by
  unfold findNodeByAddr
  rw [findFirst_none]
  simp [← Bool.not_eq_true, sameAddr_iff]

theorem exists_findNodeByAddr (hx : x ∈ list) (h : x.port = addr.sinPort) :
    ∃ k y, findNodeByAddr list addr = some (k, y) := by
  cases hf : findNodeByAddr list addr with
  | none => exact absurd (List.mem_map.mpr ⟨x, hx, h⟩) (findNodeByAddr_none.mp hf)
  | some r => exact ⟨r.1, r.2, rfl⟩

theorem findNodeByAddr_cons {x : HashChunk} {addr : SockAddr} (h : x.fromAddr = addr)
    (l : List HashChunk) : findNodeByAddr (x :: l) addr = some (0, x) := by
  have hsame : sameAddr x.fromAddr addr = true := (sameAddr_iff _ _).mpr (by rw [h])
  simp [findNodeByAddr, findFirst, List.findIdx?_cons, hsame]

theorem findNodeByAddr_find? (h : findNodeByAddr list addr = some (k, x)) :
    list.find? (fun x => x.port == addr.sinPort) = some x := by
  have htest : (fun x : HashChunk => x.port == addr.sinPort) =
      fun x => sameAddr x.fromAddr addr := by
    funext x
    rw [Bool.eq_iff_iff, sameAddr_iff, beq_iff_eq]
    rfl
  rw [htest]
  exact (findFirst_spec h).2.2

theorem firstEntry_hash (h : firstEntry list hash = some x) : x ∈ list ∧ x.hash = hash := by
  unfold firstEntry at h
  exact ⟨List.mem_of_find?_eq_some h, by simpa using List.find?_some h⟩

theorem firstEntry_deleteNode (h : list[k]? = some x) (hne : x.hash ≠ hash) :
    firstEntry (deleteNode list k) hash = firstEntry list hash :=
  find?_eraseIdx h (by simpa using hne)

theorem deleteNodeByHash_spec {list' : List HashChunk}
    (h : deleteNodeByHash list hash = some list') :
    ∃ k x, list[k]? = some x ∧ x.hash = hash ∧ firstEntry list hash = some x ∧
      list' = deleteNode list k := by
  unfold deleteNodeByHash at h
  rw [Option.map_eq_some_iff] at h
  obtain ⟨⟨k, x⟩, hk, rfl⟩ := h
  obtain ⟨hx, hhash, hfirst⟩ := findNode_spec hk
  exact ⟨k, x, hx, hhash, hfirst, rfl⟩

theorem perm_deleteNode (h : list[k]? = some x) : (x :: deleteNode list k).Perm list :=
  perm_eraseIdx h

theorem length_deleteNode (h : list[k]? = some x) :
    (deleteNode list k).length + 1 = list.length := by
  rw [← (perm_deleteNode h).length_eq, List.length_cons]

/-- The file's lines end up in the list from the last to the first. -/
theorem parseHasneedList_eq (myaddr : SockAddr) (entries : List (Int × Hash)) :
    parseHasneedList myaddr entries =
      (entries.map fun e => createNode myaddr e.2 e.1).reverse := by
  have hfold : ∀ (es : List (Int × Hash)) (acc : List HashChunk),
      es.foldl (fun list (chunkid, hash) => appendNode list (createNode myaddr hash chunkid)) acc =
        (es.map fun e => createNode myaddr e.2 e.1).reverse ++ acc := by
    intro es
    induction es with
    | nil => intro acc; rfl
    | cons e es ih =>
      intro acc
      rw [List.foldl_cons, ih, List.map_cons, List.reverse_cons, List.append_assoc]
      rfl
  rw [parseHasneedList, hfold, List.append_nil]

end P2P
