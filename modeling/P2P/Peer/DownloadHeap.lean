import P2P.Lib.HeapLists
import P2P.Peer.DownloadSweep
import P2P.Peer.HasneedFile
import P2P.Peer.Picking

/-!
# The download side, operation by operation

The other operations on the lists of `Download_conn`, on nodes with their pointers: timeouts, IHave,
the first data packet of a chunk, and a new GET. `Mem.Downloads.Represents` says that the memory is
made of the four lists of a state of `P2P.Peer.Download`, and of nothing else.

* `Mem.checkTimeout_rel`, `Mem.fillTogetList_rel`, `Mem.getSender_rel`, `Mem.dealwithData_rel`,
  `Mem.resetMydownload_rel`: each operation goes through in memory exactly if it does on the lists,
  and then the memory represents the lists it makes.
-/

namespace P2P

open Lib

namespace Mem

/-! ## The operations -/

/-- `create_node`. -/
def createNode (heap : Heap HashChunk) (fromAddr : SockAddr) (hash : Hash) (chunkId : Int) :
    Heap HashChunk × Nat :=
  heap.alloc (P2P.createNode fromAddr hash chunkId)

/-- The loop of `check_timeout`. -/
def timeoutLoop (now : Int) : Nat → Option Nat → Downloads → Int → Option (Downloads × Int)
  | 0, _, _, _ => none
  | _ + 1, none, down, count => some (down, count)
  | n + 1, some curr, down, count =>
    (down.heap.read curr).bind fun node =>
      if node.data.expired now then
        (deleteNode down.heap down.getSentList curr).bind fun r =>
          timeoutLoop now n node.next { down with
            heap := r.1
            getSentList := r.2
            concurrDownloadNum := down.concurrDownloadNum - 1
            howmanyFound := down.howmanyFound - 1 } (count + 1)
      else timeoutLoop now n node.next down count

/-- `check_timeout` on `get_sent_list`. -/
def checkTimeout (now : Int) (down : Downloads) : Option (Downloads × Int) :=
  timeoutLoop now (down.heap.size + 1) down.getSentList down 0

/-- A new node at the head of the queue. -/
def queueNode (fromAddr : SockAddr) (findHash : Hash) (chunkid : Int) (down : Downloads) :
    Option Downloads :=
  let new := createNode down.heap fromAddr findHash chunkid
  (appendNode new.1 down.getTosendQuene new.2).map fun r =>
    { down with
      heap := r.1
      getTosendQuene := r.2 }

/-- One hash of an IHave packet. -/
def fillHash (fromAddr : SockAddr) (findHash : Hash) (down : Downloads) : Option Downloads :=
  (findNode down.heap down.needlist findHash).bind fun ifIneed =>
    (findNode down.heap down.getTosendQuene findHash).bind fun ifStored =>
      (findNode down.heap down.downloadingList findHash).bind fun loading =>
        if loading ≠ none then some down
        else (findNode down.heap down.getSentList findHash).bind fun sent =>
          if sent ≠ none then some down
          else match ifIneed with
            | none => some down
            | some ifIneed =>
              (down.heap.read ifIneed).bind fun need =>
                match ifStored with
                | none =>
                  (queueNode fromAddr findHash need.data.chunkid down).map fun down =>
                    { down with howmanyFound := down.howmanyFound + 1 }
                | some ifStored =>
                  (down.heap.read ifStored).bind fun stored =>
                    if fromAddr.sinPort ≠ stored.data.fromAddr.sinPort then
                      (isIdle down.heap down.downloadingList down.getSentList
                        stored.data.fromAddr).bind fun idle =>
                        if idle then some down
                        else (deleteNode down.heap down.getTosendQuene ifStored).bind fun r =>
                          -- the chunk id is read again
                          (r.1.read ifIneed).bind fun need =>
                            queueNode fromAddr findHash need.data.chunkid { down with
                              heap := r.1
                              getTosendQuene := r.2 }
                    else some down

/-- The loop of `fill_toget_list` with `n` hashes left. -/
def fillLoop (ihavPack : Packet) (fromAddr : SockAddr) :
    Nat → Nat → Downloads → Option Downloads
  | 0, _, down => some down
  | n + 1, count, down =>
    (payloadHash ihavPack count).bind fun findHash =>
      (fillHash fromAddr findHash down).bind (fillLoop ihavPack fromAddr n (count + 1))

def fillTogetList (ihavPack : Packet) (fromAddr : SockAddr) (down : Downloads) :
    Option Downloads :=
  fillLoop ihavPack fromAddr ihavPack.chunkhashNum.toNat 0 down

/-- `init_download`. -/
def initDownload (now : Int) (downConn : Nat) (down : Downloads) : Option Downloads :=
  (moveNode down.heap down.downloadingList down.getSentList downConn).bind fun r =>
    (r.1.update downConn fun c => ⟨{ c.data with
        timestamp := now
        recver := some (createRecver c.data.hash) }, c.next⟩).map fun heap =>
      { down with
        heap := heap
        downloadingList := r.2.1
        getSentList := r.2.2 }

/-- `upon_receiving_datapack` on a connection. -/
def receiveOn (pack : Packet) (conn : Nat) (down : Downloads) :
    Option (Downloads × List Packet) :=
  (down.heap.read conn).bind fun node =>
    node.data.recver.bind fun rev =>
      (uponReceivingDatapack pack rev).bind fun r =>
        (down.heap.update conn fun c => ⟨{ c.data with recver := some r.1 }, c.next⟩).map
          fun heap => ({ down with heap := heap }, r.2)

/-- The DATA branch of `dealwithincomepack`. -/
def dealwithData (pack : Packet) (toaddr : SockAddr) (now : Int) (down : Downloads) :
    Option (Downloads × List Packet) :=
  (findNodeByAddr down.heap down.downloadingList toaddr).bind fun conn =>
    match conn with
    | some conn =>
      (down.heap.update conn fun c => ⟨{ c.data with timestamp := now }, c.next⟩).bind
        fun heap => receiveOn pack conn { down with heap := heap }
    | none =>
      (findNodeByAddr down.heap down.getSentList toaddr).bind fun conn =>
        match conn with
        | some conn => (initDownload now conn down).bind (receiveOn pack conn)
        | none => some (down, [])

/-- The loop of `length_of_list`. -/
def lengthLoop (heap : Heap HashChunk) : Nat → Option Nat → Nat → Option Nat
  | 0, _, _ => none
  | _ + 1, none, count => some count
  | n + 1, some list, count =>
    (heap.read list).bind fun node => lengthLoop heap n node.next (count + 1)

def lengthOfList (heap : Heap HashChunk) (list : Option Nat) : Option Nat :=
  lengthLoop heap (heap.size + 1) list 0

/-- What the loop of `parse_hasneed_list` keeps from one line to the next. -/
structure Hasneed where
  chunkid : Int
  heap : Heap HashChunk
  list : Option Nat

/-- The body of the loop for what `fgets` has read. -/
def hasneedLine (myaddr : SockAddr) (s : Hasneed) (line : List UInt8) : Option Hasneed :=
  if line.head? = some 35 then some s
  else
    (sscanf (cstr (line ++ [0])) s.chunkid).bind fun r =>
      if r.ret = 0 then none
      else
        let hash := r.hash ++ List.replicate (50 - r.hash.length) 0
        (Hash.ofBytes (hex2binary (hash.take 40))).bind fun decoded =>
          let new := createNode s.heap myaddr decoded r.chunkid
          (appendNode new.1 s.list new.2).map fun t =>
            { chunkid := r.chunkid, heap := t.1, list := t.2 }

/-- `parse_hasneed_list` on the text of the file. -/
def parseHasneedFile (myaddr : SockAddr) (chunkid : Int) (heap : Heap HashChunk)
    (list : Option Nat) (text : List UInt8) : Option (Heap HashChunk × Option Nat) :=
  (readLoop newline (btFilenameLen - 1) (hasneedLine myaddr) (text.length + 1) text
    ⟨chunkid, heap, list⟩).map fun s => (s.heap, s.list)

/-- `reset_mydownload` from the text of the chunk file. -/
def resetMydownload (config : Config) (chunkid : Int) (text : List UInt8) (down : Downloads) :
    Option Downloads :=
  (clearHashchunkList down.heap down.needlist).bind fun r =>
    (clearHashchunkList r.1 down.getTosendQuene).bind fun r =>
      (clearHashchunkList r.1 down.getSentList).bind fun r =>
        (clearHashchunkList r.1 down.downloadingList).bind fun r =>
          (parseHasneedFile config.myaddr chunkid r.1 none text).bind fun r =>
            (lengthOfList r.1 r.2).map fun (howmany : Nat) =>
              { heap := r.1
                concurrDownloadNum := 0
                maxDownloadNum := config.maxConn
                howmanyFound := 0
                howmanyNeed := howmany
                needlist := r.2
                getTosendQuene := none
                getSentList := none
                downloadingList := none }

/-! ## What the memory stands for -/

inductive DownList
  | needlist
  | getTosendQuene
  | getSentList
  | downloadingList
  deriving DecidableEq

/-- The pointer to a list. -/
def Downloads.start (down : Downloads) : DownList → Option Nat
  | .needlist => down.needlist
  | .getTosendQuene => down.getTosendQuene
  | .getSentList => down.getSentList
  | .downloadingList => down.downloadingList

/-- The four lists by name. -/
def fourLists (need queue sent load : List (Nat × HashChunk)) :
    DownList → List (Nat × HashChunk)
  | .needlist => need
  | .getTosendQuene => queue
  | .getSentList => sent
  | .downloadingList => load

/-- The memory is made of these lists, and nothing is lost. -/
def Downloads.Owns (down : Downloads) (need queue sent load : List (Nat × HashChunk)) : Prop :=
  down.heap.Lists down.start (fourLists need queue sent load)

/-- **The memory is made of the four lists of `d`.** -/
def Downloads.Represents (down : Downloads) (d : DownloadConn) : Prop :=
  ∃ need queue sent load, down.Owns need queue sent load ∧ down.conn need queue sent load = d

/-- An operation that returns a value as well. -/
def RepresentsWith {ρ : Type*} (r : Downloads × ρ) (r' : DownloadConn × ρ) : Prop :=
  r.1.Represents r'.1 ∧ r.2 = r'.2

variable {down down' : Downloads} {d : DownloadConn} {heap : Heap HashChunk} {a : Nat}
  {x : HashChunk} {now : Int} {p : Option Nat}
  {l need queue sent load pre post m : List (Nat × HashChunk)}

theorem Downloads.Owns.holds (hs : down.Owns need queue sent load) :
    down.Holds need queue sent load := by
  refine ⟨hs.list .needlist, hs.list .getTosendQuene, hs.list .getSentList,
    hs.list .downloadingList, ?_⟩
  exact pairwise_apart_iff.mpr ⟨⟨hs.apart .needlist .getTosendQuene (by decide),
    hs.apart .needlist .getSentList (by decide), hs.apart .needlist .downloadingList (by decide)⟩,
    ⟨hs.apart .getTosendQuene .getSentList (by decide),
    hs.apart .getTosendQuene .downloadingList (by decide)⟩,
    hs.apart .getSentList .downloadingList (by decide)⟩

/-- The addresses of all nodes. -/
def addressesOf (need queue sent load : List (Nat × HashChunk)) : List Nat :=
  (need ++ queue ++ sent ++ load).map Prod.fst

theorem Downloads.Holds.addresses (hd : down.Holds need queue sent load) :
    (addressesOf need queue sent load).Nodup ∧
      ∀ a ∈ addressesOf need queue sent load, ∃ c, down.heap.read a = some c := by
  obtain ⟨⟨hnq, hns, hnl⟩, ⟨hqs, hql⟩, hsl⟩ := pairwise_apart_iff.mp hd.apart
  have hdisj : ∀ {m n : List (Nat × HashChunk)}, Heap.Apart m n →
      ∀ a ∈ m.map Prod.fst, ∀ b ∈ n.map Prod.fst, a ≠ b := by
    intro m n hap a ha b hb
    obtain ⟨e, he, rfl⟩ := List.mem_map.mp ha
    obtain ⟨e', he', rfl⟩ := List.mem_map.mp hb
    exact hap e he e' he'
  have hread : ∀ {m : List (Nat × HashChunk)} {p : Option Nat}, down.heap.IsList p m →
      ∀ a ∈ m.map Prod.fst, ∃ c, down.heap.read a = some c := by
    intro m p hm a ha
    obtain ⟨e, he, rfl⟩ := List.mem_map.mp ha
    obtain ⟨r, hr⟩ := Heap.Seg.read hm he
    exact ⟨_, hr⟩
  unfold addressesOf
  simp only [List.map_append, List.nodup_append, List.mem_append, or_imp, forall_and]
  exact ⟨⟨⟨⟨hd.needlist.nodup, hd.getTosendQuene.nodup, hdisj hnq⟩, hd.getSentList.nodup,
      hdisj hns, hdisj hqs⟩, hd.downloadingList.nodup, ⟨hdisj hnl, hdisj hql⟩, hdisj hsl⟩,
    ⟨⟨hread hd.needlist, hread hd.getTosendQuene⟩, hread hd.getSentList⟩,
    hread hd.downloadingList⟩

/-- **Nothing is lost** exactly if the nodes of the lists are as many as those of the memory. -/
theorem owns_iff : down.Owns need queue sent load ↔ down.Holds need queue sent load ∧
    down.heap.live = need.length + queue.length + sent.length + load.length := by
  have hlen : (addressesOf need queue sent load).length =
      need.length + queue.length + sent.length + load.length := by
    simp [addressesOf, Nat.add_assoc]
  constructor
  · intro hs
    have hd := hs.holds
    refine ⟨hd, ?_⟩
    obtain ⟨hnodup, halloc⟩ := hd.addresses
    rw [← hlen]
    refine (Heap.owned_iff_live hnodup halloc).mp fun a c hc => ?_
    obtain ⟨i, hi⟩ := hs.owned a c hc
    simp only [addressesOf, List.map_append, List.mem_append]
    cases i with
    | needlist => exact .inl (.inl (.inl hi))
    | getTosendQuene => exact .inl (.inl (.inr hi))
    | getSentList => exact .inl (.inr hi)
    | downloadingList => exact .inr hi
  · rintro ⟨hd, hlive⟩
    obtain ⟨⟨hnq, hns, hnl⟩, ⟨hqs, hql⟩, hsl⟩ := pairwise_apart_iff.mp hd.apart
    obtain ⟨hnodup, halloc⟩ := hd.addresses
    refine ⟨fun i => ?_, fun i j hij => ?_, fun a c hc => ?_⟩
    · cases i
      exacts [hd.needlist, hd.getTosendQuene, hd.getSentList, hd.downloadingList]
    · cases i <;> cases j <;> first
        | exact absurd rfl hij
        | assumption
        | exact Heap.Apart.symm ‹_›
    · have hmem := (Heap.owned_iff_live hnodup halloc).mpr (hlive.trans hlen.symm) a c hc
      simp only [addressesOf, List.map_append, List.mem_append] at hmem
      rcases hmem with ((h | h) | h) | h
      exacts [⟨.needlist, h⟩, ⟨.getTosendQuene, h⟩, ⟨.getSentList, h⟩, ⟨.downloadingList, h⟩]

/-! ## One list is rewritten -/

section
variable (down : Downloads) (need queue sent load : List (Nat × HashChunk)) (heap : Heap HashChunk)
  (p : Option Nat) (m : List (Nat × HashChunk))

@[simp] theorem update_needlist : Function.update (fourLists need queue sent load) .needlist m =
    fourLists m queue sent load := by
  funext i
  cases i <;> rfl

@[simp] theorem update_getTosendQuene :
    Function.update (fourLists need queue sent load) .getTosendQuene m =
      fourLists need m sent load := by
  funext i
  cases i <;> rfl

@[simp] theorem update_getSentList :
    Function.update (fourLists need queue sent load) .getSentList m =
      fourLists need queue m load := by
  funext i
  cases i <;> rfl

@[simp] theorem update_downloadingList :
    Function.update (fourLists need queue sent load) .downloadingList m =
      fourLists need queue sent m := by
  funext i
  cases i <;> rfl

@[simp] theorem start_needlist :
    Function.update down.start .needlist p = { down with needlist := p }.start := by
  funext i
  cases i <;> rfl

@[simp] theorem start_getTosendQuene :
    Function.update down.start .getTosendQuene p = { down with getTosendQuene := p }.start := by
  funext i
  cases i <;> rfl

@[simp] theorem start_getSentList :
    Function.update down.start .getSentList p = { down with getSentList := p }.start := by
  funext i
  cases i <;> rfl

@[simp] theorem start_downloadingList :
    Function.update down.start .downloadingList p = { down with downloadingList := p }.start := by
  funext i
  cases i <;> rfl

end

theorem lists_deleted {ι : Type*} [DecidableEq ι] {heap heap' : Heap HashChunk}
    {s : ι → Option Nat} {l : ι → List (Nat × HashChunk)} {i : ι} {p : Option Nat}
    (hs : heap.Lists s l) (hi : l i = pre ++ (a, x) :: post)
    (hd : Deleted heap pre a post heap' p) :
    heap'.Lists (Function.update s i p) (Function.update l i (pre ++ post)) := by
  have hsub : ∀ b, b ∈ (pre ++ post).map Prod.fst → b ∈ (l i).map Prod.fst := by
    rw [hi]
    exact fun b hb => List.map_subset Prod.fst (removed_subset pre a x post) hb
  refine hs.replace i hd.list (fun b hb _ => ?_) (fun b hb => .inl (hsub b hb)) fun b hb hbm => ?_
  · exact hd.outside (x := x) b (hi ▸ hb)
  · -- only the node deleted has left the list
    rw [hi, List.map_append, List.map_cons, List.mem_append, List.mem_cons] at hb
    rw [List.map_append, List.mem_append, not_or] at hbm
    rcases hb with hb | rfl | hb
    · exact absurd hb hbm.1
    · exact hd.freed
    · exact absurd hb hbm.2

/-! ## Searching -/

/-- **A search in memory and on the contents** finds the same node. -/
theorem find_cases (test : HashChunk → Bool) (hl : heap.IsList p l) :
    (heap.find (fun c => test c.data) p = some none ∧ findFirst test (contents l) = none) ∨
    ∃ pre a x post, l = pre ++ (a, x) :: post ∧
      heap.find (fun c => test c.data) p = some (some a) ∧
      findFirst test (contents l) = some ((contents pre).length, x) := by
  rw [Heap.find_data test hl]
  cases hfind : l.find? fun e => test e.2 with
  | none =>
    refine .inl ⟨rfl, findFirst_none.mpr fun x hx => ?_⟩
    obtain ⟨e, he, rfl⟩ := List.mem_map.mp hx
    simpa using List.find?_eq_none.mp hfind e he
  | some e =>
    obtain ⟨htest, pre, post, rfl, hpre⟩ := List.find?_eq_some_iff_append.mp hfind
    refine .inr ⟨pre, e.1, e.2, post, rfl, rfl, ?_⟩
    have hskip : (contents pre).findIdx? test = none := by
      rw [List.findIdx?_eq_none_iff]
      intro y hy
      obtain ⟨e', he', rfl⟩ := List.mem_map.mp hy
      simpa using hpre e' he'
    have hidx : (contents (pre ++ e :: post)).findIdx? test = some (contents pre).length := by
      have hcons : contents (e :: post) = e.2 :: contents post := rfl
      rw [contents_append, List.findIdx?_append, hskip, hcons, List.findIdx?_cons]
      simp [htest]
    rw [findFirst, hidx, Option.bind_some, contents_getElem?, Option.map_some]

theorem findNode_cases (hl : heap.IsList p l) (hash : Hash) :
    (findNode heap p hash = some none ∧ P2P.findNode (contents l) hash = none) ∨
    ∃ pre a x post, l = pre ++ (a, x) :: post ∧ findNode heap p hash = some (some a) ∧
      P2P.findNode (contents l) hash = some ((contents pre).length, x) :=
  find_cases (fun x => x.hash == hash) hl

theorem findNodeByAddr_cases (hl : heap.IsList p l) (addr : SockAddr) :
    (findNodeByAddr heap p addr = some none ∧ P2P.findNodeByAddr (contents l) addr = none) ∨
    ∃ pre a x post, l = pre ++ (a, x) :: post ∧ findNodeByAddr heap p addr = some (some a) ∧
      P2P.findNodeByAddr (contents l) addr = some ((contents pre).length, x) :=
  find_cases (fun x => sameAddr x.fromAddr addr) hl

/-! ## Timeouts -/

/-- **The loop of `check_timeout`** from any node on. `pre` are the nodes that are kept. -/
theorem timeoutLoop_spec (now : Int) {todo : List (Nat × HashChunk)} :
    ∀ {down : Downloads} {pre : List (Nat × HashChunk)} {n : Nat} (count : Int),
      down.Owns need queue (pre ++ todo) load → todo.length < n →
      ∃ heap p, timeoutLoop now n (todo.head?.map Prod.fst) down count =
          some ({ down with
            heap := heap
            getSentList := p
            concurrDownloadNum :=
              down.concurrDownloadNum - (todo.countP fun e => e.2.expired now)
            howmanyFound := down.howmanyFound - (todo.countP fun e => e.2.expired now) },
            count + (todo.countP fun e => e.2.expired now)) ∧
        Downloads.Owns { down with heap := heap, getSentList := p } need queue
          (pre ++ todo.filter fun e => !e.2.expired now) load := by
  induction todo with
  | nil =>
    intro down pre n count hs hn
    obtain ⟨n, rfl⟩ : ∃ m, n = m + 1 := ⟨n - 1, by omega⟩
    refine ⟨down.heap, down.getSentList, ?_, hs⟩
    simp [timeoutLoop]
  | cons e todo ih =>
    intro down pre n count hs hn
    obtain ⟨n, rfl⟩ : ∃ m, n = m + 1 := ⟨n - 1, by omega⟩
    obtain ⟨a, x⟩ := e
    rw [List.length_cons] at hn
    simp only [List.head?_cons, Option.map_some, timeoutLoop, hs.holds.getSentList.next,
      Option.bind_some]
    by_cases hlate : x.expired now
    · -- the node goes
      obtain ⟨heap₁, p₁, hdel, hdeleted⟩ := deleteNode_spec hs.holds.getSentList
      have hs₁ : Downloads.Owns { down with
          heap := heap₁
          getSentList := p₁
          concurrDownloadNum := down.concurrDownloadNum - 1
          howmanyFound := down.howmanyFound - 1 } need queue (pre ++ todo) load := by
        have := lists_deleted (i := .getSentList) hs rfl hdeleted
        rwa [update_getSentList, start_getSentList] at this
      obtain ⟨heap, p, hrun, hown⟩ := ih (n := n) (count + 1) hs₁ (by omega)
      refine ⟨heap, p, ?_, ?_⟩
      · rw [if_pos hlate, hdel, Option.bind_some, hrun]
        simp only [List.countP_cons, hlate, if_true]
        push_cast
        simp only [Option.some.injEq, Prod.mk.injEq, Downloads.mk.injEq, true_and, and_true]
        omega
      · rw [List.filter_cons_of_neg (by simp [hlate])]
        exact hown
    · rw [List.append_cons] at hs
      obtain ⟨heap, p, hrun, hown⟩ := ih (n := n) count hs (by omega)
      refine ⟨heap, p, ?_, ?_⟩
      · rw [if_neg hlate, hrun]
        simp only [List.countP_cons, hlate, Bool.false_eq_true, if_false, Nat.add_zero]
      · rw [List.filter_cons_of_pos (by simp [hlate]), List.append_cons]
        exact hown

theorem checkTimeout_rel (now : Int) (hd : down.Represents d) :
    ∃ down' count, checkTimeout now down = some (down', count) ∧
      RepresentsWith (down', count) (P2P.checkTimeout now d) := by
  obtain ⟨need, queue, sent, load, hs, rfl⟩ := hd
  have hsent : down.Owns need queue ([] ++ sent) load := hs
  obtain ⟨heap, p, hrun, hown⟩ := timeoutLoop_spec now (n := down.heap.size + 1) 0 hsent
    (Nat.lt_succ_of_le hs.holds.getSentList.length_le)
  rw [← hs.holds.getSentList.start] at hrun
  have hcount : (contents sent).countP (HashChunk.expired now) =
      sent.countP fun e => e.2.expired now := by
    rw [contents, List.countP_map]
    rfl
  have hkept : (contents sent).filter (fun x => !x.expired now) =
      contents (sent.filter fun e => !e.2.expired now) := by
    rw [contents, contents, List.filter_map]
    rfl
  refine ⟨_, _, hrun, ⟨need, queue, _, load, hown, ?_⟩, ?_⟩
  · simp only [P2P.checkTimeout, Downloads.conn, List.nil_append]
    rw [hcount, hkept]
  · simp only [P2P.checkTimeout, Downloads.conn, hcount]
    omega

/-! ## IHave -/

theorem queueNode_spec (fromAddr : SockAddr) (findHash : Hash) (chunkid : Int)
    (hs : down.Owns need queue sent load) :
    ∃ heap p a, queueNode fromAddr findHash chunkid down =
        some { down with
          heap := heap
          getTosendQuene := p } ∧
      Downloads.Owns { down with
        heap := heap
        getTosendQuene := p } need ((a, P2P.createNode fromAddr findHash chunkid) :: queue) sent
          load := by
  obtain ⟨heap, hpush, hnew⟩ := Heap.Lists.insert hs .getTosendQuene
    (P2P.createNode fromAddr findHash chunkid)
  rw [update_getTosendQuene, start_getTosendQuene] at hnew
  refine ⟨heap, _, _, ?_, hnew⟩
  rw [queueNode, createNode, appendNode]
  rw [show down.heap.alloc _ |>.1.push down.getTosendQuene _ = some heap from hpush]
  rfl

theorem busy_iff (hs : down.Owns need queue sent load) (addr : SockAddr) :
    ∃ idle, isIdle down.heap down.downloadingList down.getSentList addr = some idle ∧
      (idle = false ↔ (P2P.findNodeByAddr (contents load) addr).isSome ∨
        (P2P.findNodeByAddr (contents sent) addr).isSome) := by
  rcases findNodeByAddr_cases hs.holds.downloadingList addr with ⟨hl, hl'⟩ |
    ⟨pre, b, y, post, -, hl, hl'⟩
  · rw [isIdle, hl, Option.bind_some, if_pos rfl, hl']
    rcases findNodeByAddr_cases hs.holds.getSentList addr with ⟨hq, hq'⟩ |
      ⟨pre, b, y, post, -, hq, hq'⟩
    · exact ⟨true, by rw [hq]; rfl, by simp [hq']⟩
    · exact ⟨false, by rw [hq]; rfl, by simp [hq']⟩
  · rw [isIdle, hl, Option.bind_some, if_neg (Option.some_ne_none b), hl']
    exact ⟨false, rfl, by simp⟩

theorem fillHash_rel (fromAddr : SockAddr) (findHash : Hash) (hd : down.Represents d) :
    ∃ down', fillHash fromAddr findHash down = some down' ∧
      down'.Represents (P2P.fillHash fromAddr findHash d) := by
  obtain ⟨need, queue, sent, load, hs, rfl⟩ := hd
  have hsame : ∀ d', d' = down.conn need queue sent load → down.Represents d' := by
    rintro d' rfl
    exact ⟨need, queue, sent, load, hs, rfl⟩
  unfold fillHash P2P.fillHash
  simp only [Downloads.conn]
  rcases findNode_cases hs.holds.needlist findHash with ⟨hneed, hneed'⟩ |
    ⟨np, n, y, nq, hsplit, hneed, hneed'⟩ <;>
    rcases findNode_cases hs.holds.getTosendQuene findHash with ⟨hqueue, hqueue'⟩ |
      ⟨pre, a, x, post, hqsplit, hqueue, hqueue'⟩ <;>
      rcases findNode_cases hs.holds.downloadingList findHash with ⟨hload, hload'⟩ |
        ⟨lp, b, z, lq, -, hload, hload'⟩ <;>
        rcases findNode_cases hs.holds.getSentList findHash with ⟨hsent, hsent'⟩ |
          ⟨sp, s, w, sq, -, hsent, hsent'⟩ <;>
          simp only [hneed, hqueue, hload, hsent, hneed', hqueue', hload', hsent',
            Option.bind_some, ne_eq, reduceCtorEq, not_true_eq_false, not_false_eq_true, if_true,
            if_false]
  -- a chunk that is not needed, or already in work, is left alone
  all_goals try exact ⟨down, rfl, hsame _ rfl⟩
  all_goals
    have hread : down.heap.read n = some ⟨y, nq.head?.map Prod.fst⟩ :=
      Heap.IsList.next (hsplit ▸ hs.holds.needlist)
  · -- it is queued
    obtain ⟨heap, p, a, hnew, hs'⟩ := queueNode_spec fromAddr findHash y.chunkid hs
    refine ⟨{ down with
        heap := heap
        getTosendQuene := p
        howmanyFound := down.howmanyFound + 1 }, ?_, need, _, sent, load, hs', rfl⟩
    rw [hread, Option.bind_some, hnew, Option.map_some]
  · -- it waits for another peer, or for this one
    have hstored : down.heap.read a = some ⟨x, post.head?.map Prod.fst⟩ :=
      Heap.IsList.next (hqsplit ▸ hs.holds.getTosendQuene)
    obtain ⟨idle, hidle, hbusy⟩ := busy_iff hs x.fromAddr
    rw [hread, Option.bind_some, hstored, Option.bind_some]
    by_cases hport : fromAddr.sinPort = x.fromAddr.sinPort
    · exact ⟨down, if_neg (not_not.mpr hport), hsame _ (if_neg fun h => h.1 hport)⟩
    rw [if_pos hport, hidle, Option.bind_some]
    cases idle with
    | true =>
      refine ⟨down, rfl, hsame _ (if_neg fun h => ?_)⟩
      exact absurd (hbusy.mpr h.2) (by decide)
    | false =>
      subst hqsplit
      obtain ⟨heap₁, p₁, hdel, hdeleted⟩ := deleteNode_spec hs.holds.getTosendQuene
      have hs₁ : Downloads.Owns { down with
          heap := heap₁
          getTosendQuene := p₁ } need (pre ++ post) sent load := by
        have := lists_deleted (i := .getTosendQuene) hs rfl hdeleted
        rwa [update_getTosendQuene, start_getTosendQuene] at this
      have hread₁ : heap₁.read n = some ⟨y, nq.head?.map Prod.fst⟩ :=
        Heap.IsList.next (hsplit ▸ hs₁.holds.needlist)
      obtain ⟨heap, p, b, hnew, hs'⟩ := queueNode_spec fromAddr findHash y.chunkid hs₁
      refine ⟨{ down with
          heap := heap
          getTosendQuene := p }, ?_, need, _, sent, load, hs', ?_⟩
      · rw [if_neg (by decide), hdel, Option.bind_some, hread₁, Option.bind_some, hnew]
      · have hmove := And.intro hport (hbusy.mp rfl)
        refine .trans ?_ (if_pos hmove).symm
        rw [deleteNode_contents]
        rfl

theorem fillLoop_rel (ihavPack : Packet) (fromAddr : SockAddr) (n : Nat) :
    ∀ {count : Nat} {down : Downloads} {d : DownloadConn}, down.Represents d →
      Option.Rel Downloads.Represents (fillLoop ihavPack fromAddr n count down)
        (P2P.fillLoop ihavPack fromAddr n count d) := by
  induction n with
  | zero =>
    intro count down d hd
    exact .some hd
  | succ n ih =>
    intro count down d hd
    unfold fillLoop P2P.fillLoop
    cases payloadHash ihavPack count with
    | none => exact .none
    | some findHash =>
      obtain ⟨down', hrun, hd'⟩ := fillHash_rel fromAddr findHash hd
      rw [Option.bind_some, Option.bind_some, hrun, Option.bind_some]
      exact ih hd'

theorem fillTogetList_rel (ihavPack : Packet) (fromAddr : SockAddr) (hd : down.Represents d) :
    Option.Rel Downloads.Represents (fillTogetList ihavPack fromAddr down)
      (P2P.fillTogetList ihavPack fromAddr d) :=
  fillLoop_rel ihavPack fromAddr _ hd

/-! ## GET -/

theorem live_moveNode {heap heap' : Heap HashChunk} {dest source q' p' : Option Nat}
    (h : moveNode heap dest source a = some (heap', q', p')) : heap'.live = heap.live := by
  unfold moveNode at h
  split at h
  · cases h
    rfl
  · rw [Option.bind_eq_some_iff] at h
    obtain ⟨⟨heap₁, source₁⟩, hunlink, h⟩ := h
    simp only [Option.map_eq_some_iff] at h
    obtain ⟨⟨heap₂, dest₂⟩, happend, h⟩ := h
    cases h
    rw [appendNode, Option.map_eq_some_iff] at happend
    obtain ⟨heap₃, hpush, h⟩ := happend
    cases h
    rw [Heap.live_update hpush, (Heap.live_unlink hunlink).1]

theorem live_pickLoop {sentList downloadList : Option Nat} {maxpickNum : Int} :
    ∀ {n : Nat} {curr : Option Nat} {count count' : Int} {down down' : Downloads} {trace : Trace},
      pickLoop now sentList downloadList maxpickNum n curr count down =
        some (down', count', trace) → down'.heap.live = down.heap.live := by
  intro n
  induction n with
  | zero =>
    intro curr count count' down down' trace h
    cases h
  | succ n ih =>
    intro curr count count' down down' trace h
    cases curr with
    | none =>
      cases h
      rfl
    | some curr =>
      unfold pickLoop at h
      split at h
      case isFalse =>
        cases h
        rfl
      simp only [Option.bind_eq_some_iff] at h
      obtain ⟨node, -, idle, -, h⟩ := h
      split at h
      · simp only [Option.bind_eq_some_iff, Option.map_eq_some_iff, Prod.exists] at h
        obtain ⟨heap₁, sent₁, queue₁, hmove, heap₂, hstamp, node₂, -, pack, -, down₂, c, t, hrun,
          h⟩ := h
        cases h
        rw [ih hrun, Heap.live_update hstamp, live_moveNode hmove]
      · simp only [Option.map_eq_some_iff, Prod.exists] at h
        obtain ⟨down₂, c, t, hrun, h⟩ := h
        cases h
        exact ih hrun

theorem live_getSender {down' : Downloads} {count : Int} {trace : Trace}
    (h : getSender now down = some (down', count, trace)) :
    down'.heap.live = down.heap.live := by
  unfold getSender at h
  simp only at h
  split at h
  · cases h
    rfl
  · simp only [Option.map_eq_some_iff, Prod.exists] at h
    obtain ⟨down₁, c, t, hpick, h⟩ := h
    cases h
    have hlive : down₁.heap.live = down.heap.live := live_pickLoop hpick
    exact hlive

theorem length_getSender {d' : DownloadConn} {count : Int} {gets : List (SockAddr × Packet)}
    (h : P2P.getSender now d = some (d', count, gets)) :
    d'.getTosendQuene.length + d'.getSentList.length =
      d.getTosendQuene.length + d.getSentList.length := by
  rcases DownloadConn.getSender_spec now d with hnone | ⟨j, x, hj, -, -, hone⟩
  · rw [hnone] at h
    cases h
    rfl
  · rw [hone] at h
    cases h
    have hlen := length_deleteNode hj
    simp only [P2P.appendNode, List.length_cons]
    omega

theorem getSender_rel (now : Int) (hd : down.Represents d) :
    ∃ down' d' count trace, getSender now down = some (down', count, trace) ∧
      P2P.getSender now d = some (d', count, (picked trace).map Prod.snd) ∧
      down'.Represents d' := by
  obtain ⟨need, queue, sent, load, hs, rfl⟩ := hd
  obtain ⟨hd, hlive⟩ := owns_iff.mp hs
  obtain ⟨down', count, trace, queue', sent', hrun, hd', hconn⟩ := getSender_conn now hd
  refine ⟨down', _, count, trace, hrun, hconn, need, queue', sent', load, ?_, rfl⟩
  have hlen := length_getSender hconn
  simp only [Downloads.conn, contents, List.length_map] at hlen
  refine owns_iff.mpr ⟨hd', ?_⟩
  rw [live_getSender hrun, hlive]
  omega

/-! ## Data -/

theorem update_load {g : HashChunk → HashChunk}
    (hs : down.Owns need queue sent (pre ++ (a, x) :: post)) :
    ∃ heap, down.heap.update a (fun c => ⟨g c.data, c.next⟩) = some heap ∧
      Downloads.Owns { down with heap := heap } need queue sent (pre ++ (a, g x) :: post) := by
  obtain ⟨heap, hu⟩ := Heap.exists_update hs.holds.downloadingList.next
    fun c => ⟨g c.data, c.next⟩
  have hw := Heap.Lists.write (i := .downloadingList) hs rfl hu
  rw [update_downloadingList] at hw
  exact ⟨heap, hu, hw⟩

theorem initDownload_spec (now : Int) (hs : down.Owns need queue (pre ++ (a, x) :: post) load) :
    ∃ heap p, initDownload now a down = some { down with
          heap := heap
          downloadingList := some a
          getSentList := p } ∧
      Downloads.Owns { down with
        heap := heap
        downloadingList := some a
        getSentList := p } need queue (pre ++ post)
          ((a, { x with timestamp := now, recver := some (createRecver x.hash) }) :: load) := by
  have hd := hs.holds
  obtain ⟨-, -, hsl⟩ := pairwise_apart_iff.mp hd.apart
  obtain ⟨heap₁, p, hmove, hmoved⟩ := moveNode_spec hd.getSentList hd.downloadingList
    fun e he => hsl.symm.not_mem he
  have hs₁ : Downloads.Owns { down with
      heap := heap₁
      downloadingList := some a
      getSentList := p } need queue (pre ++ post) ([] ++ (a, x) :: load) := by
    have hsub := removed_subset pre a x post
    have hapart : Heap.Apart (pre ++ post) ((a, x) :: load) :=
      (hsl.of_subset hsub (List.Subset.refl _)).cons fun e he => hd.getSentList.ne_of_mem he
    have := Heap.Lists.replace₂ (i := .getSentList) (j := .downloadingList) hs (by decide)
      hmoved.source hmoved.dest hapart (fun b hb _ => ?_) fun b => ?_
    · rwa [update_getSentList, update_downloadingList, start_getSentList,
        start_downloadingList] at this
    · exact hmoved.outside (x := x) b hb
    · simp only [fourLists, List.map_append, List.map_cons, List.mem_append, List.mem_cons]
      tauto
  obtain ⟨heap, hu, hs₂⟩ := update_load
    (g := fun x => { x with timestamp := now, recver := some (createRecver x.hash) }) hs₁
  refine ⟨heap, p, ?_, hs₂⟩
  rw [initDownload, hmove, Option.bind_some]
  rw [show heap₁.update a _ = some heap from hu, Option.map_some]

theorem receiveOn_rel (pack : Packet) (hs : down.Owns need queue sent (pre ++ (a, x) :: post)) :
    Option.Rel RepresentsWith (receiveOn pack a down)
      (P2P.receiveOn pack (contents pre).length
        (down.conn need queue sent (pre ++ (a, x) :: post))) := by
  unfold receiveOn P2P.receiveOn
  rw [hs.holds.downloadingList.next, Option.bind_some, Downloads.conn]
  simp only [contents_getElem?, Option.bind_some]
  cases x.recver with
  | none => exact .none
  | some rev =>
    rw [Option.bind_some, Option.bind_some]
    cases uponReceivingDatapack pack rev with
    | none => exact .none
    | some r =>
      obtain ⟨heap, hu, hs'⟩ := update_load (g := fun x => { x with recver := some r.1 }) hs
      rw [Option.bind_some, hu, Option.map_some, Option.map_some]
      refine .some ⟨⟨need, queue, sent, _, hs', ?_⟩, rfl⟩
      simp only [contents_set]
      rfl

theorem dealwithData_rel (pack : Packet) (toaddr : SockAddr) (now : Int)
    (hd : down.Represents d) :
    Option.Rel RepresentsWith (dealwithData pack toaddr now down)
      (P2P.dealwithData pack toaddr now d) := by
  obtain ⟨need, queue, sent, load, hs, rfl⟩ := hd
  unfold dealwithData P2P.dealwithData
  rcases findNodeByAddr_cases hs.holds.downloadingList toaddr with ⟨hload, hload'⟩ |
    ⟨pre, a, x, post, rfl, hload, hload'⟩
  · rw [hload, Option.bind_some]
    simp only [show (down.conn need queue sent load).downloadingList = contents load from rfl,
      hload']
    rcases findNodeByAddr_cases hs.holds.getSentList toaddr with ⟨hsent, hsent'⟩ |
      ⟨pre, a, x, post, rfl, hsent, hsent'⟩
    · rw [hsent, Option.bind_some]
      simp only [show (down.conn need queue sent load).getSentList = contents sent from rfl,
        hsent']
      exact .some ⟨⟨need, queue, sent, load, hs, rfl⟩, rfl⟩
    · obtain ⟨heap, p, hinit, hs'⟩ := initDownload_spec now hs
      have hs' : Downloads.Owns _ need queue _ ([] ++ (_, _) :: load) := hs'
      have hrel := receiveOn_rel pack hs'
      rw [hsent, Option.bind_some]
      simp only [show (down.conn need queue (pre ++ (a, x) :: post) load).getSentList =
        contents (pre ++ (a, x) :: post) from rfl, hsent', hinit, Option.bind_some]
      rw [P2P.initDownload, show (down.conn need queue (pre ++ (a, x) :: post) load).getSentList =
        contents (pre ++ (a, x) :: post) from rfl, deleteNode_contents]
      exact hrel
  · obtain ⟨heap, hu, hs'⟩ := update_load (g := fun x => { x with timestamp := now }) hs
    have hrel := receiveOn_rel pack hs'
    rw [hload, Option.bind_some]
    simp only [show (down.conn need queue sent (pre ++ (a, x) :: post)).downloadingList =
      contents (pre ++ (a, x) :: post) from rfl, hload', hu, Option.bind_some, contents_set]
    exact hrel

/-! ## A new GET -/

theorem lists_cleared {ι : Type*} [DecidableEq ι] {heap heap' : Heap HashChunk}
    {s : ι → Option Nat} {l : ι → List (Nat × HashChunk)} (i : ι) (hs : heap.Lists s l)
    (hi : l i = m) (hc : Cleared heap m heap') :
    heap'.Lists (Function.update s i none) (Function.update l i []) := by
  subst hi
  refine hs.replace i (m := []) rfl (fun b hb _ => hc.frame b hb) (fun b hb => ?_) fun b hb _ => ?_
  · cases hb
  · obtain ⟨e, he, rfl⟩ := List.mem_map.mp hb
    exact hc.freed e he

theorem lengthLoop_spec (hl : heap.IsList p l) :
    ∀ n count, l.length < n → lengthLoop heap n p count = some (count + l.length) := by
  induction l generalizing p with
  | nil =>
    intro n count hn
    cases hl
    obtain ⟨n, rfl⟩ : ∃ m, n = m + 1 := ⟨n - 1, by omega⟩
    rfl
  | cons e l ih =>
    intro n count hn
    rw [List.length_cons] at hn
    obtain ⟨n, rfl⟩ : ∃ m, n = m + 1 := ⟨n - 1, by omega⟩
    obtain ⟨rfl, r, hr, hl⟩ := hl
    rw [lengthLoop, hr, Option.bind_some, ih hl n (count + 1) (by omega), List.length_cons,
      Nat.add_assoc, Nat.add_comm 1]

theorem lengthOfList_spec (hl : heap.IsList p l) : lengthOfList heap p = some l.length := by
  rw [lengthOfList, lengthLoop_spec hl _ 0 (Nat.lt_succ_of_le hl.length_le), Nat.zero_add]

/-- Nothing is left of the last GET. -/
def Downloads.emptied (down : Downloads) (heap : Heap HashChunk) (needlist : Option Nat) :
    Downloads :=
  { down with
    heap := heap
    needlist := needlist
    getTosendQuene := none
    getSentList := none
    downloadingList := none }

theorem clear_spec (hs : down.Owns need queue sent load) :
    ∃ h₁ h₂ h₃ h₄, clearHashchunkList down.heap down.needlist = some (h₁, need.length) ∧
      clearHashchunkList h₁ down.getTosendQuene = some (h₂, queue.length) ∧
      clearHashchunkList h₂ down.getSentList = some (h₃, sent.length) ∧
      clearHashchunkList h₃ down.downloadingList = some (h₄, load.length) ∧
      (down.emptied h₄ none).Owns [] [] [] [] := by
  obtain ⟨h₁, hrun₁, hc₁⟩ := clearHashchunkList_spec hs.holds.needlist
  have hs₁ := lists_cleared DownList.needlist hs rfl hc₁
  rw [update_needlist, start_needlist] at hs₁
  have hs₁ : Downloads.Owns { down with
      heap := h₁
      needlist := none } [] queue sent load := hs₁
  obtain ⟨h₂, hrun₂, hc₂⟩ := clearHashchunkList_spec hs₁.holds.getTosendQuene
  have hs₂ := lists_cleared DownList.getTosendQuene hs₁ rfl hc₂
  rw [update_getTosendQuene, start_getTosendQuene] at hs₂
  have hs₂ : Downloads.Owns { down with
      heap := h₂
      needlist := none
      getTosendQuene := none } [] [] sent load := hs₂
  obtain ⟨h₃, hrun₃, hc₃⟩ := clearHashchunkList_spec hs₂.holds.getSentList
  have hs₃ := lists_cleared DownList.getSentList hs₂ rfl hc₃
  rw [update_getSentList, start_getSentList] at hs₃
  have hs₃ : Downloads.Owns { down with
      heap := h₃
      needlist := none
      getTosendQuene := none
      getSentList := none } [] [] [] load := hs₃
  obtain ⟨h₄, hrun₄, hc₄⟩ := clearHashchunkList_spec hs₃.holds.downloadingList
  have hs₄ := lists_cleared DownList.downloadingList hs₃ rfl hc₄
  rw [update_downloadingList, start_downloadingList] at hs₄
  exact ⟨h₁, h₂, h₃, h₄, hrun₁, hrun₂, hrun₃, hrun₄, hs₄⟩

/-- The list read so far, in memory and as it is. -/
def Reads (down : Downloads) (s : Hasneed) (t : P2P.Hasneed) : Prop :=
  s.chunkid = t.chunkid ∧
    ∃ need, (down.emptied s.heap s.list).Owns need [] [] [] ∧ contents need = t.list

theorem hasneedLine_rel (myaddr : SockAddr) {s : Hasneed} {t : P2P.Hasneed}
    (h : Reads down s t) (line : List UInt8) :
    Option.Rel (Reads down) (hasneedLine myaddr s line) (P2P.hasneedLine myaddr t line) := by
  obtain ⟨hid, need, hs, hlist⟩ := h
  unfold hasneedLine P2P.hasneedLine
  split
  · exact .some ⟨hid, need, hs, hlist⟩
  · rw [hid]
    cases sscanf (cstr (line ++ [0])) t.chunkid with
    | none => exact .none
    | some r =>
      rw [Option.bind_some, Option.bind_some]
      split
      · exact .none
      · simp only
        cases Hash.ofBytes (hex2binary ((r.hash ++ List.replicate (50 - r.hash.length) 0).take 40))
          with
        | none => exact .none
        | some decoded =>
          obtain ⟨heap, hpush, hnew⟩ := Heap.Lists.insert hs .needlist
            (P2P.createNode myaddr decoded r.chunkid)
          rw [update_needlist, start_needlist] at hnew
          have hpush : (createNode s.heap myaddr decoded r.chunkid).1.push s.list
              (createNode s.heap myaddr decoded r.chunkid).2 = some heap := hpush
          rw [Option.bind_some, appendNode, hpush]
          exact .some ⟨rfl, _, hnew, congrArg (P2P.createNode myaddr decoded r.chunkid :: ·) hlist⟩

theorem exists_entries {myaddr : SockAddr} {chunkid : Int} {text : List UInt8}
    {list : List HashChunk} (h : P2P.parseHasneedFile myaddr chunkid [] text = some list) :
    ∃ entries, list = parseHasneedList myaddr entries := by
  rw [P2P.parseHasneedFile, readLoop_eq _ (by decide) _ _ _ (Nat.lt_succ_self _),
    Option.map_eq_some_iff] at h
  obtain ⟨t, hrun, rfl⟩ := h
  refine exec_invariant (fun t : P2P.Hasneed => ∃ entries, t.list = parseHasneedList myaddr entries)
    ?_ ⟨[], rfl⟩ hrun
  rintro s line t ⟨entries, hs⟩ hnext
  unfold P2P.hasneedLine at hnext
  split at hnext
  · cases hnext
    exact ⟨entries, hs⟩
  · rw [Option.bind_eq_some_iff] at hnext
    obtain ⟨r, -, hnext⟩ := hnext
    split at hnext
    · cases hnext
    · obtain ⟨decoded, -, rfl⟩ := Option.map_eq_some_iff.mp hnext
      refine ⟨entries ++ [(r.chunkid, decoded)], ?_⟩
      rw [parseHasneedList, List.foldl_append, hs]
      rfl

/-- **`reset_mydownload`**: the old lists are freed, and the new ones are those of the entries in
the file. -/
theorem resetMydownload_rel (config : Config) (chunkid : Int) (text : List UInt8)
    (hd : down.Represents d) :
    Option.Rel Downloads.Represents (resetMydownload config chunkid text down)
        (resetMydownloadFile config chunkid text) ∧
      ∀ d', resetMydownloadFile config chunkid text = some d' →
        ∃ entries, d' = P2P.resetMydownload config entries := by
  obtain ⟨need, queue, sent, load, hs, rfl⟩ := hd
  obtain ⟨h₁, h₂, h₃, h₄, hrun₁, hrun₂, hrun₃, hrun₄, hempty⟩ := clear_spec hs
  have hparse : Option.Rel (fun (r : Heap HashChunk × Option Nat) list =>
      ∃ need, (down.emptied r.1 r.2).Owns need [] [] [] ∧ contents need = list)
      (parseHasneedFile config.myaddr chunkid h₄ none text)
      (P2P.parseHasneedFile config.myaddr chunkid [] text) := by
    unfold parseHasneedFile P2P.parseHasneedFile
    rw [readLoop_eq _ (by decide) _ _ _ (Nat.lt_succ_self _),
      readLoop_eq _ (by decide) _ _ _ (Nat.lt_succ_self _)]
    refine rel_map (R := Reads down) (exec_rel ?_ ⟨rfl, [], hempty, rfl⟩) fun s t h => h.2
    exact fun s t line h => hasneedLine_rel config.myaddr h line
  constructor
  · unfold resetMydownload resetMydownloadFile
    simp only [hrun₁, hrun₂, hrun₃, hrun₄, Option.bind_some]
    cases hmem : parseHasneedFile config.myaddr chunkid h₄ none text with
    | none =>
      rw [hmem] at hparse
      cases hlist : P2P.parseHasneedFile config.myaddr chunkid [] text with
      | none => exact .none
      | some list =>
        rw [hlist] at hparse
        cases hparse
    | some r =>
      obtain ⟨list, hlist, need', hs', rfl⟩ := rel_some hparse hmem
      have hlen : lengthOfList r.1 r.2 = some need'.length :=
        lengthOfList_spec hs'.holds.needlist
      rw [hlist, Option.map_some, Option.bind_some, hlen, Option.map_some]
      refine .some ⟨need', [], [], [], hs', ?_⟩
      simp [Downloads.conn, contents]
  · intro d' hd'
    rw [resetMydownloadFile, Option.map_eq_some_iff] at hd'
    obtain ⟨list, hlist, rfl⟩ := hd'
    obtain ⟨entries, rfl⟩ := exists_entries hlist
    exact ⟨entries, rfl⟩

end Mem

end P2P
