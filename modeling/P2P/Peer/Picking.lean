import P2P.Peer.DownloadInv
import P2P.Peer.DownloadMem

/-!
# Picking chunks to ask for

`GET_sender` with the pointers it follows. A node of the queue that is picked is moved to the
front of `get_sent_list`, and the walk goes on from its new `next`: with the nodes that list had
before. They are all busy, so a call asks one peer at most.

* `Mem.getSender_cases`: the three ways a call can go;
* `Mem.getSender_conn`: the call is `GET_sender` on the contents of the lists;
* `Mem.get_sender_fills_iff`: the capacity is filled exactly if it is at most one, or no chunk
  waits for another peer.
-/

namespace P2P

open Lib

namespace Mem

/-! ## The loop -/

/-- The test of `pick_tosend_GET`. The second list is looked at if the first one has no node. -/
def isIdle (heap : Heap HashChunk) (sentList downloadList : Option Nat) (addr : SockAddr) :
    Option Bool :=
  (findNodeByAddr heap sentList addr).bind fun found =>
    if found = none then (findNodeByAddr heap downloadList addr).map Option.isNone
    else some false

/-- The nodes visited, each with the GET sent if it was picked. -/
abbrev Trace := List (Nat × Option (SockAddr × Packet))

/-- The loop of `pick_tosend_GET` from node `curr` on, with the two lists as they were found. -/
def pickLoop (now : Int) (sentList downloadList : Option Nat) (maxpickNum : Int) :
    Nat → Option Nat → Int → Downloads → Option (Downloads × Int × Trace)
  | 0, _, _, _ => none
  | _ + 1, none, count, down => some (down, count, [])
  | n + 1, some curr, count, down =>
    if count < maxpickNum then
      (down.heap.read curr).bind fun node =>
        (isIdle down.heap sentList downloadList node.data.fromAddr).bind fun idle =>
          if idle then
            (moveNode down.heap down.getSentList down.getTosendQuene curr).bind
              fun (heap, sent, queue) =>
                (heap.update curr fun c => ⟨{ c.data with timestamp := now }, c.next⟩).bind
                  fun heap =>
                    (heap.read curr).bind fun node =>
                      (sendPack (formGET node.data)).bind fun getPack =>
                        (pickLoop now sentList downloadList maxpickNum n node.next (count + 1)
                          { down with
                            heap := heap
                            getSentList := sent
                            getTosendQuene := queue }).map fun (down, count, trace) =>
                              (down, count, (curr, some (node.data.fromAddr, getPack)) :: trace)
          else
            (pickLoop now sentList downloadList maxpickNum n node.next count down).map
              fun (down, count, trace) => (down, count, (curr, none) :: trace)
    else some (down, count, [])

def pickTosendGET (now : Int) (down : Downloads) (maxpickNum : Int) :
    Option (Downloads × Int × Trace) :=
  pickLoop now down.getSentList down.downloadingList maxpickNum (2 * down.heap.size + 2)
    down.getTosendQuene 0 down

/-- `GET_sender`: the new state, the number returned, and the nodes visited. -/
def getSender (now : Int) (down : Downloads) : Option (Downloads × Int × Trace) :=
  let maxSend := down.maxDownloadNum - down.concurrDownloadNum
  if maxSend = 0 then some (down, 0, [])
  else
    (pickTosendGET now down maxSend).map fun (down, currDown, trace) =>
      ({ down with concurrDownloadNum := down.concurrDownloadNum + currDown }, currDown, trace)

/-! ## What is to happen -/

/-- The GETs sent, by node. -/
def picked (trace : Trace) : List (Nat × SockAddr × Packet) :=
  trace.filterMap fun v => v.2.map fun get => (v.1, get)

/-- A peer that has a node in `get_sent_list` or in `downloading_list`. -/
def Served (sent load : List (Nat × HashChunk)) (x : HashChunk) : Prop :=
  ∃ e ∈ sent ++ load, e.2.fromAddr = x.fromAddr

/-- A node moved to `get_sent_list`. -/
def stamped (now : Int) (e : Nat × HashChunk) : Nat × HashChunk :=
  (e.1, { e.2 with timestamp := now })

/-- **What a call of `GET_sender` is to do**: it moves the nodes `moved`, sends their GETs and
counts them, keeps the others in order, and leaves no peer without a node while there is
capacity. -/
structure Filled (now : Int) (down : Downloads) (need queue sent load moved :
    List (Nat × HashChunk)) (down' : Downloads) (count : Int) (trace : Trace) : Prop where
  own : moved ⊆ queue
  lists : down'.Holds need (queue.filter fun e => e.1 ∉ moved.map Prod.fst)
    ((moved.map (stamped now)).reverse ++ sent) load
  gets : (picked trace).map (fun g => (g.1, g.2.1, some g.2.2)) =
    moved.map fun e => (e.1, e.2.fromAddr, sendPack (formGET e.2))
  counted : count = moved.length
  concurr : down'.concurrDownloadNum = down.concurrDownloadNum + moved.length
  visits : ∀ v ∈ trace, v.1 ∈ queue.map Prod.fst
  full : down'.maxDownloadNum ≤ down'.concurrDownloadNum ∨
    ∀ e ∈ queue, e.1 ∉ moved.map Prod.fst → Served (moved ++ sent) load e.2

/-- A peer that `find_node_by_addr` finds in neither list. -/
def Idle (sent load : List (Nat × HashChunk)) (x : HashChunk) : Prop :=
  ∀ e ∈ sent ++ load, e.2.port ≠ x.port

instance (sent load : List (Nat × HashChunk)) (x : HashChunk) : Decidable (Idle sent load x) :=
  inferInstanceAs (Decidable (∀ e ∈ sent ++ load, e.2.port ≠ x.port))

/-- One GET is enough: there is no room for another one, or no chunk waits for another peer, and
the walk does not come to `get_sent_list`. -/
def OneIsEnough (down : Downloads) (queue sent load : List (Nat × HashChunk)) : Prop :=
  down.maxDownloadNum ≤ down.concurrDownloadNum ∨
  (down.maxDownloadNum = down.concurrDownloadNum + 1 ∧ ∃ e ∈ queue, Idle sent load e.2) ∨
  (∀ e ∈ queue, Served sent load e.2) ∨
  (sent = [] ∧ ∃ e ∈ queue, Idle sent load e.2 ∧
    ∀ e' ∈ queue, e'.2.fromAddr = e.2.fromAddr ∨ Served sent load e'.2)

/-! ## The test -/

variable {down down' : Downloads} {heap : Heap HashChunk} {a : Nat} {x : HashChunk} {now : Int}
  {p q sentList downloadList : Option Nat} {maxpickNum count : Int}
  {need queue sent load pre post l busy : List (Nat × HashChunk)}

theorem findNodeByAddr_eq_none (hl : heap.IsList p l) (addr : SockAddr) :
    findNodeByAddr heap p addr = some none ↔ ∀ e ∈ l, e.2.port ≠ addr.sinPort := by
  rw [findNodeByAddr_eq hl, Option.some.injEq, Option.map_eq_none_iff, List.find?_eq_none]
  simp only [sameAddr_iff]
  rfl

theorem isIdle_spec (hsent : heap.IsList sentList sent) (hload : heap.IsList downloadList load)
    (x : HashChunk) :
    ∃ idle, isIdle heap sentList downloadList x.fromAddr = some idle ∧
      (idle = true ↔ Idle sent load x) := by
  have hs := findNodeByAddr_eq_none hsent x.fromAddr
  have hl := findNodeByAddr_eq_none hload x.fromAddr
  have hidle : Idle sent load x ↔ (∀ e ∈ sent, e.2.port ≠ x.fromAddr.sinPort) ∧
      ∀ e ∈ load, e.2.port ≠ x.fromAddr.sinPort := by
    simp only [Idle, List.mem_append, or_imp, forall_and]
    rfl
  rw [hidle, ← hs, ← hl]
  rw [findNodeByAddr_eq hsent, findNodeByAddr_eq hload, isIdle, findNodeByAddr_eq hsent,
    Option.bind_some]
  cases (sent.find? fun e => sameAddr e.2.fromAddr x.fromAddr).map Prod.fst with
  | some b => exact ⟨false, if_neg (Option.some_ne_none b), by simp⟩
  | none =>
    rw [if_pos rfl, findNodeByAddr_eq hload]
    exact ⟨_, rfl, by simp⟩

theorem not_idle_of_mem {e : Nat × HashChunk} (he : e ∈ sent) : ¬ Idle sent load e.2 :=
  fun h => h e (List.mem_append_left _ he) rfl

theorem Idle.not_served (h : Idle sent load x) : ¬ Served sent load x := by
  rintro ⟨e, he, heq⟩
  refine h e he ?_
  rw [HashChunk.port, heq]
  rfl

/-! ## The walk -/

theorem pickLoop_busy (now : Int) (hsent : down.heap.IsList sentList sent)
    (hload : down.heap.IsList downloadList load) (hmax : count < maxpickNum) (n : Nat) :
    ∀ {p : Option Nat}, down.heap.Seg p busy q → (∀ e ∈ busy, ¬ Idle sent load e.2) →
      pickLoop now sentList downloadList maxpickNum (busy.length + n) p count down =
        (pickLoop now sentList downloadList maxpickNum n q count down).map fun r =>
          (r.1, r.2.1, busy.map (fun e => (e.1, none)) ++ r.2.2) := by
  induction busy with
  | nil =>
    intro p hp _
    cases hp
    rw [List.length_nil, Nat.zero_add]
    exact Option.map_id'.symm
  | cons e busy ih =>
    intro p hp hbusy
    obtain ⟨rfl, r, hr, hp⟩ := hp
    obtain ⟨idle, htest, hidle⟩ := isIdle_spec hsent hload e.2
    have hno : idle = false := by
      have := hbusy e List.mem_cons_self
      rw [← hidle, Bool.not_eq_true] at this
      exact this
    rw [List.length_cons, Nat.succ_add, pickLoop, if_pos hmax, hr, Option.bind_some, htest,
      Option.bind_some, hno, if_neg (by decide),
      ih hp fun e' he' => hbusy e' (List.mem_cons_of_mem e he'), Option.map_map]
    rfl

/-- **An idle peer** is asked: its node is moved, and the walk goes on in `get_sent_list`. -/
theorem pickLoop_idle (now : Int) (hd : down.Holds need queue sent load)
    (hqueue : queue = pre ++ (a, x) :: post) (hidle : Idle sent load x)
    (hmax : count < maxpickNum) (n : Nat) :
    ∃ heap p, Downloads.Holds { down with
          heap := heap
          getSentList := some a
          getTosendQuene := p } need (pre ++ post) (stamped now (a, x) :: sent) load ∧
      heap.IsList down.getSentList sent ∧
      pickLoop now down.getSentList down.downloadingList maxpickNum (n + 1) (some a) count down =
        (pickLoop now down.getSentList down.downloadingList maxpickNum n down.getSentList
          (count + 1) { down with
            heap := heap
            getSentList := some a
            getTosendQuene := p }).map fun r =>
              (r.1, r.2.1, (a, some (x.fromAddr, (formGET x).onWire)) :: r.2.2) := by
  subst hqueue
  obtain ⟨⟨hnq, hns, hnl⟩, ⟨hqs, hql⟩, hsl⟩ := pairwise_apart_iff.mp hd.apart
  have hmem : (a, x) ∈ pre ++ (a, x) :: post := List.mem_append_right _ List.mem_cons_self
  have hsub := removed_subset pre a x post
  have hself : a ∉ (pre ++ post).map Prod.fst := by
    rw [List.map_append, List.mem_append, not_or]
    exact hd.getTosendQuene.not_mem
  -- the node is moved, then stamped
  obtain ⟨heap₁, p, hmove, hmoved⟩ := moveNode_spec hd.getTosendQuene hd.getSentList
    fun e he => hqs.symm.not_mem he
  obtain ⟨heap₂, hstamp⟩ := Heap.exists_update hmoved.node
    fun c => ⟨{ c.data with timestamp := now }, c.next⟩
  have hread : heap₂.read a = some ⟨{ x with timestamp := now }, down.getSentList⟩ := by
    rw [Heap.read_update hstamp, if_pos rfl, hmoved.node]
    rfl
  have hkeep : ∀ {m : List (Nat × HashChunk)} {s : Option Nat}, down.heap.IsList s m →
      Heap.Apart (pre ++ (a, x) :: post) m → heap₂.IsList s m := by
    intro m s hl hm
    exact (hl.frame_of_apart hm hmoved.outside).frame (Heap.update_frame hstamp (hm.not_mem hmem))
  have hsent₂ : heap₂.IsList down.getSentList sent := hkeep hd.getSentList hqs
  refine ⟨heap₂, p, ⟨hkeep hd.needlist hnq.symm,
    hmoved.source.frame (Heap.update_frame hstamp hself), ⟨rfl, _, hread, hsent₂⟩,
    hkeep hd.downloadingList hql, ?_⟩, hsent₂, ?_⟩
  · have hown : Heap.Apart (pre ++ post) (stamped now (a, x) :: sent) :=
      (hqs.of_subset hsub (List.Subset.refl _)).cons fun e he => hd.getTosendQuene.ne_of_mem he
    have hneed : Heap.Apart need (stamped now (a, x) :: sent) :=
      hns.cons fun e he => hnq e he (a, x) hmem
    have hload : Heap.Apart load (stamped now (a, x) :: sent) :=
      hsl.symm.cons fun e he => hql.symm e he (a, x) hmem
    exact pairwise_apart_iff.mpr ⟨⟨hnq.of_subset (List.Subset.refl _) hsub, hneed, hnl⟩,
      ⟨hown, hql.of_subset hsub (List.Subset.refl _)⟩, hload.symm⟩
  · obtain ⟨idle, htest, hyes⟩ := isIdle_spec hd.getSentList hd.downloadingList x
    have hget : sendPack (formGET { x with timestamp := now }) = some (formGET x).onWire :=
      DownloadConn.sendPack_formGET _
    rw [pickLoop, if_pos hmax, hd.getTosendQuene.next, Option.bind_some, htest, Option.bind_some,
      hyes.mpr hidle, if_pos rfl, hmove, Option.bind_some]
    simp only [hstamp, hread, hget, Option.bind_some]

theorem pickLoop_enough (now : Int) (hmax : maxpickNum ≤ count) (n : Nat) (p : Option Nat) :
    pickLoop now sentList downloadList maxpickNum (n + 1) p count down =
      some (down, count, []) := by
  cases p with
  | none => rfl
  | some a => rw [pickLoop, if_neg (by omega)]

/-- **`pick_tosend_GET`** asks the first peer of the queue that is idle, and then passes over all of
`get_sent_list`. -/
theorem pickTosendGET_cases (now : Int) (hd : down.Holds need queue sent load)
    (maxpickNum : Int) :
    (maxpickNum ≤ 0 ∧ pickTosendGET now down maxpickNum = some (down, 0, [])) ∨
    (0 < maxpickNum ∧ (∀ e ∈ queue, ¬ Idle sent load e.2) ∧
      pickTosendGET now down maxpickNum = some (down, 0, queue.map fun e => (e.1, none))) ∨
    (0 < maxpickNum ∧ ∃ pre a x post heap p, queue = pre ++ (a, x) :: post ∧
      (∀ e ∈ pre, ¬ Idle sent load e.2) ∧ Idle sent load x ∧
      Downloads.Holds { down with
        heap := heap
        getSentList := some a
        getTosendQuene := p } need (pre ++ post) (stamped now (a, x) :: sent) load ∧
      pickTosendGET now down maxpickNum = some ({ down with
          heap := heap
          getSentList := some a
          getTosendQuene := p }, 1,
        pre.map (fun e => (e.1, none)) ++ (a, some (x.fromAddr, (formGET x).onWire)) ::
          if 1 < maxpickNum then sent.map fun e => (e.1, none) else [])) := by
  have hqlen := hd.getTosendQuene.length_le
  have hslen := hd.getSentList.length_le
  rw [pickTosendGET]
  by_cases hmax : 0 < maxpickNum
  case neg =>
    exact .inl ⟨by omega, pickLoop_enough now (by omega) _ _⟩
  refine .inr ?_
  by_cases hall : ∀ e ∈ queue, ¬ Idle sent load e.2
  · refine .inl ⟨hmax, hall, ?_⟩
    obtain ⟨n, hn⟩ : ∃ n, 2 * down.heap.size + 2 = queue.length + (n + 1) :=
      ⟨2 * down.heap.size + 1 - queue.length, by omega⟩
    rw [hn, pickLoop_busy now hd.getSentList hd.downloadingList hmax _ hd.getTosendQuene hall]
    simp [pickLoop]
  · -- the first of them
    obtain ⟨⟨a, x⟩, hfind⟩ : ∃ e, queue.find? (fun e => Idle sent load e.2) = some e := by
      rw [← Option.isSome_iff_exists, List.find?_isSome]
      simpa using hall
    obtain ⟨hidle, pre, post, hsplit, hpre⟩ := List.find?_eq_some_iff_append.mp hfind
    simp only [decide_eq_true_eq, Bool.not_eq_eq_eq_not, Bool.not_true, decide_eq_false_iff_not]
      at hidle hpre
    obtain ⟨q, hfront, hcell⟩ := Heap.seg_append.mp (hsplit ▸ hd.getTosendQuene)
    obtain ⟨rfl, -⟩ := hcell
    have hqlen' : pre.length + (post.length + 1) ≤ down.heap.size := by
      rw [hsplit, List.length_append, List.length_cons] at hqlen
      exact hqlen
    obtain ⟨n, hn, hnlen⟩ : ∃ n, 2 * down.heap.size + 2 = pre.length + (n + 1) ∧
        sent.length < n := ⟨2 * down.heap.size + 1 - pre.length, by omega, by omega⟩
    obtain ⟨heap, p, hd', hsent', hpick⟩ := pickLoop_idle now hd hsplit hidle hmax n
    refine .inr ⟨hmax, pre, a, x, post, heap, p, hsplit, hpre, hidle, hd', ?_⟩
    rw [hn, pickLoop_busy now hd.getSentList hd.downloadingList hmax _ hfront hpre, hpick]
    by_cases hmore : 1 < maxpickNum
    · obtain ⟨k, rfl⟩ : ∃ k, n = sent.length + (k + 1) := ⟨n - sent.length - 1, by omega⟩
      rw [pickLoop_busy now hsent' hd'.downloadingList (by omega) _ hsent'
        fun e he => not_idle_of_mem he, if_pos hmore]
      simp [pickLoop]
    · obtain ⟨k, rfl⟩ : ∃ k, n = k + 1 := ⟨n - 1, by omega⟩
      rw [pickLoop_enough now (by omega), if_neg hmore]
      rfl

/-- The state after one GET, for the node at `a`. -/
def Downloads.asked (down : Downloads) (heap : Heap HashChunk) (a : Nat) (p : Option Nat) :
    Downloads :=
  { down with
    heap := heap
    getSentList := some a
    getTosendQuene := p
    concurrDownloadNum := down.concurrDownloadNum + 1 }

/-- The walk that picks the node behind `pre`, and then passes over `sent` if it may pick more. -/
def askedTrace (down : Downloads) (pre sent : List (Nat × HashChunk)) (a : Nat) (x : HashChunk) :
    Trace :=
  pre.map (fun e => (e.1, none)) ++ (a, some (x.fromAddr, (formGET x).onWire)) ::
    if down.concurrDownloadNum + 1 < down.maxDownloadNum then sent.map fun e => (e.1, none)
    else []

/-- **`GET_sender`**, with the three ways a call can go. -/
theorem getSender_cases (now : Int) (hd : down.Holds need queue sent load) :
    (down.maxDownloadNum ≤ down.concurrDownloadNum ∧ getSender now down = some (down, 0, [])) ∨
    (down.concurrDownloadNum < down.maxDownloadNum ∧ (∀ e ∈ queue, ¬ Idle sent load e.2) ∧
      getSender now down = some (down, 0, queue.map fun e => (e.1, none))) ∨
    (down.concurrDownloadNum < down.maxDownloadNum ∧ ∃ pre a x post heap p,
      queue = pre ++ (a, x) :: post ∧ (∀ e ∈ pre, ¬ Idle sent load e.2) ∧ Idle sent load x ∧
      (down.asked heap a p).Holds need (pre ++ post) (stamped now (a, x) :: sent) load ∧
      getSender now down =
        some (down.asked heap a p, 1, askedTrace down pre sent a x)) := by
  unfold getSender
  by_cases h0 : down.maxDownloadNum - down.concurrDownloadNum = 0
  · exact .inl ⟨by omega, if_pos h0⟩
  simp only [if_neg h0]
  rcases pickTosendGET_cases now hd (down.maxDownloadNum - down.concurrDownloadNum) with
    ⟨hmax, hrun⟩ | ⟨hmax, hall, hrun⟩ | ⟨hmax, pre, a, x, post, heap, p, hsplit, hpre, hidle,
      hd', hrun⟩
  · rw [hrun]
    exact .inl ⟨by omega, by simp⟩
  · rw [hrun]
    exact .inr (.inl ⟨by omega, hall, by simp⟩)
  · refine .inr (.inr ⟨by omega, pre, a, x, post, heap, p, hsplit, hpre, hidle,
      ⟨hd'.needlist, hd'.getTosendQuene, hd'.getSentList, hd'.downloadingList, hd'.apart⟩, ?_⟩)
    have hmore : 1 < down.maxDownloadNum - down.concurrDownloadNum ↔
        down.concurrDownloadNum + 1 < down.maxDownloadNum := by omega
    rw [hrun, Option.map_some]
    simp only [hmore]
    rfl

theorem picked_busy (l : List (Nat × HashChunk)) :
    picked (l.map fun e => (e.1, none)) = [] := by
  simp [picked]

theorem visits_busy {v : Nat × Option (SockAddr × Packet)}
    (hv : v ∈ l.map fun e => (e.1, none)) : v.1 ∈ l.map Prod.fst := by
  obtain ⟨e, he, rfl⟩ := List.mem_map.mp hv
  exact List.mem_map_of_mem he

theorem picked_one (pre l : List (Nat × HashChunk)) (a : Nat) (get : SockAddr × Packet) (c : Prop)
    [Decidable c] :
    picked (pre.map (fun e => (e.1, none)) ++ (a, some get) ::
      if c then l.map fun e => (e.1, none) else []) = [(a, get)] := by
  have hrest : picked (if c then l.map fun e => (e.1, none) else []) = [] := by
    split
    · exact picked_busy l
    · rfl
  have hpre := picked_busy pre
  unfold picked at *
  rw [List.filterMap_append, hpre, List.nil_append, List.filterMap_cons]
  simp only [Option.map_some, hrest]

/-! ## The lists of `P2P.Peer.Download` -/

theorem conn_idle_iff (down : Downloads) (need queue sent load : List (Nat × HashChunk))
    (x : HashChunk) : (down.conn need queue sent load).idle x ↔ Idle sent load x := by
  rw [DownloadConn.idle_eq_true, DownloadConn.ports, DownloadConn.connections, Downloads.conn]
  simp only [contents, ← List.map_append, List.map_map, List.mem_map, Function.comp_apply,
    not_exists, not_and, Idle]

theorem pickLoop_skip (now : Int) (d : DownloadConn) (hmax : 0 < maxpickNum)
    {front : List HashChunk} :
    ∀ (k : Nat) (rest : List HashChunk), (∀ y ∈ front, ¬ d.idle y) →
      P2P.pickLoop now d maxpickNum k (front ++ rest) =
        P2P.pickLoop now d maxpickNum (k + front.length) rest := by
  induction front with
  | nil => intro k rest _; rfl
  | cons y front ih =>
    intro k rest hfront
    rw [List.cons_append, P2P.pickLoop, if_pos hmax, if_neg (hfront y List.mem_cons_self),
      ih (k + 1) rest fun z hz => hfront z (List.mem_cons_of_mem _ hz), List.length_cons,
      show k + 1 + front.length = k + (front.length + 1) by omega]

theorem pickTosendGET_conn (now : Int) (down : Downloads) (hpre : ∀ e ∈ pre, ¬ Idle sent load e.2)
    (hidle : Idle sent load x) (hmax : 0 < maxpickNum) :
    P2P.pickTosendGET now (down.conn need (pre ++ (a, x) :: post) sent load) maxpickNum =
      some ({ down.conn need (pre ++ (a, x) :: post) sent load with
        getSentList := P2P.appendNode (contents sent) { x with timestamp := now }
        getTosendQuene := contents (pre ++ post) }, 1, [(x.fromAddr, (formGET x).onWire)]) := by
  have hskip : ∀ y ∈ contents pre,
      ¬ (down.conn need (pre ++ (a, x) :: post) sent load).idle y := by
    intro y hy
    obtain ⟨e, he, rfl⟩ := List.mem_map.mp hy
    rw [conn_idle_iff]
    exact hpre e he
  have hqueue : (down.conn need (pre ++ (a, x) :: post) sent load).getTosendQuene =
      contents pre ++ x :: contents post := contents_append _ _
  rw [P2P.pickTosendGET, hqueue, pickLoop_skip now _ hmax 0 _ hskip, P2P.pickLoop, if_pos hmax,
    if_pos ((conn_idle_iff down need _ sent load x).mpr hidle), DownloadConn.not_any_idle,
    if_neg (by simp), DownloadConn.sendPack_formGET, Option.map_some, Nat.zero_add]
  rw [show (down.conn need (pre ++ (a, x) :: post) sent load).getTosendQuene =
    contents (pre ++ (a, x) :: post) from rfl, deleteNode_contents]
  rfl

theorem getSender_conn (now : Int) (hd : down.Holds need queue sent load) :
    ∃ down' count trace queue' sent', getSender now down = some (down', count, trace) ∧
      down'.Holds need queue' sent' load ∧
      P2P.getSender now (down.conn need queue sent load) =
        some (down'.conn need queue' sent' load, count, (picked trace).map Prod.snd) := by
  rcases getSender_cases now hd with ⟨hmax, hrun⟩ | ⟨hmax, hall, hrun⟩ |
    ⟨hmax, pre, a, x, post, heap, p, rfl, hpre, hidle, hd', hrun⟩
  · refine ⟨_, _, _, queue, sent, hrun, hd, ?_⟩
    rcases DownloadConn.getSender_spec now (down.conn need queue sent load) with
      hnone | ⟨j, x, -, -, hlt, -⟩
    · exact hnone
    · simp only [Downloads.conn] at hlt
      omega
  · refine ⟨_, _, _, queue, sent, hrun, hd, ?_⟩
    rw [picked_busy]
    rcases DownloadConn.getSender_spec now (down.conn need queue sent load) with
      hnone | ⟨j, x, hx, hidle, -, -⟩
    · exact hnone
    · obtain ⟨e, he, rfl⟩ := List.mem_map.mp (List.mem_of_getElem? hx)
      exact absurd ((conn_idle_iff down need queue sent load e.2).mp hidle) (hall e he)
  · refine ⟨_, _, _, pre ++ post, _, hrun, hd', ?_⟩
    rw [askedTrace, picked_one]
    show (if down.maxDownloadNum - down.concurrDownloadNum = 0 then _ else
      (P2P.pickTosendGET now (down.conn need (pre ++ (a, x) :: post) sent load)
        (down.maxDownloadNum - down.concurrDownloadNum)).map _) = _
    rw [if_neg (by omega), pickTosendGET_conn now down hpre hidle (by omega)]
    rfl

/-! ## The capacity -/

theorem filter_moved (hl : heap.IsList p (pre ++ (a, x) :: post)) :
    (pre ++ (a, x) :: post).filter (fun e => e.1 ∉ [(a, x)].map Prod.fst) = pre ++ post := by
  have hkeep : ∀ m ⊆ pre ++ post, m.filter (fun e => e.1 ∉ [(a, x)].map Prod.fst) = m := by
    intro m hm
    refine List.filter_eq_self.mpr fun e he => ?_
    simpa using hl.ne_of_mem (hm he)
  rw [List.filter_append, List.filter_cons_of_neg (by simp), hkeep pre (by simp),
    hkeep post (by simp)]

/-- The node moved is known by its address. -/
theorem eq_of_address (hl : heap.IsList p (pre ++ (a, x) :: post)) {e : Nat × HashChunk}
    (he : e ∈ pre ++ (a, x) :: post) (haddr : e.1 = a) : e = (a, x) := by
  rcases List.mem_append.mp he with h | h
  · exact absurd haddr (hl.ne_of_mem (List.mem_append_left _ h))
  · rcases List.mem_cons.mp h with h | h
    · exact h
    · exact absurd haddr (hl.ne_of_mem (List.mem_append_right _ h))

theorem filled_none (now : Int) (hd : down.Holds need queue sent load)
    (hfull : down.maxDownloadNum ≤ down.concurrDownloadNum ∨
      ∀ e ∈ queue, Served sent load e.2) {trace : Trace} (htrace : picked trace = [])
    (hvisits : ∀ v ∈ trace, v.1 ∈ queue.map Prod.fst) :
    Filled now down need queue sent load [] down 0 trace := by
  have hqueue : queue.filter (fun e => e.1 ∉ ([] : List (Nat × HashChunk)).map Prod.fst) = queue :=
    List.filter_eq_self.mpr fun e _ => by simp
  refine ⟨List.nil_subset _, ?_, by rw [htrace]; rfl, rfl, (add_zero _).symm, hvisits,
    hfull.imp id fun h e he _ => h e he⟩
  rw [hqueue]
  exact hd

theorem oneIsEnough_of_filled (hd : down.Holds need (pre ++ (a, x) :: post) sent load)
    (hidle : Idle sent load x) (hmore : down.concurrDownloadNum + 1 < down.maxDownloadNum)
    (hfilled : Filled now down need (pre ++ (a, x) :: post) sent load [(a, x)]
      (down.asked heap a p) 1 (askedTrace down pre sent a x)) :
    sent = [] ∧ ∃ e ∈ pre ++ (a, x) :: post, Idle sent load e.2 ∧
      ∀ e' ∈ pre ++ (a, x) :: post, e'.2.fromAddr = e.2.fromAddr ∨ Served sent load e'.2 := by
  obtain ⟨-, ⟨hqs, -⟩, -⟩ := pairwise_apart_iff.mp hd.apart
  have hvisits := hfilled.visits
  rw [askedTrace, if_pos hmore] at hvisits
  -- the walk goes through `get_sent_list`
  have hsent : sent = [] := by
    refine List.eq_nil_iff_forall_not_mem.mpr fun e he => ?_
    have hin := hvisits (e.1, none) (List.mem_append_right _ (List.mem_cons_of_mem _
      (List.mem_map_of_mem he)))
    obtain ⟨e', he', heq⟩ := List.mem_map.mp hin
    exact hqs e' he' e he heq
  refine ⟨hsent, (a, x), by simp, hidle, fun e he => ?_⟩
  rcases hfilled.full with hfull | hfull
  · simp only [Downloads.asked] at hfull
    omega
  · by_cases haddr : e.1 = a
    · rw [eq_of_address hd.getTosendQuene he haddr]
      exact .inl rfl
    · obtain ⟨d, hd, heq⟩ := hfull e he (by simpa using haddr)
      rcases List.mem_append.mp hd with hd | hd
      · rw [hsent, List.append_nil, List.mem_singleton] at hd
        rw [← heq, hd]
        exact .inl rfl
      · exact .inr ⟨d, List.mem_append_right _ hd, heq⟩

theorem filled_one (hd : down.Holds need (pre ++ (a, x) :: post) sent load)
    (hidle : Idle sent load x)
    (hd' : (down.asked heap a p).Holds need (pre ++ post) (stamped now (a, x) :: sent) load)
    (henough : OneIsEnough down (pre ++ (a, x) :: post) sent load)
    (hmax : down.concurrDownloadNum < down.maxDownloadNum) :
    Filled now down need (pre ++ (a, x) :: post) sent load [(a, x)]
      (down.asked heap a p) 1 (askedTrace down pre sent a x) := by
  have hsent : down.concurrDownloadNum + 1 < down.maxDownloadNum → sent = [] ∧
      ∀ e ∈ pre ++ (a, x) :: post, e.2.fromAddr = x.fromAddr ∨ Served sent load e.2 := by
    intro hmore
    have hx : (a, x) ∈ pre ++ (a, x) :: post := by simp
    rcases henough with hle | ⟨heq, -⟩ | hserved | ⟨hnil, e, he, -, hall⟩
    · omega
    · omega
    · exact absurd (hserved (a, x) hx) hidle.not_served
    · refine ⟨hnil, fun e' he' => ?_⟩
      have hown := (hall (a, x) hx).resolve_right hidle.not_served
      rw [hown]
      exact hall e' he'
  refine ⟨by simp, ?_, ?_, rfl, rfl, fun v hv => ?_, ?_⟩
  · rw [filter_moved hd.getTosendQuene]
    exact hd'
  · rw [askedTrace, picked_one, List.map_singleton, List.map_singleton,
      DownloadConn.sendPack_formGET]
  · rw [List.map_append, List.map_cons, List.mem_append, List.mem_cons]
    rw [askedTrace, List.mem_append, List.mem_cons] at hv
    rcases hv with hv | rfl | hv
    · exact .inl (visits_busy hv)
    · exact .inr (.inl rfl)
    · split at hv
      · rename_i hmore
        rw [(hsent hmore).1] at hv
        cases hv
      · cases hv
  · by_cases hmore : down.concurrDownloadNum + 1 < down.maxDownloadNum
    · refine .inr fun e he _ => ?_
      rcases (hsent hmore).2 e he with heq | ⟨d, hdmem, heq⟩
      · exact ⟨(a, x), by simp, heq.symm⟩
      · refine ⟨d, ?_, heq⟩
        rw [List.append_assoc]
        exact List.mem_append_right _ hdmem
    · refine .inl ?_
      simp only [Downloads.asked]
      omega

/-- **`GET_sender` fills the capacity** exactly if one GET is enough. -/
theorem get_sender_fills_iff (now : Int) (hd : down.Holds need queue sent load) :
    (∃ down' count trace moved, getSender now down = some (down', count, trace) ∧
      Filled now down need queue sent load moved down' count trace) ↔
    OneIsEnough down queue sent load := by
  rcases getSender_cases now hd with ⟨hmax, hrun⟩ | ⟨hmax, hall, hrun⟩ |
    ⟨hmax, pre, a, x, post, heap, p, rfl, hpre, hidle, hd', hrun⟩
  · refine ⟨fun _ => .inl hmax, fun _ => ⟨_, _, _, [], hrun, ?_⟩⟩
    exact filled_none now hd (.inl hmax) rfl (by simp)
  · constructor
    · rintro ⟨down', count, trace, moved, hrun', hfilled⟩
      rw [hrun, Option.some.injEq, Prod.mk.injEq, Prod.mk.injEq] at hrun'
      obtain ⟨rfl, rfl, rfl⟩ := hrun'
      have hgets := hfilled.gets
      rw [picked_busy, List.map_nil, eq_comm, List.map_eq_nil_iff] at hgets
      subst hgets
      rcases hfilled.full with hfull | hfull
      · exact .inl hfull
      · exact .inr (.inr (.inl fun e he => hfull e he (by simp)))
    · rintro (hle | ⟨-, e, he, hidle⟩ | hserved | ⟨-, e, he, hidle, -⟩)
      · omega
      · exact absurd hidle (hall e he)
      · exact ⟨_, _, _, [], hrun, filled_none now hd (.inr hserved) (picked_busy queue)
          fun v hv => visits_busy hv⟩
      · exact absurd hidle (hall e he)
  · constructor
    · rintro ⟨down₁, count, trace, moved, hrun', hfilled⟩
      rw [hrun, Option.some.injEq, Prod.mk.injEq, Prod.mk.injEq] at hrun'
      obtain ⟨rfl, rfl, rfl⟩ := hrun'
      -- the node moved is the one whose GET was sent
      have hgets := hfilled.gets
      rw [askedTrace, picked_one, List.map_singleton, eq_comm, List.map_eq_singleton_iff] at hgets
      obtain ⟨e, rfl, he⟩ := hgets
      have hmoved : e = (a, x) := eq_of_address hd.getTosendQuene
        (hfilled.own (List.mem_singleton_self e)) (congrArg Prod.fst he)
      subst hmoved
      by_cases hmore : down.concurrDownloadNum + 1 < down.maxDownloadNum
      · exact .inr (.inr (.inr (oneIsEnough_of_filled hd hidle hmore hfilled)))
      · exact .inr (.inl ⟨by omega, (a, x), by simp, hidle⟩)
    · intro henough
      exact ⟨_, _, _, [(a, x)], hrun, filled_one hd hidle hd' henough hmax⟩

/-- Two chunks wait for two peers, and a third peer was asked. -/
def twoPeers (maxDownloadNum : Int) : Downloads :=
  { heap := ⟨[some ⟨createNode ⟨0, 2⟩ (Vector.replicate hashSize 5) 0, some 1⟩,
      some ⟨createNode ⟨0, 3⟩ (Vector.replicate hashSize 6) 1, none⟩,
      some ⟨createNode ⟨0, 4⟩ (Vector.replicate hashSize 7) 2, none⟩]⟩
    concurrDownloadNum := 1
    maxDownloadNum := maxDownloadNum
    howmanyFound := 3
    howmanyNeed := 3
    needlist := none
    getTosendQuene := some 0
    getSentList := some 2
    downloadingList := none }

theorem twoPeers_holds (maxDownloadNum : Int) : (twoPeers maxDownloadNum).Holds []
    [(0, createNode ⟨0, 2⟩ (Vector.replicate hashSize 5) 0),
      (1, createNode ⟨0, 3⟩ (Vector.replicate hashSize 6) 1)]
    [(2, createNode ⟨0, 4⟩ (Vector.replicate hashSize 7) 2)] [] :=
  ⟨rfl, ⟨rfl, _, rfl, rfl, _, rfl, rfl⟩, ⟨rfl, _, rfl, rfl⟩, rfl, by simp [Heap.Apart]⟩

/-- With room for one more connection the first of the two is asked. -/
theorem last_slot_filled :
    ∃ down' count trace moved, getSender 9 (twoPeers 2) = some (down', count, trace) ∧
      Filled 9 (twoPeers 2) []
        [(0, createNode ⟨0, 2⟩ (Vector.replicate hashSize 5) 0),
          (1, createNode ⟨0, 3⟩ (Vector.replicate hashSize 6) 1)]
        [(2, createNode ⟨0, 4⟩ (Vector.replicate hashSize 7) 2)] [] moved down' count trace :=
  (get_sender_fills_iff 9 (twoPeers_holds 2)).mpr
    (.inr (.inl ⟨rfl, _, List.mem_cons_self, by decide⟩))

/-- With room for three more the second one is not asked either, and the walk comes to the node of
`get_sent_list`. -/
theorem second_peer_not_asked :
    ∃ down' get, getSender 9 (twoPeers 4) = some (down', 1, [(0, some get), (2, none)]) ∧
      down'.concurrDownloadNum = 2 ∧ down'.maxDownloadNum = 4 ∧
      down'.getTosendQuene = some 1 ∧
      ¬ Served [(0, createNode ⟨0, 2⟩ (Vector.replicate hashSize 5) 0),
        (2, createNode ⟨0, 4⟩ (Vector.replicate hashSize 7) 2)] []
        (createNode ⟨0, 3⟩ (Vector.replicate hashSize 6) 1) ∧
      ¬ ∃ moved, Filled 9 (twoPeers 4) []
        [(0, createNode ⟨0, 2⟩ (Vector.replicate hashSize 5) 0),
          (1, createNode ⟨0, 3⟩ (Vector.replicate hashSize 6) 1)]
        [(2, createNode ⟨0, 4⟩ (Vector.replicate hashSize 7) 2)] [] moved down' 1
        [(0, some get), (2, none)] := by
  refine ⟨_, _, rfl, rfl, rfl, rfl, by simp [Served, createNode], ?_⟩
  rintro ⟨moved, hfilled⟩
  exact absurd (hfilled.visits (2, none) (by simp)) (by simp)

end Mem

end P2P
