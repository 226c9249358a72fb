import P2P.Peer.Discovery
import P2P.Peer.UploadRuns
import P2P.Wire.Datagram

/-!
# One packet, one handler

`dealwithincomepack` hands a packet to the part of the peer it is for: the chunks it has,
its downloads or its uploads. The last two are found by comparing the address of the
sender with `inet_ntoa` texts, which share one buffer, so only the ports are compared.

`dispatch_own_iff`: a packet is matched with the connections of its sender alone exactly
when no list has a connection of another address with the same port in front of them.
-/

namespace P2P

open Lib

/-- `peer_me`, as far as packets change it. -/
structure PeerMe where
  haslist : List HashChunk
  mydownload : DownloadConn
  myupload : UploadConn

/-- `dealwithincomepack`: the peer afterwards and the packets sent back. `file` is what the data
file would give for the chunk of a GET. -/
def dealwithincomepack (fl : Rounding) (file : Option (List UInt8)) (now : Int) (pack : Packet)
    (toaddr : SockAddr) (me : PeerMe) : Option (PeerMe × List Packet) :=
  if pack.packetType = 0 then (ihavSender pack me.haslist).map fun ms => (me, ms)
  else if pack.packetType = 1 then
    (fillTogetList pack toaddr me.mydownload).map fun down => ({ me with mydownload := down }, [])
  else if pack.packetType = 2 then
    (dealwithGET me.haslist file now pack toaddr me.myupload).map fun r =>
      ({ me with myupload := r.1 }, [])
  else if pack.packetType = 3 then
    (dealwithData pack toaddr now me.mydownload).map fun r => ({ me with mydownload := r.1 }, r.2)
  else if pack.packetType = 4 then
    (dealwithACK fl pack toaddr now me.myupload).map fun up => ({ me with myupload := up }, [])
  else some (me, [])

/-! ## Whose connection it is -/

/-- The lists a packet from the network is looked up in. -/
def PeerMe.connLists (me : PeerMe) : List (List HashChunk) :=
  [me.myupload.uploadingList, me.myupload.uploadedList, me.mydownload.getSentList,
    me.mydownload.downloadingList]

/-- The connections of the other peers. -/
def others (addr : SockAddr) (list : List HashChunk) : List HashChunk :=
  list.filter fun x => x.fromAddr ≠ addr

/-- A node is found exactly if the list has one of that ip and port, and it is one of them. -/
structure FindsOwn (list : List HashChunk) (addr : SockAddr) : Prop where
  found : (∃ k x, findNodeByAddr list addr = some (k, x)) ↔ ∃ x ∈ list, x.fromAddr = addr
  own : ∀ k x, findNodeByAddr list addr = some (k, x) → x.fromAddr = addr

/-- The first node with the port, if there is one, has the ip too. -/
def OwnFirst (list : List HashChunk) (addr : SockAddr) : Prop :=
  ∀ x, list.find? (fun x => x.port == addr.sinPort) = some x →
    x.fromAddr.sinAddr = addr.sinAddr

theorem SockAddr.ext_iff {a b : SockAddr} :
    a = b ↔ a.sinAddr = b.sinAddr ∧ a.sinPort = b.sinPort := by
  cases a
  cases b
  simp

/-- **One list**: the lookup is that of a peer exactly when its first node with the port is. -/
theorem findsOwn_iff {list : List HashChunk} {addr : SockAddr} :
    FindsOwn list addr ↔ OwnFirst list addr := by
  constructor
  · rintro ⟨-, hown⟩ x hx
    have hmem := List.mem_of_find?_eq_some hx
    have hport : x.port = addr.sinPort := by simpa using List.find?_some hx
    obtain ⟨k, y, hfind⟩ := exists_findNodeByAddr hmem hport
    have hfirst := findNodeByAddr_find? hfind
    rw [hx, Option.some.injEq] at hfirst
    rw [hown k x (by rw [hfirst]; exact hfind)]
  · intro h
    have hown : ∀ k x, findNodeByAddr list addr = some (k, x) → x.fromAddr = addr := by
      intro k x hx
      exact SockAddr.ext_iff.mpr ⟨h x (findNodeByAddr_find? hx), (findNodeByAddr_spec hx).2⟩
    refine ⟨⟨?_, ?_⟩, hown⟩
    · rintro ⟨k, x, hx⟩
      exact ⟨x, List.mem_of_getElem? (findNodeByAddr_spec hx).1, hown k x hx⟩
    · rintro ⟨x, hmem, rfl⟩
      exact exists_findNodeByAddr hmem rfl

/-! ## The other connections -/

section
variable {addr : SockAddr} {list : List HashChunk} {k : Nat} {x y : HashChunk}

theorem others_cons (hx : x.fromAddr = addr) : others addr (x :: list) = others addr list := by
  rw [others, List.filter_cons_of_neg (by simp [hx])]
  rfl

theorem others_set (hx : list[k]? = some x) (h : x.fromAddr = addr) (hy : y.fromAddr = addr) :
    others addr (list.set k y) = others addr list := by
  induction list generalizing k with
  | nil => rfl
  | cons a list ih =>
    cases k with
    | zero =>
      cases hx
      rw [List.set_cons_zero, others_cons hy, others_cons h]
    | succ k =>
      rw [List.getElem?_cons_succ] at hx
      rw [List.set_cons_succ, others, others, List.filter_cons, List.filter_cons]
      have := ih hx
      unfold others at this
      rw [this]

theorem others_deleteNode (hx : list[k]? = some x) (h : x.fromAddr = addr) :
    others addr (deleteNode list k) = others addr list := by
  induction list generalizing k with
  | nil => rfl
  | cons a list ih =>
    cases k with
    | zero =>
      cases hx
      rw [others_cons h]
      rfl
    | succ k =>
      rw [List.getElem?_cons_succ] at hx
      have := ih hx
      unfold others deleteNode at this ⊢
      rw [List.eraseIdx_cons_succ, List.filter_cons, List.filter_cons, this]

end

/-- The connections of the other peers are as before. -/
structure OthersKept (addr : SockAddr) (me me' : PeerMe) : Prop where
  uploading : others addr me'.myupload.uploadingList = others addr me.myupload.uploadingList
  uploaded : others addr me'.myupload.uploadedList = others addr me.myupload.uploadedList
  sent : others addr me'.mydownload.getSentList = others addr me.mydownload.getSentList
  downloading :
    others addr me'.mydownload.downloadingList = others addr me.mydownload.downloadingList

section
variable {fl : Rounding} {file : Option (List UInt8)} {now : Int} {pack : Packet}
  {addr : SockAddr} {me me' : PeerMe} {ms : List Packet}

theorem OthersKept.refl (addr : SockAddr) (me : PeerMe) : OthersKept addr me me :=
  ⟨rfl, rfl, rfl, rfl⟩

theorem others_initUpload {haslist : List HashChunk} {hash : Hash} {up : UploadConn}
    {r : UploadConn × Int} (h : initUpload haslist file now hash addr up = some r) :
    others addr r.1.uploadingList = others addr up.uploadingList ∧
      r.1.uploadedList = up.uploadedList := by
  unfold initUpload at h
  split at h
  · rw [Option.map_eq_some_iff] at h
    obtain ⟨sw, -, rfl⟩ := h
    exact ⟨others_cons rfl, rfl⟩
  · cases h
    exact ⟨rfl, rfl⟩

theorem others_dealwithGET {haslist : List HashChunk} {up : UploadConn}
    {r : UploadConn × Option Int} (h : dealwithGET haslist file now pack addr up = some r) :
    others addr r.1.uploadingList = others addr up.uploadingList ∧
      r.1.uploadedList = up.uploadedList := by
  unfold dealwithGET at h
  split at h
  · rw [Option.bind_eq_some_iff] at h
    obtain ⟨hash, -, h⟩ := h
    split at h
    · rw [Option.map_eq_some_iff] at h
      obtain ⟨init, hinit, rfl⟩ := h
      exact others_initUpload hinit
    · split at h
      · rw [Option.map_eq_some_iff] at h
        obtain ⟨init, hinit, rfl⟩ := h
        exact others_initUpload hinit
      · cases h
        exact ⟨rfl, rfl⟩
  · cases h
    exact ⟨rfl, rfl⟩

theorem others_dealwithACK {up up' : UploadConn} (hown : FindsOwn up.uploadingList addr)
    (h : dealwithACK fl pack addr now up = some up') :
    others addr up'.uploadingList = others addr up.uploadingList ∧
      up'.uploadedList = up.uploadedList := by
  unfold dealwithACK at h
  split at h
  · cases h
    exact ⟨rfl, rfl⟩
  · rename_i k conn hconn
    rw [Option.bind_eq_some_iff] at h
    obtain ⟨w, -, h⟩ := h
    rw [Option.map_eq_some_iff] at h
    obtain ⟨r, -, rfl⟩ := h
    have hfrom := hown.own k conn hconn
    exact ⟨others_set (findNodeByAddr_spec hconn).1 hfrom hfrom, rfl⟩

theorem others_receiveOn {down : DownloadConn} {k : Nat} (conn : HashChunk)
    {r : DownloadConn × List Packet} (hconn : down.downloadingList[k]? = some conn)
    (hfrom : conn.fromAddr = addr) (h : receiveOn pack k down = some r) :
    others addr r.1.downloadingList = others addr down.downloadingList ∧
      r.1.getSentList = down.getSentList := by
  rw [receiveOn, hconn, Option.bind_some, Option.bind_eq_some_iff] at h
  obtain ⟨rev, -, h⟩ := h
  rw [Option.map_eq_some_iff] at h
  obtain ⟨s, -, rfl⟩ := h
  exact ⟨others_set hconn hfrom hfrom, rfl⟩

theorem others_dealwithData {down : DownloadConn} {r : DownloadConn × List Packet}
    (hdown : FindsOwn down.downloadingList addr) (hsent : FindsOwn down.getSentList addr)
    (h : dealwithData pack addr now down = some r) :
    others addr r.1.downloadingList = others addr down.downloadingList ∧
      others addr r.1.getSentList = others addr down.getSentList := by
  unfold dealwithData at h
  split at h
  · rename_i k conn hconn
    have hfrom := hdown.own k conn hconn
    have hget := (findNodeByAddr_spec hconn).1
    have hk : k < down.downloadingList.length := (List.getElem?_eq_some_iff.mp hget).1
    obtain ⟨hload, hrest⟩ := others_receiveOn { conn with timestamp := now }
      (List.getElem?_set_self hk) hfrom h
    exact ⟨hload.trans (others_set hget hfrom hfrom), by rw [hrest]⟩
  · split at h
    · rename_i k conn hconn
      have hfrom := hsent.own k conn hconn
      obtain ⟨hload, hrest⟩ := others_receiveOn { conn with
        timestamp := now, recver := some (createRecver conn.hash) } rfl hfrom h
      refine ⟨hload.trans (others_cons hfrom), ?_⟩
      rw [hrest]
      exact others_deleteNode (findNodeByAddr_spec hconn).1 hfrom
    · cases h
      exact ⟨rfl, rfl⟩

theorem fillTogetList_connections {down down' : DownloadConn}
    (h : fillTogetList pack addr down = some down') :
    down'.getSentList = down.getSentList ∧ down'.downloadingList = down.downloadingList := by
  refine DownloadConn.fillLoop_induct (P := fun d => d.getSentList = down.getSentList ∧
    d.downloadingList = down.downloadingList) ?_ ⟨rfl, rfl⟩ h
  intro d hash hd
  unfold fillHash
  split
  · simp only
    split
    · exact hd
    · split
      · exact hd
      · exact hd
  · exact hd

/-- **What a packet leaves alone**, if every list is searched for the connections of its sender. -/
theorem othersKept_of_findsOwn (hown : ∀ list ∈ me.connLists, FindsOwn list addr)
    (h : dealwithincomepack fl file now pack addr me = some (me', ms)) :
    OthersKept addr me me' := by
  have hlists : ∀ list, list ∈ me.connLists ↔ list = me.myupload.uploadingList ∨
      list = me.myupload.uploadedList ∨ list = me.mydownload.getSentList ∨
        list = me.mydownload.downloadingList := by
    intro list
    simp [PeerMe.connLists]
  unfold dealwithincomepack at h
  split at h
  · rw [Option.map_eq_some_iff] at h
    obtain ⟨_, -, heq⟩ := h
    cases heq
    exact .refl addr me
  split at h
  · rw [Option.map_eq_some_iff] at h
    obtain ⟨down, hfill, heq⟩ := h
    cases heq
    obtain ⟨hsent, hload⟩ := fillTogetList_connections hfill
    exact ⟨rfl, rfl, by rw [hsent], by rw [hload]⟩
  split at h
  · rw [Option.map_eq_some_iff] at h
    obtain ⟨r, hget, heq⟩ := h
    cases heq
    obtain ⟨hup, hdone⟩ := others_dealwithGET hget
    exact ⟨hup, by rw [hdone], rfl, rfl⟩
  split at h
  · rw [Option.map_eq_some_iff] at h
    obtain ⟨r, hdata, heq⟩ := h
    cases heq
    obtain ⟨hload, hsent⟩ := others_dealwithData (hown _ ((hlists _).mpr (by simp)))
      (hown _ ((hlists _).mpr (by simp))) hdata
    exact ⟨rfl, rfl, hsent, hload⟩
  split at h
  · rw [Option.map_eq_some_iff] at h
    obtain ⟨up, hack, heq⟩ := h
    cases heq
    obtain ⟨hup, hdone⟩ := others_dealwithACK (hown _ ((hlists _).mpr (by simp))) hack
    exact ⟨hup, by rw [hdone], rfl, rfl⟩
  · cases h
    exact .refl addr me

end

/-- Every lookup for a packet from `addr` finds the connections of that peer and no others, and
whatever the packet is, the connections of the other peers stay as they are. -/
structure DispatchesOwn (fl : Rounding) (me : PeerMe) (addr : SockAddr) : Prop where
  lookup : ∀ list ∈ me.connLists, FindsOwn list addr
  others : ∀ file now pack me' ms, dealwithincomepack fl file now pack addr me = some (me', ms) →
    OthersKept addr me me'

/-- **Packets are dispatched to the connections of their own sender** exactly when, in each list,
the first connection with the sender's port has the sender's ip. -/
theorem dispatch_own_iff (fl : Rounding) (me : PeerMe) (addr : SockAddr) :
    DispatchesOwn fl me addr ↔ ∀ list ∈ me.connLists, OwnFirst list addr := by
  constructor
  · intro h list hlist
    exact findsOwn_iff.mp (h.lookup list hlist)
  · intro h
    have hown : ∀ list ∈ me.connLists, FindsOwn list addr :=
      fun list hlist => findsOwn_iff.mpr (h list hlist)
    exact ⟨hown, fun _ _ _ _ _ => othersKept_of_findsOwn hown⟩

/-- Two peers with port 80: the ACK of the second moves the window of the first. -/
theorem ack_of_other_ip :
    ∃ me me' : PeerMe, ¬ DispatchesOwn .exact me ⟨2, 80⟩ ∧
      dealwithincomepack .exact none 5 (formAckPack 0) ⟨2, 80⟩ me = some (me', []) ∧
      me.myupload.uploadingList.map (fun x => (x.fromAddr, x.timestamp)) = [(⟨1, 80⟩, 0)] ∧
      me'.myupload.uploadingList.map (fun x => (x.fromAddr, x.timestamp)) = [(⟨1, 80⟩, 5)] := by
  let conn : HashChunk := { createNode ⟨1, 80⟩ (Vector.replicate hashSize 0) 0 with
    congWin := some (createSW (Vector.replicate hashSize 0) ⟨1, 80⟩) }
  let me : PeerMe := ⟨[], initDownloadConn ⟨4, ⟨0, 0⟩⟩, ⟨1, 4, [conn], []⟩⟩
  refine ⟨me, _, fun h => ?_, rfl, rfl, rfl⟩
  have hfind := (h.lookup [conn] List.mem_cons_self).own 0 conn rfl
  exact absurd (congrArg SockAddr.sinAddr hfind) (by decide)

end P2P
