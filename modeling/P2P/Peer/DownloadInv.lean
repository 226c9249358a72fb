import P2P.Peer.Download

/-!
# What the download lists keep

The chunks in work are known by their keys, hash and chunk id, and the connections
by the port of their peer. `DownloadConn.Effect` says what an operation does to
these keys, to the ports and to the counters, and nothing else is needed for the
invariants:

* `download_lists_wellFormed`: no hash and no peer occurs twice, every chunk in work
  is needed, and the connections that receive data are those with a receiver;
* `download_counters`: the counters are the lengths of the lists.
-/

namespace P2P

open Lib

/-- What identifies a chunk in work. -/
def HashChunk.key (x : HashChunk) : Hash × Int := (x.hash, x.chunkid)

namespace DownloadConn

/-- The chunks in work. -/
def tracked (d : DownloadConn) : List HashChunk :=
  d.getTosendQuene ++ d.getSentList ++ d.downloadingList

/-- The connections. -/
def connections (d : DownloadConn) : List HashChunk := d.getSentList ++ d.downloadingList

def keys (d : DownloadConn) : List (Hash × Int) := d.tracked.map HashChunk.key

def ports (d : DownloadConn) : List UInt16 := d.connections.map HashChunk.port

end DownloadConn

/-- Different hashes, each needed under the chunk id of its first entry. -/
structure Tracked (needlist : List HashChunk) (keys : List (Hash × Int)) : Prop where
  nodup : (keys.map Prod.fst).Nodup
  needed : ∀ key ∈ keys, (firstEntry needlist key.1).map HashChunk.chunkid = some key.2

namespace Tracked

variable {needlist : List HashChunk} {keys keys' : List (Hash × Int)} {key : Hash × Int}

theorem nil : Tracked needlist [] := ⟨List.nodup_nil, fun _ h => absurd h List.not_mem_nil⟩

theorem subperm (h : Tracked needlist keys) (hsub : keys'.Subperm keys) :
    Tracked needlist keys' := by
  obtain ⟨l, hperm, hl⟩ := hsub
  refine ⟨?_, fun key hkey => h.needed key (hl.subset (hperm.mem_iff.mpr hkey))⟩
  exact (hperm.map Prod.fst).nodup_iff.mp (h.nodup.sublist (hl.map Prod.fst))

theorem perm (h : Tracked needlist keys) (hperm : keys'.Perm keys) : Tracked needlist keys' :=
  h.subperm hperm.subperm

theorem cons (h : Tracked needlist keys) (hnew : key.1 ∉ keys.map Prod.fst)
    (hneed : (firstEntry needlist key.1).map HashChunk.chunkid = some key.2) :
    Tracked needlist (key :: keys) := by
  refine ⟨List.nodup_cons.mpr ⟨hnew, h.nodup⟩, fun key' hkey' => ?_⟩
  rcases List.mem_cons.mp hkey' with rfl | hold
  · exact hneed
  · exact h.needed key' hold

theorem deleteNode {k : Nat} {x : HashChunk} (h : Tracked needlist (key :: keys))
    (hx : needlist[k]? = some x) (hhash : x.hash = key.1) :
    Tracked (P2P.deleteNode needlist k) keys := by
  have hnodup := List.nodup_cons.mp h.nodup
  refine ⟨hnodup.2, fun key' hkey' => ?_⟩
  have hne : x.hash ≠ key'.1 := by
    intro heq
    exact hnodup.1 (List.mem_map.mpr ⟨key', hkey', by rw [← heq, hhash]⟩)
  rw [firstEntry_deleteNode hx hne]
  exact h.needed key' (List.mem_cons_of_mem key hkey')

end Tracked

namespace DownloadConn

/-! ## What an operation does -/

/-- Nodes change their places, and what is not in their keys. -/
structure Moved (d d' : DownloadConn) : Prop where
  needlist : d'.needlist = d.needlist
  keys : d'.keys.Perm d.keys
  ports : d'.ports.Perm d.ports
  concurr : d'.concurrDownloadNum = d.concurrDownloadNum
  found : d'.howmanyFound = d.howmanyFound
  max : d'.maxDownloadNum = d.maxDownloadNum
  need : d'.howmanyNeed = d.howmanyNeed

theorem Moved.refl (d : DownloadConn) : Moved d d := ⟨rfl, .refl _, .refl _, rfl, rfl, rfl, rfl⟩

theorem Moved.trans {d d' d'' : DownloadConn} (h : Moved d d') (h' : Moved d' d'') : Moved d d'' :=
  ⟨h'.needlist.trans h.needlist, h'.keys.trans h.keys, h'.ports.trans h.ports,
    h'.concurr.trans h.concurr, h'.found.trans h.found, h'.max.trans h.max, h'.need.trans h.need⟩

/-- Everything an operation does to the keys, the ports and the counters. -/
inductive Effect (d d' : DownloadConn) : Prop
  | moved : Moved d d' → Effect d d'
  /-- A needed chunk is queued. -/
  | found (key : Hash × Int) : key.1 ∉ d.keys.map Prod.fst →
      (firstEntry d.needlist key.1).map HashChunk.chunkid = some key.2 →
      d'.needlist = d.needlist → d'.keys = key :: d.keys → d'.ports = d.ports →
      d'.concurrDownloadNum = d.concurrDownloadNum → d'.howmanyFound = d.howmanyFound + 1 →
      d'.maxDownloadNum = d.maxDownloadNum → d'.howmanyNeed = d.howmanyNeed → Effect d d'
  /-- An idle peer is asked for a chunk of the queue. -/
  | asked (port : UInt16) : port ∉ d.ports → d.concurrDownloadNum < d.maxDownloadNum →
      d'.needlist = d.needlist → d'.keys.Perm d.keys → d'.ports = port :: d.ports →
      d'.concurrDownloadNum = d.concurrDownloadNum + 1 → d'.howmanyFound = d.howmanyFound →
      d'.maxDownloadNum = d.maxDownloadNum → d'.howmanyNeed = d.howmanyNeed → Effect d d'
  /-- `n` connections are given up. -/
  | dropped (n : Nat) : d'.needlist = d.needlist → d'.keys.Subperm d.keys →
      d'.ports.Subperm d.ports → d'.keys.length + n = d.keys.length →
      d'.ports.length + n = d.ports.length →
      d'.concurrDownloadNum = d.concurrDownloadNum - n → d'.howmanyFound = d.howmanyFound - n →
      d'.maxDownloadNum = d.maxDownloadNum → d'.howmanyNeed = d.howmanyNeed → Effect d d'
  /-- A download is finished and its chunk no longer needed. -/
  | finished (key : Hash × Int) (port : UInt16) (k : Nat) (x : HashChunk) :
      d.needlist[k]? = some x → x.hash = key.1 → d'.needlist = deleteNode d.needlist k →
      d.keys.Perm (key :: d'.keys) → d.ports.Perm (port :: d'.ports) →
      d'.concurrDownloadNum = d.concurrDownloadNum - 1 → d'.howmanyFound = d.howmanyFound →
      d'.maxDownloadNum = d.maxDownloadNum → d'.howmanyNeed = d.howmanyNeed → Effect d d'

theorem Effect.refl (d : DownloadConn) : Effect d d := .moved (.refl d)

variable {d d' : DownloadConn}

theorem map_move_perm {β : Type*} (f : HashChunk → β) {a : List HashChunk} {k : Nat}
    {x y : HashChunk} (hx : a[k]? = some x) (hy : f y = f x) (b : List HashChunk) :
    ((deleteNode a k ++ y :: b).map f).Perm ((a ++ b).map f) := by
  calc ((deleteNode a k ++ y :: b).map f).Perm ((y :: (deleteNode a k ++ b)).map f) :=
        List.perm_middle.map f
    _ = ((x :: deleteNode a k) ++ b).map f := by
        rw [List.map_cons, hy, List.cons_append, List.map_cons]
    _ |>.Perm ((a ++ b).map f) := ((perm_deleteNode hx).append_right b).map f

theorem not_mem_keys {hash : Hash} (hq : findNode d.getTosendQuene hash = none)
    (hs : findNode d.getSentList hash = none) (hl : findNode d.downloadingList hash = none) :
    hash ∉ d.keys.map Prod.fst := by
  rw [findNode_none] at hq hs hl
  have hfst : d.keys.map Prod.fst = d.tracked.map HashChunk.hash := by
    rw [keys, List.map_map]
    rfl
  rw [hfst, tracked, List.map_append, List.map_append, List.mem_append, List.mem_append]
  rintro ((h | h) | h)
  · exact hq h
  · exact hs h
  · exact hl h

theorem effect_fillHash (fromAddr : SockAddr) (findHash : Hash)
    (ht : Tracked d.needlist d.keys) : Effect d (fillHash fromAddr findHash d) := by
  unfold fillHash
  split
  · rename_i k ifIneed hneed hdown hsent
    obtain ⟨-, hhash, hfirst⟩ := findNode_spec hneed
    split
    · rename_i hstored
      refine .found (findHash, ifIneed.chunkid) (not_mem_keys hstored hsent hdown) ?_ rfl rfl rfl
        rfl rfl rfl rfl
      rw [hfirst]
      rfl
    · rename_i j ifStored hstored
      split
      · obtain ⟨hj, hjhash, -⟩ := findNode_spec hstored
        -- the node stored has the chunk id of the first entry too
        have hmem : ifStored.key ∈ d.keys := by
          apply List.mem_map_of_mem
          rw [tracked, List.append_assoc]
          exact List.mem_append_left _ (List.mem_of_getElem? hj)
        have hid := ht.needed _ hmem
        rw [show ifStored.key.1 = findHash from hjhash, hfirst, Option.map_some,
          Option.some.injEq] at hid
        have hkey : HashChunk.key (createNode fromAddr findHash ifIneed.chunkid) = ifStored.key :=
          Prod.ext hjhash.symm hid
        refine .moved ⟨rfl, ?_, .refl _, rfl, rfl, rfl, rfl⟩
        have hperm := ((perm_deleteNode hj).append_right (d.getSentList ++ d.downloadingList)).map
          HashChunk.key
        rw [List.cons_append, List.map_cons, ← hkey] at hperm
        simpa only [keys, tracked, appendNode, List.append_assoc, List.cons_append, List.map_cons]
          using hperm
      · exact .refl d
  · exact .refl d

theorem effect_checkTimeout (now : Int) (d : DownloadConn) : Effect d (checkTimeout now d).1 := by
  have hsub : (d.getSentList.filter fun x => !x.expired now).Sublist d.getSentList :=
    List.filter_sublist
  have hlen : (d.getSentList.filter fun x => !x.expired now).length +
      d.getSentList.countP (HashChunk.expired now) = d.getSentList.length := by
    have hsplit := List.length_eq_countP_add_countP (HashChunk.expired now) (l := d.getSentList)
    simp only [decide_not, Bool.decide_eq_true] at hsplit
    rw [← List.countP_eq_length_filter, hsplit, Nat.add_comm]
  refine .dropped (d.getSentList.countP (HashChunk.expired now)) rfl ?_ ?_ ?_ ?_ rfl rfl rfl rfl
  · exact (((hsub.append_left _).append_right _).map HashChunk.key).subperm
  · exact ((hsub.append_right _).map HashChunk.port).subperm
  · simp only [keys, tracked, checkTimeout, List.length_map, List.length_append]
    omega
  · simp only [ports, connections, checkTimeout, List.length_map, List.length_append]
    omega

theorem idle_eq_true {x : HashChunk} : d.idle x ↔ x.port ∉ d.ports := by
  unfold idle ports connections
  rw [Bool.and_eq_true, Option.isNone_iff_eq_none, Option.isNone_iff_eq_none, findNodeByAddr_none,
    findNodeByAddr_none, List.map_append, List.mem_append, not_or]
  rfl

theorem not_any_idle (d : DownloadConn) : d.getSentList.any d.idle = false := by
  rw [List.any_eq_false]
  intro x hx
  rw [idle_eq_true, not_not]
  exact List.mem_map_of_mem (List.mem_append_left _ hx)

theorem sendPack_formGET (x : HashChunk) : sendPack (formGET x) = some (formGET x).onWire := by
  refine sendPack_eq ⟨?_, ?_⟩
  · show 16 ≤ 36
    omega
  · show 36 - 16 ≤ x.hash.toList.length
    rw [Vector.length_toList]

theorem pickLoop_spec (now : Int) (maxpickNum : Int) :
    ∀ (rest : List HashChunk) (k : Nat), rest = d.getTosendQuene.drop k →
      (pickLoop now d maxpickNum k rest = some (d, 0, []) ∨
        ∃ j x, d.getTosendQuene[j]? = some x ∧ d.idle x ∧ 0 < maxpickNum ∧
          pickLoop now d maxpickNum k rest =
            some ({ d with
              getSentList := appendNode d.getSentList { x with timestamp := now }
              getTosendQuene := deleteNode d.getTosendQuene j }, 1,
              [(x.fromAddr, (formGET x).onWire)])) := by
  intro rest
  induction rest with
  | nil => intro k _; exact .inl rfl
  | cons curr rest ih =>
    intro k hk
    have hcurr : d.getTosendQuene[k]? = some curr := by
      rw [← List.head?_drop, ← hk, List.head?_cons]
    have hrest : rest = d.getTosendQuene.drop (k + 1) := by
      rw [← List.tail_drop, ← hk, List.tail_cons]
    rw [pickLoop]
    by_cases hmax : 0 < maxpickNum
    · rw [if_pos hmax]
      by_cases hidle : d.idle curr
      · refine .inr ⟨k, curr, hcurr, hidle, hmax, ?_⟩
        rw [if_pos hidle, not_any_idle, if_neg (by simp), sendPack_formGET, Option.map_some]
      · rw [if_neg hidle]
        exact ih (k + 1) hrest
    · rw [if_neg hmax]
      exact .inl rfl

/-- **`GET_sender`** asks at most one peer. -/
theorem getSender_spec (now : Int) (d : DownloadConn) :
    P2P.getSender now d = some (d, 0, []) ∨
      ∃ j x, d.getTosendQuene[j]? = some x ∧ d.idle x ∧
        d.concurrDownloadNum < d.maxDownloadNum ∧
        P2P.getSender now d = some ({ d with
          getSentList := appendNode d.getSentList { x with timestamp := now }
          getTosendQuene := deleteNode d.getTosendQuene j
          concurrDownloadNum := d.concurrDownloadNum + 1 }, 1,
          [(x.fromAddr, (formGET x).onWire)]) := by
  unfold P2P.getSender pickTosendGET
  by_cases h0 : d.maxDownloadNum - d.concurrDownloadNum = 0
  · exact .inl (if_pos h0)
  · simp only [if_neg h0]
    rcases pickLoop_spec now (d.maxDownloadNum - d.concurrDownloadNum) d.getTosendQuene 0 rfl with
      hnone | ⟨j, x, hj, hidle, hmax, hone⟩
    · rw [hnone, Option.map_some]
      exact .inl (by simp)
    · rw [hone, Option.map_some]
      exact .inr ⟨j, x, hj, hidle, by omega, rfl⟩

theorem effect_getSender {config : Config} {now : Int}
    (h : d.next config (.getSender now) = some d') : Effect d d' := by
  rw [DownloadConn.next, Option.map_eq_some_iff] at h
  obtain ⟨r, hr, rfl⟩ := h
  rcases getSender_spec now d with hnone | ⟨j, x, hj, hidle, hmax, hone⟩
  · rw [hnone] at hr
    cases hr
    exact .refl d
  · rw [hone] at hr
    cases hr
    refine .asked x.port (idle_eq_true.mp hidle) hmax rfl ?_ rfl rfl rfl rfl rfl
    have hmove := map_move_perm HashChunk.key (y := { x with timestamp := now }) hj rfl
      (d.getSentList ++ d.downloadingList)
    simpa only [keys, tracked, appendNode, List.append_assoc, List.cons_append] using hmove

theorem moved_set {k : Nat} {x y : HashChunk} (hx : d.downloadingList[k]? = some x)
    (hkey : y.key = x.key) (hport : y.port = x.port) :
    Moved d { d with downloadingList := d.downloadingList.set k y } := by
  refine ⟨rfl, ?_, ?_, rfl, rfl, rfl, rfl⟩
  · simp only [keys, tracked, List.map_append, map_set_key HashChunk.key hx hkey]
    exact .refl _
  · simp only [ports, connections, List.map_append, map_set_key HashChunk.port hx hport]
    exact .refl _

theorem moved_initDownload {now : Int} {k : Nat} {conn : HashChunk}
    (hk : d.getSentList[k]? = some conn) : Moved d (initDownload now k conn d) := by
  have hmove : ∀ {β : Type} (f : HashChunk → β),
      f { conn with timestamp := now, recver := some (createRecver conn.hash) } = f conn →
      ((deleteNode d.getSentList k ++
        { conn with timestamp := now, recver := some (createRecver conn.hash) } ::
          d.downloadingList).map f).Perm ((d.getSentList ++ d.downloadingList).map f) :=
    fun f hf => map_move_perm f hk hf _
  refine ⟨rfl, ?_, hmove HashChunk.port rfl, rfl, rfl, rfl, rfl⟩
  have hkeys := (hmove HashChunk.key rfl).append_left (d.getTosendQuene.map HashChunk.key)
  simpa only [keys, tracked, initDownload, appendNode, List.append_assoc, ← List.map_append]
    using hkeys

theorem moved_receiveOn {pack : Packet} {k : Nat} {r : DownloadConn × List Packet}
    (h : receiveOn pack k d = some r) : Moved d r.1 := by
  unfold receiveOn at h
  rw [Option.bind_eq_some_iff] at h
  obtain ⟨conn, hconn, h⟩ := h
  rw [Option.bind_eq_some_iff] at h
  obtain ⟨rev, -, h⟩ := h
  rw [Option.map_eq_some_iff] at h
  obtain ⟨r', -, rfl⟩ := h
  exact moved_set hconn rfl rfl

theorem moved_data {pack : Packet} {addr : SockAddr} {now : Int} {r : DownloadConn × List Packet}
    (h : dealwithData pack addr now d = some r) : Moved d r.1 := by
  unfold dealwithData at h
  split at h
  · rename_i k conn hconn
    have hset := moved_set (y := { conn with timestamp := now }) (findNodeByAddr_spec hconn).1
      rfl rfl
    exact hset.trans (moved_receiveOn h)
  · split at h
    · rename_i k conn hconn
      exact (moved_initDownload (findNodeByAddr_spec hconn).1).trans (moved_receiveOn h)
    · cases h
      exact .refl d

theorem effect_finishOneDownload {k : Nat} (h : finishOneDownload k d = some d') : Effect d d' := by
  unfold finishOneDownload at h
  rw [Option.bind_eq_some_iff] at h
  obtain ⟨todel, hk, h⟩ := h
  rw [Option.map_eq_some_iff] at h
  obtain ⟨needlist, hneed, rfl⟩ := h
  obtain ⟨j, x, hx, hhash, -, rfl⟩ := deleteNodeByHash_spec hneed
  have hdel : ∀ {β : Type} (f : HashChunk → β) (a : List HashChunk),
      ((a ++ d.downloadingList).map f).Perm
        (f todel :: (a ++ deleteNode d.downloadingList k).map f) := by
    intro β f a
    rw [← List.map_cons]
    exact (((perm_deleteNode hk).symm.append_left a).trans List.perm_middle).map f
  exact .finished todel.key todel.port j x hx hhash rfl (hdel HashChunk.key _)
    (hdel HashChunk.port _) rfl rfl rfl rfl

theorem effect_recvTimeout {now : Int} {k : Nat} {r : DownloadConn × Int}
    (h : checkRecvdataTimeout now k d = some r) : Effect d r.1 := by
  unfold checkRecvdataTimeout at h
  rw [Option.map_eq_some_iff] at h
  obtain ⟨curr, hk, rfl⟩ := h
  split
  · have hsub : (deleteNode d.downloadingList k).Sublist d.downloadingList :=
      List.eraseIdx_sublist _ _
    have hlen := length_deleteNode hk
    refine .dropped 1 rfl ?_ ?_ ?_ ?_ rfl rfl rfl rfl
    · exact ((hsub.append_left _).map HashChunk.key).subperm
    · exact ((hsub.append_left _).map HashChunk.port).subperm
    · simp only [keys, tracked, List.length_map, List.length_append]
      omega
    · simp only [ports, connections, List.length_map, List.length_append]
      omega
  · exact .refl d

/-! ## The invariants -/

/-- The receivers belong to the connections that receive data. -/
structure Receivers (d : DownloadConn) : Prop where
  receiving : ∀ x ∈ d.downloadingList, ∃ r, x.recver = some r ∧ r.Inv ∧ r.hash = x.hash
  waiting : ∀ x ∈ d.needlist ++ (d.getTosendQuene ++ d.getSentList), x.recver = none

/-- The invariant of the lists. -/
structure Inv (d : DownloadConn) : Prop where
  tracked : Tracked d.needlist d.keys
  ports : d.ports.Nodup
  receivers : d.Receivers

/-- The counters are the lengths of the lists. -/
structure Counted (d : DownloadConn) : Prop where
  concurr : d.concurrDownloadNum = d.ports.length
  le_max : d.concurrDownloadNum ≤ d.maxDownloadNum
  found : d.howmanyFound = d.keys.length + (d.howmanyNeed - d.needlist.length)

/-- The capacity is the configured one until a GET is complete. -/
def Capacity (config : Config) (d : DownloadConn) : Prop :=
  d.maxDownloadNum = config.maxConn ∨ d.maxDownloadNum = 0 ∧ d.needlist = []

theorem Effect.tracked (h : Effect d d') (ht : Tracked d.needlist d.keys) :
    Tracked d'.needlist d'.keys := by
  cases h with
  | moved hm => rw [hm.needlist]; exact ht.perm hm.keys
  | found key hnew hfirst hneed hkeys => rw [hneed, hkeys]; exact ht.cons hnew hfirst
  | asked port _ _ hneed hkeys => rw [hneed]; exact ht.perm hkeys
  | dropped n hneed hkeys => rw [hneed]; exact ht.subperm hkeys
  | finished key port k x hx hhash hneed hkeys =>
    rw [hneed]
    exact (ht.perm hkeys.symm).deleteNode hx hhash

theorem Effect.ports (h : Effect d d') (hp : d.ports.Nodup) : d'.ports.Nodup := by
  cases h with
  | moved hm => exact hm.ports.nodup_iff.mpr hp
  | found _ _ _ _ _ hports => rw [hports]; exact hp
  | asked port hnew _ _ _ hports => rw [hports]; exact List.nodup_cons.mpr ⟨hnew, hp⟩
  | dropped n _ _ hports =>
    obtain ⟨l, hperm, hsub⟩ := hports
    exact hperm.nodup_iff.mp (hp.sublist hsub)
  | finished key port k x _ _ _ _ hports => exact (List.nodup_cons.mp (hports.nodup_iff.mp hp)).2

theorem Effect.counted (h : Effect d d') (hc : d.Counted) : d'.Counted := by
  obtain ⟨hconcurr, hle, hfound⟩ := hc
  cases h with
  | moved hm =>
    have hkeys := hm.keys.length_eq
    have hports := hm.ports.length_eq
    refine ⟨?_, ?_, ?_⟩
    · rw [hm.concurr, hports, hconcurr]
    · rw [hm.concurr, hm.max]
      exact hle
    · rw [hm.found, hm.need, hm.needlist, hkeys, hfound]
  | found key _ _ hneed hkeys hports hc' hf' hm' hn' =>
    refine ⟨by rw [hc', hports, hconcurr], by omega, ?_⟩
    rw [hf', hn', hneed, hkeys, List.length_cons]
    push_cast
    omega
  | asked port _ hlt hneed hkeys hports hc' hf' hm' hn' =>
    have hkeys := hkeys.length_eq
    refine ⟨?_, by omega, by rw [hf', hn', hneed, hkeys, hfound]⟩
    rw [hc', hports, List.length_cons, hconcurr]
    push_cast
    omega
  | dropped n hneed _ _ hkeys hports hc' hf' hm' hn' =>
    refine ⟨by omega, by omega, ?_⟩
    rw [hf', hn', hneed]
    omega
  | finished key port k x hx _ hneed hkeys hports hc' hf' hm' hn' =>
    have hkeys := hkeys.length_eq
    have hports := hports.length_eq
    have hlen := length_deleteNode hx
    rw [List.length_cons] at hkeys hports
    refine ⟨by omega, by omega, ?_⟩
    rw [hf', hn', hneed]
    omega

theorem Effect.capacity {config : Config} (h : Effect d d') (hc : Capacity config d) :
    Capacity config d' := by
  unfold Capacity at *
  cases h with
  | moved hm => rw [hm.max, hm.needlist]; exact hc
  | found _ _ _ hneed _ _ _ _ hmax => rw [hmax, hneed]; exact hc
  | asked _ _ _ hneed _ _ _ _ hmax => rw [hmax, hneed]; exact hc
  | dropped _ hneed _ _ _ _ _ _ hmax => rw [hmax, hneed]; exact hc
  | finished _ _ k x hx _ _ _ _ _ _ hmax =>
    rcases hc with hc | ⟨-, hnil⟩
    · exact .inl (by rw [hmax, hc])
    · rw [hnil] at hx
      cases hx

/-! ### The receivers -/

theorem mem_deleteNode {list : List HashChunk} {k : Nat} {x : HashChunk}
    (h : x ∈ deleteNode list k) : x ∈ list := List.mem_of_mem_eraseIdx h

theorem Receivers.of_subset (h : d.Receivers) (hneed : d'.needlist ⊆ d.needlist)
    (hq : d'.getTosendQuene ⊆ d.getTosendQuene) (hs : d'.getSentList ⊆ d.getSentList)
    (hl : d'.downloadingList ⊆ d.downloadingList) : d'.Receivers := by
  refine ⟨fun x hx => h.receiving x (hl hx), fun x hx => h.waiting x ?_⟩
  simp only [List.mem_append] at hx ⊢
  rcases hx with hx | hx | hx
  · exact .inl (hneed hx)
  · exact .inr (.inl (hq hx))
  · exact .inr (.inr (hs hx))

theorem Receivers.fillHash (h : d.Receivers) (fromAddr : SockAddr) (findHash : Hash) :
    (fillHash fromAddr findHash d).Receivers := by
  have hqueue : ∀ (queue : List HashChunk) (id : Int), queue ⊆ d.getTosendQuene →
      ∀ x ∈ d.needlist ++ (appendNode queue (createNode fromAddr findHash id) ++ d.getSentList),
        x.recver = none := by
    intro queue id hsub x hx
    simp only [appendNode, List.mem_append, List.mem_cons] at hx
    rcases hx with hx | (rfl | hx) | hx
    · exact h.waiting x (by simp [hx])
    · rfl
    · exact h.waiting x (by simp [hsub hx])
    · exact h.waiting x (by simp [hx])
  unfold P2P.fillHash
  split
  · split
    · exact ⟨h.receiving, hqueue _ _ fun _ hx => hx⟩
    · split
      · exact ⟨h.receiving, hqueue _ _ fun _ hx => mem_deleteNode hx⟩
      · exact h
  · exact h

theorem Receivers.getSender (h : d.Receivers) {now : Int} {config : Config}
    (hnext : d.next config (.getSender now) = some d') : d'.Receivers := by
  rw [DownloadConn.next, Option.map_eq_some_iff] at hnext
  obtain ⟨r, hr, rfl⟩ := hnext
  rcases getSender_spec now d with hnone | ⟨j, x, hj, -, -, hone⟩
  · rw [hnone] at hr
    cases hr
    exact h
  · rw [hone] at hr
    cases hr
    refine ⟨h.receiving, fun y hy => ?_⟩
    simp only [appendNode, List.mem_append, List.mem_cons] at hy
    rcases hy with hy | hy | rfl | hy
    · exact h.waiting y (by simp [hy])
    · exact h.waiting y (by simp [mem_deleteNode hy])
    · exact h.waiting x (by simp [List.mem_of_getElem? hj])
    · exact h.waiting y (by simp [hy])

theorem Receivers.receiveOn (h : d.Receivers) {pack : Packet} {k : Nat}
    {r : DownloadConn × List Packet} (hr : receiveOn pack k d = some r) : r.1.Receivers := by
  unfold P2P.receiveOn at hr
  rw [Option.bind_eq_some_iff] at hr
  obtain ⟨conn, hconn, hr⟩ := hr
  rw [Option.bind_eq_some_iff] at hr
  obtain ⟨rev, hrev, hr⟩ := hr
  rw [Option.map_eq_some_iff] at hr
  obtain ⟨⟨rev', acks⟩, hrun, rfl⟩ := hr
  obtain ⟨rev₀, hrev₀, hinv, hhash⟩ := h.receiving conn (List.mem_of_getElem? hconn)
  rw [hrev, Option.some.injEq] at hrev₀
  subst hrev₀
  have hnext : rev.next pack = some rev' := by rw [RecvState.next, hrun]; rfl
  have hhash' : rev'.hash = conn.hash := by
    rcases RecvState.next_cases hinv hnext with ⟨-, rfl⟩ | ⟨-, hrec⟩
    · exact hhash
    · rw [hrec.hash, hhash]
  refine ⟨fun x hx => ?_, h.waiting⟩
  rcases List.mem_or_eq_of_mem_set hx with hx | rfl
  · exact h.receiving x hx
  · exact ⟨rev', rfl, RecvState.next_inv hinv hnext, hhash'⟩

theorem Receivers.data (h : d.Receivers) {pack : Packet} {addr : SockAddr} {now : Int}
    {r : DownloadConn × List Packet} (hr : dealwithData pack addr now d = some r) :
    r.1.Receivers := by
  unfold dealwithData at hr
  split at hr
  · rename_i k conn hconn
    have hset : Receivers { d with
        downloadingList := d.downloadingList.set k { conn with timestamp := now } } := by
      refine ⟨fun x hx => ?_, h.waiting⟩
      rcases List.mem_or_eq_of_mem_set hx with hx | rfl
      · exact h.receiving x hx
      · exact h.receiving conn (List.mem_of_getElem? (findNodeByAddr_spec hconn).1)
    exact hset.receiveOn hr
  · split at hr
    · rename_i k conn hconn
      have hinit : Receivers (initDownload now k conn d) := by
        refine ⟨fun x hx => ?_, fun x hx => h.waiting x ?_⟩
        · rcases List.mem_cons.mp hx with rfl | hx
          · exact ⟨_, rfl, RecvState.inv_createRecver _, rfl⟩
          · exact h.receiving x hx
        · simp only [initDownload, List.mem_append] at hx ⊢
          rcases hx with hx | hx | hx
          · exact .inl hx
          · exact .inr (.inl hx)
          · exact .inr (.inr (mem_deleteNode hx))
      exact hinit.receiveOn hr
    · cases hr
      exact h

theorem Receivers.finishOneDownload (h : d.Receivers) {k : Nat}
    (hf : finishOneDownload k d = some d') : d'.Receivers := by
  unfold P2P.finishOneDownload at hf
  rw [Option.bind_eq_some_iff] at hf
  obtain ⟨todel, -, hf⟩ := hf
  rw [Option.map_eq_some_iff] at hf
  obtain ⟨needlist, hneed, rfl⟩ := hf
  obtain ⟨j, x, -, -, -, rfl⟩ := deleteNodeByHash_spec hneed
  exact h.of_subset (fun _ hx => mem_deleteNode hx) (fun _ hx => hx) (fun _ hx => hx)
    fun _ hx => mem_deleteNode hx

theorem Receivers.recvTimeout (h : d.Receivers) {now : Int} {k : Nat} {r : DownloadConn × Int}
    (hr : checkRecvdataTimeout now k d = some r) : r.1.Receivers := by
  unfold checkRecvdataTimeout at hr
  rw [Option.map_eq_some_iff] at hr
  obtain ⟨curr, -, rfl⟩ := hr
  split
  · exact h.of_subset (fun _ hx => hx) (fun _ hx => hx) (fun _ hx => hx)
      fun _ hx => mem_deleteNode hx
  · exact h

/-! ## Events -/

theorem inv_of_empty (hneed : ∀ x ∈ d.needlist, x.recver = none) (hq : d.getTosendQuene = [])
    (hs : d.getSentList = []) (hl : d.downloadingList = []) :
    d.Inv ∧ d.keys = [] ∧ d.ports = [] := by
  have hkeys : d.keys = [] := by simp [keys, tracked, hq, hs, hl]
  have hports : d.ports = [] := by simp [ports, connections, hs, hl]
  refine ⟨⟨by rw [hkeys]; exact .nil, by rw [hports]; exact List.nodup_nil, ?_⟩, hkeys, hports⟩
  refine ⟨fun x hx => ?_, fun x hx => ?_⟩
  · rw [hl] at hx
    cases hx
  · rw [hq, hs, List.append_nil, List.append_nil] at hx
    exact hneed x hx

/-- What the IHave loop keeps is what one hash keeps. -/
theorem fillLoop_induct {P : DownloadConn → Prop} {pack : Packet} {addr : SockAddr}
    (hP : ∀ d hash, P d → P (fillHash addr hash d)) :
    ∀ {n count : Nat} {d d' : DownloadConn},
      P d → fillLoop pack addr n count d = some d' → P d' := by
  intro n
  induction n with
  | zero =>
    intro count d d' hd h
    cases h
    exact hd
  | succ n ih =>
    intro count d d' hd h
    rw [fillLoop, Option.bind_eq_some_iff] at h
    obtain ⟨hash, -, h⟩ := h
    exact ih (hP d hash hd) h

theorem Inv.lists_eq_nil (h : d.Inv) (hneed : d.needlist = []) :
    d.getTosendQuene = [] ∧ d.getSentList = [] ∧ d.downloadingList = [] := by
  have hkeys : d.keys = [] := by
    apply List.eq_nil_iff_forall_not_mem.mpr
    intro key hkey
    have := h.tracked.needed key hkey
    rw [hneed] at this
    cases this
  simpa [DownloadConn.keys, DownloadConn.tracked, and_assoc] using hkeys

theorem inv_completeMydownload (hneed : d.needlist = []) : (completeMydownload d).Inv :=
  (inv_of_empty (by simp [P2P.completeMydownload, hneed]) rfl rfl rfl).1

theorem Inv.of_effect (h : d.Inv) (heff : Effect d d') (hrecv : d'.Receivers) : d'.Inv :=
  ⟨heff.tracked h.tracked, heff.ports h.ports, hrecv⟩

theorem Inv.fillHash (h : d.Inv) (addr : SockAddr) (hash : Hash) : (fillHash addr hash d).Inv :=
  h.of_effect (effect_fillHash addr hash h.tracked) (h.receivers.fillHash addr hash)

/-- **Every event keeps the invariant of the lists.** -/
theorem Inv.next {config : Config} (h : d.Inv) {e : DownloadEvent}
    (hnext : d.next config e = some d') : d'.Inv := by
  cases e with
  | reset entries =>
    cases hnext
    refine (inv_of_empty (fun x hx => ?_) rfl rfl rfl).1
    rw [resetMydownload, parseHasneedList_eq, List.mem_reverse, List.mem_map] at hx
    obtain ⟨e, -, rfl⟩ := hx
    rfl
  | ihave pack addr => exact fillLoop_induct (fun d hash hd => hd.fillHash addr hash) h hnext
  | getSender now => exact h.of_effect (effect_getSender hnext) (h.receivers.getSender hnext)
  | checkTimeout now =>
    cases hnext
    refine h.of_effect (effect_checkTimeout now d) (h.receivers.of_subset ?_ ?_ ?_ ?_)
    · exact fun _ hx => hx
    · exact fun _ hx => hx
    · exact List.filter_subset_self _
    · exact fun _ hx => hx
  | data pack addr now =>
    rw [DownloadConn.next, Option.map_eq_some_iff] at hnext
    obtain ⟨r, hr, rfl⟩ := hnext
    exact h.of_effect (.moved (moved_data hr)) (h.receivers.data hr)
  | finish k =>
    rw [DownloadConn.next, finishDownload, Option.map_eq_some_iff] at hnext
    obtain ⟨d₁, hd₁, rfl⟩ := hnext
    have h₁ := h.of_effect (effect_finishOneDownload hd₁) (h.receivers.finishOneDownload hd₁)
    split
    · rename_i hneed
      exact inv_completeMydownload hneed
    · exact h₁
  | recvTimeout now k =>
    rw [DownloadConn.next, Option.map_eq_some_iff] at hnext
    obtain ⟨r, hr, rfl⟩ := hnext
    exact h.of_effect (effect_recvTimeout hr) (h.receivers.recvTimeout hr)

/-- The needlist changes at the start of a GET and at the end of a download only. -/
theorem needlist_next {config : Config} {e : DownloadEvent} (h : d.next config e = some d')
    (hr : ∀ entries, e ≠ .reset entries) (hf : ∀ k, e ≠ .finish k) : d'.needlist = d.needlist := by
  cases e with
  | reset entries => exact absurd rfl (hr entries)
  | finish k => exact absurd rfl (hf k)
  | ihave pack addr =>
    refine fillLoop_induct (P := fun d' => d'.needlist = d.needlist) (fun d₁ hash hd => ?_) rfl h
    unfold P2P.fillHash
    split
    · split
      · exact hd
      · split <;> exact hd
    · exact hd
  | getSender now =>
    obtain ⟨r, hr, rfl⟩ := Option.map_eq_some_iff.mp h
    rcases getSender_spec now d with hnone | ⟨j, x, -, -, -, hone⟩
    · rw [hnone] at hr
      cases hr
      rfl
    · rw [hone] at hr
      cases hr
      rfl
  | checkTimeout now =>
    cases h
    rfl
  | data pack addr now =>
    obtain ⟨r, hr, rfl⟩ := Option.map_eq_some_iff.mp h
    exact (moved_data hr).needlist
  | recvTimeout now k =>
    obtain ⟨r, hr, rfl⟩ := Option.map_eq_some_iff.mp h
    obtain ⟨curr, -, rfl⟩ := Option.map_eq_some_iff.mp hr
    split <;> rfl

/-- **Every event keeps the counters.** -/
theorem Counted.next {config : Config} (hconn : 0 ≤ config.maxConn) (h : d.Inv) (hc : d.Counted)
    (hcap : d.Capacity config) {e : DownloadEvent} (hnext : d.next config e = some d') :
    d'.Counted ∧ d'.Capacity config := by
  have of_effect : ∀ {d'}, Effect d d' → d'.Counted ∧ d'.Capacity config :=
    fun heff => ⟨heff.counted hc, heff.capacity hcap⟩
  cases e with
  | reset entries =>
    cases hnext
    exact ⟨⟨rfl, hconn, by simp [resetMydownload, keys, tracked]⟩, .inl rfl⟩
  | ihave pack addr =>
    have hloop := fillLoop_induct
      (P := fun d => d.Inv ∧ d.Counted ∧ d.Capacity config)
      (fun d hash hd => ⟨hd.1.fillHash addr hash,
        (effect_fillHash addr hash hd.1.tracked).counted hd.2.1,
        (effect_fillHash addr hash hd.1.tracked).capacity hd.2.2⟩) ⟨h, hc, hcap⟩ hnext
    exact hloop.2
  | getSender now => exact of_effect (effect_getSender hnext)
  | checkTimeout now =>
    cases hnext
    exact of_effect (effect_checkTimeout now d)
  | data pack addr now =>
    rw [DownloadConn.next, Option.map_eq_some_iff] at hnext
    obtain ⟨r, hr, rfl⟩ := hnext
    exact of_effect (.moved (moved_data hr))
  | finish k =>
    rw [DownloadConn.next, finishDownload, Option.map_eq_some_iff] at hnext
    obtain ⟨d₁, hd₁, rfl⟩ := hnext
    have heff := effect_finishOneDownload hd₁
    have h₁ := h.of_effect heff (h.receivers.finishOneDownload hd₁)
    have hc₁ := heff.counted hc
    split
    · rename_i hneed
      -- nothing is needed, so nothing is in work and the counters are zero already
      obtain ⟨hq, hs, hl⟩ := h₁.lists_eq_nil hneed
      have hkeys : d₁.keys.length = 0 := by simp [keys, tracked, hq, hs, hl]
      have hports : d₁.ports.length = 0 := by simp [ports, connections, hs, hl]
      have hconcurr := hc₁.concurr
      have hfound := hc₁.found
      refine ⟨⟨?_, ?_, ?_⟩, .inr ⟨rfl, hneed⟩⟩
      · simp only [completeMydownload, ports, connections, List.append_nil, List.map_nil,
          List.length_nil]
        omega
      · simp only [completeMydownload]
        omega
      · simp only [completeMydownload, keys, tracked, List.append_nil, List.map_nil,
          List.length_nil]
        omega
    · exact ⟨hc₁, heff.capacity hcap⟩
  | recvTimeout now k =>
    rw [DownloadConn.next, Option.map_eq_some_iff] at hnext
    obtain ⟨r, hr, rfl⟩ := hnext
    exact of_effect (effect_recvTimeout hr)

end DownloadConn

end P2P
