import P2P.Peer.DownloadInv

/-!
# Runs of the download side

What `DownloadInv` says of one event, for whole runs from the start of the peer:
`download_lists_wellFormed` for the lists, `download_counters` for the counters.
`exists_next_of_enabled`: in every state reached, no enabled event makes the code follow a
pointer it must not follow.
-/

namespace P2P

open Lib

namespace DownloadConn

variable {config : Config} {d : DownloadConn} {e : DownloadEvent} {es : List DownloadEvent}

theorem inv_init (config : Config) : (initDownloadConn config).Inv :=
  (inv_of_empty (fun _ hx => absurd hx List.not_mem_nil) rfl rfl rfl).1

theorem exec_inv (h : exec (next config) (initDownloadConn config) es = some d) : d.Inv :=
  exec_invariant Inv (fun _ _ _ hd hnext => hd.next hnext) (inv_init config) h

theorem exec_counted (hconn : 0 ≤ config.maxConn)
    (h : exec (next config) (initDownloadConn config) es = some d) :
    d.Counted ∧ d.Capacity config := by
  have hstart : (initDownloadConn config).Counted := ⟨rfl, hconn, rfl⟩
  refine (exec_invariant (fun d => d.Inv ∧ d.Counted ∧ d.Capacity config) ?_
    ⟨inv_init config, hstart, .inl rfl⟩ h).2
  rintro s e t ⟨hs, hc, hcap⟩ hnext
  exact ⟨hs.next hnext, Counted.next hconn hs hc hcap hnext⟩

/-! ## No event is a fault -/

/-- The event may happen: the connection is there, the packet well formed. -/
def Enabled (d : DownloadConn) : DownloadEvent → Prop
  | .ihave pack _ => pack.chunkhashNum.toNat * hashSize ≤ pack.payload.length
  | .finish k => k < d.downloadingList.length
  | .recvTimeout _ k => k < d.downloadingList.length
  | _ => True

theorem exists_payloadHash {pack : Packet} {count : Nat}
    (h : (count + 1) * hashSize ≤ pack.payload.length) :
    ∃ hash, payloadHash pack count = some hash := by
  unfold payloadHash Hash.ofBytes
  rw [dif_pos]
  · exact ⟨_, rfl⟩
  · rw [List.length_drop]
    rw [Nat.succ_mul] at h
    omega

theorem exists_fillLoop {pack : Packet} (addr : SockAddr) :
    ∀ (n count : Nat) (d : DownloadConn), (count + n) * hashSize ≤ pack.payload.length →
      ∃ d', fillLoop pack addr n count d = some d' := by
  intro n
  induction n with
  | zero => intro count d _; exact ⟨d, rfl⟩
  | succ n ih =>
    intro count d h
    have hle : (count + 1) * hashSize ≤ pack.payload.length :=
      (Nat.mul_le_mul_right _ (by omega)).trans h
    obtain ⟨hash, hhash⟩ := exists_payloadHash hle
    rw [fillLoop, hhash, Option.bind_some]
    exact ih (count + 1) _ (by rwa [show count + 1 + n = count + (n + 1) by omega])

theorem exists_receiveOn {k : Nat} {conn : HashChunk} {r : RecvState} (pack : Packet)
    (hconn : d.downloadingList[k]? = some conn) (hr : conn.recver = some r) (hinv : r.Inv) :
    ∃ res, receiveOn pack k d = some res := by
  rw [receiveOn, hconn, Option.bind_some, hr, Option.bind_some]
  rcases uponReceivingDatapack_spec hinv pack rfl with ⟨-, hres⟩ | ⟨-, r', -, hres⟩
  · rw [hres]
    exact ⟨_, rfl⟩
  · rw [hres]
    exact ⟨_, rfl⟩

theorem exists_data (h : d.Inv) (pack : Packet) (addr : SockAddr) (now : Int) :
    ∃ res, dealwithData pack addr now d = some res := by
  unfold dealwithData
  split
  · rename_i k conn hconn
    have hk := (findNodeByAddr_spec hconn).1
    obtain ⟨r, hr, hinv, -⟩ := h.receivers.receiving conn (List.mem_of_getElem? hk)
    have hlen : k < d.downloadingList.length := (List.getElem?_eq_some_iff.mp hk).1
    exact exists_receiveOn pack (List.getElem?_set_self hlen) hr hinv
  · split
    · exact exists_receiveOn pack rfl rfl (RecvState.inv_createRecver _)
    · exact ⟨_, rfl⟩

/-- **`finish_one_download` finds the chunk in the needlist.** -/
theorem Inv.exists_finish (h : d.Inv) {k : Nat} (hk : k < d.downloadingList.length) :
    ∃ d', finishOneDownload k d = some d' := by
  have hget := List.getElem?_eq_getElem hk
  have hkey : d.downloadingList[k].key ∈ d.keys := by
    apply List.mem_map_of_mem
    exact List.mem_append_right _ (List.mem_of_getElem? hget)
  have hneed := h.tracked.needed _ hkey
  rw [Option.map_eq_some_iff] at hneed
  obtain ⟨entry, hentry, -⟩ := hneed
  obtain ⟨hmem, hhash⟩ := firstEntry_hash hentry
  obtain ⟨j, x, hj⟩ := exists_findNode (List.mem_map.mpr ⟨entry, hmem, hhash⟩)
  rw [finishOneDownload, hget, Option.bind_some, deleteNodeByHash]
  rw [show findNode d.needlist d.downloadingList[k].hash = some (j, x) from hj]
  exact ⟨_, rfl⟩

theorem exists_next_of_enabled (h : d.Inv) (he : d.Enabled e) :
    ∃ d', d.next config e = some d' := by
  cases e with
  | reset entries => exact ⟨_, rfl⟩
  | ihave pack addr =>
    exact exists_fillLoop addr _ 0 d (by rw [Nat.zero_add]; exact he)
  | getSender now =>
    rw [next]
    rcases getSender_spec now d with hnone | ⟨j, x, -, -, -, hone⟩
    · rw [hnone]
      exact ⟨_, rfl⟩
    · rw [hone]
      exact ⟨_, rfl⟩
  | checkTimeout now => exact ⟨_, rfl⟩
  | data pack addr now =>
    obtain ⟨res, hres⟩ := exists_data h pack addr now
    rw [next, hres]
    exact ⟨_, rfl⟩
  | finish k =>
    obtain ⟨d', hd'⟩ := h.exists_finish he
    rw [next, finishDownload, hd']
    exact ⟨_, rfl⟩
  | recvTimeout now k =>
    have hk : k < d.downloadingList.length := he
    rw [next, checkRecvdataTimeout, List.getElem?_eq_getElem hk]
    exact ⟨_, rfl⟩

/-! ## The lists -/

/-- What the four lists look like in every state. -/
structure WellFormed (d : DownloadConn) : Prop where
  hashes : ((d.getTosendQuene ++ d.getSentList ++ d.downloadingList).map HashChunk.hash).Nodup
  needed : ∀ x ∈ d.getTosendQuene ++ d.getSentList ++ d.downloadingList,
    ∃ entry, firstEntry d.needlist x.hash = some entry ∧ x.chunkid = entry.chunkid
  peers : ((d.getSentList ++ d.downloadingList).map HashChunk.fromAddr).Nodup
  receivers : ∀ x ∈ d.downloadingList, x.recver.isSome
  noOther : ∀ x ∈ d.needlist ++ (d.getTosendQuene ++ d.getSentList), x.recver = none
  finishes : ∀ k < d.downloadingList.length, ∃ d', finishOneDownload k d = some d'

theorem Inv.wellFormed (h : d.Inv) : d.WellFormed := by
  refine ⟨?_, fun x hx => ?_, ?_, fun x hx => ?_, h.receivers.waiting,
    fun k hk => h.exists_finish hk⟩
  · have := h.tracked.nodup
    rw [keys, List.map_map] at this
    exact this
  · have := h.tracked.needed x.key (List.mem_map_of_mem hx)
    rw [Option.map_eq_some_iff] at this
    obtain ⟨entry, hentry, hid⟩ := this
    exact ⟨entry, hentry, hid.symm⟩
  · -- peers with different ports are different
    have hports : (((d.getSentList ++ d.downloadingList).map HashChunk.fromAddr).map
        SockAddr.sinPort).Nodup := by
      rw [List.map_map]
      exact h.ports
    exact hports.of_map _
  · obtain ⟨r, hr, -⟩ := h.receivers.receiving x hx
    rw [hr]
    rfl

end DownloadConn

/-- **Download-list structure.** In every state reached from the start, whatever the user, the
network and the clock do. -/
theorem download_lists_wellFormed {config : Config} {es : List DownloadEvent} {d : DownloadConn}
    (h : exec (DownloadConn.next config) (initDownloadConn config) es = some d) : d.WellFormed :=
  (DownloadConn.exec_inv h).wellFormed

/-- An IHave packet that offers these hashes. -/
def ihavePack (hashes : List Hash) : Packet :=
  { Packet.zero with
    packetType := 1
    chunkhashNum := UInt8.ofNat hashes.length
    payload := hashes.flatMap Vector.toList }

/-- Three chunks, one of them listed twice, are found at one peer. The first is downloaded, the GET
for the second times out, and the third is asked for. -/
theorem download_lists_after_timeout :
    ∃ d, exec (DownloadConn.next ⟨4, ⟨0, 1⟩⟩) (initDownloadConn ⟨4, ⟨0, 1⟩⟩)
        [.reset [(0, Vector.replicate hashSize 5), (1, Vector.replicate hashSize 6),
          (2, Vector.replicate hashSize 5), (3, Vector.replicate hashSize 7)],
        .ihave (ihavePack [Vector.replicate hashSize 5, Vector.replicate hashSize 6,
          Vector.replicate hashSize 7]) ⟨0, 2⟩,
        .getSender 10, .data (formDataPack [1] 1 1) ⟨0, 2⟩ 11, .finish 0, .getSender 12,
        .checkTimeout 40, .getSender 41] = some d ∧
      d.needlist.length = 3 ∧ d.getSentList.length = 1 ∧ d.WellFormed := by
  have hrun : ((exec (DownloadConn.next ⟨4, ⟨0, 1⟩⟩) (initDownloadConn ⟨4, ⟨0, 1⟩⟩)
      [.reset [(0, Vector.replicate hashSize 5), (1, Vector.replicate hashSize 6),
        (2, Vector.replicate hashSize 5), (3, Vector.replicate hashSize 7)],
      .ihave (ihavePack [Vector.replicate hashSize 5, Vector.replicate hashSize 6,
        Vector.replicate hashSize 7]) ⟨0, 2⟩,
      .getSender 10, .data (formDataPack [1] 1 1) ⟨0, 2⟩ 11, .finish 0, .getSender 12,
      .checkTimeout 40, .getSender 41]).map fun d =>
        (d.needlist.length, d.getSentList.length)) = some (3, 1) := by
    decide
  rw [Option.map_eq_some_iff] at hrun
  obtain ⟨d, hd, hlen⟩ := hrun
  rw [Prod.mk.injEq] at hlen
  exact ⟨d, hd, hlen.1, hlen.2, download_lists_wellFormed hd⟩

/-! ## The counters -/

/-- **Download counters never drift**, and a chunk that is needed is asked for: with nothing queued
and no connection, not all chunks are found, and a peer that may have connections broadcasts
WhoHas. -/
theorem download_counters {config : Config} (hconn : 0 ≤ config.maxConn)
    {es : List DownloadEvent} {d : DownloadConn}
    (h : exec (DownloadConn.next config) (initDownloadConn config) es = some d) :
    d.concurrDownloadNum = d.getSentList.length + d.downloadingList.length ∧
    0 ≤ d.concurrDownloadNum ∧ d.concurrDownloadNum ≤ d.maxDownloadNum ∧
    d.howmanyFound = d.getTosendQuene.length + d.getSentList.length + d.downloadingList.length +
      (d.howmanyNeed - d.needlist.length) ∧
    (d.concurrDownloadNum = 0 → d.getTosendQuene = [] → d.needlist ≠ [] →
      d.howmanyFound < d.howmanyNeed ∧
      (0 < config.maxConn → ∀ now,
        getSender now d = some (d, 0, []) ∧ d.Rebroadcasts 0)) := by
  obtain ⟨hc, hcap⟩ := DownloadConn.exec_counted hconn h
  have hconcurr := hc.concurr
  have hle := hc.le_max
  have hfound := hc.found
  simp only [DownloadConn.ports, DownloadConn.connections, DownloadConn.keys, DownloadConn.tracked,
    List.length_map, List.length_append] at hconcurr hfound
  push_cast at hconcurr hfound
  refine ⟨hconcurr, by omega, hle, by omega, fun hzero hqueue hneed => ?_⟩
  have hpos : 0 < d.needlist.length := List.length_pos_of_ne_nil hneed
  have hlt : d.howmanyFound < d.howmanyNeed := by
    rw [hqueue, List.length_nil] at hfound
    omega
  refine ⟨hlt, fun hmax now => ⟨?_, rfl, hlt, ?_, hzero⟩⟩
  · rcases DownloadConn.getSender_spec now d with hnone | ⟨j, x, hj, -⟩
    · exact hnone
    · rw [hqueue] at hj
      cases hj
  · rcases hcap with hcap | ⟨-, hnil⟩
    · omega
    · exact absurd hnil hneed

/-- A chunk is needed, nothing is known of it and the peer may have four connections. -/
theorem download_counters_after_get :
    ∃ d, exec (DownloadConn.next ⟨4, ⟨0, 1⟩⟩) (initDownloadConn ⟨4, ⟨0, 1⟩⟩)
        [.reset [(0, Vector.replicate hashSize 5)]] = some d ∧ d.Rebroadcasts 0 := by
  refine ⟨_, rfl, ?_⟩
  obtain ⟨-, -, -, -, hask⟩ := @download_counters ⟨4, ⟨0, 1⟩⟩ (by decide)
    [.reset [(0, Vector.replicate hashSize 5)]] _ rfl
  obtain ⟨-, hask⟩ := hask rfl rfl (by decide)
  exact (hask (by decide) 0).2

/-- A peer that may have no connection needs a chunk and does not ask for it. -/
theorem no_rebroadcast_without_connections :
    ∃ d, exec (DownloadConn.next ⟨0, ⟨0, 1⟩⟩) (initDownloadConn ⟨0, ⟨0, 1⟩⟩)
        [.reset [(0, Vector.replicate hashSize 5)]] = some d ∧
      d.concurrDownloadNum = 0 ∧ d.getTosendQuene = [] ∧ d.needlist ≠ [] ∧
      ¬ d.Rebroadcasts 0 := by
  refine ⟨_, rfl, rfl, rfl, by decide, ?_⟩
  rintro ⟨-, -, hmax, -⟩
  exact absurd hmax (by decide)

end P2P
